import ManPage.Proofs.Render.Children

/-! # Visited nodes

Not every node of a tree is converted: a list has its items alone, an item of a list its paragraphs
alone, and nothing below a header or below an item outside a list has any part in the page. The nodes
that are visited, and the ordered lists among them, are listed by their paths from the root, in pre-order.
-/
namespace ManPage

/-- The way down to a node: which child to take at each node. -/
abbrev Path := List Nat

/-- Which of the children of a visited node are visited. -/
inductive Rule
  | all | items | paragraphs
deriving DecidableEq, Repr, Inhabited

namespace Rule

def admits : Rule → Node → Prop
  | all, _ => True
  | items, n => n.IsItem
  | paragraphs, n => n.IsParagraph

/-- The rule for the children of a node that is visited by a rule. -/
def below : Rule → Node → Option Rule
  | all, .bulletList _ | all, .orderedList _ => some items
  | all, .blockQuote _ | all, .paragraph _ | all, .emphasis _ | all, .strong _ | all, .link _ _ =>
    some all
  | items, .listItem _ => some paragraphs
  | paragraphs, .paragraph _ => some all
  | _, _ => none

end Rule

/-- From a node that is met under the rule the path leads through visited nodes to a visited node. -/
inductive Visits : Rule → Node → Path → Node → Prop
  | here {rule : Rule} {n : Node} (h : rule.admits n) : Visits rule n [] n
  | down {rule next : Rule} {n c m : Node} {i : Nat} {p : Path} (h : rule.below n = some next)
    (hc : n.children[i]? = some c) (hm : Visits next c p m) : Visits rule n (i :: p) m

theorem admits_of_below {rule next : Rule} {n : Node} (h : rule.below n = some next) :
    rule.admits n := by
  cases rule <;> cases n <;> cases h <;> first | exact trivial | exact ⟨_, rfl⟩

/-! ## The visited nodes -/

mutual

/-- The nodes that are visited from a node under the rule, each with its path, in pre-order. -/
def visited : Rule → Node → List (Path × Node)
  | .all, n@(.bulletList children) | .all, n@(.orderedList children) =>
    ([], n) :: visitedBelow .items 0 children
  | .all, n@(.blockQuote children) | .all, n@(.paragraph children) | .all, n@(.emphasis children)
  | .all, n@(.strong children) | .all, n@(.link _ children) =>
    ([], n) :: visitedBelow .all 0 children
  | .items, n@(.listItem children) => ([], n) :: visitedBelow .paragraphs 0 children
  | .paragraphs, n@(.paragraph children) => ([], n) :: visitedBelow .all 0 children
  | .all, n => [([], n)]
  | _, _ => []

/-- The nodes that are visited from the nodes, the first of which is the child with the index `i`. -/
def visitedBelow (rule : Rule) (i : Nat) : List Node → List (Path × Node)
  | [] => []
  | n :: ns => (visited rule n).map (fun v => (i :: v.1, v.2)) ++ visitedBelow rule (i + 1) ns

end

theorem visited_of_below {rule next : Rule} {n : Node} (h : rule.below n = some next) :
    visited rule n = ([], n) :: visitedBelow next 0 n.children := by
  cases rule <;> cases n <;> cases h <;> rfl

theorem visited_of_below_none {rule : Rule} {n : Node} (h : rule.below n = none) :
    visited rule n = [([], n)] ∧ rule.admits n ∨ visited rule n = [] ∧ ¬ rule.admits n := by
  cases rule with
  | all => cases n <;> first | contradiction | exact Or.inl ⟨rfl, trivial⟩
  | items =>
    refine Or.inr ⟨?_, ?_⟩
    · cases n <;> first | contradiction | rfl
    · rintro ⟨_, rfl⟩
      contradiction
  | paragraphs =>
    refine Or.inr ⟨?_, ?_⟩
    · cases n <;> first | contradiction | rfl
    · rintro ⟨_, rfl⟩
      contradiction

/-- The property holds of every node that is visited from the node under the rule. -/
def EachVisited (Q : Node → Prop) (rule : Rule) (n : Node) : Prop := ∀ v ∈ visited rule n, Q v.2

theorem forall_visitedBelow {Q : Node → Prop} {rule : Rule} {i : Nat} {ns : List Node} :
    (∀ v ∈ visitedBelow rule i ns, Q v.2) ↔ ∀ n ∈ ns, EachVisited Q rule n := by
  induction ns generalizing i with
  | nil => simp [visitedBelow]
  | cons n ns ih =>
    rw [visitedBelow, List.forall_mem_append, List.forall_mem_map, ih, List.forall_mem_cons]
    rfl

theorem eachVisited_of_below {Q : Node → Prop} {rule next : Rule} {n : Node}
    (h : rule.below n = some next) :
    EachVisited Q rule n ↔ Q n ∧ ∀ c ∈ n.children, EachVisited Q next c := by
  rw [EachVisited, visited_of_below h, List.forall_mem_cons, forall_visitedBelow]

/-- Where all nodes are visited, the node itself is. -/
theorem EachVisited.self {Q : Node → Prop} {n : Node} (h : EachVisited Q .all n) : Q n := by
  cases hbelow : Rule.below .all n with
  | some next => exact ((eachVisited_of_below hbelow).mp h).1
  | none =>
    rcases visited_of_below_none hbelow with ⟨hvisited, -⟩ | ⟨-, hnot⟩
    · rw [EachVisited, hvisited] at h
      exact h _ List.mem_cons_self
    · exact absurd trivial hnot

theorem EachVisited.children {Q : Node → Prop} {rule next : Rule} {n : Node}
    (h : EachVisited Q rule n) (hbelow : rule.below n = some next) :
    ∀ c ∈ n.children, EachVisited Q next c :=
  ((eachVisited_of_below hbelow).mp h).2

/-- A path through one of the nodes, the first of which is the child with the index `i`: it leads through
the first one or through one behind it. -/
theorem exists_child_cons {n : Node} {ns : List Node} {i : Nat} {p : Path}
    {P : Nat → Node → Path → Prop} :
    (∃ j m, (n :: ns)[j]? = some m ∧ ∃ q, p = (i + j) :: q ∧ P (i + j) m q) ↔
      (∃ q, p = i :: q ∧ P i n q) ∨
        ∃ j m, ns[j]? = some m ∧ ∃ q, p = (i + 1 + j) :: q ∧ P (i + 1 + j) m q := by
  have hnext (j : Nat) : i + (j + 1) = i + 1 + j := by omega
  constructor
  · rintro ⟨j, m, hm, q, hp, h⟩
    cases j with
    | zero =>
      cases hm
      exact Or.inl ⟨q, hp, h⟩
    | succ j =>
      rw [hnext] at hp h
      exact Or.inr ⟨j, m, hm, q, hp, h⟩
  · rintro (⟨q, hp, h⟩ | ⟨j, m, hm, q, hp, h⟩)
    · exact ⟨0, n, rfl, q, hp, h⟩
    · rw [← hnext] at hp h
      exact ⟨j + 1, m, hm, q, hp, h⟩

/-- What is in the list of a node is in that of its parent behind the index of the node. -/
theorem mem_map_child {α : Type} {i : Nat} {vs : List (Path × α)} {p : Path} {a : α} :
    (p, a) ∈ vs.map (fun v => (i :: v.1, v.2)) ↔ ∃ q, p = i :: q ∧ (q, a) ∈ vs := by
  rw [List.mem_map]
  constructor
  · rintro ⟨v, hv, heq⟩
    obtain ⟨rfl, rfl⟩ := Prod.mk.inj heq
    exact ⟨v.1, rfl, hv⟩
  · rintro ⟨q, rfl, hq⟩
    exact ⟨(q, a), hq, rfl⟩

theorem mem_visitedBelow {rule : Rule} {ns : List Node}
    (h : ∀ n ∈ ns, ∀ p m, (p, m) ∈ visited rule n ↔ Visits rule n p m) (i : Nat) (p : Path)
    (m : Node) : (p, m) ∈ visitedBelow rule i ns ↔
      ∃ j n q, ns[j]? = some n ∧ p = (i + j) :: q ∧ Visits rule n q m := by
  induction ns generalizing i with
  | nil => simp [visitedBelow]
  | cons n ns ih =>
    rw [List.forall_mem_cons] at h
    rw [visitedBelow, List.mem_append, mem_map_child, ih h.2]
    simp only [h.1, exists_and_left]
    exact (exists_child_cons (P := fun _ c q => Visits rule c q m)).symm

theorem mem_visited (rule : Rule) (n : Node) (p : Path) (m : Node) :
    (p, m) ∈ visited rule n ↔ Visits rule n p m := by
  induction n using Node.induct generalizing rule p m with
  | h n ih =>
    cases hbelow : rule.below n with
    | none =>
      constructor
      · intro hmem
        rcases visited_of_below_none hbelow with ⟨hvisited, hadmits⟩ | ⟨hvisited, -⟩
        · rw [hvisited, List.mem_singleton] at hmem
          obtain ⟨rfl, rfl⟩ := Prod.mk.inj hmem
          exact .here hadmits
        · rw [hvisited] at hmem
          contradiction
      · intro hv
        cases hv with
        | here hadmits =>
          rcases visited_of_below_none hbelow with ⟨hvisited, -⟩ | ⟨-, hnot⟩
          · rw [hvisited]
            exact List.mem_cons_self
          · exact absurd hadmits hnot
        | down h hc hm =>
          rw [hbelow] at h
          contradiction
    | some next =>
      have hchildren := mem_visitedBelow (fun c hc p m => ih c hc next p m) 0 p m
      rw [visited_of_below hbelow, List.mem_cons, hchildren]
      constructor
      · rintro (heq | ⟨j, c, q, hc, rfl, hv⟩)
        · obtain ⟨rfl, rfl⟩ := Prod.mk.inj heq
          exact .here (admits_of_below hbelow)
        · rw [Nat.zero_add]
          exact .down hbelow hc hv
      · intro hv
        cases hv with
        | here hadmits => exact Or.inl rfl
        | @down _ _ _ c _ i q h hc hm =>
          rw [hbelow] at h
          cases h
          exact Or.inr ⟨i, c, q, hc, by rw [Nat.zero_add], hm⟩

/-- The paths through one child come before those through the children behind it. -/
theorem pairwise_paths {ps qs : List Path} {i : Nat} (hps : ps.Pairwise (· < ·))
    (hqs : qs.Pairwise (· < ·)) (hbehind : ∀ q ∈ qs, ∃ j r, q = j :: r ∧ i + 1 ≤ j) :
    (ps.map (i :: ·) ++ qs).Pairwise (· < ·) := by
  rw [List.pairwise_append]
  refine ⟨?_, hqs, ?_⟩
  · rw [List.pairwise_map]
    exact hps.imp fun hpq => List.cons_lt_cons_iff.mpr (Or.inr ⟨rfl, hpq⟩)
  · intro p hp q hq
    obtain ⟨p, -, rfl⟩ := List.mem_map.mp hp
    obtain ⟨j, q, rfl, hj⟩ := hbehind q hq
    exact List.cons_lt_cons_iff.mpr (Or.inl hj)

theorem le_of_mem_visitedBelow {rule : Rule} {ns : List Node} {i : Nat} {p : Path}
    (h : p ∈ (visitedBelow rule i ns).map Prod.fst) : ∃ j q, p = j :: q ∧ i ≤ j := by
  obtain ⟨⟨p, m⟩, hmem, rfl⟩ := List.mem_map.mp h
  have hvisits := mem_visitedBelow (fun n (_ : n ∈ ns) => mem_visited rule n) i p m
  obtain ⟨j, n, q, -, rfl, -⟩ := hvisits.mp hmem
  exact ⟨i + j, q, rfl, Nat.le_add_right i j⟩

theorem pairwise_visitedBelow {rule : Rule} {ns : List Node}
    (h : ∀ n ∈ ns, ((visited rule n).map Prod.fst).Pairwise (· < ·)) (i : Nat) :
    ((visitedBelow rule i ns).map Prod.fst).Pairwise (· < ·) := by
  induction ns generalizing i with
  | nil => exact .nil
  | cons n ns ih =>
    rw [List.forall_mem_cons] at h
    have hpaths := pairwise_paths h.1 (ih h.2 (i + 1)) fun _ => le_of_mem_visitedBelow
    rw [List.map_map] at hpaths
    rw [visitedBelow, List.map_append, List.map_map]
    exact hpaths

/-- A node comes before the nodes below it, and these come in the order of the children. -/
theorem pairwise_visited (rule : Rule) (n : Node) :
    ((visited rule n).map Prod.fst).Pairwise (· < ·) := by
  induction n using Node.induct generalizing rule with
  | h n ih =>
    cases hbelow : rule.below n with
    | none =>
      rcases visited_of_below_none hbelow with ⟨hvisited, -⟩ | ⟨hvisited, -⟩
      · rw [hvisited]
        exact List.pairwise_singleton _ _
      · rw [hvisited]
        exact .nil
    | some next =>
      have hchildren := pairwise_visitedBelow (fun c hc => ih c hc next) 0
      rw [visited_of_below hbelow]
      refine List.pairwise_cons.mpr ⟨?_, hchildren⟩
      intro p hp
      obtain ⟨j, q, rfl, -⟩ := le_of_mem_visitedBelow hp
      exact List.nil_lt_cons j q

namespace Document
variable (d : Document)

/-- The path leads from the document through visited nodes to a visited node. -/
def Visits (p : Path) (n : Node) : Prop :=
  ∃ i block q, d.blocks[i]? = some block ∧ p = i :: q ∧ ManPage.Visits .all block q n

def visited : List (Path × Node) := visitedBelow .all 0 d.blocks

theorem mem_visited (p : Path) (n : Node) : (p, n) ∈ d.visited ↔ d.Visits p n := by
  have hmem := mem_visitedBelow (fun n (_ : n ∈ d.blocks) => ManPage.mem_visited .all n) 0 p n
  simp only [Nat.zero_add] at hmem
  exact hmem

theorem pairwise_visited : (d.visited.map Prod.fst).Pairwise (· < ·) :=
  pairwise_visitedBelow (fun n _ => ManPage.pairwise_visited .all n) 0

end Document

/-! ## The visited lists -/

mutual

/-- The paths of the ordered lists that are visited from a node under the rule, in pre-order. -/
def lists : Rule → Node → List Path
  | .all, .orderedList children => [] :: listsBelow .items 0 children
  | .all, .bulletList children => listsBelow .items 0 children
  | .all, .blockQuote children | .all, .paragraph children | .all, .emphasis children
  | .all, .strong children | .all, .link _ children => listsBelow .all 0 children
  | .items, .listItem children => listsBelow .paragraphs 0 children
  | .paragraphs, .paragraph children => listsBelow .all 0 children
  | _, _ => []

/-- The lists that are visited from the nodes, the first of which is the child with the index `i`. -/
def listsBelow (rule : Rule) (i : Nat) : List Node → List Path
  | [] => []
  | n :: ns => (lists rule n).map (i :: ·) ++ listsBelow rule (i + 1) ns

end

/-- What is listed from a node: itself if it is an ordered list, and what is listed below it. -/
theorem lists_of_below {rule next : Rule} {n : Node} (h : rule.below n = some next) :
    ∃ own, lists rule n = own ++ listsBelow next 0 n.children ∧
      (own = [[]] ∧ rule = .all ∧ (∃ children, n = .orderedList children) ∨
        own = [] ∧ ∀ children, n ≠ .orderedList children) := by
  cases rule <;> cases n <;> cases h <;>
    first
    | exact ⟨[[]], rfl, Or.inl ⟨rfl, rfl, _, rfl⟩⟩
    | exact ⟨[], rfl, Or.inr ⟨rfl, nofun⟩⟩

theorem lists_items_of_ne {n : Node} (h : ¬ n.IsItem) : lists .items n = [] := by
  cases n <;> first | rfl | exact absurd ⟨_, rfl⟩ h

theorem lists_paragraphs_of_ne {n : Node} (h : ¬ n.IsParagraph) : lists .paragraphs n = [] := by
  cases n <;> first | rfl | exact absurd ⟨_, rfl⟩ h

theorem mem_listsBelow {rule : Rule} {ns : List Node}
    (h : ∀ n ∈ ns, ∀ p, p ∈ lists rule n ↔ ∃ children, Visits rule n p (.orderedList children))
    (i : Nat) (p : Path) : p ∈ listsBelow rule i ns ↔ ∃ j n q children,
      ns[j]? = some n ∧ p = (i + j) :: q ∧ Visits rule n q (.orderedList children) := by
  induction ns generalizing i with
  | nil => simp [listsBelow]
  | cons n ns ih =>
    rw [List.forall_mem_cons] at h
    have hfirst : p ∈ (lists rule n).map (i :: ·) ↔
        ∃ q, p = i :: q ∧ ∃ children, Visits rule n q (.orderedList children) := by
      simp only [List.mem_map, h.1, eq_comm, and_comm]
    rw [listsBelow, List.mem_append, hfirst, ih h.2]
    simp only [exists_and_left]
    exact (exists_child_cons
      (P := fun _ c q => ∃ children, Visits rule c q (.orderedList children))).symm

/-- The ordered lists among nodes. -/
def ordered (vs : List (Path × Node)) : List (Path × Node) :=
  vs.filter fun v => v.2.kind == .orderedList

theorem ordered_append (vs ws : List (Path × Node)) : ordered (vs ++ ws) = ordered vs ++ ordered ws :=
  List.filter_append vs ws

theorem ordered_child (i : Nat) (vs : List (Path × Node)) :
    ordered (vs.map fun v => (i :: v.1, v.2)) = (ordered vs).map fun v => (i :: v.1, v.2) :=
  List.filter_map

theorem listsBelow_eq {rule : Rule} {ns : List Node}
    (h : ∀ n ∈ ns, lists rule n = (ordered (visited rule n)).map Prod.fst) (i : Nat) :
    listsBelow rule i ns = (ordered (visitedBelow rule i ns)).map Prod.fst := by
  induction ns generalizing i with
  | nil => rfl
  | cons n ns ih =>
    rw [List.forall_mem_cons] at h
    rw [listsBelow, visitedBelow, ordered_append, ordered_child, List.map_append, h.1, ih h.2,
      List.map_map, List.map_map]
    rfl

/-- What is listed are the ordered lists among the visited nodes. -/
theorem lists_eq (rule : Rule) (n : Node) :
    lists rule n = (ordered (visited rule n)).map Prod.fst := by
  induction n using Node.induct generalizing rule with
  | h n ih =>
    cases hbelow : rule.below n with
    | none => cases rule <;> cases n <;> first | rfl | contradiction
    | some next =>
      obtain ⟨own, hlists, hown⟩ := lists_of_below hbelow
      have hchildren := listsBelow_eq (fun c hc => ih c hc next) 0
      rw [hlists, hchildren, visited_of_below hbelow, ← List.singleton_append, ordered_append,
        List.map_append]
      congr 1
      rcases hown with ⟨rfl, -, children, rfl⟩ | ⟨rfl, hne⟩
      · rfl
      · cases n <;> first | rfl | exact absurd rfl (hne _)

/-- The ordered lists that are visited are the ones that are listed. -/
theorem mem_lists (rule : Rule) (n : Node) (p : Path) :
    p ∈ lists rule n ↔ ∃ children, Visits rule n p (.orderedList children) := by
  rw [lists_eq, List.mem_map]
  constructor
  · rintro ⟨⟨q, m⟩, hmem, rfl⟩
    obtain ⟨hvisited, hkind⟩ := List.mem_filter.mp hmem
    have hvisits := (mem_visited rule n q m).mp hvisited
    cases m with
    | orderedList children => exact ⟨children, hvisits⟩
    | _ => contradiction
  · rintro ⟨children, hvisits⟩
    have hvisited := (mem_visited rule n p _).mpr hvisits
    exact ⟨(p, .orderedList children), List.mem_filter.mpr ⟨hvisited, rfl⟩, rfl⟩

theorem le_of_mem_listsBelow {rule : Rule} {ns : List Node} {i : Nat} {p : Path}
    (h : p ∈ listsBelow rule i ns) : ∃ j q, p = j :: q ∧ i ≤ j := by
  obtain ⟨j, n, q, _, -, rfl, -⟩ := (mem_listsBelow (fun n _ p => mem_lists rule n p) i p).mp h
  exact ⟨i + j, q, rfl, Nat.le_add_right i j⟩

theorem pairwise_listsBelow {rule : Rule} {ns : List Node}
    (h : ∀ n ∈ ns, (lists rule n).Pairwise (· < ·)) (i : Nat) :
    (listsBelow rule i ns).Pairwise (· < ·) := by
  induction ns generalizing i with
  | nil => exact .nil
  | cons n ns ih =>
    have hns := ih (fun m hm => h m (List.mem_cons_of_mem n hm)) (i + 1)
    rw [listsBelow]
    exact pairwise_paths (h n List.mem_cons_self) hns fun _ => le_of_mem_listsBelow

/-- A node comes before the nodes below it, and these come in the order of the children. -/
theorem pairwise_lists (rule : Rule) (n : Node) : (lists rule n).Pairwise (· < ·) := by
  have hsublist : (ordered (visited rule n)).Sublist (visited rule n) := List.filter_sublist
  rw [lists_eq]
  exact (pairwise_visited rule n).sublist (hsublist.map Prod.fst)

end ManPage
