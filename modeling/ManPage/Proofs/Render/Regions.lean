import ManPage.Proofs.Render.RunningText

/-! # Regions of a page

A list or a block quote indents what is in it, a code block is set as it is written. Both have a row that
opens them and a row that closes them. On a page of orderly nodes these rows are properly nested, and
each list, block quote and code block that is visited opens one region.
-/
namespace ManPage
open Text Fragment

inductive Region
  | indented | verbatim
deriving DecidableEq, Repr, Inhabited

namespace Region

def opening : Region → Text
  | indented => ".RS".toList
  | verbatim => ".nf".toList

def closing : Region → Text
  | indented => ".RE".toList
  | verbatim => ".fi".toList

end Region

/-- The region that a node of the kind opens. -/
def Kind.region? : Kind → Option Region
  | bulletList | orderedList | blockQuote => some .indented
  | codeBlock => some .verbatim
  | _ => none

inductive Edge
  | opens (r : Region)
  | closes (r : Region)
deriving DecidableEq, Repr, Inhabited

/-- The edge that a row is, if it is nothing but the macro. -/
def edge? (l : Text) : Option Edge :=
  if l = Region.indented.opening then some (.opens .indented)
  else if l = Region.indented.closing then some (.closes .indented)
  else if l = Region.verbatim.opening then some (.opens .verbatim)
  else if l = Region.verbatim.closing then some (.closes .verbatim)
  else none

/-- Each region that is opened is closed behind what is in it, and nothing else is closed. -/
inductive Nested : List Edge → Prop
  | nil : Nested []
  | region (r : Region) {inside behind : List Edge} (hinside : Nested inside)
    (hbehind : Nested behind) : Nested (.opens r :: (inside ++ .closes r :: behind))

theorem Nested.append {es fs : List Edge} (hes : Nested es) (hfs : Nested fs) : Nested (es ++ fs) := by
  induction hes with
  | nil => exact hfs
  | region r hinside hbehind _ ih =>
    rw [List.cons_append, List.append_assoc, List.cons_append]
    exact .region r hinside ih

theorem nested_region (r : Region) {inside : List Edge} (h : Nested inside) :
    Nested (.opens r :: (inside ++ [.closes r])) := .region r h .nil

/-! ## Which rows are edges -/

/-- A row with a property that no edge has is no edge. -/
theorem edge?_eq_none {P : Text → Prop} (hregion : ∀ r : Region, ¬ P r.opening ∧ ¬ P r.closing)
    {l : Text} (h : P l) : edge? l = none := by
  have hne : ∀ r : Region, l ≠ r.opening ∧ l ≠ r.closing := by
    intro r
    constructor
    · rintro rfl
      exact (hregion r).1 h
    · rintro rfl
      exact (hregion r).2 h
  rw [edge?, if_neg (hne _).1, if_neg (hne _).2, if_neg (hne _).1, if_neg (hne _).2]

theorem edge?_of_inert (l : Text) (h : Inert l) : edge? l = none := by
  have hregion : ∀ r : Region, ¬ Inert r.opening ∧ ¬ Inert r.closing := by
    intro r
    cases r <;> decide
  exact edge?_eq_none hregion h

/-- The macros of items and registers are no edges. -/
theorem edge?_of_take {l : Text} (h : l.take 3 ∈ [".IP".toList, ".nr".toList]) : edge? l = none := by
  have hregion : ∀ r : Region, r.opening.take 3 ∉ [".IP".toList, ".nr".toList] ∧
      r.closing.take 3 ∉ [".IP".toList, ".nr".toList] := by
    intro r
    cases r <;> decide
  exact edge?_eq_none (P := fun l => l.take 3 ∈ [".IP".toList, ".nr".toList]) hregion h

theorem edge?_eq_opens {l : Text} {r : Region} : edge? l = some (.opens r) ↔ l = r.opening := by
  constructor
  · intro h
    unfold edge? at h
    split at h
    · cases h
      assumption
    · split at h
      · cases h
      · split at h
        · cases h
          assumption
        · split at h <;> cases h
  · rintro rfl
    cases r <;> decide

/-- The rows that a region opens are the edges that open it. -/
theorem count_opening (ls : List Text) (r : Region) :
    ls.count r.opening = (ls.filterMap edge?).count (.opens r) := by
  rw [List.count_filterMap, List.count]
  congr 1
  funext l
  rw [Bool.eq_iff_iff, beq_iff_eq, beq_iff_eq, edge?_eq_opens]

/-! ## The edges of an outline -/

theorem edges_enclosed (inside : List Text) : (enclosed inside).filterMap edge? =
    .opens .indented :: (inside.filterMap edge? ++ [.closes .indented]) := by
  rw [filterMap_enclosed, List.append_assoc]
  rfl

theorem edges_listMacros (marker : Marker) (items : List Node) :
    (listMacros marker items).filterMap edge? = [] := by
  have hmarker : edge? marker.first = none ∧ edge? marker.further = none := by
    cases marker with
    | bullet => exact ⟨edge?_of_take (by decide), edge?_of_take (by decide)⟩
    | step list => exact ⟨edge?_of_take List.mem_cons_self, edge?_of_take List.mem_cons_self⟩
  exact filterMap_listMacros_eq_nil hmarker.1 hmarker.2 items

theorem edges_declaration (list : Nat) : edge? (Marker.declaration list) = none :=
  edge?_of_take (List.mem_cons_of_mem _ List.mem_cons_self)

theorem nested_outlineBelow {ns : List Node}
    (h : ∀ n ∈ ns, ∀ label, Nested ((outline label n).filterMap edge?)) (label : Path → Nat)
    (i : Nat) : Nested ((outlineBelow label i ns).filterMap edge?) := by
  induction ns generalizing i with
  | nil => exact .nil
  | cons n ns ih =>
    rw [List.forall_mem_cons] at h
    rw [outlineBelow, List.filterMap_append]
    exact (h.1 _).append (ih h.2 (i + 1))

theorem nested_outline (n : Node) (label : Path → Nat) :
    Nested ((outline label n).filterMap edge?) := by
  induction n using Node.induct generalizing label with
  | h n ih =>
    cases n with
    | bulletList items =>
      rw [outline, edges_enclosed, edges_listMacros]
      exact nested_region .indented .nil
    | orderedList items =>
      rw [outline, List.filterMap_cons, edges_declaration, edges_enclosed, edges_listMacros]
      exact nested_region .indented .nil
    | blockQuote children =>
      rw [outline, edges_enclosed]
      exact nested_region .indented (nested_outlineBelow ih label 0)
    | codeBlock value => exact nested_region .verbatim .nil
    | _ => exact .nil

/-! ## The regions that are opened -/

theorem Kind.region?_of_inline {k : Kind} (h : k.isInline ∨ k.isDropped) : k.region? = none := by
  cases k <;> first | rfl | (rcases h with h | h <;> contradiction)

/-- Of the nodes all of whose children are visited only the block quotes are no running text. -/
theorem isSpan_of_below {rule : Rule} {n : Node} (h : rule.below n = some .all)
    (hn : n.kind.region? = none) : n.kind.isSpan := by
  cases rule <;> cases n <;> first | rfl | (cases hn; done) | cases h

/-- Running text and the items of a list have no region in them. -/
theorem eachVisited_noRegion {rule : Rule} {n : Node} (h : EachVisited Node.KeepsInline rule n)
    (hn : rule = .all → n.kind.region? = none) :
    EachVisited (fun m => m.kind.region? = none) rule n := by
  induction n using Node.induct generalizing rule with
  | h n ih =>
    have hself : rule.admits n → n.kind.region? = none := by
      intro hadmits
      cases rule with
      | all => exact hn rfl
      | items =>
        obtain ⟨children, rfl⟩ := hadmits
        rfl
      | paragraphs =>
        obtain ⟨children, rfl⟩ := hadmits
        rfl
    cases hbelow : rule.below n with
    | none =>
      rcases visited_of_below_none hbelow with ⟨hvisited, hadmits⟩ | ⟨hvisited, -⟩
      · rw [EachVisited, hvisited, List.forall_mem_singleton]
        exact hself hadmits
      · rw [EachVisited, hvisited]
        exact List.forall_mem_nil _
    | some next =>
      have hregion := hself (admits_of_below hbelow)
      obtain ⟨hkeeps, hchildren⟩ := (eachVisited_of_below hbelow).mp h
      refine (eachVisited_of_below hbelow).mpr ⟨hregion, ?_⟩
      intro c hc
      refine ih c hc (hchildren c hc) ?_
      -- a child is only free to be a list where all children are visited, and there it is running text
      rintro rfl
      exact Kind.region?_of_inline (hkeeps (isSpan_of_below hbelow hregion) c hc)

theorem noRegion_below_items {n : Node} (h : EachVisited Node.KeepsInline .all n)
    (hbelow : Rule.below .all n = some .items) :
    ∀ v ∈ visitedBelow .items 0 n.children, v.2.kind.region? = none := by
  have hchildren : ∀ c ∈ n.children, EachVisited (fun m => m.kind.region? = none) .items c :=
    fun c hc => eachVisited_noRegion (h.children hbelow c hc) nofun
  exact forall_visitedBelow.mpr hchildren

/-- The nodes that open a region of the sort. -/
def opened (r : Region) (vs : List (Path × Node)) : Nat := vs.countP (·.2.kind.region? == some r)

theorem opened_of_noRegion {vs : List (Path × Node)} (h : ∀ v ∈ vs, v.2.kind.region? = none)
    (r : Region) : opened r vs = 0 := by
  rw [opened, List.countP_eq_zero]
  intro v hv
  rw [h v hv]
  exact Bool.false_ne_true

theorem count_edgesBelow {ns : List Node} {r : Region}
    (h : ∀ n ∈ ns, ∀ label, ((outline label n).filterMap edge?).count (.opens r) =
      opened r (visited .all n)) (label : Path → Nat) (i : Nat) :
    ((outlineBelow label i ns).filterMap edge?).count (.opens r) =
      opened r (visitedBelow .all i ns) := by
  induction ns generalizing i with
  | nil => rfl
  | cons n ns ih =>
    rw [List.forall_mem_cons] at h
    rw [outlineBelow, visitedBelow, List.filterMap_append, List.count_append, h.1, ih h.2, opened,
      opened, opened, List.countP_append, List.countP_map]
    rfl

theorem count_region (r s : Region) (inside : List Edge) :
    (Edge.opens s :: (inside ++ [.closes s])).count (.opens r) =
      inside.count (.opens r) + if s = r then 1 else 0 := by
  rw [List.count_cons, List.count_append]
  cases r <;> cases s <;> rfl

/-- A node that opens a region opens it before the regions below it. -/
theorem opened_of_below {n : Node} {next : Rule} {s : Region} (hbelow : Rule.below .all n = some next)
    (hn : n.kind.region? = some s) (r : Region) : opened r (visited .all n) =
      opened r (visitedBelow next 0 n.children) + if s = r then 1 else 0 := by
  rw [visited_of_below hbelow, opened, List.countP_cons, hn]
  cases r <;> cases s <;> rfl

/-- As many regions are opened on a page as there are visited nodes that open one. -/
theorem count_edges {n : Node} (h : EachVisited Node.KeepsInline .all n) (label : Path → Nat)
    (r : Region) :
    ((outline label n).filterMap edge?).count (.opens r) = opened r (visited .all n) := by
  induction n using Node.induct generalizing label with
  | h n ih =>
    have hitems : Rule.below .all n = some .items →
        opened r (visitedBelow .items 0 n.children) = 0 :=
      fun hbelow => opened_of_noRegion (noRegion_below_items h hbelow) r
    have hnone : n.kind.region? = none → opened r (visited .all n) = 0 := fun hn =>
      opened_of_noRegion (eachVisited_noRegion h fun _ => hn) r
    cases n with
    | bulletList items =>
      rw [outline, edges_enclosed, edges_listMacros, count_region, opened_of_below rfl rfl, hitems rfl]
      rfl
    | orderedList items =>
      rw [outline, List.filterMap_cons, edges_declaration, edges_enclosed, edges_listMacros,
        opened_of_below rfl rfl, hitems rfl]
      exact count_region r .indented []
    | blockQuote children =>
      have hchildren : ∀ c ∈ children, EachVisited Node.KeepsInline .all c := h.children rfl
      have hbelow := count_edgesBelow (fun c hc label => ih c hc (hchildren c hc) label) label 0
      rw [outline, edges_enclosed, count_region, opened_of_below rfl rfl, ← hbelow]
      rfl
    | codeBlock value => cases r <;> rfl
    | _ => exact (hnone rfl).symm

/-- On the page of a document whose visited nodes are orderly the rows that open and close regions are
properly nested. As many rows open an indented region as lists and block quotes are visited, and as many
open a verbatim one as code blocks are; every visited node is counted once. Comments may be anything, and
so may the nodes that are not visited. -/
theorem nested_regions {d : Document} (h : ∀ v ∈ d.visited, v.2.Orderly) :
    Nested ((rows d.render).filterMap edge?) ∧
    (∀ r : Region, (rows d.render).count r.opening =
      d.visited.countP fun v => v.2.kind.region? == some r) ∧
    (d.visited.map Prod.fst).Pairwise (· < ·) ∧
    ∀ p n, (p, n) ∈ d.visited ↔ d.Visits p n := by
  have hsober : ∀ v ∈ d.visited, v.2.Sober Inert := fun v hv =>
    ⟨(h v hv).spans, inert_own (h v hv).undotted⟩
  have hkeeps : ∀ n ∈ d.blocks, EachVisited Node.KeepsInline .all n :=
    forall_visitedBelow.mp fun v hv => (h v hv).spans
  have hedges : (rows d.render).filterMap edge? = d.outline.filterMap edge? :=
    answers_render edge?_of_inert rowLaw_inert inert_plainMacros hsober
  refine ⟨?_, ?_, d.pairwise_visited, d.mem_visited⟩
  · rw [hedges]
    exact nested_outlineBelow (fun n _ => nested_outline n) _ 0
  · intro r
    rw [count_opening, hedges]
    exact count_edgesBelow (fun n hn label => count_edges (hkeeps n hn) label r) _ 0

/-- Lists and code in block quotes, with edges in a comment and below a header. -/
def quotedPage : Document :=
  ⟨[.header 2 "NAME\n a".toList [.codeBlock ".fi".toList],
    .comment ".RS\n.nf".toList,
    .blockQuote [
      .paragraph [.text "a\n".toList, .emphasis [.link "mailto:.RE".toList [], .text " b.".toList]],
      .bulletList [.listItem [.paragraph [], .blockQuote [], .paragraph [.text " c ".toList]], .rule],
      .blockQuote [.codeBlock "d\n  e\n".toList, .orderedList [.listItem [], .text ".RS".toList]]],
    .paragraph [.codeSpan "f".toList, .text "  g".toList, .listItem [.bulletList []]]]⟩

theorem nested_regions_quoted :
    (∀ v ∈ quotedPage.visited, v.2.Orderly) ∧
    Nested ((rows quotedPage.render).filterMap edge?) ∧
    (rows quotedPage.render).count ".RS".toList = 4 ∧
    (rows quotedPage.render).count ".nf".toList = 1 := by
  have horderly : ∀ v ∈ quotedPage.visited, v.2.Orderly := by decide
  obtain ⟨hnested, hcount, -, -⟩ := nested_regions horderly
  exact ⟨horderly, hnested, (hcount .indented).trans (by decide), (hcount .verbatim).trans (by decide)⟩

end ManPage
