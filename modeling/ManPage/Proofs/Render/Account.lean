import Mathlib.Data.List.Forall2
import ManPage.Proofs.Render.Registers

/-! # The account of a walk

A conversion reports what it comes upon. Its reports are exactly those that the tree gives rise to, in the
order of a walk from left to right in which a node comes before what is below it: each has a position in
the tree, the path of a node that is met or, for a link, the place behind its last child. A node is met if
its parent is visited and has it looked at, whether it is visited then or passed over.
-/
namespace ManPage
open Conversion

/-- The href starts with `man:`, and no name of a page follows. -/
def LinkTarget.NamesNoPage (href : Text) : Prop :=
  ∃ t, "man:".toList ++ t = href ∧ ∀ c r, t = c :: r → ¬ isNameChar c

/-- From a node that is met under the first rule the path leads through visited nodes to one that is met
under the second. -/
inductive Meets : Rule → Node → Path → Rule → Node → Prop
  | here (rule : Rule) (n : Node) : Meets rule n [] rule n
  | down {rule next last : Rule} {n c m : Node} {i : Nat} {p : Path} (h : rule.below n = some next)
    (hc : n.children[i]? = some c) (hm : Meets next c p last m) : Meets rule n (i :: p) last m

/-- The path leads from one of the nodes, all met under the rule, to a node that is met. -/
def MeetsBelow (rule : Rule) (ns : List Node) (p : Path) (last : Rule) (m : Node) : Prop :=
  ∃ i c q, ns[i]? = some c ∧ p = i :: q ∧ Meets rule c q last m

/-- What is reported at a position and on which level, of the nodes that are met and with the numbers
given for the ordered lists. -/
inductive Reports (label : Path → Nat) (meets : Path → Rule → Node → Prop) :
    Path → Level → Event → Prop
  | register {p : Path} {children : List Node} (h : meets p .all (.orderedList children)) :
    Reports label meets p .trace (.register (label p))
  | dropped {p : Path} {n : Node} (h : meets p .all n) (hn : n.kind = .listItem ∨ n.kind = .unknown) :
    Reports label meets p .debug (.dropped n.kind)
  | skipped {p : Path} {n : Node} (h : meets p .items n) (hn : ¬ n.IsItem) :
    Reports label meets p .debug (.skipped n.kind)
  | malformed {p : Path} {href : Text} {children : List Node} (h : meets p .all (.link href children))
    (hhref : LinkTarget.NamesNoPage href) :
    Reports label meets (p ++ [children.length]) .warn (.malformedLink href)

/-- The document gives rise to the event at the position; its ordered lists are numbered in pre-order. -/
def Document.Reports (d : Document) : Path → Level → Event → Prop :=
  ManPage.Reports (rank 0 (listsBelow .all 0 d.blocks)) (MeetsBelow .all d.blocks)

def Event.register? : Event → Option Nat
  | register index => some index
  | _ => none

/-! ## Writing the account -/

/-- What is reported when a node is met; an ordered list has the number given. -/
def arrival (number : Nat) : Rule → Node → List Event
  | .all, .orderedList _ => [.register number]
  | .all, .listItem _ => [.dropped .listItem]
  | .all, .unknown => [.dropped .unknown]
  | .items, .listItem _ => []
  | .items, n => [.skipped n.kind]
  | _, _ => []

/-- What is reported when all below a node has been met. -/
def departure : Rule → Node → List Event
  | .all, .link href _ => if LinkTarget.isMalformed href then [.malformedLink href] else []
  | _, _ => []

/-- The account of a node from that of what is below it. -/
def around (label : Path → Nat) (rule : Rule) (n : Node) (inside : List (Path × Event)) :
    List (Path × Event) :=
  (arrival (label []) rule n).map ([], ·) ++ (inside ++ (departure rule n).map ([n.children.length], ·))

mutual

def accountInside (label : Path → Nat) : Rule → Node → List (Path × Event)
  | .all, .bulletList children | .all, .orderedList children => accountBelow label .items 0 children
  | .all, .blockQuote children | .all, .paragraph children | .all, .emphasis children
  | .all, .strong children | .all, .link _ children => accountBelow label .all 0 children
  | .items, .listItem children => accountBelow label .paragraphs 0 children
  | .paragraphs, .paragraph children => accountBelow label .all 0 children
  | _, _ => []

/-- The account of nodes, the first of which is the child with the index `i`. -/
def accountBelow (label : Path → Nat) (rule : Rule) (i : Nat) : List Node → List (Path × Event)
  | [] => []
  | n :: ns =>
    (around (childLabels label i) rule n (accountInside (childLabels label i) rule n)).map
      (fun v => (i :: v.1, v.2)) ++ accountBelow label rule (i + 1) ns

end

def account (label : Path → Nat) (rule : Rule) (n : Node) : List (Path × Event) :=
  around label rule n (accountInside label rule n)

theorem arrival_of_skipped (number : Nat) {n : Node} (h : ¬ n.IsItem) :
    arrival number .items n = [.skipped n.kind] := by
  cases n <;> first | rfl | exact absurd ⟨_, rfl⟩ h

section
variable (label : Path → Nat)

theorem accountBelow_cons (rule : Rule) (i : Nat) (n : Node) (ns : List Node) :
    accountBelow label rule i (n :: ns) = (account (childLabels label i) rule n).map
      (fun v => (i :: v.1, v.2)) ++ accountBelow label rule (i + 1) ns := rfl

theorem accountInside_of_below {rule next : Rule} {n : Node} (h : rule.below n = some next) :
    accountInside label rule n = accountBelow label next 0 n.children := by
  cases rule <;> cases n <;> cases h <;> rfl

theorem accountInside_of_below_none {rule : Rule} {n : Node} (h : rule.below n = none) :
    accountInside label rule n = [] := by
  cases rule <;> cases n <;> first | rfl | contradiction

theorem account_of_skipped {n : Node} (h : ¬ n.IsItem) :
    account label .items n = [([], .skipped n.kind)] := by
  have hbelow : Rule.below .items n = none := by
    cases n <;> first | rfl | exact absurd ⟨_, rfl⟩ h
  rw [account, around, accountInside_of_below_none label hbelow, arrival_of_skipped _ h]
  rfl

theorem account_of_unread {n : Node} (h : ¬ n.IsParagraph) : account label .paragraphs n = [] := by
  cases n <;> first | rfl | exact absurd ⟨_, rfl⟩ h

/-- A node of which nothing is reported itself. -/
theorem account_of_quiet {rule next : Rule} {n : Node} (h : rule.below n = some next)
    (harrival : arrival (label []) rule n = []) (hdeparture : departure rule n = []) :
    account label rule n = accountBelow label next 0 n.children := by
  simp [account, around, accountInside_of_below label h, harrival, hdeparture]

/-- The events of the nodes, one behind the other. -/
theorem map_snd_accountBelow_cons (rule : Rule) (i : Nat) (n : Node) (ns : List Node) :
    (accountBelow label rule i (n :: ns)).map Prod.snd =
      (account (childLabels label i) rule n).map Prod.snd ++
        (accountBelow label rule (i + 1) ns).map Prod.snd := by
  rw [accountBelow_cons, List.map_append, List.map_map]
  rfl

end

/-! ## Conversions keep the account -/

/-- The conversion reports these events. -/
def Tells {α : Type} (c : Conversion α) (k : Nat) (es : List Event) : Prop := (c.run k).events = es

section
variable {α β : Type} {c : Conversion α} {k count : Nat} {es fs : List Event} {a : α}

theorem tells_pure (a : α) (k : Nat) : Tells (pure a) k [] := rfl

theorem tells_report (e : Event) (k : Nat) : Tells (report e) k [e] := rfl

theorem Tells.bind {f : α → Conversion β} (h : Tells c k es) (hgives : Gives c k a count)
    (hf : Tells (f a) (k + count) fs) : Tells (c >>= f) k (es ++ fs) := by
  obtain ⟨rfl, hlists⟩ := hgives
  unfold Tells at h hf ⊢
  rw [run_bind, h, hlists, hf]

theorem Tells.form (h : Tells c k es) (f : α → β) : Tells (c >>= fun a => pure (f a)) k es := by
  unfold Tells at h ⊢
  rw [run_bind, h, run_pure, List.append_nil]

end

/-- The conversions of the node report what is in its account, however the lists are labelled: by itself,
of its children, and of its paragraphs. -/
structure KeepsAccount (n : Node) : Prop where
  self : ∀ k label, Numbers label k (lists .all n) →
    Tells (convert n) k ((account label .all n).map Prod.snd)
  children : ∀ k label, Numbers label k (listsBelow .all 0 n.children) →
    Tells (convertAll n.children) k ((accountBelow label .all 0 n.children).map Prod.snd)
  paragraphs : ∀ opening further k label, Numbers label k (listsBelow .paragraphs 0 n.children) →
    Tells (itemParagraphs opening further n.children) k
      ((accountBelow label .paragraphs 0 n.children).map Prod.snd)

section
variable {ns : List Node} (hns : ∀ n ∈ ns, KeepsAccount n) {label : Path → Nat}
include hns

theorem tells_convertAll (k i : Nat) (h : Numbers label k (listsBelow .all i ns)) :
    Tells (convertAll ns) k ((accountBelow label .all i ns).map Prod.snd) := by
  induction ns generalizing k i with
  | nil => exact tells_pure [] k
  | cons n ns ih =>
    rw [List.forall_mem_cons] at hns
    obtain ⟨hn, hrest⟩ := numbers_listsBelow h
    have hfirst := hns.1.self k _ hn
    have hmore := ih hns.2 _ (i + 1) hrest
    rw [convertAll, map_snd_accountBelow_cons]
    exact hfirst.bind ((followsReference n).self k _ hn) (hmore.form _)

theorem tells_quoted (k i : Nat) (h : Numbers label k (listsBelow .all i ns)) :
    Tells (quoted ns) k ((accountBelow label .all i ns).map Prod.snd) := by
  induction ns generalizing k i with
  | nil => exact tells_pure [] k
  | cons n ns ih =>
    rw [List.forall_mem_cons] at hns
    obtain ⟨hn, hrest⟩ := numbers_listsBelow h
    have hmore := ih hns.2 _ (i + 1) hrest
    rw [map_snd_accountBelow_cons]
    by_cases hp : n.IsParagraph
    · obtain ⟨children, rfl⟩ := hp
      have hfirst := hns.1.children k _ hn
      have hgives := (followsReference (.paragraph children)).children k _ hn
      have haccount : account (childLabels label i) .all (.paragraph children) =
          accountBelow (childLabels label i) .all 0 children := account_of_quiet _ rfl rfl rfl
      rw [quoted, haccount]
      exact hfirst.bind hgives (hmore.form _)
    · have hfirst := hns.1.self k _ hn
      rw [quoted_of_ne ns hp]
      exact hfirst.bind ((followsReference n).self k _ hn) (hmore.form _)

theorem tells_listItems (marker : Marker) (k i : Nat) (h : Numbers label k (listsBelow .items i ns)) :
    Tells (listItems marker ns) k ((accountBelow label .items i ns).map Prod.snd) := by
  induction ns generalizing k i with
  | nil => exact tells_pure [] k
  | cons n ns ih =>
    rw [List.forall_mem_cons] at hns
    obtain ⟨hn, hrest⟩ := numbers_listsBelow h
    have hmore := ih hns.2 _ (i + 1) hrest
    rw [map_snd_accountBelow_cons]
    by_cases hp : n.IsItem
    · obtain ⟨children, rfl⟩ := hp
      have hfirst := hns.1.paragraphs marker.first marker.further k _ hn
      have hgives := (followsReference (.listItem children)).paragraphs marker.first marker.further k
        _ hn
      have haccount : account (childLabels label i) .items (.listItem children) =
          accountBelow (childLabels label i) .paragraphs 0 children := account_of_quiet _ rfl rfl rfl
      rw [listItems, haccount]
      exact hfirst.bind hgives (hmore.form _)
    · rw [lists_items_of_ne hp] at hmore
      rw [listItems_of_ne ns marker hp, account_of_skipped _ hp]
      exact (tells_report _ k).bind (gives_report _ k) hmore

theorem tells_itemParagraphs (opening further : Text) (k i : Nat)
    (h : Numbers label k (listsBelow .paragraphs i ns)) :
    Tells (itemParagraphs opening further ns) k
      ((accountBelow label .paragraphs i ns).map Prod.snd) := by
  induction ns generalizing opening k i with
  | nil => exact tells_pure [] k
  | cons n ns ih =>
    rw [List.forall_mem_cons] at hns
    obtain ⟨hn, hrest⟩ := numbers_listsBelow h
    rw [map_snd_accountBelow_cons]
    by_cases hp : n.IsParagraph
    · have hmore := ih hns.2 further _ (i + 1) hrest
      obtain ⟨children, rfl⟩ := hp
      have hfirst := hns.1.children k _ hn
      have hgives := (followsReference (.paragraph children)).children k _ hn
      have haccount : account (childLabels label i) .paragraphs (.paragraph children) =
          accountBelow (childLabels label i) .all 0 children := account_of_quiet _ rfl rfl rfl
      rw [itemParagraphs, haccount]
      exact hfirst.bind hgives (hmore.form _)
    · have hmore := ih hns.2 opening _ (i + 1) hrest
      rw [lists_paragraphs_of_ne hp] at hmore
      rw [itemParagraphs_of_ne ns opening further hp, account_of_unread _ hp]
      exact hmore

end

theorem tells_convert {n : Node} (h : ∀ c ∈ n.children, KeepsAccount c) (k : Nat)
    (label : Path → Nat) (hk : Numbers label k (lists .all n)) :
    Tells (convert n) k ((account label .all n).map Prod.snd) := by
  cases n with
  | blank | text _ | abbreviation _ | typographic _ | quote _ | header _ _ _ | rule | codeBlock _
  | comment _ | codeSpan _ => exact tells_pure _ k
  | listItem _ | unknown => exact (tells_report _ k).form _
  | bulletList children =>
    have hitems := tells_listItems h .bullet k 0 hk
    rw [convert, account_of_quiet label rfl rfl rfl]
    exact hitems.form _
  | orderedList children =>
    obtain ⟨hlabel, hbelow⟩ := hk
    have hitems := tells_listItems h (.step (k + 1)) (k + 1) 0 hbelow
    have haccount : (account label .all (.orderedList children)).map Prod.snd =
        .register (k + 1) :: (accountBelow label .items 0 children).map Prod.snd := by
      simp [account, around, arrival, departure, accountInside, hlabel]
    have hnext : Tells nextList k [.register (k + 1)] := rfl
    rw [convert, haccount]
    exact hnext.bind (gives_nextList k) (hitems.form _)
  | blockQuote children =>
    have hquoted := tells_quoted h k 0 hk
    rw [convert, account_of_quiet label rfl rfl rfl]
    exact hquoted.form _
  | paragraph children | emphasis children | strong children =>
    have hall := tells_convertAll h k 0 hk
    rw [convert, account_of_quiet label rfl rfl rfl]
    exact hall.form _
  | link href children =>
    have hall := tells_convertAll h k 0 hk
    have hgives := gives_convertAll (fun c (_ : c ∈ children) => followsReference c) k 0 hk
    -- The children are converted first, so what is wrong with the link is reported behind their events.
    have haccount : (account label .all (.link href children)).map Prod.snd =
        (accountBelow label .all 0 children).map Prod.snd ++ departure .all (.link href children) := by
      simp [account, around, arrival, accountInside, Function.comp_def]
    rw [convert, haccount]
    refine hall.bind hgives ?_
    dsimp only [departure]
    split
    · exact (tells_report _ _).form _
    · exact tells_pure _ _

theorem keepsAccount (n : Node) : KeepsAccount n := by
  induction n using Node.induct with
  | h n ih =>
    refine ⟨tells_convert ih, ?_, ?_⟩
    · intro k label h
      exact tells_convertAll ih k 0 h
    · intro opening further k label h
      exact tells_itemParagraphs ih opening further k 0 h

/-! ## Positions -/

section
variable (label : Path → Nat)

theorem mem_map_position {es : List Event} {p q : Path} {e : Event} :
    (p, e) ∈ es.map (q, ·) ↔ p = q ∧ e ∈ es := by
  rw [List.mem_map]
  constructor
  · rintro ⟨e', he, heq⟩
    obtain ⟨rfl, rfl⟩ := Prod.mk.inj heq
    exact ⟨rfl, he⟩
  · rintro ⟨rfl, he⟩
    exact ⟨e, he, rfl⟩

theorem mem_around {rule : Rule} {n : Node} {inside : List (Path × Event)} {p : Path} {e : Event} :
    (p, e) ∈ around label rule n inside ↔ (p = [] ∧ e ∈ arrival (label []) rule n) ∨
      (p, e) ∈ inside ∨ (p = [n.children.length] ∧ e ∈ departure rule n) := by
  rw [around, List.mem_append, List.mem_append, mem_map_position, mem_map_position]

theorem accountInside_eq (rule : Rule) (n : Node) : accountInside label rule n = [] ∨
    ∃ next, accountInside label rule n = accountBelow label next 0 n.children := by
  cases h : rule.below n with
  | none => exact Or.inl (accountInside_of_below_none label h)
  | some next => exact Or.inr ⟨next, accountInside_of_below label h⟩

theorem bounds_of_mem_accountBelow {rule : Rule} {i : Nat} {ns : List Node} {v : Path × Event}
    (h : v ∈ accountBelow label rule i ns) : ∃ j q, v.1 = j :: q ∧ i ≤ j ∧ j < i + ns.length := by
  induction ns generalizing i with
  | nil => contradiction
  | cons n ns ih =>
    rw [List.length_cons]
    rw [accountBelow_cons, List.mem_append, List.mem_map] at h
    rcases h with ⟨w, -, rfl⟩ | h
    · exact ⟨i, w.1, rfl, by omega, by omega⟩
    · obtain ⟨j, q, hv, hi, hj⟩ := ih h
      exact ⟨j, q, hv, by omega, by omega⟩

/-- One position before all others. -/
def Before (v w : Path × Event) : Prop := v.1 < w.1

theorem pairwise_map_of_length_le_one {es : List Event} (h : es.length ≤ 1) (p : Path) :
    (es.map fun e => (p, e)).Pairwise Before := by
  rcases es with _ | ⟨e, _ | ⟨_, es⟩⟩
  · exact .nil
  · exact List.pairwise_singleton _ _
  · simp at h

theorem length_arrival_le (number : Nat) (rule : Rule) (n : Node) :
    (arrival number rule n).length ≤ 1 := by
  cases rule <;> cases n <;> simp [arrival]

theorem length_departure_le (rule : Rule) (n : Node) : (departure rule n).length ≤ 1 := by
  unfold departure
  split
  · split <;> simp
  · simp

/-- A node comes before what is below it, and its departure behind that. -/
theorem pairwise_around {rule : Rule} {n : Node} {inside : List (Path × Event)}
    (hinside : inside.Pairwise Before)
    (hbounds : ∀ v ∈ inside, ∃ j q, v.1 = j :: q ∧ j < n.children.length) :
    (around label rule n inside).Pairwise Before := by
  have harrival := pairwise_map_of_length_le_one (length_arrival_le (label []) rule n) []
  have hdeparture := pairwise_map_of_length_le_one (length_departure_le rule n) [n.children.length]
  refine List.pairwise_append.mpr ⟨harrival, List.pairwise_append.mpr ⟨hinside, hdeparture, ?_⟩, ?_⟩
  · intro v hv w hw
    obtain ⟨j, q, hq, hj⟩ := hbounds v hv
    obtain ⟨e, -, rfl⟩ := List.mem_map.mp hw
    rw [Before, hq]
    exact List.cons_lt_cons_iff.mpr (Or.inl hj)
  · intro v hv w hw
    obtain ⟨e, -, rfl⟩ := List.mem_map.mp hv
    rw [List.mem_append, List.mem_map] at hw
    rcases hw with hw | ⟨e, -, rfl⟩
    · obtain ⟨j, q, hq, -⟩ := hbounds w hw
      rw [Before, hq]
      exact List.nil_lt_cons j q
    · exact List.nil_lt_cons _ []

theorem pairwise_accountBelow {rule : Rule} {ns : List Node}
    (h : ∀ n ∈ ns, ∀ label, (account label rule n).Pairwise Before) (i : Nat) :
    (accountBelow label rule i ns).Pairwise Before := by
  induction ns generalizing i with
  | nil => exact .nil
  | cons n ns ih =>
    rw [List.forall_mem_cons] at h
    rw [accountBelow_cons, List.pairwise_append, List.pairwise_map]
    refine ⟨?_, ih h.2 (i + 1), ?_⟩
    · exact (h.1 _).imp fun hvw => List.cons_lt_cons_iff.mpr (Or.inr ⟨rfl, hvw⟩)
    · intro v hv w hw
      obtain ⟨v, -, rfl⟩ := List.mem_map.mp hv
      obtain ⟨j, q, hq, hj, -⟩ := bounds_of_mem_accountBelow label hw
      rw [Before, hq]
      exact List.cons_lt_cons_iff.mpr (Or.inl hj)

theorem pairwise_account (rule : Rule) (n : Node) : (account label rule n).Pairwise Before := by
  induction n using Node.induct generalizing label rule with
  | h n ih =>
    rcases accountInside_eq label rule n with hinside | ⟨next, hinside⟩
    · rw [account, hinside]
      exact pairwise_around label .nil (by simp)
    · have hbelow := pairwise_accountBelow label (fun c hc label => ih c hc label next) 0
      rw [account, hinside]
      refine pairwise_around label hbelow ?_
      intro v hv
      obtain ⟨j, q, hq, -, hj⟩ := bounds_of_mem_accountBelow label hv
      exact ⟨j, q, hq, by omega⟩

end

/-! ## What is in the account -/

/-- The event comes with the arrival at a node that is met, or with the departure from it. -/
def Arises (label : Path → Nat) (meets : Path → Rule → Node → Prop) (p : Path) (e : Event) : Prop :=
  (∃ rule n, meets p rule n ∧ e ∈ arrival (label p) rule n) ∨
    ∃ q rule n, meets q rule n ∧ p = q ++ [n.children.length] ∧ e ∈ departure rule n

section
variable {label : Path → Nat}

theorem meets_iff {rule last : Rule} {n m : Node} {p : Path} : Meets rule n p last m ↔
    (p = [] ∧ last = rule ∧ m = n) ∨
      ∃ next, rule.below n = some next ∧ MeetsBelow next n.children p last m := by
  constructor
  · intro h
    cases h with
    | here => exact Or.inl ⟨rfl, rfl, rfl⟩
    | down h hc hm => exact Or.inr ⟨_, h, _, _, _, hc, rfl, hm⟩
  · rintro (⟨rfl, rfl, rfl⟩ | ⟨next, h, i, c, q, hc, rfl, hm⟩)
    · exact .here _ _
    · exact .down h hc hm

/-- What comes up at a node: at the node, below it, and behind what is below it. -/
theorem arises_meets {rule : Rule} {n : Node} {p : Path} {e : Event} :
    Arises label (Meets rule n) p e ↔ (p = [] ∧ e ∈ arrival (label []) rule n) ∨
      (∃ next, rule.below n = some next ∧ Arises label (MeetsBelow next n.children) p e) ∨
        (p = [n.children.length] ∧ e ∈ departure rule n) := by
  constructor
  · rintro (⟨last, m, hmeets, he⟩ | ⟨q, last, m, hmeets, rfl, he⟩)
    · rcases meets_iff.mp hmeets with ⟨rfl, rfl, rfl⟩ | ⟨next, hbelow, hmeets⟩
      · exact Or.inl ⟨rfl, he⟩
      · exact Or.inr (Or.inl ⟨next, hbelow, Or.inl ⟨last, m, hmeets, he⟩⟩)
    · rcases meets_iff.mp hmeets with ⟨rfl, rfl, rfl⟩ | ⟨next, hbelow, hmeets⟩
      · exact Or.inr (Or.inr ⟨rfl, he⟩)
      · exact Or.inr (Or.inl ⟨next, hbelow, Or.inr ⟨q, last, m, hmeets, rfl, he⟩⟩)
  · rintro (⟨rfl, he⟩ | ⟨next, hbelow, ⟨last, m, hmeets, he⟩ | ⟨q, last, m, hmeets, rfl, he⟩⟩ |
      ⟨rfl, he⟩)
    · exact Or.inl ⟨rule, n, .here rule n, he⟩
    · exact Or.inl ⟨last, m, meets_iff.mpr (Or.inr ⟨next, hbelow, hmeets⟩), he⟩
    · exact Or.inr ⟨q, last, m, meets_iff.mpr (Or.inr ⟨next, hbelow, hmeets⟩), rfl, he⟩
    · exact Or.inr ⟨[], rule, n, .here rule n, rfl, he⟩

theorem arises_meetsBelow {rule : Rule} {ns : List Node} {p : Path} {e : Event} :
    Arises label (MeetsBelow rule ns) p e ↔ ∃ i n q, ns[i]? = some n ∧ p = i :: q ∧
      Arises (childLabels label i) (Meets rule n) q e := by
  constructor
  · rintro (⟨last, m, ⟨i, n, q, hn, rfl, hmeets⟩, he⟩ |
      ⟨_, last, m, ⟨i, n, q, hn, rfl, hmeets⟩, rfl, he⟩)
    · exact ⟨i, n, q, hn, rfl, Or.inl ⟨last, m, hmeets, he⟩⟩
    · exact ⟨i, n, q ++ [m.children.length], hn, rfl, Or.inr ⟨q, last, m, hmeets, rfl, he⟩⟩
  · rintro ⟨i, n, q, hn, rfl, ⟨last, m, hmeets, he⟩ | ⟨q, last, m, hmeets, rfl, he⟩⟩
    · exact Or.inl ⟨last, m, ⟨i, n, q, hn, rfl, hmeets⟩, he⟩
    · exact Or.inr ⟨i :: q, last, m, ⟨i, n, q, hn, rfl, hmeets⟩, rfl, he⟩

theorem mem_accountBelow (label : Path → Nat) {rule : Rule} {ns : List Node}
    (h : ∀ n ∈ ns, ∀ label p e, (p, e) ∈ account label rule n ↔ Arises label (Meets rule n) p e)
    (i : Nat) (p : Path) (e : Event) : (p, e) ∈ accountBelow label rule i ns ↔
      ∃ j n q, ns[j]? = some n ∧ p = (i + j) :: q ∧
        Arises (childLabels label (i + j)) (Meets rule n) q e := by
  induction ns generalizing i with
  | nil => simp [accountBelow]
  | cons n ns ih =>
    rw [List.forall_mem_cons] at h
    rw [accountBelow_cons, List.mem_append, mem_map_child, ih h.2]
    simp only [h.1, exists_and_left]
    exact (exists_child_cons (P := fun j c q => Arises (childLabels label j) (Meets rule c) q e)).symm

theorem mem_account (label : Path → Nat) (rule : Rule) (n : Node) (p : Path) (e : Event) :
    (p, e) ∈ account label rule n ↔ Arises label (Meets rule n) p e := by
  induction n using Node.induct generalizing label rule p e with
  | h n ih =>
    rw [account, mem_around, arises_meets]
    refine or_congr_right (or_congr_left ?_)
    cases hbelow : rule.below n with
    | none => simp [accountInside_of_below_none label hbelow]
    | some next =>
      have hchildren := mem_accountBelow label (fun c hc label => ih c hc label next) 0 p e
      simp only [Nat.zero_add, ← arises_meetsBelow] at hchildren
      rw [accountInside_of_below label hbelow, hchildren]
      simp

end

namespace LinkTarget

theorem page?_eq_none_iff {t : Text} : page? t = none ↔ ∀ c r, t = c :: r → ¬ isNameChar c := by
  unfold page?
  cases t with
  | nil => simp
  | cons c r => cases hc : isNameChar c <;> simp [hc]

theorem isMalformed_iff {href : Text} : isMalformed href ↔ NamesNoPage href := by
  unfold isMalformed afterMan? NamesNoPage
  cases h : "man:".toList.isPrefixOf? href with
  | none =>
    refine iff_of_false Bool.false_ne_true ?_
    rintro ⟨t, rfl, -⟩
    rw [List.isPrefixOf?_eq_some_iff_append_eq.mpr rfl] at h
    contradiction
  | some t =>
    obtain rfl := List.isPrefixOf?_eq_some_iff_append_eq.mp h
    dsimp only
    rw [Option.isNone_iff_eq_none, page?_eq_none_iff]
    constructor
    · intro hpage
      exact ⟨t, rfl, hpage⟩
    · rintro ⟨u, hu, hpage⟩
      rwa [List.append_cancel_left hu] at hpage

end LinkTarget

section
variable {label : Path → Nat} {meets : Path → Rule → Node → Prop} {p : Path} {rule : Rule} {n : Node}
  {e : Event}

theorem Reports.of_arrival (h : meets p rule n) (he : e ∈ arrival (label p) rule n) :
    Reports label meets p e.level e := by
  cases rule with
  | all =>
    cases n with
    | orderedList children =>
      obtain rfl := List.mem_singleton.mp he
      exact .register h
    | listItem children =>
      obtain rfl := List.mem_singleton.mp he
      exact .dropped h (Or.inl rfl)
    | unknown =>
      obtain rfl := List.mem_singleton.mp he
      exact .dropped h (Or.inr rfl)
    | _ => contradiction
  | items =>
    by_cases hn : n.IsItem
    · obtain ⟨children, rfl⟩ := hn
      contradiction
    · rw [arrival_of_skipped _ hn, List.mem_singleton] at he
      obtain rfl := he
      exact .skipped h hn
  | paragraphs => cases n <;> contradiction

theorem Reports.of_departure (h : meets p rule n) (he : e ∈ departure rule n) :
    Reports label meets (p ++ [n.children.length]) e.level e := by
  unfold departure at he
  split at he
  · rename_i href children
    split at he
    · rename_i hhref
      obtain rfl := List.mem_singleton.mp he
      exact .malformed h (LinkTarget.isMalformed_iff.mp hhref)
    · contradiction
  · contradiction

theorem Reports.arises {level : Level} (h : Reports label meets p level e) :
    Arises label meets p e := by
  cases h with
  | register h => exact Or.inl ⟨_, _, h, List.mem_singleton_self _⟩
  | @dropped _ n h hn =>
    refine Or.inl ⟨_, _, h, ?_⟩
    cases n <;> simp [Node.kind, arrival] at hn ⊢
  | @skipped _ n h hn =>
    refine Or.inl ⟨_, _, h, ?_⟩
    rw [arrival_of_skipped _ hn]
    exact List.mem_singleton_self _
  | malformed h hhref =>
    refine Or.inr ⟨_, _, _, h, rfl, ?_⟩
    rw [departure, if_pos (LinkTarget.isMalformed_iff.mpr hhref)]
    exact List.mem_singleton_self _

/-- An event comes up exactly where it is reported. -/
theorem arises_iff_reports : Arises label meets p e ↔ Reports label meets p e.level e := by
  constructor
  · rintro (⟨rule, n, h, he⟩ | ⟨q, rule, n, h, rfl, he⟩)
    · exact .of_arrival h he
    · exact .of_departure h he
  · exact Reports.arises

end

/-! ## Numbers of lists -/

def registers (log : List (Path × Event)) : List Nat := log.filterMap fun v => v.2.register?

section
variable (label : Path → Nat)

theorem registers_append (xs ys : List (Path × Event)) :
    registers (xs ++ ys) = registers xs ++ registers ys := List.filterMap_append

theorem registers_child (i : Nat) (log : List (Path × Event)) :
    registers (log.map fun v => (i :: v.1, v.2)) = registers log := by
  simp [registers, List.filterMap_map]

theorem registers_accountBelow {rule : Rule} {ns : List Node}
    (h : ∀ n ∈ ns, ∀ label, registers (account label rule n) = (lists rule n).map label) (i : Nat) :
    registers (accountBelow label rule i ns) = (listsBelow rule i ns).map label := by
  induction ns generalizing i with
  | nil => rfl
  | cons n ns ih =>
    rw [List.forall_mem_cons] at h
    rw [accountBelow_cons, registers_append, registers_child, h.1, ih h.2, listsBelow,
      List.map_append, List.map_map]
    rfl

theorem registers_departure (rule : Rule) (n : Node) (p : Path) :
    registers ((departure rule n).map (p, ·)) = [] := by
  unfold departure
  split
  · split <;> rfl
  · rfl

theorem registers_account (rule : Rule) (n : Node) :
    registers (account label rule n) = (lists rule n).map label := by
  induction n using Node.induct generalizing label rule with
  | h n ih =>
    cases hbelow : rule.below n with
    | none => cases rule <;> cases n <;> first | rfl | contradiction
    | some next =>
      obtain ⟨own, hlists, hown⟩ := lists_of_below hbelow
      have hchildren := registers_accountBelow label (fun c hc label => ih c hc label next) 0
      have harrival : registers ((arrival (label []) rule n).map ([], ·)) = own.map label := by
        rcases hown with ⟨rfl, rfl, children, rfl⟩ | ⟨rfl, hne⟩
        · rfl
        · cases rule <;> cases n <;> first | rfl | contradiction | exact absurd rfl (hne _)
      rw [account, around, registers_append, registers_append, registers_departure,
        accountInside_of_below label hbelow, hchildren, harrival, hlists, List.map_append,
        List.append_nil]

theorem map_eq_range' {label : Path → Nat} {k : Nat} {ps : List Path} (h : Numbers label k ps) :
    ps.map label = List.range' (k + 1) ps.length := by
  induction ps generalizing k with
  | nil => rfl
  | cons p ps ih =>
    obtain ⟨hp, hps⟩ := h
    rw [List.map_cons, List.length_cons, List.range'_succ, hp, ih hps]

end

theorem events_typeset_eq (l : Layout) (d : Document) :
    (l.typeset d).events = ((convertAll d.blocks).run 0).events := by
  unfold Layout.typeset
  split <;> simp [Document.page, Document.body]

/-- The events of a rendering are those that the document gives rise to, on their levels and in the order
of their positions; the ordered lists are numbered from one on. -/
theorem events_typeset (l : Layout) (d : Document) : ∃ log : List (Path × Event),
    (l.typeset d).events = log.map Prod.snd ∧ (log.map Prod.fst).Pairwise (· < ·) ∧
    (∀ p e, (p, e) ∈ log ↔ d.Reports p e.level e) ∧
    (l.typeset d).events.filterMap Event.register? =
      List.range' 1 (listsBelow .all 0 d.blocks).length := by
  have hnumbers := numbers_rank (nodup_listsBelow d.blocks) 0
  have htells := tells_convertAll (fun n _ => keepsAccount n) 0 0 hnumbers
  have hregisters := registers_accountBelow (rank 0 (listsBelow .all 0 d.blocks))
    (fun n (_ : n ∈ d.blocks) label => registers_account label .all n) 0
  have hevents := (events_typeset_eq l d).trans htells
  refine ⟨accountBelow (rank 0 (listsBelow .all 0 d.blocks)) .all 0 d.blocks, hevents, ?_, ?_, ?_⟩
  · rw [List.pairwise_map]
    exact pairwise_accountBelow _ (fun n _ label => pairwise_account label .all n) 0
  · intro p e
    have hmem := mem_accountBelow (rank 0 (listsBelow .all 0 d.blocks))
      (fun n (_ : n ∈ d.blocks) label => mem_account label .all n) 0 p e
    simp only [Nat.zero_add, ← arises_meetsBelow] at hmem
    exact hmem.trans arises_iff_reports
  · rw [hevents, List.filterMap_map]
    exact hregisters.trans (map_eq_range' hnumbers)

end ManPage
