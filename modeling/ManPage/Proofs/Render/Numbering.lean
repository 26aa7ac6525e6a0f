import ManPage.Proofs.Render.Regions
import ManPage.Proofs.Render.Settled

/-! # Numbers of items

An ordered list declares a register, each of its items steps and shows it once, and a further paragraph
of an item shows it as it is. A page is run by doing row by row what its requests say. On a page of orderly
nodes, in which no backslash is written without an escape, every list counts its items with paragraphs
from one, and no register is shown in any other way.
-/
namespace ManPage
open Text Fragment

/-! ## Requests -/

inductive Request
  | declare (name : Text)
  | advance (name : Text)
  | hold (name : Text)
deriving DecidableEq, Repr, Inhabited

namespace Request

/-- An item shows the register in brackets; with a plus sign the register is stepped before. -/
def ofItem? : Text → Option Request
  | '\\' :: 'n' :: '+' :: '[' :: t => if t.getLast? = some ']' then some (advance t.dropLast) else none
  | '\\' :: 'n' :: '[' :: t => if t.getLast? = some ']' then some (hold t.dropLast) else none
  | _ => none

/-- The words of a row are divided by blanks. -/
def ofRow? (l : Text) : Option Request :=
  match l.splitOn ' ' with
  | [word, name, first, increment] =>
    if word = ".nr".toList ∧ first = "0".toList ∧ increment = "1".toList then some (declare name)
    else none
  | [word, shown] => if word = ".IP".toList then ofItem? shown else none
  | _ => none

end Request

inductive Signal
  | request (r : Request)
  | stray
deriving DecidableEq, Repr, Inhabited

/-- What a row has to do with registers: it is a request, or shows a register where none should be. -/
def signal? (l : Text) : Option Signal :=
  match Request.ofRow? l with
  | some r => some (.request r)
  | none => if showsRegister l then some .stray else none

/-- The values of the registers that have been declared, and what has been shown so far. -/
structure Counters where
  value : Text → Option Nat
  shown : List (Text × Nat)

namespace Counters

def start : Counters := ⟨fun _ => none, []⟩

def put (value : Text → Option Nat) (name : Text) (n : Nat) : Text → Option Nat :=
  fun other => if other = name then some n else value other

/-- A register must not be declared twice, nor be used before it is declared. -/
def step (c : Counters) : Signal → Option Counters
  | .request (.declare name) =>
    if (c.value name).isSome then none else some ⟨put c.value name 0, c.shown⟩
  | .request (.advance name) =>
    (c.value name).map fun n => ⟨put c.value name (n + 1), c.shown ++ [(name, n + 1)]⟩
  | .request (.hold name) => (c.value name).map fun n => ⟨c.value, c.shown ++ [(name, n)]⟩
  | .stray => none

def run (c : Counters) (ss : List Signal) : Option Counters := ss.foldlM step c

variable (base : Text → Option Nat) (name : Text) (n : Nat)

@[simp] theorem put_self : put base name n name = some n := if_pos rfl

theorem put_of_ne {other : Text} (h : other ≠ name) : put base name n other = base other := if_neg h

@[simp] theorem put_put (m : Nat) : put (put base name n) name m = put base name m := by
  funext other
  by_cases h : other = name
  · rw [h, put_self, put_self]
  · rw [put_of_ne _ _ _ h, put_of_ne _ _ _ h, put_of_ne _ _ _ h]

variable (c : Counters) (s : Signal) (ss ts : List Signal)

theorem run_nil : c.run [] = some c := rfl

theorem run_cons : c.run (s :: ss) = (c.step s).bind (·.run ss) := rfl

theorem run_append : c.run (ss ++ ts) = (c.run ss).bind (·.run ts) := List.foldlM_append

variable {c name n}

theorem step_declare (h : c.value name = none) :
    c.step (.request (.declare name)) = some ⟨put c.value name 0, c.shown⟩ := by
  rw [step, h]
  rfl

theorem step_advance (h : c.value name = some n) : c.step (.request (.advance name)) =
    some ⟨put c.value name (n + 1), c.shown ++ [(name, n + 1)]⟩ := by
  rw [step, h]
  rfl

theorem step_hold (h : c.value name = some n) :
    c.step (.request (.hold name)) = some ⟨c.value, c.shown ++ [(name, n)]⟩ := by
  rw [step, h]
  rfl

end Counters

/-! ## Rows without a request -/

theorem exists_of_splitOn {l word : Text} {words : List Text} (h : l.splitOn ' ' = word :: words) :
    ∃ t, l = word ++ t := by
  have hl : [' '].intercalate (l.splitOn ' ') = l := List.intercalate_splitOn ' '
  rw [h] at hl
  cases words with
  | nil => exact ⟨[], by rw [← hl, List.intercalate_singleton, List.append_nil]⟩
  | cons next words =>
    rw [List.intercalate_cons_cons, List.append_assoc] at hl
    exact ⟨_, hl.symm⟩

theorem not_inert_of_counting {word : Text} (h : word ∈ [".IP".toList, ".nr".toList]) (t : Text) :
    ¬ Inert (word ++ t) := by
  intro hinert
  rw [List.mem_pair] at h
  rcases h with rfl | rfl
  · have hmem : ".IP".toList ∈ harmless := hinert rfl
    exact absurd hmem (by decide)
  · have hmem : ".nr".toList ∈ harmless := hinert rfl
    exact absurd hmem (by decide)

theorem ofRow?_of_inert {l : Text} (h : Inert l) : Request.ofRow? l = none := by
  have hword : ∀ word words, l.splitOn ' ' = word :: words →
      word ∉ [".IP".toList, ".nr".toList] := by
    intro word words hsplit hmem
    obtain ⟨t, rfl⟩ := exists_of_splitOn hsplit
    exact not_inert_of_counting hmem t h
  unfold Request.ofRow?
  split
  · rename_i word _ _ _ hsplit
    refine if_neg ?_
    rintro ⟨rfl, -⟩
    exact hword _ _ hsplit (by decide)
  · rename_i word _ hsplit
    refine if_neg ?_
    rintro rfl
    exact hword _ _ hsplit (by decide)
  · rfl

theorem signal?_of_calm (l : Text) (h : Inert l ∧ Settled l) : signal? l = none := by
  rw [signal?, ofRow?_of_inert h.1, h.2.showsRegister_eq_false]
  rfl

/-! ## Rows with a request -/

section
variable (list : Nat)

theorem signal?_declaration :
    signal? (Marker.declaration list) = some (.request (.declare (Marker.register list))) := by
  have hname : ' ' ∉ Marker.register list := Marker.not_mem_register rfl (by decide) list
  have hrow : Marker.declaration list =
      ".nr".toList ++ ' ' :: (Marker.register list ++ ' ' :: ("0".toList ++ ' ' :: "1".toList)) := by
    rw [Marker.declaration, List.append_assoc]
    rfl
  have hwords : (Marker.declaration list).splitOn ' ' =
      [".nr".toList, Marker.register list, "0".toList, "1".toList] := by
    rw [hrow, List.splitOn_append_cons_self, List.splitOn_append_cons_self,
      List.splitOn_append_cons_self, List.splitOn_eq_singleton hname]
    rfl
  rw [signal?, Request.ofRow?, hwords]
  rfl

theorem signal?_shown {before : Text} (h : ' ' ∉ before) {r : Request}
    (hitem : Request.ofItem? (before ++ Marker.register list ++ [']']) = some r) :
    signal? (".IP ".toList ++ (before ++ Marker.register list ++ [']'])) = some (.request r) := by
  have hshown : ' ' ∉ before ++ Marker.register list ++ [']'] :=
    Marker.not_mem_around rfl (by decide) list h (by decide)
  have hrow (t : Text) : ".IP ".toList ++ t = ".IP".toList ++ ' ' :: t := rfl
  have hwords : (".IP ".toList ++ (before ++ Marker.register list ++ [']'])).splitOn ' ' =
      [".IP".toList, before ++ Marker.register list ++ [']']] := by
    rw [hrow, List.splitOn_append_cons_self, List.splitOn_eq_singleton hshown]
    rfl
  rw [signal?, Request.ofRow?, hwords]
  dsimp only
  rw [if_pos rfl, hitem]

/-- The name in front of the bracket that ends a text. -/
theorem ite_getLast? {α : Type} (name : Text) (f : Text → α) :
    (if (name ++ [']']).getLast? = some ']' then some (f (name ++ [']']).dropLast) else none) =
      some (f name) := by
  rw [List.getLast?_concat, if_pos rfl, List.dropLast_concat]

theorem signal?_first :
    signal? (Marker.step list).first = some (.request (.advance (Marker.register list))) := by
  have hitem : Request.ofItem? ("\\n+[".toList ++ Marker.register list ++ [']']) =
      some (.advance (Marker.register list)) := by
    rw [List.append_assoc]
    exact ite_getLast? (Marker.register list) Request.advance
  exact signal?_shown list (by decide) hitem

theorem signal?_further :
    signal? (Marker.step list).further = some (.request (.hold (Marker.register list))) := by
  have hitem : Request.ofItem? ("\\n[".toList ++ Marker.register list ++ [']']) =
      some (.hold (Marker.register list)) := by
    rw [List.append_assoc]
    exact ite_getLast? (Marker.register list) Request.hold
  exact signal?_shown list (by decide) hitem

end

/-! ## The signals of an outline -/

/-- The signals of an item with so many paragraphs. -/
def itemSignals (name : Text) : Nat → List Signal
  | 0 => []
  | count + 1 => .request (.advance name) :: List.replicate count (.request (.hold name))

def itemsSignals (name : Text) (items : List Node) : List Signal :=
  (items.filter (·.kind == .listItem)).flatMap fun item => itemSignals name item.paragraphCount

/-- The signals of the ordered list with the number given. -/
def listSignals (list : Nat) (n : Node) : List Signal :=
  .request (.declare (Marker.register list)) :: itemsSignals (Marker.register list) n.children

theorem signals_listMacros_step (list : Nat) (items : List Node) :
    (listMacros (.step list) items).filterMap signal? =
      itemsSignals (Marker.register list) items := by
  rw [listMacros, itemsSignals, List.filterMap_flatMap]
  congr 1
  funext item
  cases item.paragraphCount with
  | zero => rfl
  | succ count =>
    rw [openings, List.filterMap_cons, signal?_first, itemSignals,
      List.filterMap_replicate_of_some (signal?_further list)]

theorem signals_listMacros_bullet (items : List Node) :
    (listMacros .bullet items).filterMap signal? = [] :=
  filterMap_listMacros_eq_nil (by decide) (by decide) items

theorem signals_enclosed (inside : List Text) :
    (enclosed inside).filterMap signal? = inside.filterMap signal? := by
  have hopen : [".RS".toList].filterMap signal? = [] := by decide
  have hclose : [".RE".toList].filterMap signal? = [] := by decide
  rw [filterMap_enclosed, hopen, hclose, List.nil_append, List.append_nil]

theorem signals_outlineBelow {ns : List Node}
    (h : ∀ n ∈ ns, ∀ label, (outline label n).filterMap signal? =
      (ordered (visited .all n)).flatMap fun v => listSignals (label v.1) v.2)
    (label : Path → Nat) (i : Nat) : (outlineBelow label i ns).filterMap signal? =
      (ordered (visitedBelow .all i ns)).flatMap fun v => listSignals (label v.1) v.2 := by
  induction ns generalizing i with
  | nil => rfl
  | cons n ns ih =>
    rw [List.forall_mem_cons] at h
    rw [outlineBelow, visitedBelow, List.filterMap_append, ordered_append, ordered_child,
      List.flatMap_append, List.flatMap_map, h.1, ih h.2]
    rfl

theorem ordered_of_noRegion {vs : List (Path × Node)} (h : ∀ v ∈ vs, v.2.kind.region? = none) :
    ordered vs = [] := by
  rw [ordered, List.filter_eq_nil_iff]
  intro v hv
  have hregion := h v hv
  cases hkind : v.2.kind <;> first | exact Bool.false_ne_true | skip
  rw [hkind] at hregion
  contradiction

/-- An outline declares and steps the registers of the ordered lists, one list behind the other. -/
theorem signals_outline {n : Node} (h : EachVisited Node.KeepsInline .all n) (label : Path → Nat) :
    (outline label n).filterMap signal? =
      (ordered (visited .all n)).flatMap fun v => listSignals (label v.1) v.2 := by
  induction n using Node.induct generalizing label with
  | h n ih =>
    have hitems : Rule.below .all n = some .items → ordered (visitedBelow .items 0 n.children) = [] :=
      fun hbelow => ordered_of_noRegion (noRegion_below_items h hbelow)
    have hnone : n.kind.region? = none → ordered (visited .all n) = [] := fun hn =>
      ordered_of_noRegion (eachVisited_noRegion h fun _ => hn)
    cases n with
    | bulletList items =>
      have hself : ordered [([], Node.bulletList items)] = [] := rfl
      rw [outline, signals_enclosed, signals_listMacros_bullet, visited_of_below rfl,
        ← List.singleton_append, ordered_append, hself, hitems rfl]
      rfl
    | orderedList items =>
      have hself : ordered [([], Node.orderedList items)] = [([], .orderedList items)] := rfl
      rw [outline, List.filterMap_cons, signal?_declaration, signals_enclosed,
        signals_listMacros_step, visited_of_below rfl, ← List.singleton_append, ordered_append, hself,
        hitems rfl, List.append_nil, List.flatMap_singleton]
      rfl
    | blockQuote children =>
      have hchildren : ∀ c ∈ children, EachVisited Node.KeepsInline .all c := h.children rfl
      have hself : ordered [([], Node.blockQuote children)] = [] := rfl
      have hbelow := signals_outlineBelow (fun c hc label => ih c hc (hchildren c hc) label) label 0
      rw [outline, signals_enclosed, visited_of_below rfl, ← List.singleton_append, ordered_append,
        hself]
      exact hbelow
    | codeBlock value =>
      have hedges : [".nf".toList, ".fi".toList].filterMap signal? = [] := by decide
      exact hedges
    | _ =>
      rw [hnone rfl]
      rfl

/-! ## Running a page -/

/-- The items that take a number: those that have a paragraph. -/
def countedItems (items : List Node) : List Node :=
  (items.filter (·.kind == .listItem)).filter (0 < ·.paragraphCount)

/-- The numbers that a list shows: that of each counted item as often as it has paragraphs. -/
def shownNumbers (items : List Node) : List Nat :=
  ((countedItems items).zipIdx 1).flatMap fun u => List.replicate u.1.paragraphCount u.2

namespace Counters

section
variable (base : Text → Option Nat) (name : Text) (n : Nat) (shown : List (Text × Nat))

theorem run_holds (count : Nat) :
    run ⟨put base name n, shown⟩ (List.replicate count (.request (.hold name))) =
      some ⟨put base name n, shown ++ List.replicate count (name, n)⟩ := by
  induction count generalizing shown with
  | zero => rw [List.replicate_zero, List.replicate_zero, List.append_nil, run_nil]
  | succ count ih =>
    have hstep := step_hold (c := ⟨put base name n, shown⟩) (put_self base name n)
    rw [List.replicate_succ, List.replicate_succ, run_cons, hstep, Option.bind_some, ih,
      List.append_assoc, List.singleton_append]

/-- An item with paragraphs steps the register and shows it once for each of them. -/
theorem run_itemSignals (count : Nat) :
    run ⟨put base name n, shown⟩ (itemSignals name (count + 1)) =
      some ⟨put base name (n + 1), shown ++ List.replicate (count + 1) (name, n + 1)⟩ := by
  have hstep := step_advance (c := ⟨put base name n, shown⟩) (put_self base name n)
  rw [itemSignals, run_cons, hstep, Option.bind_some, put_put, run_holds, List.append_assoc,
    List.singleton_append, List.replicate_succ]

/-- Items without a paragraph neither step the register nor show it. -/
theorem run_items (items : List Node) :
    run ⟨put base name n, shown⟩ (items.flatMap fun item => itemSignals name item.paragraphCount) =
      some ⟨put base name (n + (items.filter (0 < ·.paragraphCount)).length),
        shown ++ ((items.filter (0 < ·.paragraphCount)).zipIdx (n + 1)).flatMap fun u =>
          List.replicate u.1.paragraphCount (name, u.2)⟩ := by
  induction items generalizing n shown with
  | nil => exact congrArg some (congrArg _ (List.append_nil shown).symm)
  | cons item items ih =>
    rw [List.flatMap_cons]
    cases hcount : item.paragraphCount with
    | zero =>
      have hcounted : (item :: items).filter (0 < ·.paragraphCount) =
          items.filter (0 < ·.paragraphCount) := by
        simp [hcount]
      rw [hcounted]
      exact ih n shown
    | succ count =>
      have hcounted : (item :: items).filter (0 < ·.paragraphCount) =
          item :: items.filter (0 < ·.paragraphCount) := by
        simp [hcount]
      rw [hcounted, run_append, run_itemSignals, Option.bind_some, ih, List.zipIdx_cons,
        List.flatMap_cons, hcount, List.length_cons, List.append_assoc, Nat.add_assoc n 1,
        Nat.add_comm 1]

end

/-- A list whose register has not been declared before shows the numbers of its items. -/
theorem run_listSignals {c : Counters} {list : Nat} (h : c.value (Marker.register list) = none)
    (n : Node) : c.run (listSignals list n) =
      some ⟨put c.value (Marker.register list) (countedItems n.children).length,
        c.shown ++ (shownNumbers n.children).map (Marker.register list, ·)⟩ := by
  rw [listSignals, run_cons, step_declare h, Option.bind_some, itemsSignals, run_items, Nat.zero_add,
    shownNumbers, List.map_flatMap]
  simp only [List.map_replicate]
  rfl

/-- Lists that are numbered from behind `k` are run one behind the other: none has the register of
another. -/
theorem run_lists (ns : List Node) (k : Nat) {c : Counters}
    (h : ∀ i, k < i → c.value (Marker.register i) = none) :
    (c.run ((ns.zipIdx (k + 1)).flatMap fun u => listSignals u.2 u.1)).map Counters.shown =
      some (c.shown ++ (ns.zipIdx (k + 1)).flatMap fun u =>
        (shownNumbers u.1.children).map (Marker.register u.2, ·)) := by
  induction ns generalizing k c with
  | nil => exact congrArg some (List.append_nil c.shown).symm
  | cons n ns ih =>
    have hlist := run_listSignals (h (k + 1) (Nat.lt_succ_self k)) n
    have hfresh : ∀ i, k + 1 < i →
        put c.value (Marker.register (k + 1)) (countedItems n.children).length
          (Marker.register i) = none := by
      intro i hi
      have hne : Marker.register i ≠ Marker.register (k + 1) := by
        intro heq
        have hnumber := register_injective heq
        omega
      rw [put_of_ne _ _ _ hne]
      exact h i (by omega)
    rw [List.zipIdx_cons, List.flatMap_cons, List.flatMap_cons, run_append, hlist, Option.bind_some,
      ih (k + 1) hfresh, List.append_assoc]

end Counters

/-- Labels that number the nodes in their order are their places. -/
theorem flatMap_numbers {α : Type} (g : Nat → Node → List α) {label : Path → Nat}
    (vs : List (Path × Node)) (k : Nat) (h : Numbers label k (vs.map Prod.fst)) :
    vs.flatMap (fun v => g (label v.1) v.2) =
      ((vs.map Prod.snd).zipIdx (k + 1)).flatMap fun u => g u.2 u.1 := by
  induction vs generalizing k with
  | nil => rfl
  | cons v vs ih =>
    obtain ⟨hv, hrest⟩ := h
    rw [List.map_cons, List.zipIdx_cons, List.flatMap_cons, List.flatMap_cons, hv, ih (k + 1) hrest]

/-- The visited ordered lists in their order. -/
def Document.orderedLists (d : Document) : List Node := (ordered d.visited).map Prod.snd

theorem signals_render {d : Document} (horderly : ∀ v ∈ d.visited, v.2.Orderly)
    (hraw : ∀ v ∈ d.visited, ∀ s ∈ v.2.rawStrings, '\\' ∉ s) :
    (rows d.render).filterMap signal? =
      (d.orderedLists.zipIdx 1).flatMap fun u => listSignals u.2 u.1 := by
  have hsober : ∀ v ∈ d.visited, v.2.Sober fun l => Inert l ∧ Settled l := by
    intro v hv
    refine ⟨(horderly v hv).spans, ?_⟩
    intro l hl
    exact ⟨inert_own (horderly v hv).undotted l hl, settled_own (hraw v hv) l hl⟩
  have hplain : ∀ t ∈ plainMacros, Inert t ∧ Settled t := fun t ht =>
    ⟨inert_plainMacros t ht, settled_plainMacros t ht⟩
  have hkeeps : ∀ n ∈ d.blocks, EachVisited Node.KeepsInline .all n :=
    forall_visitedBelow.mp fun v hv => (horderly v hv).spans
  have hrender : (rows d.render).filterMap signal? = d.outline.filterMap signal? :=
    answers_render signal?_of_calm (rowLaw_inert.and rowLaw_settled) hplain hsober
  have hlabels := numbers_rank (nodup_listsBelow d.blocks) 0
  rw [hrender, Document.outline,
    signals_outlineBelow (fun n hn label => signals_outline (hkeeps n hn) label)]
  refine flatMap_numbers listSignals (ordered (visitedBelow .all 0 d.blocks)) 0 ?_
  rw [← listsBelow_eq (fun n _ => lists_eq .all n)]
  exact hlabels

/-- On the page of a document whose visited nodes are orderly and write no backslash as it is, the
registers show the numbers of the items, list by list in the order of the document: the counted items of
each list are numbered from one, and each shows its number at its first paragraph and again at every
further one. The page is run to its end, so that no register is declared twice, none is shown before it is
declared, and none in any other row. Every visited list is among the visited nodes once. -/
theorem numbers_shown {d : Document} (horderly : ∀ v ∈ d.visited, v.2.Orderly)
    (hraw : ∀ v ∈ d.visited, ∀ s ∈ v.2.rawStrings, '\\' ∉ s) :
    (Counters.start.run ((rows d.render).filterMap signal?)).map Counters.shown =
      some ((d.orderedLists.zipIdx 1).flatMap fun u =>
        (shownNumbers u.1.children).map (Marker.register u.2, ·)) ∧
    (d.visited.map Prod.fst).Pairwise (· < ·) ∧
    ∀ p n, (p, n) ∈ d.visited ↔ d.Visits p n := by
  refine ⟨?_, d.pairwise_visited, d.mem_visited⟩
  have hrun := Counters.run_lists d.orderedLists 0 (c := Counters.start) fun _ _ => rfl
  rw [signals_render horderly hraw]
  exact hrun

/-- Lists beside and inside a block quote, with items that have no paragraph and text that looks like a
request. -/
def countedPage : Document :=
  ⟨[.comment "\\n[step1]".toList,
    .orderedList [
      .listItem [.text ".nr step1 0 1".toList],
      .listItem [.paragraph [.text "\\n+[step1]".toList], .orderedList [], .paragraph []],
      .paragraph [.codeSpan "\\n[step2]".toList],
      .listItem [.rule, .paragraph [.link "man:a(1)".toList []]]],
    .blockQuote [
      .bulletList [.listItem [.paragraph [.codeSpan "b".toList]]],
      .orderedList [],
      .orderedList [.listItem [.paragraph [], .paragraph []]]]]⟩

theorem numbers_shown_counted :
    (∀ v ∈ countedPage.visited, v.2.Orderly) ∧
    (∀ v ∈ countedPage.visited, ∀ s ∈ v.2.rawStrings, '\\' ∉ s) ∧
    (Counters.start.run ((rows countedPage.render).filterMap signal?)).map Counters.shown =
      some [("step1".toList, 1), ("step1".toList, 1), ("step1".toList, 2), ("step3".toList, 1),
        ("step3".toList, 1)] := by
  have horderly : ∀ v ∈ countedPage.visited, v.2.Orderly := by decide
  have hraw : ∀ v ∈ countedPage.visited, ∀ s ∈ v.2.rawStrings, '\\' ∉ s := by decide
  exact ⟨horderly, hraw, (numbers_shown horderly hraw).1.trans (by decide)⟩

end ManPage
