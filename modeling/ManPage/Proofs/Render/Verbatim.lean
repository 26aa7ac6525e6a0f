import ManPage.Proofs.Render.Registers
import ManPage.Proofs.Text.Trim

/-! # Code spans

The value of a code span is not escaped. It stands on the page as it is, between its font changes, and no
trim reaches it: a trim stops at the font changes. Only a link may leave out its text, and then the code
spans in it are left out with it.
-/
namespace ManPage
open Text Fragment

namespace Node

def code? : Node → Option Text
  | codeSpan value => some value
  | _ => none

/-- A link that leaves out its text: to a man page, or to a mail address that the text repeats. -/
def isSilent (label : Path → Nat) : Node → Bool
  | link href children =>
    match LinkTarget.ofHref href with
    | .manPage _ _ => true
    | .mail address => Fragment.inline (typesetAll label 0 children) = address
    | .url _ => false
  | _ => false

/-- The path leads through a link that leaves out its text. -/
def hides (label : Path → Nat) : Path → Node → Bool
  | [], _ => false
  | i :: p, n => n.isSilent label || (n.children[i]?).any (hides (childLabels label i) p)

end Node

namespace Document

/-- The path leads through a link that leaves out its text; the ordered lists in it are numbered in
pre-order. -/
def hides (d : Document) : Path → Bool
  | [] => false
  | i :: p => (d.blocks[i]?).any
    (Node.hides (childLabels (rank 0 (listsBelow .all 0 d.blocks)) i) p)

/-- The values of the visited code spans in pre-order, but for those in the text of a link that leaves it
out. -/
def codes (d : Document) : List Text :=
  d.visited.filterMap fun v => if d.hides v.1 then none else v.2.code?

end Document

/-! ## The values below a node -/

section
variable (label : Path → Nat)

def codes (rule : Rule) (n : Node) : List Text :=
  (visited rule n).filterMap fun v => if n.hides label v.1 then none else v.2.code?

def codesBelow (rule : Rule) (i : Nat) : List Node → List Text
  | [] => []
  | n :: ns => codes (childLabels label i) rule n ++ codesBelow rule (i + 1) ns

/-- The values below nodes, where they are looked up in the list of all nodes. -/
theorem filterMap_visitedBelow {rule : Rule} {all ns : List Node} {i : Nat} (h : all.drop i = ns)
    (hidden : Path → Bool)
    (hhidden : ∀ j p, hidden (j :: p) = (all[j]?).any (Node.hides (childLabels label j) p)) :
    (visitedBelow rule i ns).filterMap (fun v => if hidden v.1 then none else v.2.code?) =
      codesBelow label rule i ns := by
  induction ns generalizing i with
  | nil => rfl
  | cons n ns ih =>
    have hi : all[i]? = some n := by
      rw [← List.head?_drop, h, List.head?_cons]
    have hmore : all.drop (i + 1) = ns := by
      rw [← List.tail_drop, h, List.tail_cons]
    rw [visitedBelow, List.filterMap_append, List.filterMap_map, ih hmore, codesBelow, codes]
    simp only [Function.comp_def, hhidden, hi, Option.any_some]

theorem codes_of_below {rule next : Rule} {n : Node} (h : rule.below n = some next) :
    codes label rule n = if n.isSilent label then [] else codesBelow label next 0 n.children := by
  have hself : n.code? = none := by
    cases n <;> first | rfl | (cases rule <;> contradiction)
  rw [codes, visited_of_below h, List.filterMap_cons_none (by simp [Node.hides, hself])]
  split
  · rename_i hsilent
    refine List.filterMap_eq_nil_iff.mpr ?_
    intro v hv
    obtain ⟨j, q, hpath, -⟩ := le_of_mem_visitedBelow (List.mem_map_of_mem hv)
    simp [hpath, Node.hides, hsilent]
  · rename_i hsilent
    have hall : n.children.drop 0 = n.children := List.drop_zero
    refine filterMap_visitedBelow label hall (fun p => Node.hides label p n) ?_
    intro j p
    simp [Node.hides, hsilent]

theorem codes_of_below_none {n : Node} (h : Rule.below .all n = none) :
    codes label .all n = n.code?.toList := by
  rcases visited_of_below_none h with ⟨hvisited, -⟩ | ⟨-, hnot⟩
  · rw [codes, hvisited]
    cases hcode : n.code? <;> simp [Node.hides, hcode]
  · exact absurd trivial hnot

theorem codes_of_not_admits {rule : Rule} {n : Node} (h : ¬ rule.admits n) :
    codes label rule n = [] := by
  cases hbelow : rule.below n with
  | some next => exact absurd (admits_of_below hbelow) h
  | none =>
    rcases visited_of_below_none hbelow with ⟨-, hadmits⟩ | ⟨hvisited, -⟩
    · exact absurd hadmits h
    · rw [codes, hvisited]
      rfl

end

/-! ## Texts with code -/

/-- The values stand in the text as code, in this order and apart from each other. -/
def Holds (vs : List Text) (t : Text) : Prop :=
  ∃ fragments, (vs.map codeSpan).Sublist fragments ∧ t = fragments.flatten

theorem exists_codeSpan (value : Text) : ∃ s, codeSpan value = '\\' :: (s ++ ['R']) := by
  have hcode : "\\fB\\fC".toList = ['\\', 'f', 'B', '\\', 'f', 'C'] := rfl
  have hroman : "\\fR".toList = ['\\', 'f', 'R'] := rfl
  refine ⟨['f', 'B', '\\', 'f', 'C'] ++ value ++ ['\\', 'f'], ?_⟩
  unfold codeSpan
  simp [hcode, hroman]

theorem eq_of_shorn_codeSpan {value piece : Text} (h : Shorn (codeSpan value) piece) :
    piece = codeSpan value := by
  obtain ⟨s, hs⟩ := exists_codeSpan value
  rw [hs] at h ⊢
  exact h.eq_of_black (by decide) (by decide)

/-- Code is found again among fragments that have lost white space. -/
theorem sublist_of_forall₂_shorn {vs fragments pieces : List Text}
    (h : (vs.map codeSpan).Sublist fragments) (hpieces : List.Forall₂ Shorn fragments pieces) :
    (vs.map codeSpan).Sublist pieces := by
  induction hpieces generalizing vs with
  | nil => exact h
  | @cons fragment piece fragments pieces hpiece hpieces ih =>
    cases vs with
    | nil => exact List.nil_sublist _
    | cons v vs =>
      rw [List.map_cons] at h ⊢
      cases h with
      | cons _ h =>
        have hbehind : ((v :: vs).map codeSpan).Sublist fragments := h
        exact (ih hbehind).cons piece
      | cons_cons _ h =>
        -- Of all fragments the ones that are code have lost nothing.
        rw [eq_of_shorn_codeSpan hpiece]
        exact (ih h).cons_cons _

section
variable {vs ws : List Text} {s t : Text}

theorem holds_nil (t : Text) : Holds [] t :=
  ⟨[t], List.nil_sublist _, by simp⟩

theorem holds_codeSpan (value : Text) : Holds [value] (codeSpan value) :=
  ⟨[codeSpan value], .refl _, by simp⟩

theorem Holds.append (hs : Holds vs s) (ht : Holds ws t) : Holds (vs ++ ws) (s ++ t) := by
  obtain ⟨fs, hfs, rfl⟩ := hs
  obtain ⟨gs, hgs, rfl⟩ := ht
  refine ⟨fs ++ gs, ?_, List.flatten_append.symm⟩
  rw [List.map_append]
  exact hfs.append hgs

theorem Holds.before (h : Holds vs t) (s : Text) : Holds vs (s ++ t) := (holds_nil s).append h

theorem Holds.after (h : Holds vs s) (t : Text) : Holds vs (s ++ t) := by
  have hboth := h.append (holds_nil t)
  rwa [List.append_nil] at hboth

theorem Holds.of_assembles (h : Holds vs s)
    (ht : ∀ fragments, Assembles fragments s → Assembles fragments t) : Holds vs t := by
  obtain ⟨fragments, hvs, rfl⟩ := h
  have hself : Assembles fragments fragments.flatten :=
    ⟨fragments, List.forall₂_same.mpr fun f _ => .refl f, rfl⟩
  obtain ⟨pieces, hpieces, heq⟩ := ht fragments hself
  exact ⟨pieces, sublist_of_forall₂_shorn hvs hpieces, heq⟩

theorem Holds.trimEnd (h : Holds vs t) : Holds vs (trimEnd t) :=
  h.of_assembles fun _ => Assembles.trimEnd

theorem Holds.trim (h : Holds vs t) : Holds vs (trim t) := h.of_assembles fun _ => Assembles.trim

end

/-- Each of the values stands in one of the texts. -/
inductive AllHold : List Text → List Text → Prop
  | nil : AllHold [] []
  | cons {vs ws parts : List Text} {part : Text} (h : Holds vs part) (hmore : AllHold ws parts) :
    AllHold (vs ++ ws) (part :: parts)

section
variable {vs ws parts more : List Text}

theorem AllHold.append (h : AllHold vs parts) (hmore : AllHold ws more) :
    AllHold (vs ++ ws) (parts ++ more) := by
  induction h with
  | nil => exact hmore
  | cons h _ ih =>
    rw [List.append_assoc]
    exact .cons h ih

theorem Holds.single {t : Text} (h : Holds vs t) : AllHold vs [t] := by
  have hone := AllHold.cons h .nil
  rwa [List.append_nil] at hone

theorem AllHold.flatten (h : AllHold vs parts) : Holds vs parts.flatten := by
  induction h with
  | nil => exact holds_nil []
  | cons h _ ih => exact h.append ih

theorem AllHold.inline (h : AllHold vs parts) : Holds vs (inline parts) := h.flatten.trim

theorem AllHold.joinLines (h : AllHold vs parts) : Holds vs (joinLines parts) := by
  induction h with
  | nil => exact holds_nil []
  | @cons vs ws parts part h hmore ih =>
    cases parts with
    | nil =>
      have hboth := h.append ih
      rwa [joinLines_singleton, ← List.append_nil part]
    | cons next parts =>
      rw [joinLines_cons_cons]
      exact h.append (ih.before ['\n'])

theorem AllHold.of_single {t : Text} (h : AllHold vs [t]) : Holds vs t := by
  have hflat := h.flatten
  rwa [List.flatten_singleton] at hflat

end

/-! ## Fragments -/

/-- The code of a node stands in its fragment, that of its children in theirs, and that of its paragraphs in
theirs, however the lists are labelled. -/
structure KeepsCode (n : Node) : Prop where
  self : ∀ label, AllHold (codes label .all n) (typeset label n).toList
  children : ∀ label, AllHold (codesBelow label .all 0 n.children) (typesetAll label 0 n.children)
  paragraphs : ∀ opening further label, AllHold (codesBelow label .paragraphs 0 n.children)
    (typesetParagraphs opening further label 0 n.children)

section
variable {ns : List Node} (hns : ∀ n ∈ ns, KeepsCode n) (label : Path → Nat)
include hns

theorem allHold_typesetAll (i : Nat) :
    AllHold (codesBelow label .all i ns) (typesetAll label i ns) := by
  induction ns generalizing i with
  | nil => exact .nil
  | cons n ns ih =>
    rw [List.forall_mem_cons] at hns
    rw [codesBelow, typesetAll]
    exact (hns.1.self _).append (ih hns.2 (i + 1))

theorem allHold_typesetQuoted (i : Nat) :
    AllHold (codesBelow label .all i ns) (typesetQuoted label i ns) := by
  induction ns generalizing i with
  | nil => exact .nil
  | cons n ns ih =>
    rw [List.forall_mem_cons] at hns
    rw [codesBelow]
    by_cases hp : n.IsParagraph
    · obtain ⟨children, rfl⟩ := hp
      have hcodes := codes_of_below (childLabels label i) (rfl :
        Rule.below .all (.paragraph children) = some .all)
      rw [typesetQuoted, hcodes]
      exact .cons (hns.1.children _).inline (ih hns.2 (i + 1))
    · rw [typesetQuoted_of_ne ns label i hp]
      exact (hns.1.self _).append (ih hns.2 (i + 1))

theorem allHold_typesetItems (marker : Marker) (i : Nat) :
    AllHold (codesBelow label .items i ns) (typesetItems marker label i ns) := by
  induction ns generalizing i with
  | nil => exact .nil
  | cons n ns ih =>
    rw [List.forall_mem_cons] at hns
    rw [codesBelow]
    by_cases hp : n.IsItem
    · obtain ⟨children, rfl⟩ := hp
      have hcodes := codes_of_below (childLabels label i) (rfl :
        Rule.below .items (.listItem children) = some .paragraphs)
      rw [typesetItems, hcodes]
      exact .cons (hns.1.paragraphs _ _ _).joinLines (ih hns.2 (i + 1))
    · have hcodes : codes (childLabels label i) .items n = [] := codes_of_not_admits _ hp
      rw [typesetItems_of_ne ns label i marker hp, hcodes]
      exact ih hns.2 (i + 1)

theorem allHold_typesetParagraphs (opening further : Text) (i : Nat) :
    AllHold (codesBelow label .paragraphs i ns) (typesetParagraphs opening further label i ns) := by
  induction ns generalizing opening i with
  | nil => exact .nil
  | cons n ns ih =>
    rw [List.forall_mem_cons] at hns
    rw [codesBelow]
    by_cases hp : n.IsParagraph
    · obtain ⟨children, rfl⟩ := hp
      have hcodes := codes_of_below (childLabels label i) (rfl :
        Rule.below .paragraphs (.paragraph children) = some .all)
      rw [typesetParagraphs, hcodes]
      exact .cons (((hns.1.children _).inline.before ['\n']).before opening) (ih hns.2 further (i + 1))
    · have hcodes : codes (childLabels label i) .paragraphs n = [] := codes_of_not_admits _ hp
      rw [typesetParagraphs_of_ne ns label i opening further hp, hcodes]
      exact ih hns.2 opening (i + 1)

end

/-- The code in a link stands in its fragment unless the link leaves out its text. -/
theorem holds_link {label : Path → Nat} {href : Text} {children : List Node} {vs : List Text}
    (h : AllHold vs (typesetAll label 0 children)) :
    Holds (if (Node.link href children).isSilent label then [] else vs)
      (link href (Fragment.inline (typesetAll label 0 children))) := by
  by_cases hsilent : (Node.link href children).isSilent label
  · rw [if_pos hsilent]
    exact holds_nil _
  · rw [if_neg hsilent]
    rw [link]
    cases hhref : LinkTarget.ofHref href with
    | mail address =>
      have hother : Fragment.inline (typesetAll label 0 children) ≠ address := by
        simpa [Node.isSilent, hhref] using hsilent
      simp only [if_neg hother]
      exact ((h.inline.after _).after _).after _
    | manPage name sec => simp [Node.isSilent, hhref] at hsilent
    | url href => exact ((h.inline.after _).after _).after _

/-- The code in a definition stands in its term or in what follows the description. -/
theorem holds_definition {vs ws : List Text} {term rest : Text} (hterm : Holds vs term)
    (hrest : Holds ws rest) (value : Text) : Holds (vs ++ ws) (definition term value rest) := by
  have hfirst := ((hterm.before ".TP\n".toList).after ('\n' :: trimStart (escape value)))
  exact (hfirst.append (hrest.before ['\n'])).trimEnd

theorem holds_paragraph {children : List Node} (h : ∀ c ∈ children, KeepsCode c)
    (label : Path → Nat) : Holds (codesBelow label .all 0 children)
      (paragraph children (typesetAll label 0 children)) := by
  unfold paragraph
  cases hdescription : description? children with
  | none =>
    exact (allHold_typesetAll h label 0).inline.before ".PP\n".toList
  | some value =>
    obtain ⟨term, rest, rfl, hterm⟩ := description?_eq_some hdescription
    rw [List.forall_mem_cons, List.forall_mem_cons] at h
    have hself := h.1.self (childLabels label 0)
    have hrest := (allHold_typesetAll h.2.2 label 2).inline
    obtain ⟨part, hpart⟩ : ∃ part, typeset (childLabels label 0) term = some part := by
      rcases hterm with ⟨inside, rfl⟩ | ⟨code, rfl⟩ <;> exact ⟨_, rfl⟩
    -- The first two fragments are the term and the description, which has no code in it.
    have hcodes : codes (childLabels label 1) .all (.text value) = [] := rfl
    have hparts : typesetAll label 0 (term :: .text value :: rest) =
        part :: escape value :: typesetAll label 2 rest := by
      simp [typesetAll, typeset, hpart]
    rw [hpart] at hself
    rw [hparts, codesBelow, codesBelow, hcodes, List.nil_append]
    exact holds_definition hself.of_single hrest value

theorem allHold_typeset {n : Node} (h : ∀ c ∈ n.children, KeepsCode c) (label : Path → Nat) :
    AllHold (codes label .all n) (typeset label n).toList := by
  cases n with
  | blank | text _ | abbreviation _ | typographic _ | quote _ | header _ _ _ | rule | codeBlock _
  | comment _ =>
    rw [codes_of_below_none label rfl]
    exact (holds_nil _).single
  | codeSpan value =>
    rw [codes_of_below_none label rfl]
    exact (holds_codeSpan value).single
  | listItem _ | unknown =>
    rw [codes_of_below_none label rfl]
    exact .nil
  | bulletList children =>
    have hitems := allHold_typesetItems h label .bullet 0
    rw [codes_of_below label rfl]
    exact ((hitems.joinLines.before ".RS\n".toList).after "\n.RE".toList).single
  | orderedList children =>
    have hitems := allHold_typesetItems h label (.step (label [])) 0
    have hlist := (hitems.joinLines.before ".RS\n".toList).after "\n.RE".toList
    rw [codes_of_below label rfl]
    exact ((hlist.before ['\n']).before (Marker.declaration (label []))).single
  | blockQuote children =>
    have hquoted := allHold_typesetQuoted h label 0
    have hquote := (hquoted.joinLines.before ".RS\n".toList).after "\n.RE".toList
    rw [codes_of_below label rfl]
    exact (hquote.before ".PP\n".toList).single
  | paragraph children =>
    rw [codes_of_below label rfl]
    exact (holds_paragraph h label).single
  | emphasis children | strong children =>
    have hall := allHold_typesetAll h label 0
    rw [codes_of_below label rfl]
    exact ((hall.inline.before _).after _).single
  | link href children =>
    have hall := allHold_typesetAll h label 0
    rw [codes_of_below label rfl]
    exact (holds_link hall).single

theorem keepsCode (n : Node) : KeepsCode n := by
  induction n using Node.induct with
  | h n ih =>
    refine ⟨allHold_typeset ih, ?_, ?_⟩
    · intro label
      exact allHold_typesetAll ih label 0
    · intro opening further label
      exact allHold_typesetParagraphs ih label opening further 0

/-! ## Pages -/

theorem codes_eq (d : Document) : d.codes =
    codesBelow (rank 0 (listsBelow .all 0 d.blocks)) .all 0 d.blocks := by
  have hall : d.blocks.drop 0 = d.blocks := List.drop_zero
  exact filterMap_visitedBelow _ hall d.hides fun j p => rfl

/-- What stands before the first value, and behind each of them. -/
theorem Holds.exists_gaps {vs : List Text} {t : Text} (h : Holds vs t) :
    ∃ (first : Text) (gaps : List Text), gaps.length = vs.length ∧
      t = first ++ (List.zipWith (fun v gap => codeSpan v ++ gap) vs gaps).flatten := by
  obtain ⟨fragments, hvs, rfl⟩ := h
  induction fragments generalizing vs with
  | nil =>
    obtain rfl := List.map_eq_nil_iff.mp (List.sublist_nil.mp hvs)
    exact ⟨[], [], rfl, rfl⟩
  | cons f fragments ih =>
    rw [List.flatten_cons]
    cases vs with
    | nil => exact ⟨f ++ fragments.flatten, [], rfl, by simp⟩
    | cons v vs =>
      rw [List.map_cons] at hvs
      cases hvs with
      | cons _ hvs =>
        have hbehind : ((v :: vs).map codeSpan).Sublist fragments := hvs
        obtain ⟨first, gaps, hlength, heq⟩ := ih hbehind
        rw [heq, ← List.append_assoc]
        exact ⟨f ++ first, gaps, hlength, rfl⟩
      | cons_cons _ hvs =>
        obtain ⟨first, gaps, hlength, heq⟩ := ih hvs
        refine ⟨[], first :: gaps, congrArg (· + 1) hlength, ?_⟩
        rw [heq, List.zipWith_cons_cons, List.flatten_cons, List.nil_append, List.append_assoc]

theorem holds_render (l : Layout) (d : Document) : Holds d.codes (l.render d) := by
  have hnumbers := numbers_rank (nodup_listsBelow d.blocks) 0
  obtain ⟨hbody, -⟩ := gives_body d 0 hnumbers
  have hcodes : Holds d.codes (d.body.run 0).result := by
    rw [codes_eq, hbody]
    exact (allHold_typesetAll (fun n _ => keepsCode n) _ 0).joinLines
  have hpage : Holds d.codes (d.page.run 0).result := by
    rw [Document.page, Conversion.run_map]
    exact (hcodes.before ['\n']).before bannerLines
  have hclose {t : Text} (h : Holds d.codes t) : Holds d.codes (l.close t) := by
    unfold Layout.close
    split
    · exact h.after ['\n']
    · exact h
  unfold Layout.render Layout.typeset
  rw [Conversion.run_map]
  split
  · exact hclose hpage
  · exact hclose hcodes

/-- Every visited code span that no link leaves out stands on the page in its place in the order, with its
value as it is. -/
theorem codes_render (l : Layout) (d : Document) :
    ∃ (first : Text) (gaps : List Text), gaps.length = d.codes.length ∧
      l.render d = first ++ (List.zipWith
        (fun v gap => "\\fB\\fC".toList ++ v ++ "\\fR".toList ++ gap) d.codes gaps).flatten :=
  (holds_render l d).exists_gaps

/-- White space is a value as any other; the code in the text of a reference is left out. -/
example : Document.codes ⟨[.paragraph [.codeSpan " ".toList, .text "\ta".toList,
    .link "man:b".toList [.codeSpan "b".toList]], .header 1 "c".toList [.codeSpan "c".toList]]⟩ =
    [" ".toList] := by decide

end ManPage
