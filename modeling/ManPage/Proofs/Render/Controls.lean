import ManPage.Proofs.Render.Registers
import ManPage.Proofs.Text.Rows

/-! # Control lines

A row of a page that starts with a dot or an apostrophe is read as a request, whether it was meant as one
or not. A document of plain text has headers, lists, block quotes, code and paragraphs of words. Its
control lines are those that its structure writes and, in the place of each passage of its text, the rows
of the passage that start with such a character. Escaping leaves these rows as they are, so that the text
is without effect on the control lines where no passage has such a row, and only there.
-/
namespace ManPage
open Text Fragment

namespace Text

/-- The row is read as a request. -/
def isControl : Text → Bool
  | [] => false
  | c :: _ => ".'".toList.contains c

def controls (t : Text) : List Text := (rows t).filter isControl

@[simp] theorem controls_nil : controls [] = [] := by
  simp [controls, rows_nil, isControl]

theorem controls_lineFeed (s t : Text) : controls (s ++ '\n' :: t) = controls s ++ controls t := by
  simp [controls, rows_lineFeed]

theorem controls_joinLines (ps : List Text) : controls (joinLines ps) = ps.flatMap controls := by
  cases ps with
  | nil => simp
  | cons p ps =>
    rw [controls, rows_joinLines, List.filter_flatMap]
    rfl

theorem isControl_escapeEach (t : Text) : isControl (escapeEach t) = isControl t := by
  cases t with
  | nil => rfl
  | cons c t =>
    rw [escapeEach]
    split
    · rename_i hc
      rw [needsEscape_iff] at hc
      rcases hc with rfl | rfl <;> rfl
    · rfl

/-- A control line of an escaped text is one of the text itself. -/
theorem controls_escape (t : Text) : controls (escape t) = (controls t).map escape := by
  have hsame : isControl ∘ escape = isControl :=
    funext fun l => by rw [Function.comp_apply, escape_eq, isControl_escapeEach]
  rw [controls, controls, rows_escape, List.filter_map, hsame]

end Text

theorem controls_indented (body : Text) : controls (indented body) =
    controls ".RS".toList ++ controls body ++ controls ".RE".toList := by
  rw [indented_eq, controls_lineFeed, controls_lineFeed, List.append_assoc]

/-! ## Plain text -/

namespace Kind

def isWord : Kind → Bool
  | text | abbreviation => true
  | _ => false

/-- The kinds that a document of plain text is built from. -/
def isPlain : Kind → Bool
  | text | abbreviation | header | bulletList | orderedList | listItem | blockQuote | paragraph
  | codeBlock => true
  | _ => false

end Kind

namespace Node

/-- A paragraph of plain text has nothing but words in it. -/
def IsPlain (n : Node) : Prop :=
  n.kind.isPlain ∧ (n.kind = .paragraph → ∀ c ∈ n.children, c.kind.isWord)

instance (n : Node) : Decidable n.IsPlain :=
  inferInstanceAs (Decidable (n.kind.isPlain ∧
    (n.kind = .paragraph → ∀ c ∈ n.children, c.kind.isWord)))

def word : Node → Text
  | text value | abbreviation value => value
  | _ => []

mutual

/-- The shape of a tree: what is left if all texts, abbreviations and blocks of code are empty. -/
def emptied : Node → Node
  | text _ => text []
  | abbreviation _ => abbreviation []
  | codeBlock _ => codeBlock []
  | header level rawText children => header level rawText (emptiedAll children)
  | bulletList children => bulletList (emptiedAll children)
  | orderedList children => orderedList (emptiedAll children)
  | listItem children => listItem (emptiedAll children)
  | blockQuote children => blockQuote (emptiedAll children)
  | paragraph children => paragraph (emptiedAll children)
  | emphasis children => emphasis (emptiedAll children)
  | strong children => strong (emptiedAll children)
  | link href children => link href (emptiedAll children)
  | n => n

def emptiedAll : List Node → List Node
  | [] => []
  | n :: ns => n.emptied :: emptiedAll ns

end

theorem kind_emptied (n : Node) : n.emptied.kind = n.kind := by
  cases n <;> rfl

theorem isParagraph_emptied {n : Node} : n.emptied.IsParagraph ↔ n.IsParagraph := by
  rw [isParagraph_iff_kind, isParagraph_iff_kind, kind_emptied]

theorem isItem_emptied {n : Node} : n.emptied.IsItem ↔ n.IsItem := by
  rw [isItem_iff_kind, isItem_iff_kind, kind_emptied]

end Node

def Document.emptied (d : Document) : Document := ⟨Node.emptiedAll d.blocks⟩

/-- The words of a paragraph, one behind the other. -/
def words (children : List Node) : Text := children.flatMap Node.word

theorem words_emptiedAll (ns : List Node) : words (Node.emptiedAll ns) = [] := by
  induction ns with
  | nil => rfl
  | cons n ns ih =>
    have hword : n.emptied.word = [] := by
      cases n <;> rfl
    rw [Node.emptiedAll, words, List.flatMap_cons, hword, List.nil_append]
    exact ih

section
variable {children : List Node} (h : ∀ c ∈ children, c.kind.isWord)
include h

theorem flatten_typesetAll_words (label : Path → Nat) (i : Nat) :
    (typesetAll label i children).flatten = escape (words children) := by
  induction children generalizing i with
  | nil => rfl
  | cons c cs ih =>
    rw [List.forall_mem_cons] at h
    have hword : typeset (childLabels label i) c = some (escape c.word) := by
      cases c <;> first | rfl | exact absurd h.1 Bool.false_ne_true
    rw [typesetAll, hword, words, List.flatMap_cons, escape_append, Option.toList_some,
      List.singleton_append, List.flatten_cons, ih h.2]
    rfl

theorem inline_words (label : Path → Nat) :
    Fragment.inline (typesetAll label 0 children) = escape (trim (words children)) := by
  rw [Fragment.inline, flatten_typesetAll_words h, trim_escape]

theorem description?_words : description? children = none := by
  cases hdescription : description? children with
  | none => rfl
  | some value =>
    obtain ⟨term, rest, rfl, hterm⟩ := description?_eq_some hdescription
    have hword := h term List.mem_cons_self
    rcases hterm with ⟨inside, rfl⟩ | ⟨code, rfl⟩ <;> exact absurd hword Bool.false_ne_true

end

/-! ## Segments -/

/-- What a page of plain text is made of: what the structure writes, and passages of text, which are
escaped. -/
inductive Segment
  | frame (t : Text)
  | passage (t : Text)
deriving DecidableEq, Repr, Inhabited

namespace Segment

def controls : Segment → List Text
  | frame t => Text.controls t
  | passage t => (Text.controls t).map escape

def passage? : Segment → Option Text
  | frame _ => none
  | passage t => some t

def emptied : Segment → Segment
  | frame t => frame t
  | passage _ => passage []

def enclosed (inside : List Segment) : List Segment :=
  frame ".RS".toList :: (inside ++ [frame ".RE".toList])

/-- The paragraphs of an item, each trimmed and below its macro. -/
def ofParagraphs (opening further : Text) : List Node → List Segment
  | [] => []
  | .paragraph children :: ns =>
    frame opening :: passage (trim (words children)) :: ofParagraphs further further ns
  | _ :: ns => ofParagraphs opening further ns

def ofItems (marker : Marker) : List Node → List Segment
  | [] => []
  | .listItem children :: ns =>
    ofParagraphs marker.first marker.further children ++ ofItems marker ns
  | _ :: ns => ofItems marker ns

mutual

/-- The segments of a node of plain text, with the numbers given for the ordered lists. A paragraph is
trimmed, code is trimmed at its end, and a text that stands by itself is not trimmed. -/
def ofNode (label : Path → Nat) : Node → List Segment
  | .text value | .abbreviation value => [passage value]
  | .header level rawText _ => [frame (header level rawText)]
  | .codeBlock value => [frame ".nf".toList, passage (trimEnd value), frame ".fi".toList]
  | .paragraph children => [frame ".PP".toList, passage (trim (words children))]
  | .bulletList items => enclosed (ofItems .bullet items)
  | .orderedList items =>
    frame (Marker.declaration (label [])) :: enclosed (ofItems (.step (label [])) items)
  | .blockQuote children => frame ".PP".toList :: enclosed (ofQuoted label 0 children)
  | _ => []

def ofQuoted (label : Path → Nat) (i : Nat) : List Node → List Segment
  | [] => []
  | .paragraph children :: ns => passage (trim (words children)) :: ofQuoted label (i + 1) ns
  | n :: ns => ofNode (childLabels label i) n ++ ofQuoted label (i + 1) ns

end

def ofBlocks (label : Path → Nat) (i : Nat) : List Node → List Segment
  | [] => []
  | n :: ns => ofNode (childLabels label i) n ++ ofBlocks label (i + 1) ns

section
variable {n : Node} (ns : List Node)

theorem ofParagraphs_of_ne (opening further : Text) (h : ¬ n.IsParagraph) :
    ofParagraphs opening further (n :: ns) = ofParagraphs opening further ns := by
  rw [ofParagraphs]
  exact fun children hn => h ⟨children, hn⟩

theorem ofItems_of_ne (marker : Marker) (h : ¬ n.IsItem) :
    ofItems marker (n :: ns) = ofItems marker ns := by
  rw [ofItems]
  exact fun children hn => h ⟨children, hn⟩

theorem ofQuoted_of_ne (label : Path → Nat) (i : Nat) (h : ¬ n.IsParagraph) :
    ofQuoted label i (n :: ns) = ofNode (childLabels label i) n ++ ofQuoted label (i + 1) ns := by
  rw [ofQuoted]
  exact fun children hn => h ⟨children, hn⟩

end

theorem flatMap_enclosed (inside : List Segment) : (enclosed inside).flatMap controls =
    Text.controls ".RS".toList ++ inside.flatMap controls ++ Text.controls ".RE".toList := by
  simp [enclosed, controls]

end Segment

def Document.segments (d : Document) : List Segment :=
  .frame bannerLines :: Segment.ofBlocks (rank 0 (listsBelow .all 0 d.blocks)) 0 d.blocks

/-- The texts that are set on the page of a document of plain text, in their order. -/
def Document.passages (d : Document) : List Text := d.segments.filterMap Segment.passage?

/-! ## The control lines of a page -/

theorem controls_typesetParagraphs {ns : List Node}
    (hns : ∀ n ∈ ns, EachVisited Node.IsPlain .paragraphs n) (opening further : Text)
    (label : Path → Nat) (i : Nat) : (typesetParagraphs opening further label i ns).flatMap controls =
      (Segment.ofParagraphs opening further ns).flatMap Segment.controls := by
  induction ns generalizing opening i with
  | nil => rfl
  | cons n ns ih =>
    rw [List.forall_mem_cons] at hns
    by_cases hp : n.IsParagraph
    · obtain ⟨children, rfl⟩ := hp
      obtain ⟨⟨-, hself⟩, -⟩ := (eachVisited_of_below rfl).mp hns.1
      have hwords : ∀ c ∈ children, c.kind.isWord := hself rfl
      have hmore := ih hns.2 further (i + 1)
      rw [typesetParagraphs, Segment.ofParagraphs, inline_words hwords]
      simp only [List.flatMap_cons, controls_lineFeed, controls_escape, Segment.controls,
        List.append_assoc, hmore]
    · rw [typesetParagraphs_of_ne ns label i opening further hp,
        Segment.ofParagraphs_of_ne ns opening further hp]
      exact ih hns.2 opening (i + 1)

theorem controls_typesetItems {ns : List Node}
    (hns : ∀ n ∈ ns, EachVisited Node.IsPlain .items n) (marker : Marker) (label : Path → Nat)
    (i : Nat) : (typesetItems marker label i ns).flatMap controls =
      (Segment.ofItems marker ns).flatMap Segment.controls := by
  induction ns generalizing i with
  | nil => rfl
  | cons n ns ih =>
    rw [List.forall_mem_cons] at hns
    have hmore := ih hns.2 (i + 1)
    by_cases hp : n.IsItem
    · obtain ⟨children, rfl⟩ := hp
      have hchildren : ∀ c ∈ children, EachVisited Node.IsPlain .paragraphs c := hns.1.children rfl
      have hitem := controls_typesetParagraphs hchildren marker.first marker.further
        (childLabels label i) 0
      rw [typesetItems, Segment.ofItems, List.flatMap_cons, List.flatMap_append, controls_joinLines,
        hitem, hmore]
    · rw [typesetItems_of_ne ns label i marker hp, Segment.ofItems_of_ne ns marker hp]
      exact hmore

/-- The control lines of the node are those of its segments. -/
def Segmented (n : Node) : Prop := ∀ label,
  (typeset label n).toList.flatMap controls = (Segment.ofNode label n).flatMap Segment.controls

theorem controls_typesetQuoted {ns : List Node} (hns : ∀ n ∈ ns, Segmented n)
    (hplain : ∀ n ∈ ns, EachVisited Node.IsPlain .all n) (label : Path → Nat) (i : Nat) :
    (typesetQuoted label i ns).flatMap controls =
      (Segment.ofQuoted label i ns).flatMap Segment.controls := by
  induction ns generalizing i with
  | nil => rfl
  | cons n ns ih =>
    rw [List.forall_mem_cons] at hns hplain
    have hmore := ih hns.2 hplain.2 (i + 1)
    by_cases hp : n.IsParagraph
    · obtain ⟨children, rfl⟩ := hp
      have hwords : ∀ c ∈ children, c.kind.isWord := hplain.1.self.2 rfl
      rw [typesetQuoted, Segment.ofQuoted, inline_words hwords, List.flatMap_cons,
        List.flatMap_cons, controls_escape, hmore]
      rfl
    · rw [typesetQuoted_of_ne ns label i hp, Segment.ofQuoted_of_ne ns label i hp,
        List.flatMap_append, List.flatMap_append, hns.1, hmore]

theorem segmented_of_isPlain {n : Node} (h : EachVisited Node.IsPlain .all n) : Segmented n := by
  induction n using Node.induct with
  | h n ih =>
    obtain ⟨hkind, hwords⟩ := h.self
    intro label
    cases n with
    | text value | abbreviation value =>
      simp [typeset, Segment.ofNode, Segment.controls, controls_escape]
    | header level rawText _ => simp [typeset, Segment.ofNode, Segment.controls]
    | listItem _ => rfl
    | codeBlock value =>
      have hcode : codeBlock value =
          ".nf".toList ++ '\n' :: (escape (trimEnd value) ++ '\n' :: ".fi".toList) := by
        simp [codeBlock, trimEnd_escape]
      rw [typeset, Option.toList_some, List.flatMap_singleton, hcode, controls_lineFeed,
        controls_lineFeed, controls_escape]
      simp [Segment.ofNode, Segment.controls]
    | paragraph children =>
      have hchildren : ∀ c ∈ children, c.kind.isWord := hwords rfl
      have hparagraph : paragraph children (typesetAll label 0 children) =
          ".PP".toList ++ '\n' :: escape (trim (words children)) := by
        rw [paragraph, description?_words hchildren, inline_words hchildren]
        rfl
      rw [typeset, Option.toList_some, List.flatMap_singleton, hparagraph, controls_lineFeed,
        controls_escape]
      simp [Segment.ofNode, Segment.controls]
    | bulletList items =>
      have hchildren : ∀ c ∈ items, EachVisited Node.IsPlain .items c := h.children rfl
      have hitems := controls_typesetItems hchildren .bullet label 0
      rw [typeset, Option.toList_some, List.flatMap_singleton, controls_indented,
        controls_joinLines, hitems, Segment.ofNode, Segment.flatMap_enclosed]
    | orderedList items =>
      have hchildren : ∀ c ∈ items, EachVisited Node.IsPlain .items c := h.children rfl
      have hitems := controls_typesetItems hchildren (.step (label [])) label 0
      rw [typeset, Option.toList_some, List.flatMap_singleton, controls_lineFeed,
        controls_indented, controls_joinLines, hitems, Segment.ofNode, List.flatMap_cons,
        Segment.flatMap_enclosed]
      rfl
    | blockQuote children =>
      have hchildren : ∀ c ∈ children, EachVisited Node.IsPlain .all c := h.children rfl
      have hsegmented : ∀ c ∈ children, Segmented c := fun c hc => ih c hc (hchildren c hc)
      have hquoted := controls_typesetQuoted hsegmented hchildren label 0
      have hrow (body : Text) : ".PP\n".toList ++ body = ".PP".toList ++ '\n' :: body := rfl
      rw [typeset, Option.toList_some, List.flatMap_singleton, hrow, controls_lineFeed,
        controls_indented, controls_joinLines, hquoted, Segment.ofNode, List.flatMap_cons,
        Segment.flatMap_enclosed]
      rfl
    | _ => exact absurd hkind Bool.false_ne_true

/-- The control lines of a page of plain text are those of its segments, one behind the other. -/
theorem controls_render {d : Document} (h : ∀ v ∈ d.visited, v.2.IsPlain) :
    controls d.render = d.segments.flatMap Segment.controls := by
  have hblocks : ∀ n ∈ d.blocks, EachVisited Node.IsPlain .all n := forall_visitedBelow.mp h
  have hall : ∀ label i ns, (∀ n ∈ ns, EachVisited Node.IsPlain .all n) →
      (typesetAll label i ns).flatMap controls =
        (Segment.ofBlocks label i ns).flatMap Segment.controls := by
    intro label i ns hns
    induction ns generalizing i with
    | nil => rfl
    | cons n ns ih =>
      rw [List.forall_mem_cons] at hns
      rw [typesetAll, Segment.ofBlocks, List.flatMap_append, List.flatMap_append,
        segmented_of_isPlain hns.1, ih (i + 1) hns.2]
  obtain ⟨hbody, -⟩ := gives_body d 0 (numbers_rank (nodup_listsBelow d.blocks) 0)
  have hrender : d.render = bannerLines ++ '\n' :: (d.body.run 0).result := rfl
  rw [hrender, hbody, controls_lineFeed, controls_joinLines, hall _ 0 d.blocks hblocks]
  rfl

/-! ## Documents of one shape -/

theorem ofParagraphs_emptiedAll (opening further : Text) (ns : List Node) :
    Segment.ofParagraphs opening further (Node.emptiedAll ns) =
      (Segment.ofParagraphs opening further ns).map Segment.emptied := by
  induction ns generalizing opening with
  | nil => rfl
  | cons n ns ih =>
    rw [Node.emptiedAll]
    by_cases hp : n.IsParagraph
    · obtain ⟨children, rfl⟩ := hp
      rw [Node.emptied, Segment.ofParagraphs, Segment.ofParagraphs, words_emptiedAll, ih]
      rfl
    · have hemptied := mt Node.isParagraph_emptied.mp hp
      rw [Segment.ofParagraphs_of_ne _ opening further hemptied,
        Segment.ofParagraphs_of_ne ns opening further hp, ih]

theorem ofItems_emptiedAll (marker : Marker) (ns : List Node) :
    Segment.ofItems marker (Node.emptiedAll ns) =
      (Segment.ofItems marker ns).map Segment.emptied := by
  induction ns with
  | nil => rfl
  | cons n ns ih =>
    rw [Node.emptiedAll]
    by_cases hp : n.IsItem
    · obtain ⟨children, rfl⟩ := hp
      rw [Node.emptied, Segment.ofItems, Segment.ofItems, ofParagraphs_emptiedAll, ih,
        List.map_append]
    · rw [Segment.ofItems_of_ne _ marker (mt Node.isItem_emptied.mp hp),
        Segment.ofItems_of_ne ns marker hp, ih]

theorem map_enclosed (inside : List Segment) : (Segment.enclosed inside).map Segment.emptied =
    Segment.enclosed (inside.map Segment.emptied) := by
  simp [Segment.enclosed, Segment.emptied]

theorem ofQuoted_emptiedAll {ns : List Node}
    (h : ∀ n ∈ ns, ∀ label,
      Segment.ofNode label n.emptied = (Segment.ofNode label n).map Segment.emptied)
    (label : Path → Nat) (i : Nat) : Segment.ofQuoted label i (Node.emptiedAll ns) =
      (Segment.ofQuoted label i ns).map Segment.emptied := by
  induction ns generalizing i with
  | nil => rfl
  | cons n ns ih =>
    rw [List.forall_mem_cons] at h
    have hmore := ih h.2 (i + 1)
    rw [Node.emptiedAll]
    by_cases hp : n.IsParagraph
    · obtain ⟨children, rfl⟩ := hp
      rw [Node.emptied, Segment.ofQuoted, Segment.ofQuoted, words_emptiedAll, hmore]
      rfl
    · rw [Segment.ofQuoted_of_ne _ label i (mt Node.isParagraph_emptied.mp hp),
        Segment.ofQuoted_of_ne ns label i hp, h.1, hmore, List.map_append]

/-- The shape of a tree says what the structure writes and where the passages are. -/
theorem ofNode_emptied (n : Node) (label : Path → Nat) :
    Segment.ofNode label n.emptied = (Segment.ofNode label n).map Segment.emptied := by
  induction n using Node.induct generalizing label with
  | h n ih =>
    cases n with
    | bulletList items =>
      rw [Node.emptied, Segment.ofNode, Segment.ofNode, map_enclosed, ofItems_emptiedAll]
    | orderedList items =>
      rw [Node.emptied, Segment.ofNode, Segment.ofNode, List.map_cons, map_enclosed,
        ofItems_emptiedAll]
      rfl
    | blockQuote children =>
      have hquoted : Segment.ofQuoted label 0 (Node.emptiedAll children) =
          (Segment.ofQuoted label 0 children).map Segment.emptied := ofQuoted_emptiedAll ih label 0
      rw [Node.emptied, Segment.ofNode, Segment.ofNode, List.map_cons, map_enclosed, hquoted]
      rfl
    | paragraph children =>
      rw [Node.emptied, Segment.ofNode, Segment.ofNode, words_emptiedAll]
      rfl
    | _ => rfl

theorem listsBelow_emptiedAll {rule : Rule} {ns : List Node}
    (h : ∀ n ∈ ns, lists rule n.emptied = lists rule n) (i : Nat) :
    listsBelow rule i (Node.emptiedAll ns) = listsBelow rule i ns := by
  induction ns generalizing i with
  | nil => rfl
  | cons n ns ih =>
    rw [List.forall_mem_cons] at h
    rw [Node.emptiedAll, listsBelow, listsBelow, h.1, ih h.2]

theorem lists_emptied (rule : Rule) (n : Node) : lists rule n.emptied = lists rule n := by
  induction n using Node.induct generalizing rule with
  | h n ih =>
    have hchildren : ∀ next, listsBelow next 0 (Node.emptiedAll n.children) =
        listsBelow next 0 n.children :=
      fun next => listsBelow_emptiedAll (fun c hc => ih c hc next) 0
    cases rule <;> cases n <;>
      first
      | rfl
      | exact hchildren _
      | exact congrArg ([] :: ·) (hchildren _)

theorem segments_emptied (d : Document) : d.emptied.segments = d.segments.map Segment.emptied := by
  have hlists : listsBelow .all 0 d.emptied.blocks = listsBelow .all 0 d.blocks :=
    listsBelow_emptiedAll (fun n _ => lists_emptied .all n) 0
  have hblocks : ∀ label i ns, Segment.ofBlocks label i (Node.emptiedAll ns) =
      (Segment.ofBlocks label i ns).map Segment.emptied := by
    intro label i ns
    induction ns generalizing i with
    | nil => rfl
    | cons n ns ih =>
      rw [Node.emptiedAll, Segment.ofBlocks, Segment.ofBlocks, List.map_append, ofNode_emptied, ih]
  rw [Document.segments, hlists, Document.segments, List.map_cons, ← hblocks]
  rfl

/-- Segments of one shape whose passages have the same control lines have the same control lines. -/
theorem flatMap_controls_congr {ss ts : List Segment}
    (hshape : ss.map Segment.emptied = ts.map Segment.emptied)
    (hpassages : (ss.filterMap Segment.passage?).map controls =
      (ts.filterMap Segment.passage?).map controls) :
    ss.flatMap Segment.controls = ts.flatMap Segment.controls := by
  induction ss generalizing ts with
  | nil =>
    rw [List.map_nil] at hshape
    rw [List.map_eq_nil_iff.mp hshape.symm]
  | cons s ss ih =>
    cases ts with
    | nil => contradiction
    | cons t ts =>
      rw [List.map_cons, List.map_cons, List.cons.injEq] at hshape
      rw [List.flatMap_cons, List.flatMap_cons]
      cases s with
      | frame s =>
        cases t with
        | frame t =>
          obtain rfl := Segment.frame.inj hshape.1
          rw [ih hshape.2 hpassages]
        | passage t => exact absurd hshape.1 (by simp [Segment.emptied])
      | passage s =>
        cases t with
        | frame t => exact absurd hshape.1 (by simp [Segment.emptied])
        | passage t =>
          obtain ⟨hfirst, hmore⟩ := List.cons.inj hpassages
          rw [Segment.controls, Segment.controls, hfirst, ih hshape.2 hmore]

/-- The control lines that the structure writes, and those of the passages. -/
theorem length_controls (ss : List Segment) : (ss.flatMap Segment.controls).length =
    ((ss.map Segment.emptied).flatMap Segment.controls).length +
      ((ss.filterMap Segment.passage?).flatMap controls).length := by
  induction ss with
  | nil => rfl
  | cons s ss ih =>
    rw [List.map_cons, List.flatMap_cons, List.flatMap_cons, List.length_append, List.length_append,
      ih]
    cases s with
    | frame t => exact (Nat.add_assoc _ _ _).symm
    | passage t =>
      have hpassages : (Segment.passage t :: ss).filterMap Segment.passage? =
          t :: ss.filterMap Segment.passage? := rfl
      have hnone : (Segment.passage t).emptied.controls = [] := by
        simp [Segment.emptied, Segment.controls]
      rw [hpassages, List.flatMap_cons, List.length_append, hnone, Segment.controls, List.length_map,
        List.length_nil]
      omega

/-- Without control lines in the passages there are those that the structure writes. -/
theorem flatMap_controls_of_quiet {ss : List Segment}
    (h : ∀ t ∈ ss.filterMap Segment.passage?, controls t = []) :
    ss.flatMap Segment.controls = (ss.map Segment.emptied).flatMap Segment.controls := by
  induction ss with
  | nil => rfl
  | cons s ss ih =>
    rw [List.map_cons, List.flatMap_cons, List.flatMap_cons]
    cases s with
    | frame t => rw [ih h, Segment.emptied]
    | passage t =>
      obtain ⟨hfirst, hmore⟩ := List.forall_mem_cons.mp h
      rw [ih hmore, Segment.emptied, Segment.controls, Segment.controls, hfirst, controls_nil]

/-- The control lines of documents of one shape are the same where the passages in the same place have
the same control lines. If no passage of the one document has a control line, the control lines are the
same just where no passage of the other has one. -/
theorem controls_render_eq {d e : Document} (hd : ∀ v ∈ d.visited, v.2.IsPlain)
    (he : ∀ v ∈ e.visited, v.2.IsPlain) (hshape : d.emptied = e.emptied) :
    (d.passages.map controls = e.passages.map controls → controls d.render = controls e.render) ∧
    ((∀ t ∈ d.passages, controls t = []) →
      (controls d.render = controls e.render ↔ ∀ t ∈ e.passages, controls t = [])) := by
  have hsegments : d.segments.map Segment.emptied = e.segments.map Segment.emptied := by
    rw [← segments_emptied, ← segments_emptied, hshape]
  rw [controls_render hd, controls_render he]
  refine ⟨flatMap_controls_congr hsegments, fun hquiet => ⟨fun heq => ?_, fun hother => ?_⟩⟩
  · have hlength := length_controls e.segments
    rw [← heq, flatMap_controls_of_quiet hquiet, hsegments] at hlength
    apply List.flatMap_eq_nil_iff.mp
    apply List.eq_nil_of_length_eq_zero
    unfold Document.passages
    omega
  · rw [flatMap_controls_of_quiet hquiet, flatMap_controls_of_quiet hother, hsegments]

/-- A page with a passage in each of the places where there may be one. -/
def plainPage (own item quoted code : Text) : Document where
  blocks := [.header 1 "A 1".toList [.text own], .text own,
    .orderedList [.listItem [.paragraph [.text item, .abbreviation " b".toList], .blank,
      .paragraph [.text quoted]], .unknown],
    .blockQuote [.paragraph [.text quoted], .codeBlock code, .bulletList []]]

/-- Dots and apostrophes are harmless inside of rows and behind white space that is not trimmed. -/
def dottedPage : Document :=
  plainPage " .a".toList "a\n 'b.".toList "-.\n\\.".toList "\t.so\n .".toList

def riskyPage : Document :=
  plainPage "a".toList "\n 'b.".toList "b".toList "c".toList

theorem controls_render_eq_dotted :
    let d := plainPage [] "a".toList "b".toList "c".toList
    (∀ v ∈ d.visited, v.2.IsPlain) ∧ (∀ v ∈ dottedPage.visited, v.2.IsPlain) ∧
    (∀ v ∈ riskyPage.visited, v.2.IsPlain) ∧ d.emptied = dottedPage.emptied ∧
    d.emptied = riskyPage.emptied ∧ (∀ t ∈ d.passages, controls t = []) ∧
    controls d.render = controls dottedPage.render ∧
    controls d.render ≠ controls riskyPage.render := by
  intro d
  have hd : ∀ v ∈ d.visited, v.2.IsPlain := by decide
  have hdotted : ∀ v ∈ dottedPage.visited, v.2.IsPlain := by decide
  have hrisky : ∀ v ∈ riskyPage.visited, v.2.IsPlain := by decide
  have hshape : d.emptied = dottedPage.emptied := by decide
  have hshape' : d.emptied = riskyPage.emptied := by decide
  have hquiet : ∀ t ∈ d.passages, controls t = [] := by decide
  refine ⟨hd, hdotted, hrisky, hshape, hshape', hquiet, ?_, ?_⟩
  · exact ((controls_render_eq hd hdotted hshape).2 hquiet).mpr (by decide)
  · exact fun heq => absurd (((controls_render_eq hd hrisky hshape').2 hquiet).mp heq) (by decide)

/-- A word that is read as a request. -/
def requestWord : Document := ⟨[.paragraph [.text ".so a".toList]]⟩

/-- The control lines of a page may come from its text. -/
theorem not_controls_render_eq : ¬ ∀ d e : Document, (∀ v ∈ d.visited, v.2.IsPlain) →
    (∀ v ∈ e.visited, v.2.IsPlain) → d.emptied = e.emptied →
    controls d.render = controls e.render := by
  intro h
  have hsame := h ⟨[.paragraph [.text "a".toList]]⟩ requestWord (by decide) (by decide) (by decide)
  exact absurd hsame (by decide)

end ManPage
