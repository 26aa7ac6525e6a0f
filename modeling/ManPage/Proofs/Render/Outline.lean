import ManPage.Proofs.Render.Registers
import ManPage.Proofs.Text.Rows

/-! # Outlines

The outline of a page is what its lists, block quotes and code blocks put on rows of their own: the
macros that open and close them, the declarations of registers and the macros of items. A reader of rows
that has no answer to the rows of running text is answered by the page as by its outline, however the
running text is put together, trimmed and laid between.
-/
namespace ManPage
open Text Fragment

namespace Kind

/-- The children of these kinds are put one behind the other. -/
def isSpan : Kind → Bool
  | paragraph | emphasis | strong | link => true
  | _ => false

def isInline : Kind → Bool
  | text | abbreviation | typographic | quote | emphasis | strong | codeSpan | link => true
  | _ => false

/-- These kinds have no part in a page. -/
def isDropped : Kind → Bool
  | listItem | unknown => true
  | _ => false

end Kind

/-- What is written of the fields of the node itself. -/
def Fragment.own : Node → Text
  | .blank => ".LP".toList
  | .text value | .abbreviation value | .codeBlock value => escape value
  | .typographic symbol => symbol.glyph
  | .quote symbol => symbol.glyph
  | .header level rawText _ => header level rawText
  | .rule => rule
  | .comment value => comment value
  | .codeSpan value => codeSpan value
  | .link href _ => link href []
  | _ => []

/-- Running text has nothing else in it. -/
def Node.KeepsInline (n : Node) : Prop :=
  n.kind.isSpan → ∀ c ∈ n.children, c.kind.isInline ∨ c.kind.isDropped

structure Node.Sober (P : Text → Prop) (n : Node) : Prop where
  spans : n.KeepsInline
  own : EachRow P (Fragment.own n)

/-- Fragments that running text is made of, apart from what its nodes write of their fields. -/
def plainMacros : List Text :=
  [".PP".toList, ".TP".toList, "\\fI".toList, "\\fB".toList, "\\fP".toList] ++ rows bannerLines

/-- The macros above so many paragraphs, the first of which has one of its own. -/
def openings (opening further : Text) : Nat → List Text
  | 0 => []
  | count + 1 => opening :: List.replicate count further

theorem mem_openings {opening further t : Text} {count : Nat} (h : t ∈ openings opening further count) :
    t = opening ∨ t = further := by
  cases count with
  | zero => contradiction
  | succ count => exact (List.mem_cons.mp h).imp_right List.eq_of_mem_replicate

def Node.paragraphCount (item : Node) : Nat := item.children.countP (·.kind == .paragraph)

def listMacros (marker : Marker) (items : List Node) : List Text :=
  (items.filter (·.kind == .listItem)).flatMap fun item =>
    openings marker.first marker.further item.paragraphCount

theorem filterMap_listMacros_eq_nil {α : Type} {f : Text → Option α} {marker : Marker}
    (hfirst : f marker.first = none) (hfurther : f marker.further = none) (items : List Node) :
    (listMacros marker items).filterMap f = [] := by
  rw [List.filterMap_eq_nil_iff]
  intro l hl
  obtain ⟨item, -, hl⟩ := List.mem_flatMap.mp hl
  rcases mem_openings hl with rfl | rfl
  · exact hfirst
  · exact hfurther

def enclosed (inside : List Text) : List Text := ".RS".toList :: inside ++ [".RE".toList]

mutual

/-- The outline of what is visited from a node, with the numbers given for the ordered lists. -/
def outline (label : Path → Nat) : Node → List Text
  | .bulletList items => enclosed (listMacros .bullet items)
  | .orderedList items =>
    Marker.declaration (label []) :: enclosed (listMacros (.step (label [])) items)
  | .blockQuote children => enclosed (outlineBelow label 0 children)
  | .codeBlock _ => [".nf".toList, ".fi".toList]
  | _ => []

def outlineBelow (label : Path → Nat) (i : Nat) : List Node → List Text
  | [] => []
  | n :: ns => outline (childLabels label i) n ++ outlineBelow label (i + 1) ns

end

def Document.outline (d : Document) : List Text :=
  outlineBelow (rank 0 (listsBelow .all 0 d.blocks)) 0 d.blocks

/-! ## Running text -/

/-- The node becomes rows that are all such as `P` allows, or nothing. -/
def Quiet (P : Text → Prop) (n : Node) : Prop := ∀ label, ∀ t ∈ typeset label n, EachRow P t

theorem link_eq (href body : Text) : ∃ shown, (shown = body ∨ shown = []) ∧
    link href body = shown ++ link href [] := by
  rw [link, link]
  cases LinkTarget.ofHref href with
  | mail address =>
    refine ⟨if body = address then [] else body, ?_, ?_⟩
    · split
      · exact Or.inr rfl
      · exact Or.inl rfl
    · simp
  | manPage name sec => cases sec <;> exact ⟨[], Or.inr rfl, rfl⟩
  | url href => exact ⟨body, Or.inl rfl, by simp⟩

section
variable {P : Text → Prop} (law : RowLaw P) (hplain : ∀ t ∈ plainMacros, P t)

theorem eachRow_typesetAll {ns : List Node} (h : ∀ n ∈ ns, Quiet P n) (label : Path → Nat) (i : Nat) :
    ∀ t ∈ typesetAll label i ns, EachRow P t := by
  induction ns generalizing i with
  | nil => nofun
  | cons n ns ih =>
    rw [List.forall_mem_cons] at h
    rw [typesetAll, List.forall_mem_append]
    refine ⟨?_, ih h.2 (i + 1)⟩
    intro t ht
    exact h.1 _ t (Option.mem_toList.mp ht)

include hplain in
theorem eachRow_plain {t : Text} (ht : t ∈ plainMacros) : EachRow P t := by
  have hrow : ∀ t ∈ plainMacros, '\n' ∉ t := by decide
  exact (eachRow_of_not_mem (hrow t ht)).mpr (hplain t ht)

include law

theorem eachRow_inline {parts : List Text} (h : ∀ t ∈ parts, EachRow P t) :
    EachRow P (inline parts) := (eachRow_flatten law h).trim law

include hplain

theorem eachRow_spanned {opening body : Text} (hopening : EachRow P opening) (hbody : EachRow P body) :
    EachRow P (opening ++ body ++ "\\fP".toList) := by
  have hclosing : EachRow P "\\fP".toList := eachRow_plain hplain (by decide)
  exact (hopening.append law hbody).append law hclosing

theorem quiet_of_inline {n : Node} (h : EachVisited (Node.Sober P) .all n)
    (hkind : n.kind.isInline ∨ n.kind.isDropped) : Quiet P n := by
  induction n using Node.induct with
  | h n ih =>
    have hbody : n.kind.isSpan → Rule.below .all n = some .all → ∀ label,
        EachRow P (inline (typesetAll label 0 n.children)) := by
      intro hspan hbelow label
      have hinline := h.self.spans hspan
      have hquiet : ∀ c ∈ n.children, Quiet P c := fun c hc =>
        ih c hc (h.children hbelow c hc) (hinline c hc)
      exact eachRow_inline law (eachRow_typesetAll hquiet label 0)
    have hown := h.self.own
    intro label t ht
    cases n with
    | text _ | abbreviation _ | typographic _ | quote _ | codeSpan _ =>
      obtain rfl := Option.some.inj ht
      exact hown
    | emphasis children =>
      obtain rfl := Option.some.inj ht
      have hopening : EachRow P "\\fI".toList := eachRow_plain hplain (by decide)
      exact eachRow_spanned law hplain hopening (hbody rfl rfl label)
    | strong children =>
      obtain rfl := Option.some.inj ht
      have hopening : EachRow P "\\fB".toList := eachRow_plain hplain (by decide)
      exact eachRow_spanned law hplain hopening (hbody rfl rfl label)
    | link href children =>
      obtain rfl := Option.some.inj ht
      obtain ⟨shown, hshown, hlink⟩ := link_eq href (inline (typesetAll label 0 children))
      -- the children of a link are left out where they repeat a mail address, or for a page
      rw [hlink]
      rcases hshown with rfl | rfl
      · exact (hbody rfl rfl label).append law hown
      · exact hown
    | listItem _ | unknown => contradiction
    | _ => rcases hkind with hkind | hkind <;> contradiction

theorem eachRow_running {n : Node} (h : n.Sober P) (hspan : n.kind.isSpan)
    (hchildren : ∀ c ∈ n.children, EachVisited (Node.Sober P) .all c) (label : Path → Nat) :
    ∀ t ∈ typesetAll label 0 n.children, EachRow P t := by
  have hquiet : ∀ c ∈ n.children, Quiet P c := fun c hc =>
    quiet_of_inline law hplain (hchildren c hc) (h.spans hspan c hc)
  exact eachRow_typesetAll hquiet label 0

theorem eachRow_paragraph {children : List Node} {parts : List Text}
    (hchildren : ∀ c ∈ children, c.Sober P) (hparts : ∀ t ∈ parts, EachRow P t) :
    EachRow P (paragraph children parts) := by
  rw [paragraph]
  cases hdescription : description? children with
  | none =>
    have hword : EachRow P ".PP".toList := eachRow_plain hplain (by decide)
    exact eachRow_lineFeed.mpr ⟨hword, eachRow_inline law hparts⟩
  | some value =>
    obtain ⟨term, rest, rfl, -⟩ := description?_eq_some hdescription
    have hword : EachRow P ".TP".toList := eachRow_plain hplain (by decide)
    have hterm : EachRow P (parts.headD []) := by
      cases parts with
      | nil => exact eachRow_nil law
      | cons t parts => exact hparts t List.mem_cons_self
    have hvalue : EachRow P (escape value) :=
      (hchildren (.text value) (List.mem_cons_of_mem _ List.mem_cons_self)).own
    have hrest : EachRow P (inline (parts.drop 2)) :=
      eachRow_inline law fun t ht => hparts t (List.mem_of_mem_drop ht)
    have habove : EachRow P (".TP\n".toList ++ parts.headD []) :=
      eachRow_lineFeed.mpr ⟨hword, hterm⟩
    refine EachRow.trimEnd law ?_
    rw [eachRow_lineFeed, eachRow_lineFeed]
    exact ⟨⟨habove, hvalue.trimStart law⟩, hrest⟩

end

/-! ## Answers -/

/-- The answers to the rows of a text. -/
def answers {α : Type} (f : Text → Option α) (t : Text) : List α := (rows t).filterMap f

section
variable {α : Type} {f : Text → Option α} {P : Text → Prop} (hsilent : ∀ l, P l → f l = none)

theorem answers_lineFeed (s t : Text) : answers f (s ++ '\n' :: t) = answers f s ++ answers f t := by
  rw [answers, rows_lineFeed, List.filterMap_append]
  rfl

theorem answers_of_not_mem {t : Text} (h : '\n' ∉ t) : answers f t = [t].filterMap f := by
  rw [answers, rows_of_not_mem h]

theorem answers_indented (body : Text) : answers f (indented body) =
    [".RS".toList].filterMap f ++ answers f body ++ [".RE".toList].filterMap f := by
  have hopen : answers f ".RS".toList = [".RS".toList].filterMap f := answers_of_not_mem (by decide)
  have hclose : answers f ".RE".toList = [".RE".toList].filterMap f := answers_of_not_mem (by decide)
  rw [indented_eq, answers_lineFeed, answers_lineFeed, hopen, hclose, List.append_assoc]

theorem filterMap_enclosed (inside : List Text) : (enclosed inside).filterMap f =
    [".RS".toList].filterMap f ++ inside.filterMap f ++ [".RE".toList].filterMap f := by
  rw [enclosed, ← List.singleton_append, List.filterMap_append, List.filterMap_append]

include hsilent

theorem answers_of_eachRow {t : Text} (h : EachRow P t) : answers f t = [] :=
  List.filterMap_eq_nil_iff.mpr fun l hl => hsilent l (h l hl)

theorem flatMap_answers_of_quiet {n : Node} (h : Quiet P n) (label : Path → Nat) :
    (typeset label n).toList.flatMap (answers f) = [] := by
  cases ht : typeset label n with
  | none => rfl
  | some t => rw [Option.toList_some, List.flatMap_singleton, answers_of_eachRow hsilent (h label t ht)]

variable (law : RowLaw P)
include law

theorem answers_joinLines (ps : List Text) : answers f (joinLines ps) = ps.flatMap (answers f) := by
  cases ps with
  | nil => exact answers_of_eachRow hsilent (eachRow_nil law)
  | cons p ps =>
    rw [answers, rows_joinLines, List.filterMap_flatMap]
    rfl

variable (hplain : ∀ t ∈ plainMacros, P t)
include hplain

theorem answers_typesetParagraphs {ns : List Node}
    (hns : ∀ n ∈ ns, EachVisited (Node.Sober P) .paragraphs n) {opening further : Text}
    (hopening : '\n' ∉ opening) (hfurther : '\n' ∉ further) (label : Path → Nat) (i : Nat) :
    (typesetParagraphs opening further label i ns).flatMap (answers f) =
      (openings opening further (ns.countP (·.kind == .paragraph))).filterMap f := by
  -- behind the first paragraph all others are opened alike, so the opening varies along the list
  induction ns generalizing opening i with
  | nil => rfl
  | cons n ns ih =>
    rw [List.forall_mem_cons] at hns
    by_cases hp : n.IsParagraph
    · have hmore := ih hns.2 hfurther (i + 1)
      have hcount : (n :: ns).countP (·.kind == .paragraph) =
          ns.countP (·.kind == .paragraph) + 1 :=
        List.countP_cons_of_pos (Node.isParagraph_iff_kind.mp hp)
      rw [hcount]
      obtain ⟨children, rfl⟩ := hp
      obtain ⟨hself, hchildren⟩ := (eachVisited_of_below rfl).mp hns.1
      have hparts := eachRow_running law hplain hself rfl hchildren (childLabels label i)
      have hbody : answers f (inline (typesetAll (childLabels label i) 0 children)) = [] :=
        answers_of_eachRow hsilent (eachRow_inline law hparts)
      have hsame : ∀ count, openings further further count = List.replicate count further := by
        intro count
        cases count <;> rfl
      rw [hsame] at hmore
      rw [typesetParagraphs, List.flatMap_cons, hmore, answers_lineFeed, hbody,
        answers_of_not_mem hopening, List.append_nil, ← List.filterMap_append]
      rfl
    · have hcount : (n :: ns).countP (·.kind == .paragraph) = ns.countP (·.kind == .paragraph) :=
        List.countP_cons_of_neg (mt Node.isParagraph_iff_kind.mpr hp)
      rw [typesetParagraphs_of_ne ns label i opening further hp, hcount]
      exact ih hns.2 hopening (i + 1)

theorem answers_typesetItems {ns : List Node}
    (hns : ∀ n ∈ ns, EachVisited (Node.Sober P) .items n) {marker : Marker}
    (hfirst : '\n' ∉ marker.first) (hfurther : '\n' ∉ marker.further) (label : Path → Nat) (i : Nat) :
    (typesetItems marker label i ns).flatMap (answers f) = (listMacros marker ns).filterMap f := by
  induction ns generalizing i with
  | nil => rfl
  | cons n ns ih =>
    rw [List.forall_mem_cons] at hns
    have hmore := ih hns.2 (i + 1)
    rw [listMacros] at hmore ⊢
    by_cases hp : n.IsItem
    · have hitems : (n :: ns).filter (·.kind == .listItem) = n :: ns.filter (·.kind == .listItem) :=
        List.filter_cons_of_pos (Node.isItem_iff_kind.mp hp)
      rw [hitems, List.flatMap_cons, List.filterMap_append, ← hmore]
      obtain ⟨children, rfl⟩ := hp
      obtain ⟨-, hchildren⟩ := (eachVisited_of_below rfl).mp hns.1
      have hitem : (typesetParagraphs marker.first marker.further (childLabels label i) 0
          children).flatMap (answers f) = (openings marker.first marker.further
            (Node.listItem children).paragraphCount).filterMap f :=
        answers_typesetParagraphs hsilent law hplain hchildren hfirst hfurther
          (childLabels label i) 0
      rw [typesetItems, List.flatMap_cons, answers_joinLines hsilent law, hitem]
    · have hitems : (n :: ns).filter (·.kind == .listItem) = ns.filter (·.kind == .listItem) :=
        List.filter_cons_of_neg (mt Node.isItem_iff_kind.mpr hp)
      rw [typesetItems_of_ne ns label i marker hp, hitems]
      exact hmore

theorem answers_list {ns : List Node} (hns : ∀ n ∈ ns, EachVisited (Node.Sober P) .items n)
    (marker : Marker) (label : Path → Nat) :
    answers f (indented (joinLines (typesetItems marker label 0 ns))) =
      (enclosed (listMacros marker ns)).filterMap f := by
  have hfirst : '\n' ∉ marker.first := by
    cases marker with
    | bullet => decide
    | step list => exact Marker.not_mem_around rfl (by decide) list (by decide) (by decide)
  have hfurther : '\n' ∉ marker.further := by
    cases marker with
    | bullet => decide
    | step list => exact Marker.not_mem_around rfl (by decide) list (by decide) (by decide)
  rw [answers_indented, filterMap_enclosed, answers_joinLines hsilent law,
    answers_typesetItems hsilent law hplain hns hfirst hfurther]

/-- The node is answered as its outline. -/
def Outlined (f : Text → Option α) (n : Node) : Prop :=
  ∀ label, (typeset label n).toList.flatMap (answers f) = (outline label n).filterMap f

omit hsilent law hplain in
theorem answers_typesetAll {ns : List Node} (hns : ∀ n ∈ ns, Outlined f n) (label : Path → Nat)
    (i : Nat) : (typesetAll label i ns).flatMap (answers f) =
      (outlineBelow label i ns).filterMap f := by
  induction ns generalizing i with
  | nil => rfl
  | cons n ns ih =>
    rw [List.forall_mem_cons] at hns
    rw [typesetAll, outlineBelow, List.flatMap_append, List.filterMap_append, hns.1, ih hns.2]

theorem answers_typesetQuoted {ns : List Node} (hns : ∀ n ∈ ns, Outlined f n)
    (hsober : ∀ n ∈ ns, EachVisited (Node.Sober P) .all n) (label : Path → Nat) (i : Nat) :
    (typesetQuoted label i ns).flatMap (answers f) = (outlineBelow label i ns).filterMap f := by
  induction ns generalizing i with
  | nil => rfl
  | cons n ns ih =>
    rw [List.forall_mem_cons] at hns hsober
    have hmore := ih hns.2 hsober.2 (i + 1)
    by_cases hp : n.IsParagraph
    · obtain ⟨children, rfl⟩ := hp
      have hparts := eachRow_running law hplain hsober.1.self rfl (hsober.1.children rfl)
        (childLabels label i)
      have hbody : answers f (inline (typesetAll (childLabels label i) 0 children)) = [] :=
        answers_of_eachRow hsilent (eachRow_inline law hparts)
      rw [typesetQuoted, List.flatMap_cons, hbody, hmore]
      rfl
    · rw [typesetQuoted_of_ne ns label i hp, outlineBelow, List.flatMap_append,
        List.filterMap_append, hns.1, hmore]

theorem outlined_of_sober {n : Node} (h : EachVisited (Node.Sober P) .all n) : Outlined f n := by
  induction n using Node.induct with
  | h n ih =>
    have hown : answers f (own n) = [] := answers_of_eachRow hsilent h.self.own
    intro label
    cases n with
    | blank | text _ | abbreviation _ | typographic _ | quote _ | header _ _ _ | rule | comment _
    | codeSpan _ =>
      rw [typeset, Option.toList_some, List.flatMap_singleton]
      exact hown
    | emphasis _ | strong _ | link _ _ =>
      have hquiet := quiet_of_inline law hplain h (Or.inl rfl)
      exact flatMap_answers_of_quiet hsilent hquiet label
    | listItem _ | unknown => rfl
    | paragraph children =>
      have hchildren : ∀ c ∈ children, EachVisited (Node.Sober P) .all c := h.children rfl
      have hparts := eachRow_running law hplain h.self rfl hchildren label
      have hparagraph := eachRow_paragraph law hplain (fun c hc => (hchildren c hc).self) hparts
      rw [typeset, Option.toList_some, List.flatMap_singleton]
      exact answers_of_eachRow hsilent hparagraph
    | codeBlock value =>
      have hbody : answers f (trimEnd (escape value)) = [] :=
        answers_of_eachRow hsilent (EachRow.trimEnd law h.self.own)
      have hcode : codeBlock value =
          ".nf".toList ++ '\n' :: (trimEnd (escape value) ++ '\n' :: ".fi".toList) := by
        rw [codeBlock, List.append_assoc]
        rfl
      have hopen : answers f ".nf".toList = [".nf".toList].filterMap f :=
        answers_of_not_mem (by decide)
      have hclose : answers f ".fi".toList = [".fi".toList].filterMap f :=
        answers_of_not_mem (by decide)
      rw [typeset, Option.toList_some, List.flatMap_singleton, hcode, answers_lineFeed,
        answers_lineFeed, hopen, hclose, hbody, List.nil_append, ← List.filterMap_append]
      rfl
    | bulletList items =>
      have hlist := answers_list hsilent law hplain (h.children rfl) .bullet label
      rw [typeset, Option.toList_some, List.flatMap_singleton]
      exact hlist
    | orderedList items =>
      have hlist : answers f
          (indented (joinLines (typesetItems (.step (label [])) label 0 items))) =
            (enclosed (listMacros (.step (label [])) items)).filterMap f :=
        answers_list hsilent law hplain (h.children rfl) (.step (label [])) label
      have hdeclaration : '\n' ∉ Marker.declaration (label []) :=
        Marker.not_mem_around rfl (by decide) _ (by decide) (by decide)
      rw [typeset, Option.toList_some, List.flatMap_singleton, answers_lineFeed,
        answers_of_not_mem hdeclaration, hlist, ← List.filterMap_append]
      rfl
    | blockQuote children =>
      have hchildren : ∀ c ∈ children, EachVisited (Node.Sober P) .all c := h.children rfl
      have hquoted : (typesetQuoted label 0 children).flatMap (answers f) =
          (outlineBelow label 0 children).filterMap f :=
        answers_typesetQuoted hsilent law hplain (fun c hc => ih c hc (hchildren c hc)) hchildren
          label 0
      have hword : answers f ".PP".toList = [] :=
        answers_of_eachRow hsilent (eachRow_plain hplain (by decide))
      have hrow (body : Text) : ".PP\n".toList ++ body = ".PP".toList ++ '\n' :: body := rfl
      rw [typeset, Option.toList_some, List.flatMap_singleton, hrow, answers_lineFeed, hword,
        answers_indented, answers_joinLines hsilent law, hquoted, outline, filterMap_enclosed,
        List.nil_append]

/-- The page is answered as the outline of its document. -/
theorem answers_render {d : Document} (h : ∀ v ∈ d.visited, v.2.Sober P) :
    answers f d.render = d.outline.filterMap f := by
  have hblocks : ∀ n ∈ d.blocks, EachVisited (Node.Sober P) .all n := forall_visitedBelow.mp h
  have hbanner : answers f bannerLines = [] := by
    refine answers_of_eachRow hsilent ?_
    intro l hl
    exact hplain l (List.mem_append_right _ hl)
  obtain ⟨hbody, -⟩ := gives_body d 0 (numbers_rank (nodup_listsBelow d.blocks) 0)
  have hrender : d.render = bannerLines ++ '\n' :: (d.body.run 0).result := rfl
  rw [hrender, hbody, answers_lineFeed, hbanner, answers_joinLines hsilent law, List.nil_append]
  exact answers_typesetAll (fun n hn => outlined_of_sober hsilent law hplain (hblocks n hn)) _ 0

end

end ManPage
