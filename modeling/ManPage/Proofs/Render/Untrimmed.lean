import ManPage.Proofs.Render.Children
import ManPage.Proofs.Render.Conversion
import ManPage.Proofs.Text.Trim
import ManPage.Render.Sink

/-! # Rendering without trims

A page is trimmed in many places: running text, code, and the whole of a definition. Here a document is
rendered with the same decisions and without any trim. A paragraph is a definition by the shape of its
children, and the text of a mail link is left out by what it would be if it were trimmed. Both pages are
the same text but for white space, so a trim never takes away, doubles or moves anything that can be seen.
-/
namespace ManPage
open Text Fragment

namespace Text

/-- The text without its white space. -/
def visible (t : Text) : Text := t.filter (!isWhite ·)

/-- The texts differ in nothing but white space. -/
def SameInk (s t : Text) : Prop := visible s = visible t

theorem visible_append (s t : Text) : visible (s ++ t) = visible s ++ visible t :=
  List.filter_append ..

theorem visible_of_all {t : Text} (h : t.all isWhite) : visible t = [] := by
  rw [visible, List.filter_eq_nil_iff]
  intro c hc
  have hwhite := List.all_eq_true.mp h c hc
  simp [hwhite]

theorem SameInk.refl (t : Text) : SameInk t t := rfl

theorem SameInk.trans {s t u : Text} (hst : SameInk s t) (htu : SameInk t u) : SameInk s u :=
  Eq.trans hst htu

theorem SameInk.append {s t s' t' : Text} (hs : SameInk s s') (ht : SameInk t t') :
    SameInk (s ++ t) (s' ++ t') := by
  unfold SameInk at hs ht ⊢
  rw [visible_append, visible_append, hs, ht]

theorem SameInk.of_shorn {fragment left : Text} (h : Shorn fragment left) : SameInk left fragment := by
  obtain ⟨a, b, ha, hb, rfl⟩ := h
  unfold SameInk
  rw [visible_append, visible_append, visible_of_all ha, visible_of_all hb, List.nil_append,
    List.append_nil]

theorem sameInk_trimStart (t : Text) : SameInk (trimStart t) t := .of_shorn (shorn_trimStart t)

theorem sameInk_trimEnd (t : Text) : SameInk (trimEnd t) t := .of_shorn (shorn_trimEnd t)

theorem sameInk_trim (t : Text) : SameInk (trim t) t :=
  (sameInk_trimEnd (trimStart t)).trans (sameInk_trimStart t)

/-- Fragments that are the same but for white space, each with its counterpart. -/
abbrev AllSameInk (ps qs : List Text) : Prop := List.Forall₂ SameInk ps qs

section
variable {ps qs : List Text} (h : AllSameInk ps qs)
include h

theorem AllSameInk.flatten : SameInk ps.flatten qs.flatten := by
  induction h with
  | nil => exact .refl _
  | cons hp _ ih =>
    rw [List.flatten_cons, List.flatten_cons]
    exact hp.append ih

theorem AllSameInk.joinLines : SameInk (joinLines ps) (joinLines qs) := by
  induction h with
  | nil => exact .refl _
  | cons hp hps ih =>
    cases hps with
    | nil =>
      rw [joinLines_singleton, joinLines_singleton]
      exact hp
    | cons hq hqs =>
      rw [joinLines_cons_cons, joinLines_cons_cons]
      exact hp.append ((SameInk.refl ['\n']).append ih)

theorem AllSameInk.headD : SameInk (ps.headD []) (qs.headD []) := by
  cases h with
  | nil => exact .refl _
  | cons hp _ => exact hp

end

end Text

/-! ## The rendering -/

namespace Fragment

def untrimmedCode (value : Text) : Text := ".nf\n".toList ++ escape value ++ "\n.fi".toList

/-- `trimmed` is the text on which it is decided whether the link has one. -/
def untrimmedLink (href trimmed body : Text) : Text :=
  match LinkTarget.ofHref href with
  | .mail address =>
    (if trimmed = address then [] else body) ++ "\n.MT ".toList ++ address ++ "\n.ME".toList
  | .manPage name (some sec) => "\n.BR ".toList ++ name ++ " (".toList ++ sec ++ ")".toList
  | .manPage name none => "\n.BR ".toList ++ name
  | .url href => body ++ "\n.UR ".toList ++ href ++ "\n.UE".toList

def untrimmedParagraph (children : List Node) (parts : List Text) : Text :=
  match description? children with
  | some value =>
    ".TP\n".toList ++ parts.headD [] ++ '\n' :: escape value ++ '\n' :: (parts.drop 2).flatten
  | none => ".PP\n".toList ++ parts.flatten

end Fragment

/-- What the conversion would give here, without its having been made. -/
def Conversion.peek {α : Type} (c : Conversion α) : Conversion α :=
  fun lists => ⟨(c.run lists).result, lists, []⟩

mutual

/-- The fragment of a node, put together from those of its children and trimmed nowhere. -/
def untrimmed : Node → Conversion (Option Text)
  | .blank => pure (some ".LP".toList)
  | .text value => pure (some (escape value))
  | .abbreviation value => pure (some (escape value))
  | .typographic symbol => pure (some symbol.glyph)
  | .quote symbol => pure (some symbol.glyph)
  | .header level rawText _ => pure (some (header level rawText))
  | .rule => pure (some rule)
  | .bulletList children => do
    let parts ← untrimmedItems .bullet children
    return some (indented (joinLines parts))
  | .orderedList children => do
    let list ← Conversion.nextList
    let parts ← untrimmedItems (.step list) children
    return some (Marker.declaration list ++ '\n' :: indented (joinLines parts))
  | .blockQuote children => do
    let parts ← untrimmedQuoted children
    return some (".PP\n".toList ++ indented (joinLines parts))
  | .codeBlock value => pure (some (untrimmedCode value))
  | .comment value => pure (some (comment value))
  | .paragraph children => do
    let parts ← untrimmedAll children
    return some (untrimmedParagraph children parts)
  | .emphasis children => do
    let parts ← untrimmedAll children
    return some (emphasis parts.flatten)
  | .strong children => do
    let parts ← untrimmedAll children
    return some (strong parts.flatten)
  | .codeSpan value => pure (some (codeSpan value))
  | .link href children => do
    let trimmed ← (convertAll children).peek
    let parts ← untrimmedAll children
    return some (untrimmedLink href (inline trimmed) parts.flatten)
  | .listItem _ => pure none
  | .unknown => pure none

def untrimmedAll : List Node → Conversion (List Text)
  | [] => pure []
  | n :: ns => do
    let part ← untrimmed n
    let parts ← untrimmedAll ns
    return part.toList ++ parts

def untrimmedQuoted : List Node → Conversion (List Text)
  | [] => pure []
  | .paragraph children :: ns => do
    let parts ← untrimmedAll children
    let more ← untrimmedQuoted ns
    return parts.flatten :: more
  | n :: ns => do
    let part ← untrimmed n
    let more ← untrimmedQuoted ns
    return part.toList ++ more

def untrimmedItems (marker : Marker) : List Node → Conversion (List Text)
  | [] => pure []
  | .listItem children :: ns => do
    let parts ← untrimmedParagraphs marker.first marker.further children
    let more ← untrimmedItems marker ns
    return joinLines parts :: more
  | _ :: ns => untrimmedItems marker ns

def untrimmedParagraphs (opening further : Text) : List Node → Conversion (List Text)
  | [] => pure []
  | .paragraph children :: ns => do
    let parts ← untrimmedAll children
    let more ← untrimmedParagraphs further further ns
    return (opening ++ '\n' :: parts.flatten) :: more
  | _ :: ns => untrimmedParagraphs opening further ns

end

/-- The page of a document without any trim. -/
def Document.renderUntrimmed (d : Document) : Text :=
  ((fun parts => bannerLines ++ '\n' :: joinLines parts) <$> untrimmedAll d.blocks).run 0 |>.result

section
variable {n : Node} (ns : List Node)

theorem untrimmedQuoted_of_ne (h : ¬ n.IsParagraph) : untrimmedQuoted (n :: ns) = do
    let part ← untrimmed n
    let more ← untrimmedQuoted ns
    return (part.toList ++ more) := by
  rw [untrimmedQuoted]
  exact fun children hn => h ⟨children, hn⟩

theorem untrimmedItems_of_ne (marker : Marker) (h : ¬ n.IsItem) :
    untrimmedItems marker (n :: ns) = untrimmedItems marker ns := by
  rw [untrimmedItems]
  exact fun children hn => h ⟨children, hn⟩

theorem untrimmedParagraphs_of_ne (opening further : Text) (h : ¬ n.IsParagraph) :
    untrimmedParagraphs opening further (n :: ns) = untrimmedParagraphs opening further ns := by
  rw [untrimmedParagraphs]
  exact fun children hn => h ⟨children, hn⟩

end

/-! ## Fragments -/

theorem sameInk_codeBlock (value : Text) : SameInk (codeBlock value) (untrimmedCode value) :=
  ((SameInk.refl _).append (sameInk_trimEnd (escape value))).append (.refl _)

section
variable {ps qs : List Text} (h : AllSameInk ps qs)
include h

theorem sameInk_inline : SameInk (inline ps) qs.flatten := (sameInk_trim ps.flatten).trans h.flatten

theorem sameInk_indented : SameInk (indented (joinLines ps)) (indented (joinLines qs)) :=
  ((SameInk.refl _).append h.joinLines).append (.refl _)

/-- A definition is trimmed in three places, in the description, in the rest and as a whole. -/
theorem sameInk_paragraph (children : List Node) :
    SameInk (paragraph children ps) (untrimmedParagraph children qs) := by
  unfold paragraph untrimmedParagraph
  cases description? children with
  | none => exact (SameInk.refl ".PP\n".toList).append (sameInk_inline h)
  | some value =>
    have hterm := (SameInk.refl ".TP\n".toList).append h.headD
    have hvalue := (SameInk.refl ['\n']).append (sameInk_trimStart (escape value))
    have hrest := (SameInk.refl ['\n']).append (sameInk_inline (List.forall₂_drop 2 h))
    exact (sameInk_trimEnd _).trans ((hterm.append hvalue).append hrest)

/-- The link has its text in both renderings or in neither. -/
theorem sameInk_link (href : Text) :
    SameInk (link href (inline ps)) (untrimmedLink href (inline ps) qs.flatten) := by
  have hbody := sameInk_inline h
  unfold link untrimmedLink
  cases LinkTarget.ofHref href with
  | mail address =>
    have htext : SameInk (if Fragment.inline ps = address then [] else Fragment.inline ps)
        (if Fragment.inline ps = address then [] else qs.flatten) := by
      split
      · exact .refl _
      · exact hbody
    exact ((htext.append (.refl _)).append (.refl _)).append (.refl _)
  | manPage name sec => cases sec <;> exact .refl _
  | url href => exact ((hbody.append (.refl _)).append (.refl _)).append (.refl _)

end

/-! ## Conversions -/

/-- The fragments of a node are the same but for white space, by themselves, as those of its children and
as those of its paragraphs, and so many lists are counted either way. -/
structure TrimsBlank (n : Node) : Prop where
  self : (convert n).Related (Option.Rel SameInk) (untrimmed n)
  children : (convertAll n.children).Related AllSameInk (untrimmedAll n.children)
  paragraphs : ∀ opening further, (itemParagraphs opening further n.children).Related AllSameInk
    (untrimmedParagraphs opening further n.children)

theorem allSameInk_toList {p q : Option Text} (h : Option.Rel SameInk p q) :
    AllSameInk p.toList q.toList := by
  cases h with
  | some h => exact .cons h .nil
  | none => exact .nil

section
variable {ns : List Node} (hns : ∀ n ∈ ns, TrimsBlank n)
include hns

theorem related_untrimmedAll : (convertAll ns).Related AllSameInk (untrimmedAll ns) := by
  induction ns with
  | nil => exact Conversion.related_pure .nil
  | cons n ns ih =>
    rw [List.forall_mem_cons] at hns
    have hmore := ih hns.2
    rw [convertAll, untrimmedAll]
    refine hns.1.self.bind fun p q hpart => hmore.form fun ps qs hparts => ?_
    exact List.rel_append (allSameInk_toList hpart) hparts

theorem related_untrimmedQuoted : (quoted ns).Related AllSameInk (untrimmedQuoted ns) := by
  induction ns with
  | nil => exact Conversion.related_pure .nil
  | cons n ns ih =>
    rw [List.forall_mem_cons] at hns
    have hmore := ih hns.2
    by_cases hp : n.IsParagraph
    · obtain ⟨children, rfl⟩ := hp
      rw [quoted, untrimmedQuoted]
      refine hns.1.children.bind fun ps qs hparts => hmore.form fun _ _ hrest => ?_
      exact .cons (sameInk_inline hparts) hrest
    · rw [quoted_of_ne ns hp, untrimmedQuoted_of_ne ns hp]
      refine hns.1.self.bind fun p q hpart => hmore.form fun _ _ hrest => ?_
      exact List.rel_append (allSameInk_toList hpart) hrest

theorem related_untrimmedItems (marker : Marker) :
    (listItems marker ns).Related AllSameInk (untrimmedItems marker ns) := by
  induction ns with
  | nil => exact Conversion.related_pure .nil
  | cons n ns ih =>
    rw [List.forall_mem_cons] at hns
    have hmore := ih hns.2
    by_cases hi : n.IsItem
    · obtain ⟨children, rfl⟩ := hi
      rw [listItems, untrimmedItems]
      have hitem := hns.1.paragraphs marker.first marker.further
      refine hitem.bind fun ps qs hparts => hmore.form fun _ _ hrest => ?_
      exact .cons hparts.joinLines hrest
    · rw [listItems_of_ne ns marker hi, untrimmedItems_of_ne ns marker hi]
      exact hmore.of_report _

theorem related_untrimmedParagraphs (opening further : Text) :
    (itemParagraphs opening further ns).Related AllSameInk (untrimmedParagraphs opening further ns) := by
  induction ns generalizing opening with
  | nil => exact Conversion.related_pure .nil
  | cons n ns ih =>
    rw [List.forall_mem_cons] at hns
    by_cases hp : n.IsParagraph
    · obtain ⟨children, rfl⟩ := hp
      have hmore := ih hns.2 further
      rw [itemParagraphs, untrimmedParagraphs]
      refine hns.1.children.bind fun ps qs hparts => hmore.form fun _ _ hrest => ?_
      exact .cons ((SameInk.refl opening).append ((SameInk.refl ['\n']).append
        (sameInk_inline hparts))) hrest
    · rw [itemParagraphs_of_ne ns opening further hp, untrimmedParagraphs_of_ne ns opening further hp]
      exact ih hns.2 opening

end

theorem related_untrimmed {n : Node} (hn : ∀ c ∈ n.children, TrimsBlank c) :
    (convert n).Related (Option.Rel SameInk) (untrimmed n) := by
  have some_of {s t : Text} (h : SameInk s t) : Option.Rel SameInk (some s) (some t) := .some h
  cases n with
  | blank | text _ | abbreviation _ | typographic _ | quote _ | header _ _ _ | rule | comment _
  | codeSpan _ => exact Conversion.related_pure (some_of (.refl _))
  | codeBlock value => exact Conversion.related_pure (some_of (sameInk_codeBlock value))
  | listItem _ | unknown => exact (Conversion.related_pure .none).of_report _
  | bulletList children =>
    have hitems := related_untrimmedItems hn .bullet
    rw [convert, untrimmed]
    exact hitems.form fun _ _ h => some_of (sameInk_indented h)
  | orderedList children =>
    rw [convert, untrimmed]
    refine Conversion.related_bind _ fun list => ?_
    have hitems := related_untrimmedItems hn (.step list)
    refine hitems.form fun _ _ h => some_of ?_
    exact (SameInk.refl _).append ((SameInk.refl ['\n']).append (sameInk_indented h))
  | blockQuote children =>
    have hquoted := related_untrimmedQuoted hn
    rw [convert, untrimmed]
    exact hquoted.form fun _ _ h => some_of ((SameInk.refl _).append (sameInk_indented h))
  | paragraph children =>
    have hall := related_untrimmedAll hn
    rw [convert, untrimmed]
    exact hall.form fun _ _ h => some_of (sameInk_paragraph h children)
  | emphasis children | strong children =>
    have hall := related_untrimmedAll hn
    rw [convert, untrimmed]
    exact hall.form fun _ _ h =>
      some_of (((SameInk.refl _).append (sameInk_inline h)).append (.refl _))
  | link href children =>
    -- A report changes neither the result nor the number of lists.
    intro k
    obtain ⟨hparts, hlists⟩ := related_untrimmedAll hn k
    have hlink := sameInk_link hparts href
    rw [convert, untrimmed]
    by_cases hmalformed : LinkTarget.isMalformed href
    · simp only [hmalformed, if_true]
      exact ⟨some_of hlink, hlists⟩
    · simp only [hmalformed]
      exact ⟨some_of hlink, hlists⟩

theorem trimsBlank (n : Node) : TrimsBlank n := by
  induction n using Node.induct with
  | h n ih =>
    refine ⟨related_untrimmed ih, related_untrimmedAll ih, ?_⟩
    intro opening further
    exact related_untrimmedParagraphs ih opening further

/-- Without its white space a page is what it would be if nothing were trimmed on the way to it. -/
theorem visible_render (d : Document) : visible d.render = visible d.renderUntrimmed := by
  have hblocks := (related_untrimmedAll fun n (_ : n ∈ d.blocks) => trimsBlank n) 0
  have hbanner : SameInk (bannerLines ++ ['\n']) (bannerLines ++ ['\n']) := .refl _
  have hpage := hbanner.append hblocks.1.joinLines
  unfold Document.render Document.page Document.body Document.renderUntrimmed
  simp only [Conversion.run_map]
  simpa [SameInk] using hpage

/-- The white space is on the page if nothing is trimmed. -/
example : Document.render ⟨[.paragraph [.strong [.text " a ".toList]]]⟩ ≠
    Document.renderUntrimmed ⟨[.paragraph [.strong [.text " a ".toList]]]⟩ := by decide

end ManPage
