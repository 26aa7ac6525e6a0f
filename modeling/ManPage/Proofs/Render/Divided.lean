import Mathlib.Logic.Relation
import ManPage.Proofs.Render.Conversion
import ManPage.Proofs.Render.Definition
import ManPage.Proofs.Tree.Subtree
import ManPage.Render.Sink

/-! # Divided texts

A text among inline children may be divided into two, at any place and at any depth, and two that stand next
to each other may be put together: what is between them is neither trimmed nor escaped in another way. It
makes a difference only in a paragraph by itself that starts like a definition, where the second child
decides whether it is one.
-/
namespace ManPage
open Text Fragment

/-! ## Dividing a text -/

/-- One of the texts among the nodes is divided. -/
def DividesText (ns ms : List Node) : Prop :=
  ∃ before after s t, ns = before ++ .text (s ++ t) :: after ∧ ms = before ++ .text s :: .text t :: after

namespace Node

/-- A paragraph is read as running text, whatever its first child is, where `above` is the kind of its
parent. -/
def IsSubparagraph (above : Option Kind) (n : Node) : Prop :=
  n.kind = .paragraph ∧ (above = some .blockQuote ∨ above = some .listItem)

/-- The children of the node are read as one running text, where `above` is the kind of its parent. -/
def RunsOn (above : Option Kind) (n : Node) : Prop :=
  n.kind = .emphasis ∨ n.kind = .strong ∨ n.kind = .link ∨ n.IsSubparagraph above ∨
    n.kind = .paragraph ∧ n.children.head?.map kind ≠ some .emphasis ∧
      n.children.head?.map kind ≠ some .codeSpan

instance (above : Option Kind) (n : Node) : Decidable (n.IsSubparagraph above) :=
  inferInstanceAs (Decidable (_ ∧ _))

instance (above : Option Kind) (n : Node) : Decidable (n.RunsOn above) :=
  inferInstanceAs (Decidable (_ ∨ _ ∨ _ ∨ _ ∨ _ ∧ _ ∧ _))

/-- One text is divided in the node, among its children or further down. -/
inductive Divides : Option Kind → Node → Node → Prop
  | here {above : Option Kind} {n : Node} {children : List Node} (hn : n.RunsOn above)
    (h : DividesText n.children children) : Divides above n (n.mapChildren fun _ => children)
  | inside {above : Option Kind} {n c m : Node} (before after : List Node)
    (hchildren : n.children = before ++ c :: after) (h : Divides (some n.kind) c m) :
    Divides above n (n.mapChildren fun _ => before ++ m :: after)

end Node

/-- One text is divided in one of the blocks. -/
inductive Document.Divides : Document → Document → Prop
  | intro {n m : Node} (before after : List Node) (h : Node.Divides none n m) :
    Divides ⟨before ++ n :: after⟩ ⟨before ++ m :: after⟩

/-! ## Running text -/

/-- The fragments of the nodes, one behind the other. -/
def running (ns : List Node) : Conversion Text := List.flatten <$> convertAll ns

theorem running_cons (n : Node) (ns : List Node) : running (n :: ns) = do
    let part ← convert n
    let more ← running ns
    return part.toList.flatten ++ more := by
  ext lists : 1
  simp [running, convertAll]

/-- A text is escaped character by character, so that both parts are escaped as they are in the whole. -/
theorem running_eq_of_dividesText {ns ms : List Node} (h : DividesText ns ms) :
    running ns = running ms := by
  obtain ⟨before, after, s, t, rfl, rfl⟩ := h
  induction before with
  | nil =>
    have htext (v : Text) : convert (.text v) = pure (some (escape v)) := by rw [convert]
    rw [List.nil_append, List.nil_append, running_cons, running_cons, running_cons]
    simp only [htext, pure_bind, bind_assoc, escape_append, Option.toList_some, List.flatten_singleton,
      List.append_assoc]
  | cons n before ih => rw [List.cons_append, List.cons_append, running_cons, running_cons, ih]

section
variable {children children' : List Node} (h : running children = running children')
include h

theorem convertAll_bind_congr {α : Type} (f : Text → Conversion α) :
    (convertAll children >>= fun parts => f parts.flatten) =
      convertAll children' >>= fun parts => f parts.flatten := by
  have hbind := congrArg (· >>= f) h
  simpa only [running, bind_map_left] using hbind

theorem convert_emphasis_congr : convert (.emphasis children) = convert (.emphasis children') := by
  rw [convert, convert]
  exact convertAll_bind_congr h fun t => pure (some (emphasis (trim t)))

theorem convert_strong_congr : convert (.strong children) = convert (.strong children') := by
  rw [convert, convert]
  exact convertAll_bind_congr h fun t => pure (some (strong (trim t)))

theorem convert_link_congr (href : Text) :
    convert (.link href children) = convert (.link href children') := by
  rw [convert, convert]
  exact convertAll_bind_congr h fun t => do
    if LinkTarget.isMalformed href then Conversion.report (.malformedLink href)
    return some (link href (trim t))

theorem convert_plain_congr (hplain : description? children = none)
    (hplain' : description? children' = none) :
    convert (.paragraph children) = convert (.paragraph children') := by
  rw [convert, convert]
  simp only [paragraph, hplain, hplain']
  exact convertAll_bind_congr h fun t => pure (some (".PP\n".toList ++ trim t))

end

/-! ## One child for another -/

theorem Node.isParagraph_congr {c m : Node} (hkind : c.kind = m.kind) :
    c.IsParagraph ↔ m.IsParagraph := by
  rw [isParagraph_iff_kind, isParagraph_iff_kind, hkind]

theorem Node.isItem_congr {c m : Node} (hkind : c.kind = m.kind) : c.IsItem ↔ m.IsItem := by
  rw [isItem_iff_kind, isItem_iff_kind, hkind]

section
variable {c m : Node} (before after : List Node)

theorem convertAll_congr (h : convert c = convert m) :
    convertAll (before ++ c :: after) = convertAll (before ++ m :: after) := by
  rw [convertAll_among, convertAll_among, h]

theorem quoted_cons_congr (n : Node) {ns ms : List Node} (h : quoted ns = quoted ms) :
    quoted (n :: ns) = quoted (n :: ms) := by
  by_cases hn : n.IsParagraph
  · obtain ⟨children, rfl⟩ := hn
    rw [quoted, quoted, h]
  · rw [quoted_of_ne ns hn, quoted_of_ne ms hn, h]

theorem quoted_congr (hkind : c.kind = m.kind) (hconvert : c.kind ≠ .paragraph → convert c = convert m)
    (hrunning : c.kind = .paragraph → running c.children = running m.children) :
    quoted (before ++ c :: after) = quoted (before ++ m :: after) := by
  induction before with
  | nil =>
    rw [List.nil_append, List.nil_append]
    by_cases hc : c.IsParagraph
    · have hm := (Node.isParagraph_congr hkind).mp hc
      obtain ⟨children, rfl⟩ := hc
      obtain ⟨children', rfl⟩ := hm
      rw [quoted, quoted]
      exact convertAll_bind_congr (hrunning rfl) fun t => do
        let more ← quoted after
        return trim t :: more
    · have hm := mt (Node.isParagraph_congr hkind).mpr hc
      have hother : c.kind ≠ .paragraph := by
        rwa [Node.isParagraph_iff_kind, beq_iff_eq] at hc
      rw [quoted_of_ne after hc, quoted_of_ne after hm, hconvert hother]
  | cons n before ih => exact quoted_cons_congr n ih

theorem listItems_cons_congr (marker : Marker) (n : Node) {ns ms : List Node}
    (h : listItems marker ns = listItems marker ms) :
    listItems marker (n :: ns) = listItems marker (n :: ms) := by
  by_cases hn : n.IsItem
  · obtain ⟨children, rfl⟩ := hn
    rw [listItems, listItems, h]
  · rw [listItems_of_ne ns marker hn, listItems_of_ne ms marker hn, h]

theorem listItems_congr (marker : Marker) (hkind : c.kind = m.kind)
    (hitems : c.kind = .listItem → ∀ opening further,
      itemParagraphs opening further c.children = itemParagraphs opening further m.children) :
    listItems marker (before ++ c :: after) = listItems marker (before ++ m :: after) := by
  induction before with
  | nil =>
    rw [List.nil_append, List.nil_append]
    by_cases hc : c.IsItem
    · have hm := (Node.isItem_congr hkind).mp hc
      obtain ⟨children, rfl⟩ := hc
      obtain ⟨children', rfl⟩ := hm
      have hparagraphs := hitems rfl marker.first marker.further
      rw [listItems, listItems]
      exact congrArg (· >>= _) hparagraphs
    · have hm := mt (Node.isItem_congr hkind).mpr hc
      rw [listItems_of_ne after marker hc, listItems_of_ne after marker hm, hkind]
  | cons n before ih => exact listItems_cons_congr marker n ih

theorem itemParagraphs_congr (opening further : Text) (hkind : c.kind = m.kind)
    (hrunning : c.kind = .paragraph → running c.children = running m.children) :
    itemParagraphs opening further (before ++ c :: after) =
      itemParagraphs opening further (before ++ m :: after) := by
  induction before generalizing opening with
  | nil =>
    rw [List.nil_append, List.nil_append]
    by_cases hc : c.IsParagraph
    · have hm := (Node.isParagraph_congr hkind).mp hc
      obtain ⟨children, rfl⟩ := hc
      obtain ⟨children', rfl⟩ := hm
      rw [itemParagraphs, itemParagraphs]
      exact convertAll_bind_congr (hrunning rfl) fun t => do
        let more ← itemParagraphs further further after
        return (opening ++ '\n' :: trim t) :: more
    · have hm := mt (Node.isParagraph_congr hkind).mpr hc
      rw [itemParagraphs_of_ne after opening further hc, itemParagraphs_of_ne after opening further hm]
  | cons n before ih =>
    rw [List.cons_append, List.cons_append]
    by_cases hn : n.IsParagraph
    · obtain ⟨children, rfl⟩ := hn
      rw [itemParagraphs, itemParagraphs, ih further]
    · rw [itemParagraphs_of_ne _ opening further hn, itemParagraphs_of_ne _ opening further hn, ih opening]

/-- A child that is no text may be replaced by another one of its kind. -/
theorem description?_of_replaced (hkind : c.kind = m.kind) (htext : c.kind ≠ .text) {value : Text}
    (h : description? (before ++ c :: after) = some value) :
    description? (before ++ m :: after) = some value := by
  obtain ⟨d, hd, rfl⟩ := exists_definition h
  rcases before with _ | ⟨b, _ | ⟨b', before⟩⟩
  · obtain ⟨rfl, rfl⟩ := List.cons.inj hd
    exact description?_children ⟨m, d.value, d.rest, hkind ▸ d.isTerm, d.indented⟩
  · obtain ⟨rfl, hmore⟩ := List.cons.inj hd
    obtain ⟨rfl, rfl⟩ := List.cons.inj hmore
    exact absurd rfl htext
  · obtain ⟨rfl, hmore⟩ := List.cons.inj hd
    obtain ⟨rfl, -⟩ := List.cons.inj hmore
    exact description?_children ⟨d.term, d.value, before ++ m :: after, d.isTerm, d.indented⟩

theorem description?_congr (hkind : c.kind = m.kind) (htext : c.kind ≠ .text) :
    description? (before ++ c :: after) = description? (before ++ m :: after) := by
  refine Option.ext fun value => ⟨description?_of_replaced before after hkind htext, ?_⟩
  exact description?_of_replaced before after hkind.symm (hkind ▸ htext)

end

/-! ## Divided nodes -/

/-- The nodes are converted alike wherever they may stand below a node of the kind `above`: by themselves,
as running text if they are paragraphs, and by their paragraphs if they are items. -/
structure ConvertsAlike (above : Option Kind) (n m : Node) : Prop where
  kind : n.kind = m.kind
  notText : n.kind ≠ .text
  self : ¬ n.IsSubparagraph above → convert n = convert m
  running : n.kind = .paragraph → running n.children = running m.children
  items : n.kind = .listItem → ∀ opening further,
    itemParagraphs opening further n.children = itemParagraphs opening further m.children

section
variable {above : Option Kind} {n m : Node}

/-- Nodes of a kind that is treated in one way everywhere. -/
theorem ConvertsAlike.of_convert (kind : Kind) (hn : n.kind = kind) (hm : m.kind = kind)
    (hkind : kind ≠ .text ∧ kind ≠ .paragraph ∧ kind ≠ .listItem) (h : convert n = convert m) :
    ConvertsAlike above n m := by
  subst hn
  exact ⟨hm.symm, hkind.1, fun _ => h, fun hparagraph => absurd hparagraph hkind.2.1,
    fun hitem => absurd hitem hkind.2.2⟩

theorem Node.RunsOn.kind_cases (h : n.RunsOn above) :
    n.kind = .emphasis ∨ n.kind = .strong ∨ n.kind = .link ∨ n.kind = .paragraph := by
  rcases h with h | h | h | h | h
  · exact Or.inl h
  · exact Or.inr (Or.inl h)
  · exact Or.inr (Or.inr (Or.inl h))
  · exact Or.inr (Or.inr (Or.inr h.1))
  · exact Or.inr (Or.inr (Or.inr h.1))

/-- A paragraph by itself, in which a text is divided, does not start like a definition. -/
theorem Node.RunsOn.head_ne (h : n.RunsOn above) (hkind : n.kind = .paragraph)
    (hself : ¬ n.IsSubparagraph above) : n.children.head?.map kind ≠ some .emphasis ∧
      n.children.head?.map kind ≠ some .codeSpan := by
  rcases h with h | h | h | h | h
  · exact absurd (hkind.symm.trans h) (by decide)
  · exact absurd (hkind.symm.trans h) (by decide)
  · exact absurd (hkind.symm.trans h) (by decide)
  · exact absurd h hself
  · exact h.2

theorem description?_eq_none_of_head {children : List Node}
    (h : children.head?.map Node.kind ≠ some .emphasis ∧ children.head?.map Node.kind ≠ some .codeSpan) :
    description? children = none := by
  cases hdescription : description? children with
  | none => rfl
  | some value =>
    obtain ⟨d, rfl, -⟩ := exists_definition hdescription
    have hhead : d.children.head?.map Node.kind = some d.term.kind := rfl
    rcases d.isTerm with hterm | hterm
    · exact absurd (hhead.trans (congrArg some hterm)) h.1
    · exact absurd (hhead.trans (congrArg some hterm)) h.2

theorem head?_kind_of_dividesText {ns ms : List Node} (h : DividesText ns ms) :
    ns.head?.map Node.kind = ms.head?.map Node.kind := by
  obtain ⟨before, after, s, t, rfl, rfl⟩ := h
  cases before <;> rfl

theorem convertsAlike_here {children : List Node} (hn : n.RunsOn above)
    (h : DividesText n.children children) : ConvertsAlike above n (n.mapChildren fun _ => children) := by
  have hrunning := running_eq_of_dividesText h
  cases n with
  | emphasis cs => exact .of_convert .emphasis rfl rfl (by decide) (convert_emphasis_congr hrunning)
  | strong cs => exact .of_convert .strong rfl rfl (by decide) (convert_strong_congr hrunning)
  | link href cs => exact .of_convert .link rfl rfl (by decide) (convert_link_congr hrunning href)
  | paragraph cs =>
    refine ⟨rfl, Kind.noConfusion, ?_, fun _ => hrunning, Kind.noConfusion⟩
    intro hself
    have hhead := hn.head_ne rfl hself
    have hhead' := hhead
    rw [head?_kind_of_dividesText h] at hhead'
    exact convert_plain_congr hrunning (description?_eq_none_of_head hhead)
      (description?_eq_none_of_head hhead')
  | _ => rcases hn.kind_cases with hkind | hkind | hkind | hkind <;> contradiction

theorem convertsAlike_inside {c : Node} {before after : List Node}
    (hchildren : n.children = before ++ c :: after) (h : ConvertsAlike (some n.kind) c m) :
    ConvertsAlike above n (n.mapChildren fun _ => before ++ m :: after) := by
  -- Only a paragraph directly in a block quote or in an item is not converted by itself.
  have hself (hdirect : c.kind ≠ .paragraph ∨ n.kind ≠ .blockQuote ∧ n.kind ≠ .listItem) :
      convert c = convert m := by
    apply h.self
    rintro ⟨hparagraph, habove⟩
    rcases hdirect with hother | ⟨hquote, hitem⟩
    · exact hother hparagraph
    · rcases habove with habove | habove
      · exact hquote (Option.some.inj habove)
      · exact hitem (Option.some.inj habove)
  have hall (hquote : n.kind ≠ .blockQuote) (hitem : n.kind ≠ .listItem) :
      convertAll (before ++ c :: after) = convertAll (before ++ m :: after) :=
    convertAll_congr before after (hself (Or.inr ⟨hquote, hitem⟩))
  cases n with
  | header level rawText cs => exact .of_convert .header rfl rfl (by decide) rfl
  | bulletList cs =>
    obtain rfl : cs = before ++ c :: after := hchildren
    refine .of_convert .bulletList rfl rfl (by decide) ?_
    rw [Node.mapChildren, convert, convert, listItems_congr before after _ h.kind h.items]
  | orderedList cs =>
    obtain rfl : cs = before ++ c :: after := hchildren
    refine .of_convert .orderedList rfl rfl (by decide) ?_
    rw [Node.mapChildren, convert, convert]
    simp only [listItems_congr before after _ h.kind h.items]
  | listItem cs =>
    obtain rfl : cs = before ++ c :: after := hchildren
    refine ⟨rfl, Kind.noConfusion, fun _ => ?_, Kind.noConfusion, ?_⟩
    · rw [Node.mapChildren, convert, convert]
    · intro _ opening further
      exact itemParagraphs_congr before after opening further h.kind h.running
  | blockQuote cs =>
    obtain rfl : cs = before ++ c :: after := hchildren
    have hquoted := quoted_congr before after h.kind (fun hother => hself (Or.inl hother)) h.running
    refine .of_convert .blockQuote rfl rfl (by decide) ?_
    rw [Node.mapChildren, convert, convert, hquoted]
  | paragraph cs =>
    obtain rfl : cs = before ++ c :: after := hchildren
    have hparts := hall Kind.noConfusion Kind.noConfusion
    refine ⟨rfl, Kind.noConfusion, fun _ => ?_, fun _ => ?_, Kind.noConfusion⟩
    · rw [Node.mapChildren, convert, convert, hparts]
      simp only [paragraph, description?_congr before after h.kind h.notText]
    · exact congrArg (List.flatten <$> ·) hparts
  | emphasis cs =>
    obtain rfl : cs = before ++ c :: after := hchildren
    refine .of_convert .emphasis rfl rfl (by decide) ?_
    rw [Node.mapChildren, convert, convert, hall Kind.noConfusion Kind.noConfusion]
  | strong cs =>
    obtain rfl : cs = before ++ c :: after := hchildren
    refine .of_convert .strong rfl rfl (by decide) ?_
    rw [Node.mapChildren, convert, convert, hall Kind.noConfusion Kind.noConfusion]
  | link href cs =>
    obtain rfl : cs = before ++ c :: after := hchildren
    refine .of_convert .link rfl rfl (by decide) ?_
    rw [Node.mapChildren, convert, convert, hall Kind.noConfusion Kind.noConfusion]
  | _ => exact absurd hchildren (by simp [Node.children])

theorem Node.Divides.convertsAlike (h : Node.Divides above n m) : ConvertsAlike above n m := by
  induction h with
  | here hn h => exact convertsAlike_here hn h
  | inside _ _ hchildren _ ih => exact convertsAlike_inside hchildren ih

end

/-! ## Divided documents -/

theorem Document.Divides.body_eq {d e : Document} (h : d.Divides e) : d.body = e.body := by
  obtain ⟨before, after, hnode⟩ := h
  have hblock := hnode.convertsAlike.self (by rintro ⟨-, h | h⟩ <;> contradiction)
  rw [Document.body, Document.body, convertAll_congr before after hblock]

/-- What one step leaves as it is is left as it is by any number of them, forth and back. -/
theorem body_eq_of_eqvGen {d e : Document} (h : Relation.EqvGen Document.Divides d e) :
    d.body = e.body := by
  induction h with
  | rel d e hstep => exact hstep.body_eq
  | refl d => rfl
  | symm d e _ ih => exact ih.symm
  | trans d e f _ _ ih ih' => exact ih.trans ih'

/-- Texts may be divided and put together again and again, at any depth of a document, without a change of
its page: in emphasis, in strong text and in links, in paragraphs directly in block quotes and items, and in
other paragraphs that start with neither emphasis nor code. The lists that are counted and the events on the
way stay the same as well, in every layout. -/
theorem Document.render_divided {d e : Document} (h : Relation.EqvGen Document.Divides d e) :
    d.render = e.render ∧ ∀ l : Layout, l.typeset d = l.typeset e := by
  have hbody := body_eq_of_eqvGen h
  have hpage : d.page = e.page := congrArg ((bannerLines ++ '\n' :: ·) <$> ·) hbody
  constructor
  · rw [Document.render, Document.render, hpage]
  · intro l
    rw [Layout.typeset, Layout.typeset, hbody, hpage]

/-- A paragraph of an item that starts like a definition, in one piece. -/
def wholeStep : Node :=
  .orderedList [.listItem [.paragraph [.emphasis [.text "a-b".toList], .text "  c ".toList]]]

def dividedStep : Node :=
  .orderedList [.listItem [.paragraph [.emphasis [.text "a".toList, .text "-b".toList],
    .text "  c ".toList]]]

/-- A link in a quote whose text is the address, in one piece. -/
def wholeMail : Node :=
  .blockQuote [.paragraph [.codeSpan "x".toList, .text "\tto ".toList,
    .link "mailto:me".toList [.text " me ".toList]]]

def dividedMail : Node :=
  .blockQuote [.paragraph [.codeSpan "x".toList, .text "\tto ".toList,
    .link "mailto:me".toList [.text " m".toList, .text "e ".toList]]]

/-- A text is divided in the one block, and two are put together in the other. -/
theorem render_divided_mixed :
    Relation.EqvGen Document.Divides ⟨[wholeStep, dividedMail]⟩ ⟨[dividedStep, wholeMail]⟩ ∧
    Document.render ⟨[wholeStep, dividedMail]⟩ = Document.render ⟨[dividedStep, wholeMail]⟩ ∧
    ∀ l : Layout, l.typeset ⟨[wholeStep, dividedMail]⟩ = l.typeset ⟨[dividedStep, wholeMail]⟩ := by
  have hstep : Node.Divides none wholeStep dividedStep :=
    .inside [] [] rfl (.inside [] [] rfl (.inside [] [.text "  c ".toList] rfl
      (.here (by decide) ⟨[], [], "a".toList, "-b".toList, rfl, rfl⟩)))
  have hmail : Node.Divides none wholeMail dividedMail :=
    .inside [] [] rfl (.inside [.codeSpan "x".toList, .text "\tto ".toList] [] rfl
      (.here (by decide) ⟨[], [], " m".toList, "e ".toList, rfl, rfl⟩))
  have hfirst : Document.Divides ⟨[wholeStep, dividedMail]⟩ ⟨[dividedStep, dividedMail]⟩ :=
    .intro [] [dividedMail] hstep
  have hsecond : Document.Divides ⟨[dividedStep, wholeMail]⟩ ⟨[dividedStep, dividedMail]⟩ :=
    .intro [dividedStep] [] hmail
  have hmixed := Relation.EqvGen.trans _ _ _ (.rel _ _ hfirst) (.symm _ _ (.rel _ _ hsecond))
  exact ⟨hmixed, Document.render_divided hmixed⟩

/-- By itself a paragraph that starts with code is a definition by the whole of its first text. -/
example : Document.render ⟨[.paragraph [.codeSpan "x".toList, .text "  y".toList]]⟩ ≠
    Document.render ⟨[.paragraph [.codeSpan "x".toList, .text " ".toList, .text " y".toList]]⟩ := by
  decide

end ManPage
