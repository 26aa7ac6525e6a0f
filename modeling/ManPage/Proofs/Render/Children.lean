import ManPage.Proofs.Render.Conversion
import ManPage.Render.Convert

/-! # Children one by one

What the conversion of children does with the first of them, wherever some kinds of children are
treated in their own way and all others alike.
-/
namespace ManPage
open Text Fragment

namespace Node

def IsParagraph (n : Node) : Prop := ∃ children, n = paragraph children

def IsItem (n : Node) : Prop := ∃ children, n = listItem children

theorem isParagraph_iff_kind {n : Node} : n.IsParagraph ↔ n.kind == .paragraph := by
  cases n <;> simp [IsParagraph, kind]

theorem isItem_iff_kind {n : Node} : n.IsItem ↔ n.kind == .listItem := by
  cases n <;> simp [IsItem, kind]

end Node

variable {n : Node} (ns : List Node)

theorem quoted_of_ne (h : ¬ n.IsParagraph) : quoted (n :: ns) = do
    let part ← convert n
    let more ← quoted ns
    return (part.toList ++ more) := by
  rw [quoted]
  exact fun children hn => h ⟨children, hn⟩

theorem listItems_of_ne (marker : Marker) (h : ¬ n.IsItem) : listItems marker (n :: ns) =
    Conversion.report (.skipped n.kind) >>= fun _ => listItems marker ns := by
  rw [listItems]
  exact fun children hn => h ⟨children, hn⟩

theorem itemParagraphs_of_ne (opening further : Text) (h : ¬ n.IsParagraph) :
    itemParagraphs opening further (n :: ns) = itemParagraphs opening further ns := by
  rw [itemParagraphs]
  exact fun children hn => h ⟨children, hn⟩

/-! ## One among others -/

section
variable (before after : List Node)

theorem convertAll_among (n : Node) : convertAll (before ++ n :: after) = do
    let parts ← convertAll before
    let part ← convert n
    let more ← convertAll after
    return parts ++ (part.toList ++ more) := by
  induction before with
  | nil => simp [convertAll]
  | cons m before ih => simp [-bind_pure_comp, convertAll, ih]

theorem quoted_among (h : ¬ n.IsParagraph) : quoted (before ++ n :: after) = do
    let parts ← quoted before
    let part ← convert n
    let more ← quoted after
    return parts ++ (part.toList ++ more) := by
  induction before with
  | nil => simp [quoted_of_ne _ h, quoted]
  | cons m before ih =>
    by_cases hm : m.IsParagraph
    · obtain ⟨children, rfl⟩ := hm
      simp [-bind_pure_comp, quoted, ih]
    · simp [-bind_pure_comp, quoted_of_ne _ hm, ih]

end

/-! ## Results -/

section
variable (n : Node) (ns : List Node) (k : Nat)

theorem result_convertAll_cons : ((convertAll (n :: ns)).run k).result =
    ((convert n).run k).result.toList ++ ((convertAll ns).run ((convert n).run k).lists).result := by
  rw [convertAll]
  rfl

end

/-! ## Fragments -/

theorem indented_eq (body : Text) :
    indented body = ".RS".toList ++ '\n' :: (body ++ '\n' :: ".RE".toList) :=
  List.append_assoc ".RS\n".toList body "\n.RE".toList

/-! ## Definitions -/

theorem description?_eq_some {children : List Node} {value : Text}
    (h : description? children = some value) : ∃ term rest, children = term :: .text value :: rest ∧
      ((∃ inside, term = .emphasis inside) ∨ ∃ code, term = .codeSpan code) := by
  unfold description? at h
  split at h
  · rename_i inside v rest
    obtain ⟨-, hv⟩ := Option.ite_none_right_eq_some.mp h
    obtain rfl := Option.some.inj hv
    exact ⟨_, rest, rfl, Or.inl ⟨inside, rfl⟩⟩
  · rename_i code v rest
    obtain ⟨-, hv⟩ := Option.ite_none_right_eq_some.mp h
    obtain rfl := Option.some.inj hv
    exact ⟨_, rest, rfl, Or.inr ⟨code, rfl⟩⟩
  · contradiction

end ManPage
