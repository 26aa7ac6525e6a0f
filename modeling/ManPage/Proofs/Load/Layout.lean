import Mathlib.Data.List.Forall2
import ManPage.Proofs.Load.Structure

/-! # Layout

How much space stands between the tokens of a text, and which characters of its strings are spelled as
escapes, has no part in what is loaded from it.
-/
namespace ManPage.Json
open Outcome Load

/-- The same literal, or strings that stand for the same text. -/
inductive ScalarSpelling.Alike : ScalarSpelling → ScalarSpelling → Prop
  | refl (s : ScalarSpelling) : Alike s s
  | string {us vs : List StringUnit} (h : StringUnit.decode us = StringUnit.decode vs) :
    Alike (.string us) (.string vs)

/-- Spellings that are the same but for their space and for the characters of their strings. -/
inductive Spelling.Alike : Spelling → Spelling → Prop
  | scalar {s s' : ScalarSpelling} (h : s.Alike s') : Alike (.scalar s) (.scalar s')
  | array {inside inside' : Space} {items items' : List (Padded Spelling)}
    (h : List.Forall₂ (fun p p' => Alike p.it p'.it) items items') :
    Alike (.array inside items) (.array inside' items')
  | object {inside inside' : Space} {entries entries' : List (Member Spelling)}
    (hkeys : List.Forall₂ (fun m m' => StringUnit.decode m.key.it = StringUnit.decode m'.key.it)
      entries entries')
    (hvalues : List.Forall₂ (fun m m' => Alike m.value.it m'.value.it) entries entries') :
    Alike (.object inside entries) (.object inside' entries')

/-! ## Lists -/

section
variable {ε α β γ δ : Type} {as : List α} {bs : List β}

theorem mapM_eq_of_forall₂ {f : α → Except ε γ} {g : β → Except ε γ}
    (h : List.Forall₂ (fun a b => f a = g b) as bs) : as.mapM f = bs.mapM g := by
  induction h with
  | nil => rfl
  | cons hab _ ih => rw [List.mapM_cons, List.mapM_cons, hab, ih]

theorem foldlM_eq_of_forall₂ {f : δ → α → Except ε δ} {g : δ → β → Except ε δ}
    (h : List.Forall₂ (fun a b => ∀ d, f d a = g d b) as bs) (d : δ) :
    as.foldlM f d = bs.foldlM g d := by
  induction h generalizing d with
  | nil => rfl
  | cons hab _ ih =>
    rw [List.foldlM_cons, List.foldlM_cons, hab]
    exact bind_congr ih

end

/-! ## Values -/

theorem ScalarSpelling.Alike.scalar_eq {s s' : ScalarSpelling} (h : s.Alike s') :
    s.scalar = s'.scalar := by
  cases h with
  | refl s => rfl
  | string h => rw [ScalarSpelling.scalar, ScalarSpelling.scalar, h]

namespace Spelling

theorem Alike.value_eq {s s' : Spelling} (h : s.Alike s') (room : Nat) :
    s.value room = s'.value room := by
  induction s using Spelling.induct generalizing s' room with
  | scalar s =>
    cases h with
    | scalar h => rw [value, value, h.scalar_eq]
  | array inside items ih =>
    cases h with
    | array h =>
      cases room with
      | zero => rfl
      | succ room =>
        rw [value_array_succ, value_array_succ]
        refine congrArg _ (mapM_eq_of_forall₂ ?_)
        exact ((List.forall₂_and_left _ _).mpr ⟨ih, h⟩).imp fun p p' h => h.1 h.2 room
  | object inside entries ih =>
    cases h with
    | object hkeys hvalues =>
      cases room with
      | zero => rfl
      | succ room =>
        rw [value_object_succ, value_object_succ]
        refine congrArg _ (mapM_eq_of_forall₂ ?_)
        refine hkeys.mp (fun m m' hkey h => ?_) ((List.forall₂_and_left _ _).mpr ⟨ih, hvalues⟩)
        rw [member, member, hkey, h.1 h.2 room]

theorem Alike.tag_eq {s s' : Spelling} (h : s.Alike s') : s.tag = s'.tag := by
  cases h with
  | scalar h => rw [tag, tag, h.scalar_eq]
  | array _ | object _ _ => rfl

theorem Alike.node_eq {s s' : Spelling} (h : s.Alike s') (room : Nat) :
    s.node room = s'.node room := by
  cases h with
  | scalar h => rw [node, node, h.scalar_eq]
  | array h =>
    cases room with
    | zero => rfl
    | succ room =>
      cases h with
      | nil => rfl
      | cons htag hitems =>
        have hvalues := mapM_eq_of_forall₂ (hitems.imp fun _ _ h => h.value_eq room)
        rw [node, node, htag.tag_eq, hvalues]
  | object hkeys hvalues =>
    cases room with
    | zero => rfl
    | succ room =>
      rw [node, node]
      refine congrArg (· >>= closeNode) (foldlM_eq_of_forall₂ ?_ _)
      refine hkeys.mp (fun m m' hkey h found => ?_) hvalues
      rw [nodeEntry, nodeEntry, hkey, h.tag_eq, h.value_eq]

theorem Alike.blocks_eq {s s' : Spelling} (h : s.Alike s') : s.blocks = s'.blocks := by
  cases h with
  | scalar h => rw [blocks, blocks, h.scalar_eq]
  | array h => exact mapM_eq_of_forall₂ (h.imp fun _ _ h => h.node_eq _)
  | object _ _ => rfl

theorem Alike.document_eq {s s' : Spelling} (h : s.Alike s') : s.document = s'.document := by
  cases h with
  | scalar h => rw [document, document, h.scalar_eq]
  | array h =>
    cases h with
    | nil => rfl
    | cons hfirst hmore =>
      cases hmore with
      | nil => rw [document, document, hfirst.blocks_eq]
      | cons _ _ => rw [document, document, hfirst.blocks_eq]
  | object hkeys hvalues =>
    rw [document, document]
    refine congrArg _ (foldlM_eq_of_forall₂ ?_ _)
    refine hkeys.mp (fun m m' hkey h found => ?_) hvalues
    unfold documentEntry
    rw [hkey, h.blocks_eq]

end Spelling
end ManPage.Json

namespace ManPage
open Json

/-- Texts that differ in their layout are loaded alike, also where that fails. -/
theorem Document.ofText_eq_of_alike {p p' : Padded Spelling} (h : p.it.Alike p'.it) :
    Document.ofText (p.text Spelling.text) = Document.ofText (p'.text Spelling.text) := by
  rw [Document.ofText_text, Document.ofText_text, h.document_eq]

end ManPage
