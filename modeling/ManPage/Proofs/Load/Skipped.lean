import ManPage.Proofs.Load.Brackets

/-! # Skipped values

In a place where values are skipped every value is passed over up to its end, whatever its numbers and
its escapes are, however deep its brackets are nested, and with any stray bytes in its strings.
-/
namespace ManPage.Json.Quotation
open Text (Piece)

/-- A lax scan comes to the closing quote, also behind stray bytes. -/
theorem scan_loose {q : Quotation} (us : List LooseUnit) (hp : q.phase = .plain) (ps : List Piece) :
    ∃ t, q.scan false (us.flatMap LooseUnit.pieces ++ .char '"' :: ps) = .ok (some (t, ps)) := by
  induction us generalizing q with
  | nil => exact ⟨q.chars.reverse, by simp [scan, step, hp]⟩
  | cons u us ih =>
    rw [List.flatMap_cons, List.append_assoc]
    cases u with
    | unit u =>
      obtain ⟨r, hr, hscan⟩ := scan_units_lax q [u] hp
      rw [StringUnit.texts_cons, StringUnit.texts_nil, List.append_nil] at hscan
      rw [LooseUnit.pieces, hscan]
      exact ih hr
    | stray byte =>
      have hstep : q.step false (.stray byte) = .ok (.next { q with stray := true }) := by
        simp only [step, hp]
      rw [LooseUnit.pieces, List.singleton_append, scan, hstep]
      exact ih hp

end ManPage.Json.Quotation

namespace ManPage.Load
open Json Outcome Reader
open Text (Piece toPieces)

/-- A value in a place where values are skipped is passed over. -/
def PassedOver (l : Loose) : Prop :=
  ∀ (blocks : Option (List Node)) (around : List Bracket) (ps : List Piece), Delimited ps →
    (Reader.between (.value (.skipped blocks around))).read (l.pieces ++ ps) =
      (Reader.between (deliverSkipped blocks around)).read ps

/-- The first piece of a value is no space and closes no array. -/
theorem exists_pieces_cons (l : Loose) :
    ∃ c ps, l.pieces = .char c :: ps ∧ isSpace (.char c) = false ∧ c ≠ ']' := by
  cases l with
  | scalar s =>
    obtain ⟨c, t, ht, hspace, hclose⟩ := exists_text_cons (.scalar s)
    rw [Spelling.text] at ht
    exact ⟨c, toPieces t, by rw [Loose.pieces, ht, Text.toPieces_cons], hspace, hclose⟩
  | string us => exact ⟨'"', _, rfl, rfl, by decide⟩
  | array inside items => exact ⟨'[', _, rfl, rfl, by decide⟩
  | object inside entries => exact ⟨'{', _, rfl, rfl, by decide⟩

variable (blocks : Option (List Node)) (around : List Bracket)

theorem passedOver_string (us : List LooseUnit) : PassedOver (.string us) := by
  intro blocks around ps _
  have hstart : (Reader.between (.value (.skipped blocks around))).step (.char '"') =
      .ok (.string (.skipped blocks around) {}) := rfl
  obtain ⟨t, ht⟩ := Quotation.scan_loose (q := {}) us rfl ps
  rw [Loose.pieces, LooseUnit.literal, List.cons_append, read_of_step hstart, read_string,
    List.append_assoc]
  change ofFault (Quotation.scan false {} (_ ++ .char '"' :: ps)) >>= _ = _
  rw [ht]
  rfl

/-- The key of an entry and its colon, where keys are skipped. -/
theorem read_looseKey {start : Between .document} (hstart : start = .firstKey (.skipped blocks around) ∨
      start = .nextKey (.skipped blocks around)) (key : Padded (List LooseUnit)) (ps : List Piece) :
    (Reader.between start).read (key.pieces LooseUnit.literal ++ .char ':' :: ps) =
      (Reader.between (.value (.skipped blocks (.object :: around)))).read ps := by
  have hquote : (Reader.between start).step (.char '"') = .ok (.key (.skipped blocks around) {}) := by
    rcases hstart with rfl | rfl <;> rfl
  obtain ⟨t, ht⟩ := Quotation.scan_loose (q := {}) key.it rfl
    (key.behind.val.toPieces ++ .char ':' :: ps)
  simp only [Padded.pieces, LooseUnit.literal, List.append_assoc, List.cons_append, List.nil_append]
  rw [read_space _ key.before.property, read_of_step hquote, read_key]
  change ofFault (Quotation.scan false {} (_ ++ .char '"' :: (_ ++ _))) >>= _ = _
  rw [ht]
  exact read_colon _ key.behind.property ps

section
variable {p : Padded Loose} (h : PassedOver p.it) {ps : List Piece} (hd : Delimited ps)
include h hd

theorem PassedOver.read_padded :
    (Reader.between (.value (.skipped blocks around))).read (p.pieces Loose.pieces ++ ps) =
      (Reader.between (deliverSkipped blocks around)).read ps := by
  simp only [Padded.pieces, List.append_assoc]
  rw [read_space _ p.before.property, h blocks around _ (delimited_space p.behind.property hd),
    read_space _ p.behind.property]

/-- A value is passed over in the same way at the start of an array and behind a comma. -/
theorem PassedOver.read_item {start : Between .document}
    (hstart : start = .firstItem (.skipped blocks around) ∨ start = .nextItem (.skipped blocks around)) :
    (Reader.between start).read (p.pieces Loose.pieces ++ ps) =
      (Reader.between (.afterItem (.skipped blocks around))).read ps := by
  have hvalue := h.read_padded blocks (.array :: around) hd
  obtain ⟨c, qs, hqs, hspace, hclose⟩ := exists_pieces_cons p.it
  simp only [Padded.pieces, List.append_assoc, read_space _ p.before.property] at hvalue ⊢
  rw [hqs, List.cons_append, read_token _ hspace] at hvalue ⊢
  rw [deliverSkipped] at hvalue
  rw [← hvalue]
  rcases hstart with rfl | rfl <;> simp [Between.token, hclose, OpenArray.slot]

end

theorem takesItem_loose {p : Padded Loose} (h : PassedOver p.it) :
    TakesItem (fun _ : Unit => .skipped blocks around) (fun _ _ => .ok ())
      (Padded.pieces Loose.pieces) p := by
  intro _ start hstart ps hd
  exact h.read_item blocks around hd hstart

theorem takesEntry_loose {m : LooseMember Loose} (h : PassedOver m.value.it) :
    TakesEntry (fun _ : Unit => .skipped blocks around) (fun _ _ => .ok ())
      (LooseMember.pieces Loose.pieces) m := by
  intro _ start hstart ps hd
  rw [LooseMember.pieces, List.append_assoc, List.cons_append, read_looseKey blocks around hstart]
  exact h.read_padded blocks (.object :: around) hd

theorem foldlM_ok {ε α : Type} (l : List α) :
    l.foldlM (fun _ _ => (.ok () : Except ε Unit)) () = .ok () := by
  induction l with
  | nil => rfl
  | cons a l ih => exact ih

/-- Every value is passed over where values are skipped. -/
theorem passedOver (l : Loose) : PassedOver l := by
  induction l using Loose.induct with
  | scalar s =>
    intro blocks around ps hd
    exact read_scalar_lax blocks around s hd
  | string us => exact passedOver_string us
  | array inside items ih =>
    intro blocks around ps hd
    have hitems := read_separatedItems
      (fun p (hp : p ∈ items) => takesItem_loose blocks around (ih p hp)) inside () ps
    rw [Loose.pieces_array, List.cons_append, read_openArray, Slot.openArray, ok_bind]
    simp only [List.append_assoc, List.cons_append, List.nil_append, hitems, foldlM_ok]
    rfl
  | object inside entries ih =>
    intro blocks around ps hd
    have hentries := read_separatedEntries
      (fun m (hm : m ∈ entries) => takesEntry_loose blocks around (ih m hm)) inside () ps
    rw [Loose.pieces_object, List.cons_append, read_openObject, Slot.openObject, ok_bind]
    simp only [List.append_assoc, List.cons_append, List.nil_append, hentries, foldlM_ok]
    rfl

/-- The values that are skipped need not have stray bytes. -/
theorem exists_loose (s : Spelling) : ∃ l : Loose, l.pieces = s.text.toPieces := by
  obtain ⟨l, hl⟩ := recovers s s.text.toPieces (mended_toPieces _ _)
  exact ⟨l, hl.symm⟩

end ManPage.Load
