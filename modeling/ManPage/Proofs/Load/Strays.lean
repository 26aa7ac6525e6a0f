import ManPage.Proofs.Load.Rejected
import ManPage.Proofs.Json.Loose

/-! # Stray bytes

A byte that belongs to no character is passed over in one place only: in a string that is skipped, where
no escape is open. Elsewhere it is an error at once, or the string in which it stands can only fail. In a
skipped string nothing depends on what has been read but the phase, so that any units may stand there
instead of the byte.
-/
namespace ManPage.Json
open Outcome
open Text (Piece toPieces toPieces_append)

namespace Quotation
variable {q q' : Quotation} {byte : UInt8} {st : Step}

/-- A stray byte is noted, or it is put among the digits of an escape. -/
theorem step_stray {strict : Bool} (h : q.step strict (.stray byte) = .ok st) :
    (q.phase = .plain ∧ st = .next { q with stray := true }) ∨ ∃ r, st = .next r ∧ r.phase.IsDoomed := by
  cases hphase : q.phase with
  | plain =>
    simp only [step, hphase] at h
    cases h
    exact Or.inl ⟨rfl, rfl⟩
  | escape =>
    simp only [step, hphase] at h
    contradiction
  | hex lead seen =>
    have hnone : hex? (Piece.stray byte :: seen).reverse = none := hex?_eq_none List.mem_cons_self rfl
    simp only [step, hphase, hnone] at h
    split at h
    · next hwidth =>
      cases h
      exact Or.inr ⟨_, rfl, hwidth, _, List.mem_cons_self, rfl⟩
    · contradiction
  | pair lead =>
    simp only [step, hphase] at h
    split at h <;> contradiction
  | pairEscape lead =>
    simp only [step, hphase] at h
    split at h <;> contradiction

theorem stray_of_pushEscaped {strict : Bool} {lead : Option Nat} {n : Nat}
    (h : q.pushEscaped strict lead n = .ok q') : q'.stray = q.stray := by
  unfold pushEscaped at h
  split at h
  · split at h
    · cases h
      rfl
    · contradiction
  · split at h
    · contradiction
    split at h <;>
    · cases h
      rfl

/-- A string that is decoded is not closed behind a stray byte. -/
theorem step_of_stray {strict : Bool} (hs : strict) (hq : q.stray) {p : Piece}
    (h : q.step strict p = .ok st) : ∃ r, st = .next r ∧ r.stray := by
  subst hs
  cases hphase : q.phase with
  | plain =>
    simp only [step, hphase, hq] at h
    split at h
    · contradiction
    · cases h
      exact ⟨_, rfl, rfl⟩
    · split at h
      · contradiction
      · cases h
        exact ⟨_, rfl, hq⟩
    · cases h
      exact ⟨_, rfl, rfl⟩
  | escape =>
    simp only [step, hphase] at h
    split at h
    · cases h
      exact ⟨_, rfl, hq⟩
    · split at h
      · cases h
        exact ⟨_, rfl, hq⟩
      · contradiction
    · contradiction
  | hex lead seen =>
    simp only [step, hphase] at h
    split at h
    · cases h
      exact ⟨_, rfl, hq⟩
    split at h
    · obtain ⟨r, hr, rfl⟩ := map_eq_ok.mp h
      exact ⟨r, rfl, (stray_of_pushEscaped hr).trans hq⟩
    · contradiction
  | pair lead | pairEscape lead =>
    simp only [step, hphase] at h
    split at h
    · cases h
      exact ⟨_, rfl, hq⟩
    · contradiction

/-- The phase that follows; none follows the closing quote. -/
def Step.phase? : Step → Option QuotationPhase
  | .next q => some q.phase
  | .closed _ => none

theorem phase?_pushEscaped (q q' : Quotation) (lead : Option Nat) (n : Nat) :
    Quotation.phase <$> q.pushEscaped false lead n = Quotation.phase <$> q'.pushEscaped false lead n := by
  cases lead with
  | none => simp [pushEscaped]
  | some first =>
    simp only [pushEscaped]
    split <;> rfl

/-- What comes of a string that is skipped depends on its phase alone. -/
theorem phase?_step (h : q.phase = q'.phase) (p : Piece) :
    Step.phase? <$> q.step false p = Step.phase? <$> q'.step false p := by
  cases hphase : q.phase with
  | plain =>
    rw [hphase] at h
    simp only [step, hphase, ← h, Bool.false_and]
    split
    · rfl
    · rfl
    · split <;> rfl
    · rfl
  | escape =>
    rw [hphase] at h
    simp only [step, hphase, ← h]
    split
    · rfl
    · split <;> rfl
    · rfl
  | hex lead seen =>
    rw [hphase] at h
    simp only [step, hphase, ← h]
    split
    · rfl
    split
    · next n _ =>
      have hpush := phase?_pushEscaped q q' lead n
      cases hq : q.pushEscaped false lead n <;> cases hq' : q'.pushEscaped false lead n <;>
        simp_all [Step.phase?]
    · rfl
  | pair lead | pairEscape lead =>
    rw [hphase] at h
    simp only [step, hphase, ← h]
    split <;> rfl

end Quotation
end ManPage.Json

namespace ManPage.Load
open Json Outcome
open Text (Piece toPieces toPieces_cons toPieces_append)

variable {g : Goal}

/-! ## Steps inside strings -/

section
variable {q : Quotation} {p : Piece} {s : Reader g}

theorem Reader.step_string_eq_ok {slot : Slot g} : (Reader.string slot q).step p = .ok s ↔
    (∃ next, q.step slot.strict p = .ok (.next next) ∧ s = .string slot next) ∨
    ∃ t place, q.step slot.strict p = .ok (.closed t) ∧ slot.scalar (.string t) = .ok place ∧
      s = .between place := by
  simp only [Reader.step]
  constructor
  · intro h
    cases hq : q.step slot.strict p with
    | error f =>
      rw [hq] at h
      contradiction
    | ok st =>
      rw [hq] at h
      cases st with
      | next next =>
        cases h
        exact Or.inl ⟨next, rfl, rfl⟩
      | closed t =>
        obtain ⟨place, hplace, hs⟩ := bind_eq_ok.mp h
        cases hs
        exact Or.inr ⟨t, place, rfl, hplace, rfl⟩
  · rintro (⟨next, hq, rfl⟩ | ⟨t, place, hq, hplace, rfl⟩)
    · rw [hq]
    · rw [hq]
      exact bind_eq_ok.mpr ⟨place, hplace, rfl⟩

theorem Reader.step_key_eq_ok {object : OpenObject g} : (Reader.key object q).step p = .ok s ↔
    (∃ next, q.step object.strict p = .ok (.next next) ∧ s = .key object next) ∨
    ∃ t slot, q.step object.strict p = .ok (.closed t) ∧ object.slot t = .ok slot ∧
      s = .between (.colon slot) := by
  simp only [Reader.step]
  constructor
  · intro h
    cases hq : q.step object.strict p with
    | error f =>
      rw [hq] at h
      contradiction
    | ok st =>
      rw [hq] at h
      cases st with
      | next next =>
        cases h
        exact Or.inl ⟨next, rfl, rfl⟩
      | closed t =>
        obtain ⟨slot, hslot, hs⟩ := bind_eq_ok.mp h
        cases hs
        exact Or.inr ⟨t, slot, rfl, hslot, rfl⟩
  · rintro (⟨next, hq, rfl⟩ | ⟨t, slot, hq, hslot, rfl⟩)
    · rw [hq]
    · rw [hq]
      exact bind_eq_ok.mpr ⟨slot, hslot, rfl⟩

end

/-! ## Strings that can only fail -/

/-- The reader is in a string that is decoded, behind a stray byte. -/
def Reader.HoldsStray : Reader g → Prop
  | string slot q => slot.strict ∧ q.stray
  | key object q => object.strict ∧ q.stray
  | between _ | numeral _ _ _ | literal _ _ _ _ => False

theorem Reader.HoldsStray.step {r s : Reader g} (h : r.HoldsStray) {p : Piece} (hs : r.step p = .ok s) :
    s.HoldsStray := by
  cases r with
  | between _ | numeral _ _ _ | literal _ _ _ _ => exact absurd h id
  | string slot q =>
    rcases step_string_eq_ok.mp hs with ⟨next, hq, rfl⟩ | ⟨t, _, hq, -, -⟩
    · obtain ⟨_, heq, hnext⟩ := Quotation.step_of_stray h.1 h.2 hq
      cases heq
      exact ⟨h.1, hnext⟩
    · obtain ⟨_, heq, -⟩ := Quotation.step_of_stray h.1 h.2 hq
      contradiction
  | key object q =>
    rcases step_key_eq_ok.mp hs with ⟨next, hq, rfl⟩ | ⟨t, _, hq, -, -⟩
    · obtain ⟨_, heq, hnext⟩ := Quotation.step_of_stray h.1 h.2 hq
      cases heq
      exact ⟨h.1, hnext⟩
    · obtain ⟨_, heq, -⟩ := Quotation.step_of_stray h.1 h.2 hq
      contradiction

/-- Neither comes to the end of a text. -/
theorem Reader.read_ne_ok {r : Reader g} (h : r.IsDoomed ∨ r.HoldsStray) (ps : List Piece)
    (result : g.Result) : r.read ps ≠ .ok result := by
  induction ps generalizing r with
  | nil =>
    cases r with
    | between _ | numeral _ _ _ | literal _ _ _ _ => exact (h.elim id id).elim
    | string _ _ | key _ _ => exact nofun
  | cons p ps ih =>
    intro hread
    rw [read_cons] at hread
    obtain ⟨s, hs, hread⟩ := bind_eq_ok.mp hread
    refine ih ?_ hread
    rcases h with hdoomed | hstray
    · rcases hdoomed.step p with ⟨s', hs', hdoomed'⟩ | herror
      · rw [hs] at hs'
        cases hs'
        exact Or.inl hdoomed'
      · rw [hs] at herror
        contradiction
    · exact Or.inr (hstray.step hs)

/-! ## Strings that are skipped -/

/-- The same state, or strings that are skipped and are in the same phase. -/
inductive Reader.Like : Reader g → Reader g → Prop
  | refl (r : Reader g) : Like r r
  | string {slot : Slot g} (hs : slot.strict = false) {q q' : Quotation} (h : q.phase = q'.phase) :
    Like (.string slot q) (.string slot q')
  | key {object : OpenObject g} (hs : object.strict = false) {q q' : Quotation}
    (h : q.phase = q'.phase) : Like (.key object q) (.key object q')

/-- What a string was does not matter where it is skipped. -/
theorem Slot.scalar_lax {slot : Slot g} (h : slot.strict = false) (x y : Scalar) :
    slot.scalar x = slot.scalar y := by
  cases slot with
  | skipped _ _ => rfl
  | document | blockList _ | node _ | tagItem _ | tagEntry _ _ | value _ => contradiction

theorem OpenObject.slot_lax {object : OpenObject g} (h : object.strict = false) (s t : Text) :
    object.slot s = object.slot t := by
  cases object with
  | skipped _ _ => rfl
  | document _ | node _ _ _ | value _ _ => contradiction

theorem exists_next_lax {q q' next : Quotation} (h : q.phase = q'.phase) {p : Piece}
    (hq : q.step false p = .ok (.next next)) :
    ∃ next', q'.step false p = .ok (.next next') ∧ next.phase = next'.phase := by
  have hphase := Quotation.phase?_step h p
  rw [hq] at hphase
  obtain ⟨st, hst, heq⟩ := map_eq_ok.mp hphase.symm
  cases st with
  | closed t => contradiction
  | next next' => exact ⟨next', hst, (Option.some.inj heq).symm⟩

theorem exists_closed_lax {q q' : Quotation} (h : q.phase = q'.phase) {p : Piece} {t : Text}
    (hq : q.step false p = .ok (.closed t)) : ∃ t', q'.step false p = .ok (.closed t') := by
  have hphase := Quotation.phase?_step h p
  rw [hq] at hphase
  obtain ⟨st, hst, heq⟩ := map_eq_ok.mp hphase.symm
  cases st with
  | closed t' => exact ⟨t', hst⟩
  | next next' => contradiction

theorem Reader.Like.step {r r' s : Reader g} (h : r.Like r') {p : Piece} (hs : r.step p = .ok s) :
    ∃ s', r'.step p = .ok s' ∧ s.Like s' := by
  cases h with
  | refl => exact ⟨s, hs, .refl s⟩
  | string hlax hphase =>
    rw [step_string_eq_ok, hlax] at hs
    simp only [step_string_eq_ok, hlax]
    rcases hs with ⟨next, hq, rfl⟩ | ⟨t, place, hq, hplace, rfl⟩
    · obtain ⟨next', hq', hnext⟩ := exists_next_lax hphase hq
      exact ⟨_, Or.inl ⟨next', hq', rfl⟩, .string hlax hnext⟩
    · obtain ⟨t', hq'⟩ := exists_closed_lax hphase hq
      exact ⟨_, Or.inr ⟨t', place, hq', (Slot.scalar_lax hlax _ _).trans hplace, rfl⟩, .refl _⟩
  | key hlax hphase =>
    rw [step_key_eq_ok, hlax] at hs
    simp only [step_key_eq_ok, hlax]
    rcases hs with ⟨next, hq, rfl⟩ | ⟨t, slot, hq, hslot, rfl⟩
    · obtain ⟨next', hq', hnext⟩ := exists_next_lax hphase hq
      exact ⟨_, Or.inl ⟨next', hq', rfl⟩, .key hlax hnext⟩
    · obtain ⟨t', hq'⟩ := exists_closed_lax hphase hq
      exact ⟨_, Or.inr ⟨t', slot, hq', (OpenObject.slot_lax hlax _ _).trans hslot, rfl⟩, .refl _⟩

theorem Reader.Like.finish {r r' : Reader g} (h : r.Like r') {result : g.Result}
    (hr : r.finish = .ok result) : r'.finish = .ok result := by
  cases h with
  | refl => exact hr
  | string _ _ | key _ _ => contradiction

/-- Where a stray byte is passed over, the reader is in a string that is skipped. -/
inductive Reader.Passes (byte : UInt8) : Reader g → Reader g → Prop
  | string {slot : Slot g} (hs : slot.strict = false) {q : Quotation} (h : q.phase = .plain) :
    Passes byte (.string slot q) (.string slot { q with stray := true })
  | key {object : OpenObject g} (hs : object.strict = false) {q : Quotation} (h : q.phase = .plain) :
    Passes byte (.key object q) (.key object { q with stray := true })

theorem Between.step_stray (place : Between g) (byte : UInt8) (s : Reader g) :
    place.step (.stray byte) ≠ .ok s := by
  cases place <;> simp [step, token, isSpace, Slot.start, fault]

/-- A stray byte is passed over in a skipped string, or the string can only fail. -/
theorem Reader.step_stray {r s : Reader g} {byte : UInt8} (h : r.step (.stray byte) = .ok s) :
    r.Passes byte s ∨ s.IsDoomed ∨ s.HoldsStray := by
  cases r with
  | between place => exact absurd h (place.step_stray byte s)
  | literal slot x next rest => simp [step, fault] at h
  | numeral slot phase spelling =>
    simp only [step, NumeralPhase.stepPiece] at h
    split at h
    · contradiction
    · obtain ⟨place, -, hplace⟩ := bind_eq_ok.mp h
      exact absurd hplace (place.step_stray byte s)
    · contradiction
  | string slot q =>
    rcases step_string_eq_ok.mp h with ⟨next, hq, rfl⟩ | ⟨t, _, hq, -, -⟩
    · rcases Quotation.step_stray hq with ⟨hphase, heq⟩ | ⟨_, heq, hdoomed⟩
      · cases heq
        cases hs : slot.strict with
        | false => exact Or.inl (.string hs hphase)
        | true => exact Or.inr (Or.inr ⟨hs, rfl⟩)
      · cases heq
        exact Or.inr (Or.inl hdoomed)
    · rcases Quotation.step_stray hq with ⟨-, heq⟩ | ⟨_, heq, -⟩ <;> contradiction
  | key object q =>
    rcases step_key_eq_ok.mp h with ⟨next, hq, rfl⟩ | ⟨t, _, hq, -, -⟩
    · rcases Quotation.step_stray hq with ⟨hphase, heq⟩ | ⟨_, heq, hdoomed⟩
      · cases heq
        cases hs : object.strict with
        | false => exact Or.inl (.key hs hphase)
        | true => exact Or.inr (Or.inr ⟨hs, rfl⟩)
      · cases heq
        exact Or.inr (Or.inl hdoomed)
    · rcases Quotation.step_stray hq with ⟨-, heq⟩ | ⟨_, heq, -⟩ <;> contradiction

/-- Behind the filler the reader is as it was behind the stray byte. -/
theorem Reader.Passes.read_units {r r' s : Reader g} {byte : UInt8} (h : r.Passes byte s)
    (hlike : r.Like r') (us : List StringUnit) :
    ∃ s', s.Like s' ∧ ∀ ps, r'.read ((StringUnit.texts us).toPieces ++ ps) = s'.read ps := by
  have hpassed {slot : Slot g} (hs : slot.strict = false) {q : Quotation} (hq : q.phase = .plain) :
      ∃ q' : Quotation, q'.phase = .plain ∧ ∀ ps,
        (Reader.string slot q).read ((StringUnit.texts us).toPieces ++ ps) =
          (Reader.string slot q').read ps := by
    obtain ⟨q', hq', hscan⟩ := Quotation.scan_units_lax q us hq
    exact ⟨q', hq', fun ps => by rw [read_string, read_string, hs, hscan]⟩
  have hpassedKey {object : OpenObject g} (hs : object.strict = false) {q : Quotation}
      (hq : q.phase = .plain) : ∃ q' : Quotation, q'.phase = .plain ∧ ∀ ps,
        (Reader.key object q).read ((StringUnit.texts us).toPieces ++ ps) =
          (Reader.key object q').read ps := by
    obtain ⟨q', hq', hscan⟩ := Quotation.scan_units_lax q us hq
    exact ⟨q', hq', fun ps => by rw [read_key, read_key, hs, hscan]⟩
  cases h with
  | string hs hq =>
    cases hlike with
    | refl =>
      obtain ⟨q', hq', hread⟩ := hpassed hs hq
      exact ⟨_, .string hs (hq.trans hq'.symm), hread⟩
    | string _ hphase =>
      obtain ⟨q', hq', hread⟩ := hpassed hs (hphase.symm.trans hq)
      exact ⟨_, .string hs (hq.trans hq'.symm), hread⟩
  | key hs hq =>
    cases hlike with
    | refl =>
      obtain ⟨q', hq', hread⟩ := hpassedKey hs hq
      exact ⟨_, .key hs (hq.trans hq'.symm), hread⟩
    | key _ hphase =>
      obtain ⟨q', hq', hread⟩ := hpassedKey hs (hphase.symm.trans hq)
      exact ⟨_, .key hs (hq.trans hq'.symm), hread⟩

/-- What is read to its end is read so with any units in the place of its stray bytes. -/
theorem Reader.read_mended (us : List StringUnit) {r r' : Reader g} (h : r.Like r') {ps : List Piece}
    {result : g.Result} (hread : r.read ps = .ok result) :
    r'.read (mended (StringUnit.texts us) ps).toPieces = .ok result := by
  induction ps generalizing r r' with
  | nil => exact h.finish hread
  | cons p ps ih =>
    rw [read_cons] at hread
    obtain ⟨s, hs, hrest⟩ := bind_eq_ok.mp hread
    cases p with
    | char c =>
      obtain ⟨s', hs', hlike⟩ := h.step hs
      rw [mended_char, toPieces_cons, read_of_step hs']
      exact ih hlike hrest
    | stray byte =>
      rcases Reader.step_stray hs with hpasses | hspoilt
      · obtain ⟨s', hlike, hunits⟩ := hpasses.read_units h us
        rw [mended_stray, toPieces_append, hunits]
        exact ih hlike hrest
      · exact absurd hrest (Reader.read_ne_ok hspoilt ps result)

end ManPage.Load

namespace ManPage
open Json Load

/-- Any units may stand in the place of the stray bytes of an accepted document. -/
theorem Document.ofText_mended {ps : List Text.Piece} {d : Document} (h : Document.ofPieces ps = .ok d)
    (us : List StringUnit) : Document.ofText (mended (StringUnit.texts us) ps) = .ok d :=
  Reader.read_mended us (.refl _) h

end ManPage
