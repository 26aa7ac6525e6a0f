import ManPage.Load.Reader
import ManPage.Proofs.Json.NumeralGrammar
import ManPage.Proofs.Json.StringScan

/-! # Reading tokens

What the reader makes of the tokens of a spelling: space is passed over, a string literal is
scanned to its closing quote, a numeral up to the piece behind it, and each scalar is handed to the
place where it stands.
-/
namespace ManPage.Load
open Json Outcome
open Text (Piece toPieces toPieces_nil toPieces_cons toPieces_append)

def ofFault {α : Type} : Except Fault α → Except Error α
  | .ok a => .ok a
  | .error f => .error (.fault f)

section
variable {α β : Type}

@[simp] theorem ofFault_ok (a : α) : ofFault (.ok a) = .ok a := rfl

@[simp] theorem ofFault_map (f : α → β) (x : Except Fault α) : ofFault (f <$> x) = f <$> ofFault x := by
  cases x <;> rfl

@[simp] theorem ofFault_bind (x : Except Fault α) (f : α → Except Fault β) :
    ofFault (x >>= f) = ofFault x >>= fun a => ofFault (f a) := by
  cases x <;> rfl

theorem ofFault_eq_ok {x : Except Fault α} {a : α} : ofFault x = .ok a ↔ x = .ok a := by
  cases x <;> simp [ofFault]

end

/-- What may stand behind a numeral: the text ends, or a piece that is no part of a numeral. -/
def Delimited (ps : List Piece) : Prop :=
  ∀ p ∈ ps.head?, isSpace p ∨ p = .char ',' ∨ p = .char ']' ∨ p = .char '}'

variable {g : Goal}

namespace Reader

theorem read_nil (r : Reader g) : r.read [] = r.finish := rfl

theorem read_cons (r : Reader g) (p : Piece) (ps : List Piece) :
    r.read (p :: ps) = r.step p >>= fun r => r.read ps := by
  simp only [read, feed, List.foldlM_cons, bind_assoc]

@[simp] theorem feed_nil (r : Reader g) : r.feed [] = .ok r := rfl

theorem feed_cons (r : Reader g) (p : Piece) (ps : List Piece) :
    r.feed (p :: ps) = r.step p >>= fun r => r.feed ps := List.foldlM_cons

theorem feed_snoc (r : Reader g) (ps : List Piece) (p : Piece) :
    r.feed (ps ++ [p]) = r.feed ps >>= fun r => r.step p := by
  simp only [feed, List.foldlM_append, List.foldlM_cons, List.foldlM_nil, bind_pure]

theorem read_append (r : Reader g) (ps qs : List Piece) :
    r.read (ps ++ qs) = r.feed ps >>= fun r => r.read qs := by
  simp only [read, feed_append, bind_assoc]

/-- A reader stands before the same text as another one if it is one step behind. -/
theorem read_of_step {r s : Reader g} {p : Piece} (h : r.step p = .ok s) (ps : List Piece) :
    r.read (p :: ps) = s.read ps := by
  rw [read_cons, h, ok_bind]

theorem read_space (place : Between g) {ws : Text} (h : ws.all isBlank) (ps : List Piece) :
    (between place).read (ws.toPieces ++ ps) = (between place).read ps := by
  induction ws with
  | nil => rfl
  | cons c ws ih =>
    rw [List.all_cons, Bool.and_eq_true] at h
    have hstep : (between place).step (.char c) = .ok (between place) := by
      rw [step, Between.step]
      exact if_pos h.1
    rw [toPieces_cons, List.cons_append, read_of_step hstep, ih h.2]

theorem read_token (place : Between g) {p : Piece} (h : isSpace p = false) (ps : List Piece) :
    (between place).read (p :: ps) = place.token p >>= fun r => r.read ps := by
  rw [read_cons, step, Between.step, h]
  rfl

theorem read_string (slot : Slot g) (q : Quotation) (ps : List Piece) :
    (string slot q).read ps = ofFault (q.scan slot.strict ps) >>= fun
      | none => .error (.unfinished .string)
      | some (t, rest) => slot.scalar (.string t) >>= fun b => (between b).read rest := by
  induction ps generalizing q with
  | nil => rfl
  | cons p ps ih =>
    rw [read_cons, step, Quotation.scan]
    cases q.step slot.strict p with
    | error f => rfl
    | ok s =>
      cases s with
      | next q => exact ih q
      | closed t => simp

theorem read_key (object : OpenObject g) (q : Quotation) (ps : List Piece) :
    (key object q).read ps = ofFault (q.scan object.strict ps) >>= fun
      | none => .error (.unfinished .string)
      | some (t, rest) => object.slot t >>= fun slot => (between (.colon slot)).read rest := by
  induction ps generalizing q with
  | nil => rfl
  | cons p ps ih =>
    rw [read_cons, step, Quotation.scan]
    cases q.step object.strict p with
    | error f => rfl
    | ok s =>
      cases s with
      | next q => exact ih q
      | closed t => simp

theorem read_numeral_run (slot : Slot g) {phase last : NumeralPhase} (spelling : List Char) {t : Text}
    (h : phase.run t = some last) (ps : List Piece) :
    (numeral slot phase spelling).read (t.toPieces ++ ps) =
      (numeral slot last (t.reverse ++ spelling)).read ps := by
  induction t generalizing phase spelling with
  | nil =>
    cases h
    rfl
  | cons c t ih =>
    rw [NumeralPhase.run] at h
    split at h
    · next next hnext =>
      have hstep : (numeral slot phase spelling).step (.char c) =
          .ok (numeral slot next (c :: spelling)) := by
        simp only [step, NumeralPhase.stepPiece, hnext]
      rw [toPieces_cons, List.cons_append, read_of_step hstep, ih _ h]
      simp
    · contradiction

theorem stepPiece_of_delimited {phase : NumeralPhase} (hc : phase.complete) {p : Piece}
    (hp : isSpace p ∨ p = .char ',' ∨ p = .char ']' ∨ p = .char '}') :
    phase.stepPiece p = .ended := by
  cases p with
  | stray b => simp [isSpace] at hp
  | char c =>
    have hchar : c = ' ' ∨ c = '\t' ∨ c = '\n' ∨ c = '\r' ∨ c = ',' ∨ c = ']' ∨ c = '}' := by
      simpa [isSpace, or_assoc] using hp
    cases phase with
    | minus | point | mark | sign => contradiction
    | zero | integer | fraction | exponent =>
      rcases hchar with rfl | rfl | rfl | rfl | rfl | rfl | rfl <;> rfl

/-- A numeral ends where the text ends and before every piece that may stand behind a value. -/
theorem read_numeral_end (slot : Slot g) {phase : NumeralPhase} (hc : phase.complete)
    (spelling : List Char) {ps : List Piece} (h : Delimited ps) :
    (numeral slot phase spelling).read ps =
      slot.numeral spelling.reverse >>= fun b => (between b).read ps := by
  cases ps with
  | nil =>
    rw [read_nil, finish, if_pos hc]
    rfl
  | cons p ps =>
    have hend := stepPiece_of_delimited hc (h p rfl)
    have hstep : (numeral slot phase spelling).step p =
        slot.numeral spelling.reverse >>= fun place => place.step p := by
      simp only [step, hend]
    rw [read_cons, hstep, bind_assoc]
    simp only [read_cons, step]

theorem start_numeral (slot : Slot g) {c : Char} {phase : NumeralPhase}
    (h : NumeralPhase.start? c = some phase) : slot.start (.char c) = .ok (.numeral slot phase [c]) := by
  have hne : ∀ d ∈ ['[', '{', '"', 't', 'f', 'n'], c ≠ d := by
    have hnone : ∀ d ∈ ['[', '{', '"', 't', 'f', 'n'], NumeralPhase.start? d = none := by
      simp only [List.forall_mem_cons]
      exact ⟨rfl, rfl, rfl, rfl, rfl, rfl, nofun⟩
    rintro d hd rfl
    rw [hnone c hd] at h
    contradiction
  simp only [List.forall_mem_cons] at hne
  obtain ⟨hArray, hObject, hString, hTrue, hFalse, hNull, -⟩ := hne
  simp [Slot.start, h]

theorem isSpace_of_start? {c : Char} {phase : NumeralPhase}
    (h : NumeralPhase.start? c = some phase) : isSpace (.char c) = false := by
  simp only [isSpace, Bool.or_eq_false_iff, beq_eq_false_iff_ne]
  refine ⟨⟨⟨?_, ?_⟩, ?_⟩, ?_⟩ <;> (rintro rfl; contradiction)

theorem read_numeral (slot : Slot g) {t : Text} (ht : IsNumeral t) {ps : List Piece}
    (h : Delimited ps) : (between (.value slot)).read (t.toPieces ++ ps) =
      slot.numeral t >>= fun b => (between b).read ps := by
  cases t with
  | nil => exact absurd rfl ht.ne_nil
  | cons c t =>
    obtain ⟨phase, last, hstart, hrun, hlast⟩ := isNumeral_cons.mp ht
    rw [toPieces_cons, List.cons_append, read_token _ (isSpace_of_start? hstart), Between.token,
      start_numeral slot hstart, ok_bind, read_numeral_run slot _ hrun,
      read_numeral_end slot hlast _ h]
    simp

theorem read_literal (slot : Slot g) (s : Scalar) (c : Char) (t : Text) (ps : List Piece) :
    (literal slot s c t).read (toPieces (c :: t) ++ ps) =
      slot.scalar s >>= fun b => (between b).read ps := by
  induction t generalizing c with
  | nil => simp [read_cons, step]
  | cons d t ih =>
    have hstep : (literal slot s c (d :: t)).step (.char c) = .ok (literal slot s d t) := by
      simp only [step, if_true]
    rw [toPieces_cons, List.cons_append, read_of_step hstep, ih]

end Reader

open Reader

/-- A scalar is read where its place checks values in full. -/
theorem read_scalar {slot : Slot g} (hs : slot.strict) (s : ScalarSpelling) {ps : List Piece}
    (h : Delimited ps) : (Reader.between (.value slot)).read (s.text.toPieces ++ ps) =
      ofFault s.scalar >>= fun x => slot.scalar x >>= fun b => (Reader.between b).read ps := by
  cases s with
  | null => exact read_literal slot .null 'u' ['l', 'l'] ps
  | bool b =>
    cases b with
    | true => exact read_literal slot (.bool true) 'r' ['u', 'e'] ps
    | false => exact read_literal slot (.bool false) 'a' ['l', 's', 'e'] ps
  | numeral t ht =>
    rw [ScalarSpelling.text, read_numeral slot ht h, Slot.numeral, if_pos hs, ScalarSpelling.scalar]
    cases Numeral.number? t <;> rfl
  | string us =>
    have hstart : (Reader.between (.value slot)).step (.char '"') = .ok (.string slot {}) := rfl
    rw [ScalarSpelling.text, StringUnit.literal, toPieces_cons, List.cons_append,
      read_of_step hstart, read_string, hs, toPieces_append, List.append_assoc]
    change ofFault (Quotation.scan true {} (_ ++ .char '"' :: ps)) >>= _ = _
    rw [Quotation.scan_strict {} ps us rfl rfl, ScalarSpelling.scalar]
    cases StringUnit.decode us <;> rfl

/-- A scalar is passed over where values are skipped. -/
theorem read_scalar_lax (blocks : Option (List Node)) (around : List Bracket) (s : ScalarSpelling)
    {ps : List Piece} (h : Delimited ps) :
    (Reader.between (.value (.skipped blocks around))).read (s.text.toPieces ++ ps) =
      (Reader.between (deliverSkipped blocks around)).read ps := by
  cases s with
  | null => exact read_literal (.skipped blocks around) .null 'u' ['l', 'l'] ps
  | bool b =>
    cases b with
    | true => exact read_literal (.skipped blocks around) (.bool true) 'r' ['u', 'e'] ps
    | false => exact read_literal (.skipped blocks around) (.bool false) 'a' ['l', 's', 'e'] ps
  | numeral t ht => exact read_numeral (.skipped blocks around) ht h
  | string us =>
    have hstart : (Reader.between (.value (.skipped blocks around))).step (.char '"') =
        .ok (.string (.skipped blocks around) {}) := rfl
    obtain ⟨t, ht⟩ := Quotation.scan_lax {} ps us rfl
    rw [ScalarSpelling.text, StringUnit.literal, toPieces_cons, List.cons_append,
      read_of_step hstart, read_string, toPieces_append, List.append_assoc]
    change ofFault (Quotation.scan false {} (_ ++ .char '"' :: ps)) >>= _ = _
    rw [ht]
    rfl

end ManPage.Load
