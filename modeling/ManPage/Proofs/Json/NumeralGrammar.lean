import ManPage.Proofs.Json.Spelling

/-! # Numerals by their phases

The phases of a numeral accept exactly the numerals of the grammar. What may still follow a phase is
said in the words of the grammar; one character takes it to what may follow the next phase.
-/
namespace ManPage.Json
open Text

namespace NumeralPhase

/-- The phase behind all of the characters, if each of them goes on with the numeral. -/
def run (phase : NumeralPhase) : Text → Option NumeralPhase
  | [] => some phase
  | c :: t =>
    match phase.step c with
    | .next phase => phase.run t
    | _ => none

theorem run_append (phase : NumeralPhase) (s t : Text) :
    phase.run (s ++ t) = (phase.run s).bind fun next => next.run t := by
  induction s generalizing phase with
  | nil => rfl
  | cons c s ih =>
    rw [List.cons_append, run, run]
    cases phase.step c with
    | next next => exact ih next
    | ended => rfl
    | invalid => rfl

/-- What may follow the whole part of a numeral. -/
def Ends (t : Text) : Prop :=
  ∃ fraction exponent, (fraction = [] ∨ IsFraction fraction) ∧ (exponent = [] ∨ IsExponent exponent) ∧
    t = fraction ++ exponent

/-- What may follow a digit behind the point. -/
def FractionEnds (t : Text) : Prop :=
  ∃ ds exponent, ds.all Char.isDigit ∧ (exponent = [] ∨ IsExponent exponent) ∧ t = ds ++ exponent

def Follows : NumeralPhase → Text → Prop
  | minus, t => ∃ whole rest, IsWhole whole ∧ Ends rest ∧ t = whole ++ rest
  | zero, t => Ends t
  | integer, t => ∃ ds rest, ds.all Char.isDigit ∧ Ends rest ∧ t = ds ++ rest
  | point, t => ∃ c rest, c.isDigit ∧ FractionEnds rest ∧ t = c :: rest
  | fraction, t => FractionEnds t
  | mark, t => ∃ sign ds, (sign = [] ∨ sign = ['+'] ∨ sign = ['-']) ∧ IsDigits ds ∧ t = sign ++ ds
  | sign, t => IsDigits t
  | exponent, t => t.all Char.isDigit

theorem isDigits_cons {c : Char} {t : Text} : IsDigits (c :: t) ↔ c.isDigit ∧ t.all Char.isDigit := by
  simp [IsDigits]

theorem isExponent_cons {c : Char} {t : Text} : IsExponent (c :: t) ↔ isMark c ∧ Follows mark t := by
  constructor
  · rintro ⟨m, sign, ds, hm, hs, hd, h⟩
    obtain ⟨rfl, rfl⟩ := List.cons.inj h
    exact ⟨by simpa [isMark] using hm, sign, ds, hs, hd, rfl⟩
  · rintro ⟨hm, sign, ds, hs, hd, rfl⟩
    exact ⟨c, sign, ds, by simpa [isMark] using hm, hs, hd, rfl⟩

theorem digits_append_cons {c : Char} {t : Text} {P : Text → Prop} :
    (∃ ds rest, ds.all Char.isDigit ∧ P rest ∧ c :: t = ds ++ rest) ↔
      c.isDigit ∧ (∃ ds rest, ds.all Char.isDigit ∧ P rest ∧ t = ds ++ rest) ∨ P (c :: t) := by
  constructor
  · rintro ⟨ds, rest, hd, hr, h⟩
    cases ds with
    | nil => exact Or.inr (by rwa [← List.nil_append rest, ← h] at hr)
    | cons d ds =>
      obtain ⟨rfl, rfl⟩ := List.cons.inj h
      rw [List.all_cons, Bool.and_eq_true] at hd
      exact Or.inl ⟨hd.1, ds, rest, hd.2, hr, rfl⟩
  · rintro (⟨hc, ds, rest, hd, hr, rfl⟩ | h)
    · exact ⟨c :: ds, rest, by simp [hc, hd], hr, rfl⟩
    · exact ⟨[], c :: t, rfl, h, rfl⟩

theorem fractionEnds_cons {c : Char} {t : Text} :
    FractionEnds (c :: t) ↔ c.isDigit ∧ FractionEnds t ∨ isMark c ∧ Follows mark t := by
  have h : (c :: t = [] ∨ IsExponent (c :: t)) ↔ isMark c ∧ Follows mark t := by
    simp [isExponent_cons]
  exact digits_append_cons.trans (or_congr Iff.rfl h)

theorem ends_cons {c : Char} {t : Text} :
    Ends (c :: t) ↔ c = '.' ∧ Follows point t ∨ isMark c ∧ Follows mark t := by
  constructor
  · rintro ⟨fraction, exponent, hf, he, h⟩
    rcases hf with rfl | ⟨ds, hd, rfl⟩
    · right
      rw [List.nil_append] at h
      subst h
      exact isExponent_cons.mp (he.resolve_left (List.cons_ne_nil _ _))
    · left
      obtain ⟨rfl, rfl⟩ := List.cons.inj h
      cases ds with
      | nil => exact absurd rfl hd.1
      | cons d ds =>
        obtain ⟨hd, hds⟩ := isDigits_cons.mp hd
        exact ⟨rfl, d, ds ++ exponent, hd, ⟨ds, exponent, hds, he, rfl⟩, rfl⟩
  · rintro (⟨rfl, d, rest, hd, ⟨ds, exponent, hds, he, rfl⟩, rfl⟩ | h)
    · exact ⟨'.' :: d :: ds, exponent, Or.inr ⟨d :: ds, isDigits_cons.mpr ⟨hd, hds⟩, rfl⟩, he, rfl⟩
    · exact ⟨[], c :: t, Or.inl rfl, Or.inr (isExponent_cons.mpr h), rfl⟩

theorem isWhole_cons {c : Char} {t : Text} :
    IsWhole (c :: t) ↔ c = '0' ∧ t = [] ∨ c ≠ '0' ∧ c.isDigit ∧ t.all Char.isDigit := by
  simp only [IsWhole, List.cons.injEq, isDigits_cons, List.head?_cons, Option.some.injEq, ne_eq]
  rw [and_comm (a := _ ∧ _)]

theorem follows_nil (phase : NumeralPhase) : Follows phase [] ↔ phase.complete := by
  have hends : Ends [] := ⟨[], [], Or.inl rfl, Or.inl rfl, rfl⟩
  have hfraction : FractionEnds [] := ⟨[], [], rfl, Or.inl rfl, rfl⟩
  cases phase with
  | minus =>
    simp only [Follows, complete, Bool.false_eq_true, iff_false]
    rintro ⟨whole, rest, hw, -, h⟩
    obtain ⟨rfl, -⟩ := List.append_eq_nil_iff.mp h.symm
    simp [IsWhole, IsDigits] at hw
  | zero => exact iff_of_true hends rfl
  | integer => exact iff_of_true ⟨[], [], rfl, hends, rfl⟩ rfl
  | fraction => exact iff_of_true hfraction rfl
  | mark => simp [Follows, IsDigits, complete]
  | point => simp [Follows, complete]
  | sign => simp [Follows, IsDigits, complete]
  | exponent => simp [Follows, complete]

theorem follows_minus_cons {c : Char} {t : Text} : Follows minus (c :: t) ↔
    c = '0' ∧ Follows zero t ∨ c ≠ '0' ∧ c.isDigit ∧ Follows integer t := by
  constructor
  · rintro ⟨whole, rest, hw, hr, h⟩
    cases whole with
    | nil => simp [IsWhole, IsDigits] at hw
    | cons d ds =>
      obtain ⟨rfl, rfl⟩ := List.cons.inj h
      rcases isWhole_cons.mp hw with ⟨hc, rfl⟩ | ⟨hc, hd, hds⟩
      · exact Or.inl ⟨hc, hr⟩
      · exact Or.inr ⟨hc, hd, ds, rest, hds, hr, rfl⟩
  · rintro (⟨rfl, h⟩ | ⟨hc, hd, ds, rest, hds, hr, rfl⟩)
    · exact ⟨['0'], t, Or.inl rfl, h, rfl⟩
    · exact ⟨c :: ds, rest, isWhole_cons.mpr (Or.inr ⟨hc, hd, hds⟩), hr, rfl⟩

theorem follows_mark_cons {c : Char} {t : Text} : Follows mark (c :: t) ↔
    c.isDigit ∧ t.all Char.isDigit ∨ (c = '+' ∨ c = '-') ∧ IsDigits t := by
  constructor
  · rintro ⟨sign, ds, rfl | rfl | rfl, hd, h⟩
    · rw [List.nil_append] at h
      subst h
      exact Or.inl (isDigits_cons.mp hd)
    · obtain ⟨rfl, rfl⟩ := List.cons.inj h
      exact Or.inr ⟨Or.inl rfl, hd⟩
    · obtain ⟨rfl, rfl⟩ := List.cons.inj h
      exact Or.inr ⟨Or.inr rfl, hd⟩
  · rintro (h | ⟨rfl | rfl, h⟩)
    · exact ⟨[], c :: t, Or.inl rfl, isDigits_cons.mpr h, rfl⟩
    · exact ⟨['+'], t, Or.inr (Or.inl rfl), h, rfl⟩
    · exact ⟨['-'], t, Or.inr (Or.inr rfl), h, rfl⟩

/-- The marks of a numeral are no digits. -/
theorem isDigit_or (c : Char) : c.isDigit ∧ c ≠ '.' ∧ isMark c = false ∨ c.isDigit = false := by
  by_cases h : c.isDigit = true
  · refine Or.inl ⟨h, ?_, ?_⟩
    · rintro rfl
      exact absurd h (by decide)
    · rw [isMark, Bool.or_eq_false_iff, beq_eq_false_iff_ne, beq_eq_false_iff_ne]
      constructor <;> (rintro rfl; exact absurd h (by decide))
  · exact Or.inr (by simpa using h)

/-- What may follow a phase is what its next character leads to. -/
theorem follows_cons (phase : NumeralPhase) (c : Char) (t : Text) :
    Follows phase (c :: t) ↔ ∃ next, phase.step c = .next next ∧ Follows next t := by
  have hmark : isMark '.' = false := by decide
  cases phase with
  | minus =>
    rw [follows_minus_cons, step]
    by_cases hz : c = '0'
    · simp [hz]
    · by_cases hd : c.isDigit = true <;> simp [hz, hd]
  | zero =>
    rw [Follows, ends_cons, step]
    rcases isDigit_or c with ⟨hd, hp, hm⟩ | hd
    · simp [hd, hp, hm]
    · by_cases hp : c = '.'
      · subst hp
        simp [hd, hmark]
      · by_cases hm : isMark c = true <;> simp [hd, hp, hm]
  | integer =>
    rw [Follows, digits_append_cons, ends_cons, step]
    rcases isDigit_or c with ⟨hd, hp, hm⟩ | hd
    · simp [hd, hp, hm, Follows]
    · by_cases hp : c = '.'
      · subst hp
        simp [hd, hmark]
      · by_cases hm : isMark c = true <;> simp [hd, hp, hm]
  | point =>
    by_cases hd : c.isDigit = true <;> simp [Follows, step, hd]
  | fraction =>
    rw [Follows, fractionEnds_cons, step]
    rcases isDigit_or c with ⟨hd, -, hm⟩ | hd
    · simp [hd, hm, Follows]
    · by_cases hm : isMark c = true <;> simp [hd, hm]
  | mark =>
    rw [follows_mark_cons, step]
    by_cases hd : c.isDigit = true
    · have hs : ¬ (c = '+' ∨ c = '-') := by
        rintro (rfl | rfl) <;> exact absurd hd (by decide)
      simp [hd, hs, Follows]
    · by_cases hs : c = '+' ∨ c = '-' <;> simp [hd, hs, Follows]
  | sign =>
    by_cases hd : c.isDigit = true <;> simp [Follows, isDigits_cons, step, hd]
  | exponent =>
    by_cases hd : c.isDigit = true <;> simp [Follows, step, hd]

/-- The phases accept what may follow them and nothing else. -/
theorem run_complete_iff (phase : NumeralPhase) (t : Text) :
    (∃ last, phase.run t = some last ∧ last.complete) ↔ Follows phase t := by
  induction t generalizing phase with
  | nil => simp [run, follows_nil]
  | cons c t ih =>
    rw [follows_cons, run]
    cases h : phase.step c with
    | next next => simpa using ih next
    | ended => simp
    | invalid => simp

/-- A numeral ends only where it may end. -/
theorem complete_of_ended {phase : NumeralPhase} {c : Char} (h : phase.step c = .ended) :
    phase.complete := by
  cases phase with
  | zero | integer | fraction | exponent => rfl
  | minus | mark | point | sign =>
    simp only [step] at h
    split at h <;> first | contradiction | (split at h <;> contradiction)

theorem start?_eq_some {c : Char} {phase : NumeralPhase} : start? c = some phase ↔
    c = '-' ∧ phase = minus ∨ c = '0' ∧ phase = zero ∨ c ≠ '0' ∧ c.isDigit ∧ phase = integer := by
  by_cases hm : c = '-'
  · subst hm
    simp [start?, eq_comm]
  · by_cases hz : c = '0'
    · subst hz
      simp [start?, eq_comm]
    · by_cases hd : c.isDigit = true <;> simp [start?, hm, hz, hd, eq_comm]

end NumeralPhase

open NumeralPhase

theorem isNumeral_eq {t : Text} : IsNumeral t ↔ Follows minus t ∨ ∃ r, t = '-' :: r ∧ Follows minus r := by
  constructor
  · rintro ⟨sign, whole, fraction, exponent, rfl | rfl, hw, hf, he, rfl⟩
    · exact Or.inl ⟨whole, _, hw, ⟨fraction, exponent, hf, he, rfl⟩, rfl⟩
    · exact Or.inr ⟨_, rfl, whole, _, hw, ⟨fraction, exponent, hf, he, rfl⟩, rfl⟩
  · rintro (⟨whole, _, hw, ⟨fraction, exponent, hf, he, rfl⟩, rfl⟩ |
      ⟨_, rfl, whole, _, hw, ⟨fraction, exponent, hf, he, rfl⟩, rfl⟩)
    · exact ⟨[], whole, fraction, exponent, Or.inl rfl, hw, hf, he, rfl⟩
    · exact ⟨['-'], whole, fraction, exponent, Or.inr rfl, hw, hf, he, rfl⟩

theorem IsNumeral.ne_nil {t : Text} (h : IsNumeral t) : t ≠ [] := by
  rintro rfl
  rcases isNumeral_eq.mp h with h | ⟨r, h, -⟩
  · exact absurd ((follows_nil minus).mp h) (by decide)
  · exact absurd h (List.cons_ne_nil _ _).symm

/-- The numerals of the grammar are what the phases accept. -/
theorem isNumeral_cons {c : Char} {t : Text} : IsNumeral (c :: t) ↔ ∃ phase last,
    start? c = some phase ∧ phase.run t = some last ∧ last.complete := by
  have hrun : (∃ phase last, start? c = some phase ∧ phase.run t = some last ∧ last.complete) ↔
      ∃ phase, start? c = some phase ∧ Follows phase t := by
    simp only [exists_and_left, run_complete_iff]
  rw [hrun, isNumeral_eq, follows_minus_cons]
  constructor
  · rintro ((⟨hc, h⟩ | ⟨hc, hd, h⟩) | ⟨r, hc, h⟩)
    · exact ⟨zero, start?_eq_some.mpr (Or.inr (Or.inl ⟨hc, rfl⟩)), h⟩
    · exact ⟨integer, start?_eq_some.mpr (Or.inr (Or.inr ⟨hc, hd, rfl⟩)), h⟩
    · obtain ⟨rfl, rfl⟩ := List.cons.inj hc
      exact ⟨minus, rfl, h⟩
  · rintro ⟨phase, hp, h⟩
    rcases start?_eq_some.mp hp with ⟨rfl, rfl⟩ | ⟨rfl, rfl⟩ | ⟨hc, hd, rfl⟩
    · exact Or.inr ⟨t, rfl, h⟩
    · exact Or.inl (Or.inl ⟨rfl, h⟩)
    · exact Or.inl (Or.inr ⟨hc, hd, h⟩)

end ManPage.Json
