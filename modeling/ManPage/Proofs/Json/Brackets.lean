import ManPage.Proofs.Json.NumeralGrammar
import ManPage.Proofs.Json.StringScan

/-! # Brackets and quotes

Where a value in brackets ends can be told without reading it: its brackets are counted outside of
strings, and a string goes on to the next quote that is not behind a backslash. Strings are read in
step with that as long as the escapes in them have their digits. An escape without them can only fail,
but not before it has four bytes, and these may reach beyond the end of the string.
-/
namespace ManPage.Json
open Text (Piece)

inductive LexMode
  | token | string | escape
deriving DecidableEq, Repr

namespace LexMode

def next : LexMode → Char → LexMode
  | token, c => if c = '"' then string else token
  | string, c => if c = '"' then token else if c = '\\' then escape else string
  | escape, _ => string

/-- The number of open brackets behind the character. -/
def count : LexMode → Nat → Char → Nat
  | token, k, c => if c = '[' ∨ c = '{' then k + 1 else if c = ']' ∨ c = '}' then k - 1 else k
  | _, k, _ => k

end LexMode

/-- The text ends with the bracket that closes the last of `k` open brackets. -/
def closesLast (k : Nat) (mode : LexMode) : Text → Bool
  | [] => false
  | c :: t =>
    if mode.count k c = 0 then t.isEmpty else closesLast (mode.count k c) (mode.next c) t

/-- The text starts with a bracket and ends with the one that closes it. -/
def isBracketed : Text → Bool
  | [] => false
  | c :: t => (c == '[' || c == '{') && closesLast 1 .token t

/-! ## Characters outside of strings -/

/-- The character means something outside of strings: it is a quote or a bracket. -/
def IsStructural (c : Char) : Prop := c = '"' ∨ c = '[' ∨ c = '{' ∨ c = ']' ∨ c = '}'

instance : DecidablePred IsStructural := fun c => inferInstanceAs (Decidable (c = '"' ∨ _))

section
variable {c : Char} (h : ¬ IsStructural c)
include h

theorem LexMode.next_token : LexMode.token.next c = .token := by
  have hquote : c ≠ '"' := fun hc => h (Or.inl hc)
  rw [next, if_neg hquote]

theorem LexMode.count_token (k : Nat) : LexMode.token.count k c = k := by
  simp only [IsStructural, not_or] at h
  obtain ⟨-, hopenArray, hopenObject, hcloseArray, hcloseObject⟩ := h
  simp [count, hopenArray, hopenObject, hcloseArray, hcloseObject]

end

theorem not_isStructural_of_isBlank {c : Char} (h : isBlank c) : ¬ IsStructural c := by
  rintro (rfl | rfl | rfl | rfl | rfl) <;> contradiction

/-- A numeral starts with a character that is no quote and no bracket. -/
theorem not_isStructural_of_start? {c : Char} {phase : NumeralPhase}
    (h : NumeralPhase.start? c = some phase) : ¬ IsStructural c := by
  rintro (rfl | rfl | rfl | rfl | rfl) <;> contradiction

theorem not_isStructural_of_step {c : Char} {phase next : NumeralPhase}
    (h : phase.step c = .next next) : ¬ IsStructural c := by
  rintro (rfl | rfl | rfl | rfl | rfl) <;> cases phase <;> contradiction

/-! ## Characters in strings -/

namespace Quotation

/-- The number of bytes that have been read of an escape. -/
def width (seen : List Piece) : Nat := seen.foldl (fun n p => n + p.width) 0

end Quotation

namespace QuotationPhase
open Quotation

def mode : QuotationPhase → LexMode
  | plain | hex _ _ | pair _ => .string
  | escape | pairEscape _ => .escape

/-- An escape has been begun in which not every piece is a digit. -/
def IsDoomed : QuotationPhase → Prop
  | hex _ seen => width seen < 4 ∧ ∃ p ∈ seen, pieceDigit? p = none
  | _ => False

end QuotationPhase

namespace Quotation

theorem hex?_eq_none {ps : List Piece} {p : Piece} (hp : p ∈ ps) (h : pieceDigit? p = none) :
    hex? ps.reverse = none := by
  cases hhex : hex? ps.reverse with
  | none => rfl
  | some n =>
    obtain ⟨a, b, c, d, w, x, y, z, hps, ha, hb, hc, hd⟩ := hex?_eq_some hhex
    have hmem : p ∈ [Piece.char a, .char b, .char c, .char d] := by
      rw [← hps]
      exact List.mem_reverse.mpr hp
    simp only [List.mem_cons, List.not_mem_nil, or_false] at hmem
    rcases hmem with rfl | rfl | rfl | rfl
    · exact absurd (h.symm.trans ha) nofun
    · exact absurd (h.symm.trans hb) nofun
    · exact absurd (h.symm.trans hc) nofun
    · exact absurd (h.symm.trans hd) nofun

variable {strict : Bool} {q r : Quotation} {c : Char}

/-- A doomed escape takes up its four bytes and fails. -/
theorem step_of_doomed {lead : Option Nat} {seen : List Piece} (hphase : q.phase = .hex lead seen)
    {p : Piece} (hp : p ∈ seen) (hdigit : pieceDigit? p = none) (r : Piece) :
    q.step strict r = if width (r :: seen) < 4
      then .ok (.next { q with phase := .hex lead (r :: seen) }) else .error .invalidEscape := by
  have hnone := hex?_eq_none (List.mem_cons_of_mem r hp) hdigit
  simp only [step, hphase, hnone]
  rfl

theorem phase_of_pushEscaped {lead : Option Nat} {n : Nat} (h : q.pushEscaped strict lead n = .ok r) :
    r.phase = .plain ∨ ∃ m, r.phase = .pair m := by
  cases lead with
  | some first =>
    simp only [pushEscaped] at h
    split at h
    · cases h
      exact Or.inl rfl
    · contradiction
  | none =>
    simp only [pushEscaped] at h
    split at h
    · contradiction
    split at h
    · cases h
      exact Or.inr ⟨n, rfl⟩
    · cases h
      exact Or.inl rfl

/-- The string goes on, in the mode that the character leads to. -/
def GoesOn (q : Quotation) (c : Char) (r : Quotation) : Prop :=
  ¬ r.phase.IsDoomed ∧ r.phase.mode = q.phase.mode.next c

theorem goesOn_of_push {c d : Char} (hmode : q.phase.mode.next c = .string) : GoesOn q c (q.push d) :=
  ⟨id, hmode.symm⟩

/-- The last digit of an escape. -/
theorem goesOn_of_hex {lead : Option Nat} {seen : List Piece} {n : Nat}
    (hphase : q.phase = .hex lead seen) (hn : hex? (Piece.char c :: seen).reverse = some n)
    (hr : q.pushEscaped strict lead n = .ok r) : GoesOn q c r := by
  obtain ⟨_, _, _, d, _, _, _, _, hdigits, -, -, -, hd⟩ := hex?_eq_some hn
  have hlast := congrArg List.getLast? hdigits
  rw [List.reverse_cons, List.getLast?_append] at hlast
  obtain rfl : c = d := by simpa using hlast
  have hne : c ≠ '"' ∧ c ≠ '\\' := by
    constructor <;> (rintro rfl; contradiction)
  rw [GoesOn, hphase, QuotationPhase.mode, LexMode.next, if_neg hne.1, if_neg hne.2]
  rcases phase_of_pushEscaped hr with hplain | ⟨m, hpair⟩
  · rw [hplain]
    exact ⟨id, rfl⟩
  · rw [hpair]
    exact ⟨id, rfl⟩

/-- A character that is no escape closes the string, begins an escape or is part of the string. -/
theorem step_mode_plain (hphase : q.phase = .plain) {s : Step} (h : q.step strict (.char c) = .ok s) :
    (∃ t, s = .closed t ∧ c = '"') ∨ ∃ r, s = .next r ∧ GoesOn q c r := by
  simp only [step, hphase] at h
  split at h
  · next hc =>
    cases hc
    split at h
    · contradiction
    · cases h
      exact Or.inl ⟨_, rfl, rfl⟩
  · next hc =>
    cases hc
    cases h
    refine Or.inr ⟨_, rfl, id, ?_⟩
    rw [hphase]
    rfl
  · next d hquote hslash hc =>
    cases hc
    split at h
    · contradiction
    · cases h
      have hne : c ≠ '"' ∧ c ≠ '\\' := ⟨fun h => hquote (by rw [h]), fun h => hslash (by rw [h])⟩
      refine Or.inr ⟨_, rfl, goesOn_of_push ?_⟩
      rw [hphase, QuotationPhase.mode, LexMode.next, if_neg hne.1, if_neg hne.2]
  · contradiction

/-- An escape is begun in which no byte has been read. -/
theorem goesOn_of_begin {lead : Option Nat} (hmode : q.phase.mode.next c = .string) :
    GoesOn q c { q with phase := .hex lead [] } := by
  refine ⟨?_, hmode.symm⟩
  rintro ⟨-, p, hp, -⟩
  contradiction

/-- An escape goes on, is doomed or is read to its end. -/
theorem step_mode_hex {lead : Option Nat} {seen : List Piece} (hphase : q.phase = .hex lead seen)
    {s : Step} (h : q.step strict (.char c) = .ok s) :
    ∃ r, s = .next r ∧ (r.phase.IsDoomed ∨ GoesOn q c r) := by
  simp only [step, hphase] at h
  split at h
  · next hwidth =>
    cases h
    by_cases hdigits : ∃ p ∈ Piece.char c :: seen, pieceDigit? p = none
    · exact ⟨_, rfl, Or.inl ⟨hwidth, hdigits⟩⟩
    · have hc : pieceDigit? (.char c) ≠ none := fun hc => hdigits ⟨_, List.mem_cons_self, hc⟩
      have hne : c ≠ '"' ∧ c ≠ '\\' := by
        constructor <;> (rintro rfl; exact hc rfl)
      refine ⟨_, rfl, Or.inr ⟨fun hdoomed => hdigits hdoomed.2, ?_⟩⟩
      rw [hphase, QuotationPhase.mode, QuotationPhase.mode, LexMode.next, if_neg hne.1, if_neg hne.2]
  · split at h
    · next n hn =>
      obtain ⟨r, hr, rfl⟩ := Outcome.map_eq_ok.mp h
      exact ⟨r, rfl, Or.inr (goesOn_of_hex hphase hn hr)⟩
    · contradiction

/-- A string goes on as its mode says, or one of its escapes is doomed. -/
theorem step_mode {s : Step} (h : q.step strict (.char c) = .ok s) :
    (∃ t, s = .closed t ∧ q.phase.mode = .string ∧ c = '"') ∨
    ∃ r, s = .next r ∧ (r.phase.IsDoomed ∨ GoesOn q c r) := by
  cases hphase : q.phase with
  | plain =>
    rcases step_mode_plain hphase h with ⟨t, rfl, hc⟩ | ⟨r, rfl, hr⟩
    · exact Or.inl ⟨t, rfl, rfl, hc⟩
    · exact Or.inr ⟨r, rfl, Or.inr hr⟩
  | escape =>
    have hmode : q.phase.mode.next c = .string := by
      rw [hphase]
      rfl
    simp only [step, hphase] at h
    split at h
    · cases h
      exact Or.inr ⟨_, rfl, Or.inr (goesOn_of_begin hmode)⟩
    · next hc =>
      cases hc
      split at h
      · cases h
        exact Or.inr ⟨_, rfl, Or.inr (goesOn_of_push hmode)⟩
      · contradiction
    · contradiction
  | hex lead seen => exact Or.inr (step_mode_hex hphase h)
  | pair lead =>
    simp only [step, hphase] at h
    split at h
    · next hc =>
      cases hc
      cases h
      refine Or.inr ⟨_, rfl, Or.inr ⟨id, ?_⟩⟩
      rw [hphase]
      rfl
    · contradiction
  | pairEscape lead =>
    have hmode : q.phase.mode.next c = .string := by
      rw [hphase]
      rfl
    simp only [step, hphase] at h
    split at h
    · cases h
      exact Or.inr ⟨_, rfl, Or.inr (goesOn_of_begin hmode)⟩
    · contradiction

end Quotation
end ManPage.Json
