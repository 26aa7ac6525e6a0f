import Mathlib.Data.List.Induction
import ManPage.Proofs.Text.Trim
import ManPage.Text.Basic

/-! # Laws of escaping

Text that is left as it is has nothing to be escaped, so that escaping is always what it is character
by character. An escape has no white space in it, and so it is the same to trim a text before it is
escaped or behind.
-/
namespace ManPage.Text

theorem needsEscape_iff {c : Char} : needsEscape c ↔ c = '\\' ∨ c = '-' := by
  rw [needsEscape, Bool.or_eq_true, beq_iff_eq, beq_iff_eq]

theorem isPlain_cons {c : Char} {t : Text} (h : isPlain (c :: t)) : ¬ needsEscape c ∧ isPlain t := by
  rw [isPlain, List.flatMap_cons, List.all_append, Bool.and_eq_true] at h
  refine ⟨?_, h.2⟩
  intro hc
  have hbyte : (String.utf8EncodeChar c).all (fun b => b != 0x5C && b != 0x2D) = false := by
    rw [needsEscape_iff] at hc
    rcases hc with rfl | rfl <;> decide
  rw [hbyte] at h
  exact Bool.false_ne_true h.1

theorem escapeEach_of_isPlain {t : Text} (h : isPlain t) : escapeEach t = t := by
  induction t with
  | nil => rfl
  | cons c t ih =>
    obtain ⟨hc, ht⟩ := isPlain_cons h
    rw [escapeEach, if_neg hc, ih ht]

theorem escape_eq (t : Text) : escape t = escapeEach t := by
  rw [escape]
  split
  · exact (escapeEach_of_isPlain ‹_›).symm
  · rfl

theorem not_isWhite_of_needsEscape {c : Char} (h : needsEscape c) : ¬ isWhite c := by
  rw [needsEscape_iff] at h
  rcases h with rfl | rfl <;> decide

theorem escapeEach_append (s t : Text) : escapeEach (s ++ t) = escapeEach s ++ escapeEach t := by
  induction s with
  | nil => rfl
  | cons c s ih =>
    rw [List.cons_append, escapeEach, escapeEach, ih]
    split <;> rfl

theorem trimStart_escapeEach (t : Text) : trimStart (escapeEach t) = escapeEach (trimStart t) := by
  induction t with
  | nil => rfl
  | cons c t ih =>
    rw [trimStart] at ih ⊢
    rw [escapeEach]
    split
    · rename_i hc
      rw [List.dropWhile_cons_of_neg (by decide), trimStart,
        List.dropWhile_cons_of_neg (not_isWhite_of_needsEscape hc), escapeEach, if_pos hc]
    · rename_i hc
      by_cases hwhite : isWhite c
      · rw [List.dropWhile_cons_of_pos hwhite, trimStart, List.dropWhile_cons_of_pos hwhite]
        exact ih
      · rw [List.dropWhile_cons_of_neg hwhite, trimStart, List.dropWhile_cons_of_neg hwhite,
          escapeEach, if_neg hc]

/-- The last character is written last, with or without a backslash. -/
theorem exists_escapeEach_singleton (c : Char) : ∃ s, escapeEach [c] = s ++ [c] := by
  rw [escapeEach]
  split
  · exact ⟨['\\'], rfl⟩
  · exact ⟨[], rfl⟩

theorem trimEnd_escapeEach (t : Text) : trimEnd (escapeEach t) = escapeEach (trimEnd t) := by
  induction t using List.reverseRecOn with
  | nil => rfl
  | append_singleton t c ih =>
    by_cases hwhite : isWhite c
    · have hplain : ¬ needsEscape c := fun hc => not_isWhite_of_needsEscape hc hwhite
      have hchar : escapeEach [c] = [c] := by
        rw [escapeEach, if_neg hplain]
        rfl
      have hall : [c].all isWhite := by
        rw [List.all_cons, hwhite]
        rfl
      rw [escapeEach_append, hchar, trimEnd_append_of_all hall, trimEnd_append_of_all hall, ih]
    · obtain ⟨s, hs⟩ := exists_escapeEach_singleton c
      rw [trimEnd_concat hwhite, escapeEach_append, hs, ← List.append_assoc, trimEnd_concat hwhite]

theorem escape_append (s t : Text) : escape (s ++ t) = escape s ++ escape t := by
  rw [escape_eq, escape_eq, escape_eq, escapeEach_append]

theorem trimStart_escape (t : Text) : trimStart (escape t) = escape (trimStart t) := by
  rw [escape_eq, escape_eq, trimStart_escapeEach]

theorem trimEnd_escape (t : Text) : trimEnd (escape t) = escape (trimEnd t) := by
  rw [escape_eq, escape_eq, trimEnd_escapeEach]

theorem trim_escape (t : Text) : trim (escape t) = escape (trim t) := by
  rw [escape_eq, escape_eq, trim, trim, trimStart_escapeEach, trimEnd_escapeEach]

end ManPage.Text
