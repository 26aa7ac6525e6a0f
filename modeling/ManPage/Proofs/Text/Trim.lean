import Mathlib.Data.List.DropRight
import Mathlib.Data.List.Forall2
import ManPage.Text.Basic

/-! # Laws of trimming

A trim takes white space from the end of a text and goes no further than the first character that is no
white space. A text that is put together from fragments can so be trimmed fragment by fragment.
-/
namespace ManPage.Text

theorem ne_of_isWhite {c d : Char} (hc : isWhite c) (hd : isWhite d = false) : c ≠ d := by
  rintro rfl
  rw [hc] at hd
  contradiction

/-- A character that is no white space is in the text, and not in the white space behind it. -/
theorem exists_cons_of_append_white {t b r : Text} {c : Char} (hb : b.all isWhite)
    (hc : isWhite c = false) (h : t ++ b = c :: r) : ∃ s, t = c :: s ∧ s ++ b = r := by
  cases t with
  | nil =>
    obtain rfl : b = c :: r := h
    rw [List.all_cons, hc] at hb
    contradiction
  | cons d s =>
    obtain ⟨rfl, hrest⟩ := List.cons.inj h
    exact ⟨s, rfl, hrest⟩

theorem trimStart_of_all {t : Text} (h : t.all isWhite) : trimStart t = [] := by
  have hnil := trimStart_append_of_all h []
  rwa [List.append_nil] at hnil

theorem all_of_trimStart {t : Text} (h : trimStart t = []) : t.all isWhite := by
  obtain ⟨s, hs, ht⟩ := exists_trimStart t
  rw [h, List.append_nil] at ht
  rwa [ht]

theorem trimStart_append_of_not_all {s : Text} (h : ¬ s.all isWhite) (t : Text) :
    trimStart (s ++ t) = trimStart s ++ t := by
  induction s with
  | nil => exact absurd rfl h
  | cons c s ih =>
    rw [trimStart, trimStart, List.cons_append, List.dropWhile_cons, List.dropWhile_cons]
    by_cases hc : isWhite c
    · rw [if_pos hc, if_pos hc]
      rw [List.all_cons, hc, Bool.true_and] at h
      exact ih h
    · rw [if_neg hc, if_neg hc, List.cons_append]

theorem trimEnd_eq (t : Text) : trimEnd t = (trimStart t.reverse).reverse := rfl

theorem trimEnd_append_of_all {t : Text} (h : t.all isWhite) (s : Text) :
    trimEnd (s ++ t) = trimEnd s := by
  rw [← List.all_reverse] at h
  rw [trimEnd_eq, List.reverse_append, trimStart_append_of_all h, ← trimEnd_eq]

theorem trimEnd_append_of_not_all {t : Text} (h : ¬ t.all isWhite) (s : Text) :
    trimEnd (s ++ t) = s ++ trimEnd t := by
  rw [← List.all_reverse] at h
  rw [trimEnd_eq, List.reverse_append, trimStart_append_of_not_all h, List.reverse_append,
    List.reverse_reverse, ← trimEnd_eq]

theorem trimEnd_of_all {t : Text} (h : t.all isWhite) : trimEnd t = [] :=
  trimEnd_append_of_all h []

/-- A last character that is no white space stops the trim. -/
theorem trimEnd_concat {c : Char} (h : ¬ isWhite c) (t : Text) : trimEnd (t ++ [c]) = t ++ [c] := by
  rw [trimEnd_eq, List.reverse_concat, trimStart, List.dropWhile_cons_of_neg h, List.reverse_cons,
    List.reverse_reverse]

/-! ## Texts with nothing to be trimmed -/

section
variable {s t : Text}

theorem trimStart_eq_self_iff : trimStart t = t ↔ ∀ c ∈ t.head?, ¬ isWhite c := by
  cases t <;> simp [trimStart, List.dropWhile_eq_self_iff]

theorem trimEnd_eq_self_iff : trimEnd t = t ↔ ∀ c ∈ t.getLast?, ¬ isWhite c := by
  rw [trimEnd_eq, List.reverse_eq_iff, trimStart_eq_self_iff, List.head?_reverse]

theorem prefix_trimEnd (t : Text) : trimEnd t <+: t := List.rdropWhile_prefix isWhite t

theorem trimStart_eq_self_of_start (h : s <+: t) (ht : trimStart t = t) : trimStart s = s := by
  rw [trimStart_eq_self_iff] at ht ⊢
  obtain ⟨r, rfl⟩ := h
  intro c hc
  apply ht
  simp [Option.mem_def.mp hc]

theorem trimStart_trimStart (t : Text) : trimStart (trimStart t) = trimStart t :=
  List.dropWhile_idempotent isWhite t

theorem trimEnd_trimEnd (t : Text) : trimEnd (trimEnd t) = trimEnd t :=
  List.rdropWhile_idempotent isWhite t

theorem trim_eq_self_iff : trim t = t ↔ trimStart t = t ∧ trimEnd t = t := by
  constructor
  · intro h
    have hsuffix : trimStart t <:+ t := List.dropWhile_suffix isWhite
    have hlength := (prefix_trimEnd (trimStart t)).length_le
    rw [← trim, h] at hlength
    have hstart : trimStart t = t := hsuffix.eq_of_length_le hlength
    rw [trim, hstart] at h
    exact ⟨hstart, h⟩
  · rintro ⟨hstart, hend⟩
    rw [trim, hstart, hend]

theorem trim_trim (t : Text) : trim (trim t) = trim t := by
  rw [trim_eq_self_iff]
  exact ⟨trimStart_eq_self_of_start (prefix_trimEnd _) (trimStart_trimStart t), trimEnd_trimEnd _⟩

end

/-! ## Fragments -/

/-- What is left of a fragment from whose ends white space may have been taken. -/
def Shorn (fragment left : Text) : Prop :=
  ∃ a b : Text, a.all isWhite ∧ b.all isWhite ∧ fragment = a ++ (left ++ b)

theorem Shorn.refl (t : Text) : Shorn t t := ⟨[], [], rfl, rfl, (List.append_nil t).symm⟩

theorem Shorn.trans {s t u : Text} (hst : Shorn s t) (htu : Shorn t u) : Shorn s u := by
  obtain ⟨a, b, ha, hb, rfl⟩ := hst
  obtain ⟨c, d, hc, hd, rfl⟩ := htu
  refine ⟨a ++ c, d ++ b, ?_, ?_, ?_⟩
  · rw [List.all_append, ha, hc, Bool.and_true]
  · rw [List.all_append, hd, hb, Bool.and_true]
  · simp only [List.append_assoc]

theorem Shorn.not_all {s t : Text} (h : Shorn s t) (hs : ¬ s.all isWhite) :
    ¬ t.all isWhite := by
  obtain ⟨a, b, ha, hb, rfl⟩ := h
  intro ht
  apply hs
  rw [List.all_append, List.all_append, ha, ht, hb]
  rfl

/-- A text with no white space at its ends keeps all of it. -/
theorem Shorn.eq_of_black {c d : Char} {s t : Text} (hc : ¬ isWhite c) (hd : ¬ isWhite d)
    (h : Shorn (c :: (s ++ [d])) t) : t = c :: (s ++ [d]) := by
  obtain ⟨a, b, ha, hb, heq⟩ := h
  obtain rfl : a = [] := by
    cases a with
    | nil => rfl
    | cons e a =>
      rw [List.all_cons, Bool.and_eq_true] at ha
      exact absurd ((List.cons.inj heq).1 ▸ ha.1) hc
  obtain rfl : b = [] := by
    cases hlast : b.getLast? with
    | none => exact List.getLast?_eq_none_iff.mp hlast
    | some e =>
      have hde := congrArg List.getLast? heq
      rw [← List.cons_append, List.getLast?_concat, List.nil_append, List.getLast?_append, hlast,
        Option.some_or] at hde
      obtain rfl := Option.some.inj hde
      exact absurd (List.all_eq_true.mp hb d (List.mem_of_getLast? hlast)) hd
  rw [List.nil_append, List.append_nil] at heq
  exact heq.symm

theorem shorn_trimStart (t : Text) : Shorn t (trimStart t) := by
  obtain ⟨s, hs, ht⟩ := exists_trimStart t
  refine ⟨s, [], hs, rfl, ?_⟩
  rwa [List.append_nil]

theorem shorn_trimEnd (t : Text) : Shorn t (trimEnd t) := by
  obtain ⟨s, hs, ht⟩ := exists_trimEnd t
  exact ⟨[], s, rfl, hs, ht⟩

/-- The text is put together from the fragments, each of which may have lost white space at its ends. -/
def Assembles (fragments : List Text) (t : Text) : Prop :=
  ∃ pieces, List.Forall₂ Shorn fragments pieces ∧ t = pieces.flatten

section
variable {fs gs : List Text} {s t : Text}

theorem assembles_nil : Assembles [] [] := ⟨[], .nil, rfl⟩

theorem assembles_singleton (t : Text) : Assembles [t] t :=
  ⟨[t], .cons (.refl t) .nil, (List.append_nil t).symm⟩

theorem Assembles.append (hs : Assembles fs s) (ht : Assembles gs t) :
    Assembles (fs ++ gs) (s ++ t) := by
  obtain ⟨ps, hps, rfl⟩ := hs
  obtain ⟨qs, hqs, rfl⟩ := ht
  exact ⟨ps ++ qs, List.rel_append hps hqs, List.flatten_append.symm⟩

theorem Assembles.trimStart (h : Assembles fs t) : Assembles fs (trimStart t) := by
  obtain ⟨ps, hps, rfl⟩ := h
  induction hps with
  | nil => exact assembles_nil
  | @cons f p fs ps hp hps ih =>
    rw [List.flatten_cons]
    by_cases hwhite : p.all isWhite
    · have hnothing : Shorn f (Text.trimStart p) := hp.trans (shorn_trimStart p)
      obtain ⟨qs, hqs, hrest⟩ := ih
      rw [trimStart_of_all hwhite] at hnothing
      rw [trimStart_append_of_all hwhite]
      exact ⟨[] :: qs, .cons hnothing hqs, hrest⟩
    · rw [trimStart_append_of_not_all hwhite]
      exact ⟨Text.trimStart p :: ps, .cons (hp.trans (shorn_trimStart p)) hps, rfl⟩

theorem Assembles.trimEnd (h : Assembles fs t) : Assembles fs (trimEnd t) := by
  obtain ⟨ps, hps, rfl⟩ := h
  induction hps with
  | nil => exact assembles_nil
  | @cons f p fs ps hp hps ih =>
    obtain ⟨qs, hqs, hrest⟩ := ih
    rw [List.flatten_cons]
    by_cases hwhite : ps.flatten.all isWhite
    · rw [trimEnd_of_all hwhite] at hrest
      rw [trimEnd_append_of_all hwhite]
      refine ⟨Text.trimEnd p :: qs, .cons (hp.trans (shorn_trimEnd p)) hqs, ?_⟩
      rw [List.flatten_cons, ← hrest, List.append_nil]
    · rw [trimEnd_append_of_not_all hwhite, hrest]
      exact ⟨p :: qs, .cons hp hqs, rfl⟩

theorem Assembles.trim (h : Assembles fs t) : Assembles fs (trim t) := h.trimStart.trimEnd

end

end ManPage.Text
