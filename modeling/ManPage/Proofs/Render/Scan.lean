import ManPage.Proofs.Text.Escape
import ManPage.Proofs.Text.Trim

/-! # Reading escapes

A text is read from left to right. A backslash before another one or before a hyphen is that character,
or it opens one of three fonts. No escape has white space in it, so that white space may be taken from
the ends of a text and everything else is read as before.
-/
namespace ManPage
open Text

inductive Font
  | italic | bold | previous
deriving DecidableEq, Repr, Inhabited

inductive Token
  | char (c : Char)
  | font (f : Font)
deriving DecidableEq, Repr, Inhabited

namespace Token

def isVisible : Token → Bool
  | char c => !isWhite c
  | font _ => true

end Token

/-- Reads a text from left to right; a backslash with anything else behind it is not read. -/
def scan : Text → Option (List Token)
  | [] => some []
  | '\\' :: '\\' :: t => (Token.char '\\' :: ·) <$> scan t
  | '\\' :: '-' :: t => (Token.char '-' :: ·) <$> scan t
  | '\\' :: 'f' :: 'I' :: t => (Token.font .italic :: ·) <$> scan t
  | '\\' :: 'f' :: 'B' :: t => (Token.font .bold :: ·) <$> scan t
  | '\\' :: 'f' :: 'P' :: t => (Token.font .previous :: ·) <$> scan t
  | '\\' :: _ => none
  | c :: t => (Token.char c :: ·) <$> scan t

/-! ## The tokens of a text -/

def Font.letter : Font → Char
  | .italic => 'I'
  | .bold => 'B'
  | .previous => 'P'

theorem Font.not_isWhite_letter (f : Font) : ¬ isWhite f.letter := by
  cases f <;> decide

/-- The text is written with these tokens. -/
inductive Reads : Text → List Token → Prop
  | nil : Reads [] []
  | plain {c : Char} {t : Text} {ts : List Token} (hc : c ≠ '\\') (h : Reads t ts) :
    Reads (c :: t) (.char c :: ts)
  | escaped {c : Char} {t : Text} {ts : List Token} (hc : needsEscape c) (h : Reads t ts) :
    Reads ('\\' :: c :: t) (.char c :: ts)
  | font {t : Text} {ts : List Token} (f : Font) (h : Reads t ts) :
    Reads ('\\' :: 'f' :: f.letter :: t) (.font f :: ts)

section
variable {s t : Text} {ss ts : List Token}

theorem Reads.append (hs : Reads s ss) (ht : Reads t ts) : Reads (s ++ t) (ss ++ ts) := by
  induction hs with
  | nil => exact ht
  | plain hc h ih => exact .plain hc ih
  | escaped hc h ih => exact .escaped hc ih
  | font f h ih => exact .font f ih

/-- White space at the start of a text is read as it is. -/
theorem Reads.of_white_append {a : Text} (ha : a.all isWhite) (h : Reads (a ++ t) ts) :
    ∃ us, Reads t us ∧ ts = a.map .char ++ us := by
  induction a generalizing ts with
  | nil => exact ⟨ts, h, rfl⟩
  | cons c a ih =>
    rw [List.all_cons, Bool.and_eq_true] at ha
    rw [List.cons_append] at h
    generalize hrest : a ++ t = rest at h
    cases h with
    | plain hc h =>
      rw [← hrest] at h
      obtain ⟨us, hus, rfl⟩ := ih ha.2 h
      exact ⟨us, hus, rfl⟩
    | escaped hc h => exact absurd rfl (ne_of_isWhite ha.1 (by decide))
    | font f h => exact absurd rfl (ne_of_isWhite ha.1 (by decide))

theorem Reads.eq_of_white (hwhite : t.all isWhite) (h : Reads t ts) : ts = t.map .char := by
  rw [← List.append_nil t] at h
  obtain ⟨us, hus, rfl⟩ := h.of_white_append hwhite
  cases hus
  rw [List.append_nil]

/-- White space at the end of a text is read as it is: no token has any in it, so none is cut. -/
theorem Reads.of_append_white {b : Text} (hb : b.all isWhite) (h : Reads (t ++ b) ts) :
    ∃ us, Reads t us ∧ ts = us ++ b.map .char := by
  generalize hwhole : t ++ b = whole at h
  induction h generalizing t with
  | nil =>
    obtain ⟨rfl, rfl⟩ := List.append_eq_nil_iff.mp hwhole
    exact ⟨[], .nil, rfl⟩
  | @plain c r ts hc h ih =>
    cases t with
    | nil =>
      obtain rfl : b = c :: r := hwhole
      exact ⟨[], .nil, (h.plain hc).eq_of_white hb⟩
    | cons d t =>
      obtain ⟨rfl, hrest⟩ := List.cons.inj hwhole
      obtain ⟨us, hus, rfl⟩ := ih hrest
      exact ⟨.char d :: us, .plain hc hus, rfl⟩
  | @escaped c r ts hc h ih =>
    have hblack : isWhite c = false := Bool.eq_false_iff.mpr (not_isWhite_of_needsEscape hc)
    obtain ⟨_, rfl, hfirst⟩ := exists_cons_of_append_white hb (by decide) hwhole
    obtain ⟨_, rfl, hrest⟩ := exists_cons_of_append_white hb hblack hfirst
    obtain ⟨us, hus, rfl⟩ := ih hrest
    exact ⟨.char c :: us, .escaped hc hus, rfl⟩
  | @font r ts f h ih =>
    have hblack : isWhite f.letter = false := Bool.eq_false_iff.mpr f.not_isWhite_letter
    obtain ⟨_, rfl, hfirst⟩ := exists_cons_of_append_white hb (by decide) hwhole
    obtain ⟨_, rfl, hsecond⟩ := exists_cons_of_append_white hb (by decide) hfirst
    obtain ⟨_, rfl, hrest⟩ := exists_cons_of_append_white hb hblack hsecond
    obtain ⟨us, hus, rfl⟩ := ih hrest
    exact ⟨.font f :: us, .font f hus, rfl⟩

theorem filter_isVisible_of_white {a : Text} (h : a.all isWhite) :
    (a.map Token.char).filter Token.isVisible = [] := by
  rw [List.filter_eq_nil_iff, List.forall_mem_map]
  intro c hc
  rw [Token.isVisible, List.all_eq_true.mp h c hc]
  exact Bool.false_ne_true

theorem Reads.of_shorn (hst : Shorn s t) (h : Reads s ss) :
    ∃ us, Reads t us ∧ us.filter Token.isVisible = ss.filter Token.isVisible := by
  obtain ⟨a, b, ha, hb, rfl⟩ := hst
  obtain ⟨_, hrest, rfl⟩ := h.of_white_append ha
  obtain ⟨us, hus, rfl⟩ := hrest.of_append_white hb
  refine ⟨us, hus, ?_⟩
  rw [List.filter_append, List.filter_append, filter_isVisible_of_white ha,
    filter_isVisible_of_white hb, List.nil_append, List.append_nil]

end

theorem Reads.flatten {pieces : List Text} {tokens : List (List Token)}
    (h : List.Forall₂ Reads pieces tokens) : Reads pieces.flatten tokens.flatten := by
  induction h with
  | nil => exact .nil
  | cons hp _ ih => exact hp.append ih

/-! ## Fonts and characters -/

end ManPage

