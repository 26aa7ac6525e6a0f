/-! # Texts

A text is a list of characters. White space is the Unicode property `White_Space`; the trims remove
it from one end or from both and touch nothing else. A line ends at a line feed, one carriage return
directly before that line feed belongs to the line end, and nothing after the last line feed is no
line. A backslash introduces an escape in a page and a hyphen may be broken at, so both are escaped
with a backslash in front.
-/
namespace ManPage

abbrev Text := List Char

namespace Text

/-- A set of code points, as closed ranges. -/
abbrev Ranges := List (Nat × Nat)

def Ranges.has (ranges : Ranges) (c : Char) : Bool :=
  ranges.any fun r => decide (r.1 ≤ c.toNat) && decide (c.toNat ≤ r.2)

/-! ## White space -/

def whiteRanges : Ranges :=
  [(0x9, 0xD), (0x20, 0x20), (0x85, 0x85), (0xA0, 0xA0), (0x1680, 0x1680), (0x2000, 0x200A),
   (0x2028, 0x2029), (0x202F, 0x202F), (0x205F, 0x205F), (0x3000, 0x3000)]

def isWhite (c : Char) : Bool := whiteRanges.has c

def trimStart (t : Text) : Text := t.dropWhile isWhite

def trimEnd (t : Text) : Text := (t.reverse.dropWhile isWhite).reverse

def trim (t : Text) : Text := trimEnd (trimStart t)

theorem trimStart_append_of_all {s : Text} (h : s.all isWhite) (t : Text) :
    trimStart (s ++ t) = trimStart t := by
  induction s with
  | nil => rfl
  | cons c s ih =>
    simp only [List.all_cons, Bool.and_eq_true] at h
    simp only [trimStart, List.cons_append, List.dropWhile_cons, h.1, if_true]
    exact ih h.2

theorem exists_trimStart (t : Text) : ∃ s : Text, s.all isWhite ∧ t = s ++ trimStart t :=
  ⟨t.takeWhile isWhite, List.all_takeWhile, (List.takeWhile_append_dropWhile ..).symm⟩

theorem exists_trimEnd (t : Text) : ∃ s : Text, s.all isWhite ∧ t = trimEnd t ++ s := by
  refine ⟨(t.reverse.takeWhile isWhite).reverse, ?_, ?_⟩
  · rw [List.all_reverse]; exact List.all_takeWhile
  · rw [trimEnd, ← List.reverse_append, List.takeWhile_append_dropWhile, List.reverse_reverse]

/-! ## Lines -/

def joinLines (pieces : List Text) : Text := List.intercalate ['\n'] pieces

@[simp] theorem joinLines_nil : joinLines [] = [] := rfl

@[simp] theorem joinLines_singleton (p : Text) : joinLines [p] = p := by
  simp [joinLines, List.intercalate]

theorem joinLines_cons_cons (p q : Text) (r : List Text) :
    joinLines (p :: q :: r) = p ++ '\n' :: joinLines (q :: r) := by
  simp [joinLines, List.intercalate]

def lines : Text → List Text
  | [] => []
  | '\n' :: r => [] :: lines r
  | '\r' :: '\n' :: r => [] :: lines r
  | c :: r =>
    match lines r with
    | [] => [[c]]
    | l :: ls => (c :: l) :: ls

/-! ## Escapes -/

def needsEscape (c : Char) : Bool := c == '\\' || c == '-'

def escapeEach : Text → Text
  | [] => []
  | c :: r => if needsEscape c then '\\' :: c :: escapeEach r else c :: escapeEach r

/-- No byte of the UTF-8 form is a backslash or a hyphen. -/
def isPlain (t : Text) : Bool :=
  (t.flatMap String.utf8EncodeChar).all fun b => b != 0x5C && b != 0x2D

/-- Text that is plain is left as it is. -/
def escape (t : Text) : Text := if isPlain t then t else escapeEach t

/-! ## Integers -/

def decimal (n : Nat) : Text := Nat.toDigits 10 n

def signedDecimal (n : Int) : Text :=
  if n < 0 then '-' :: decimal n.natAbs else decimal n.natAbs

end Text
end ManPage
