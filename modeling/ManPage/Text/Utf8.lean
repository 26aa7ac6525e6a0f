import ManPage.Text.Basic

/-! # Bytes read as UTF-8

A byte string is a sequence of pieces: each is a character that is well encoded there, or a stray
byte that belongs to no encoded character.
-/
namespace ManPage.Text

inductive Piece
  | char (c : Char)
  | stray (byte : UInt8)
deriving DecidableEq, Repr, Inhabited

/-- The number of bytes that the piece takes. -/
def Piece.width : Piece → Nat
  | .char c => c.utf8Size
  | .stray _ => 1

namespace Utf8

/-- The code point that one to four bytes stand for if they encode a character at all. -/
def codePoint : List UInt8 → Nat
  | [a] => a.toNat
  | [a, b] => (a.toNat - 192) * 64 + (b.toNat - 128)
  | [a, b, c] => (a.toNat - 224) * 4096 + (b.toNat - 128) * 64 + (c.toNat - 128)
  | [a, b, c, d] =>
    (a.toNat - 240) * 262144 + (b.toNat - 128) * 4096 + (c.toNat - 128) * 64 + (d.toNat - 128)
  | _ => 0

/-- The character that the first `n` bytes encode. -/
def charOf? (n : Nat) (bytes : List UInt8) : Option Char :=
  let c := Char.ofNat (codePoint (bytes.take n))
  if String.utf8EncodeChar c = bytes.take n then some c else none

/-- The character that is encoded at the start, with the number of its bytes. -/
def first? (bytes : List UInt8) : Option (Char × Nat) :=
  [1, 2, 3, 4].findSome? fun n => (charOf? n bytes).map (·, n)

def pieces : List UInt8 → List Piece
  | [] => []
  | b :: r =>
    match first? (b :: r) with
    | some (c, n) => .char c :: pieces (r.drop (n - 1))
    | none => .stray b :: pieces r
termination_by bytes => bytes.length
decreasing_by all_goals (simp only [List.length_drop, List.length_cons]; omega)

end Utf8

def encode (t : Text) : List UInt8 := t.flatMap String.utf8EncodeChar

/-- A text read as pieces, each of them a character. -/
def toPieces (t : Text) : List Piece := t.map .char

@[simp] theorem toPieces_nil : toPieces [] = [] := rfl

@[simp] theorem toPieces_cons (c : Char) (t : Text) : toPieces (c :: t) = .char c :: t.toPieces := rfl

@[simp] theorem toPieces_append (s t : Text) : toPieces (s ++ t) = s.toPieces ++ t.toPieces :=
  List.map_append

end ManPage.Text
