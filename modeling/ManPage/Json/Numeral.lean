import ManPage.Json.Value
import ManPage.Text.Utf8

/-! # Numerals

A JSON numeral, character by character, and the number that it spells. An integer numeral outside
the 64-bit integers, negative zero, and every numeral with a fraction or an exponent is a binary64
number.
-/
namespace ManPage.Json

/-- How far a numeral has been read: what its last character was. -/
inductive NumeralPhase
  | minus | zero | integer | point | fraction | mark | sign | exponent
deriving DecidableEq, Repr, Inhabited

namespace NumeralPhase

/-- What a character does to a numeral. -/
inductive Step
  | next (phase : NumeralPhase)
  | ended
  | invalid
deriving DecidableEq, Repr

/-- The phase after the first character of a numeral. -/
def start? (c : Char) : Option NumeralPhase :=
  if c = '-' then some minus
  else if c = '0' then some zero
  else if c.isDigit then some integer
  else none

def isMark (c : Char) : Bool := c == 'e' || c == 'E'

def step : NumeralPhase → Char → Step
  | minus, c => if c = '0' then .next zero else if c.isDigit then .next integer else .invalid
  | zero, c =>
    if c.isDigit then .invalid
    else if c = '.' then .next point else if isMark c then .next mark else .ended
  | integer, c =>
    if c.isDigit then .next integer
    else if c = '.' then .next point else if isMark c then .next mark else .ended
  | point, c => if c.isDigit then .next fraction else .invalid
  | fraction, c =>
    if c.isDigit then .next fraction else if isMark c then .next mark else .ended
  | mark, c =>
    if c.isDigit then .next exponent
    else if c = '+' ∨ c = '-' then .next sign else .invalid
  | sign, c => if c.isDigit then .next exponent else .invalid
  | exponent, c => if c.isDigit then .next exponent else .ended

/-- The numeral may end here. -/
def complete : NumeralPhase → Bool
  | zero | integer | fraction | exponent => true
  | minus | point | mark | sign => false

def stepPiece (phase : NumeralPhase) : Text.Piece → Step
  | .char c => phase.step c
  | .stray _ => if phase.complete then .ended else .invalid

end NumeralPhase

namespace Numeral

def digit (c : Char) : Nat := c.toNat - '0'.toNat

def natural (ds : List Char) : Nat := ds.foldl (fun n c => 10 * n + digit c) 0

/-- The parts of a numeral: sign, digits before and after the point, and exponent. -/
structure Parts where
  negative : Bool
  whole : List Char
  fraction : List Char
  isWhole : Bool
  power : Int
deriving DecidableEq, Repr

/-- The exponent that is spelled after its mark. -/
def exponentOf : List Char → Int
  | '-' :: ds => -(natural ds : Int)
  | '+' :: ds => natural ds
  | ds => natural ds

def Parts.ofSpelling (t : List Char) : Parts :=
  let (negative, t) := match t with
    | '-' :: r => (true, r)
    | t => (false, t)
  let whole := t.takeWhile Char.isDigit
  match t.dropWhile Char.isDigit with
  | [] => ⟨negative, whole, [], true, 0⟩
  | '.' :: r => ⟨negative, whole, r.takeWhile Char.isDigit, false,
      exponentOf ((r.dropWhile Char.isDigit).drop 1)⟩
  | _ :: r => ⟨negative, whole, [], false, exponentOf r⟩

/-- The greatest significand that is kept. -/
def maxSignificand : Nat := UInt64.size - 1

/-- Appends digits to a significand as long as it does not grow beyond its maximum; also the number
of digits that are left. -/
def extend (significand : Nat) : List Char → Nat × Nat
  | [] => (significand, 0)
  | c :: r =>
    if 10 * significand + digit c ≤ maxSignificand then extend (10 * significand + digit c) r
    else (significand, r.length + 1)

/-- The magnitude of a numeral. Digits beyond the greatest significand count only by their place. -/
def Parts.magnitude? (p : Parts) : Option Decimal.Magnitude :=
  let (whole, left) := extend 0 p.whole
  let (significand, ignored) := extend whole p.fraction
  let used : Int := p.fraction.length - ignored
  Decimal.Magnitude.ofDecimal? significand (left - used + p.power)

/-- The number of a numeral; none if its magnitude is too large. -/
def Parts.number? (p : Parts) : Option Number :=
  let n := natural p.whole
  if p.isWhole ∧ ¬ p.negative ∧ n < UInt64.size then some (.integer n)
  else if p.isWhole ∧ p.negative ∧ 0 < n ∧ n ≤ UInt64.size / 2 then some (.integer (-n))
  else p.magnitude?.map (.float p.negative)

def number? (spelling : List Char) : Option Number := (Parts.ofSpelling spelling).number?

end Numeral
end ManPage.Json
