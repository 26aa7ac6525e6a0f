import ManPage.Json.Value
import ManPage.Text.Utf8

/-! # String tokens

A JSON string, piece by piece, from behind its opening quote. A strict string pairs the surrogates
of its escapes and holds no stray byte; a lax one is only checked for its extent and its escapes.
-/
namespace ManPage.Json
open Text (Piece)

/-- A place inside a string. Four bytes follow an escape with `u`; of a pair of surrogates the
first one is kept. -/
inductive QuotationPhase
  | plain
  | escape
  | hex (lead : Option Nat) (seen : List Piece)
  | pair (lead : Nat)
  | pairEscape (lead : Nat)
deriving DecidableEq, Repr, Inhabited

/-- The part of a string that has been read, its characters latest first. -/
structure Quotation where
  chars : Text := []
  stray : Bool := false
  phase : QuotationPhase := .plain
deriving DecidableEq, Repr, Inhabited

namespace Quotation

/-- What a piece does to a string. -/
inductive Step
  | next (q : Quotation)
  | closed (t : Text)
deriving DecidableEq, Repr

def hexDigit? (c : Char) : Option Nat :=
  if c.isDigit then some (c.toNat - '0'.toNat)
  else if 'a' ≤ c ∧ c ≤ 'f' then some (c.toNat - 'a'.toNat + 10)
  else if 'A' ≤ c ∧ c ≤ 'F' then some (c.toNat - 'A'.toNat + 10)
  else none

def pieceDigit? : Piece → Option Nat
  | .char c => hexDigit? c
  | .stray _ => none

/-- The number that four hexadecimal digits spell. -/
def hex? : List Piece → Option Nat
  | [a, b, c, d] => do
    return 4096 * (← pieceDigit? a) + 256 * (← pieceDigit? b) + 16 * (← pieceDigit? c)
      + (← pieceDigit? d)
  | _ => none

def isLead (n : Nat) : Bool := 0xD800 ≤ n && n ≤ 0xDBFF

def isTrail (n : Nat) : Bool := 0xDC00 ≤ n && n ≤ 0xDFFF

def unescape? : Char → Option Char
  | '"' => some '"'
  | '\\' => some '\\'
  | '/' => some '/'
  | 'b' => some '\x08'
  | 'f' => some '\x0C'
  | 'n' => some '\n'
  | 'r' => some '\r'
  | 't' => some '\t'
  | _ => none

def push (q : Quotation) (c : Char) : Quotation := { q with chars := c :: q.chars, phase := .plain }

/-- The number of an escape has been read. -/
def pushEscaped (strict : Bool) (q : Quotation) (lead : Option Nat) (n : Nat) :
    Except Fault Quotation :=
  match lead with
  | some first =>
    if isTrail n then
      .ok (q.push (Char.ofNat (0x10000 + (first - 0xD800) * 0x400 + (n - 0xDC00))))
    else .error .loneSurrogate
  | none =>
    if strict && isTrail n then .error .loneSurrogate
    else if strict && isLead n then .ok { q with phase := .pair n }
    else .ok (q.push (Char.ofNat n))

def step (strict : Bool) (q : Quotation) (p : Piece) : Except Fault Step :=
  match q.phase with
  | .plain =>
    match p with
    | .char '"' => if strict && q.stray then .error .strayByte else .ok (.closed q.chars.reverse)
    | .char '\\' => .ok (.next { q with phase := .escape })
    | .char c => if c.toNat < 0x20 then .error .controlCharacter else .ok (.next (q.push c))
    | .stray _ => .ok (.next { q with stray := true })
  | .escape =>
    match p with
    | .char 'u' => .ok (.next { q with phase := .hex none [] })
    | .char c =>
      match unescape? c with
      | some d => .ok (.next (q.push d))
      | none => .error .invalidEscape
    | .stray _ => .error .invalidEscape
  | .hex lead seen =>
    let seen := p :: seen
    if seen.foldl (fun n p => n + p.width) 0 < 4 then .ok (.next { q with phase := .hex lead seen })
    else
      match hex? seen.reverse with
      | some n => return .next (← pushEscaped strict q lead n)
      | none => .error .invalidEscape
  | .pair lead =>
    if p = .char '\\' then .ok (.next { q with phase := .pairEscape lead })
    else .error .unpairedSurrogate
  | .pairEscape lead =>
    if p = .char 'u' then .ok (.next { q with phase := .hex (some lead) [] })
    else .error .unpairedSurrogate

end Quotation
end ManPage.Json
