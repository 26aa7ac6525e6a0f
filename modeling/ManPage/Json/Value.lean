import ManPage.Decimal.Shortest

/-! # JSON values

A value keeps the entries of an object in the order in which they are written, repeated keys
included. A number is an integer of 64 bits, signed or not, or a binary64 number. A text that has no
value breaks the grammar or a limit of the reader, or it ends too early.
-/
namespace ManPage.Json

inductive Number
  | integer (n : Int)
  | float (negative : Bool) (magnitude : Decimal.Magnitude)
deriving DecidableEq, Repr, Inhabited

inductive Scalar
  | null
  | bool (b : Bool)
  | number (n : Number)
  | string (t : Text)
deriving DecidableEq, Repr, Inhabited

inductive Value
  | scalar (s : Scalar)
  | array (items : List Value)
  | object (entries : List (Text × Value))
deriving Repr, Inhabited

/-! ## Faults -/

inductive Fault
  | expectedValue
  | expectedLiteral
  | invalidNumeral
  | numberTooLarge
  | trailingComma
  | trailingCharacters
  | expectedItemEnd
  | expectedEntryEnd
  | expectedKey
  | expectedColon
  | controlCharacter
  | invalidEscape
  | loneSurrogate
  | unpairedSurrogate
  | strayByte
  | tooDeep
deriving DecidableEq, Repr, Inhabited

def Fault.message : Fault → Text
  | expectedValue => "expected value".toList
  | expectedLiteral => "expected ident".toList
  | invalidNumeral => "invalid number".toList
  | numberTooLarge => "number out of range".toList
  | trailingComma => "trailing comma".toList
  | trailingCharacters => "trailing characters".toList
  | expectedItemEnd => "expected `,` or `]`".toList
  | expectedEntryEnd => "expected `,` or `\x7d`".toList
  | expectedKey => "key must be a string".toList
  | expectedColon => "expected `:`".toList
  | controlCharacter => "control character (\\u0000-\\u001F) found while parsing a string".toList
  | invalidEscape => "invalid escape".toList
  | loneSurrogate => "lone leading surrogate in hex escape".toList
  | unpairedSurrogate => "unexpected end of hex escape".toList
  | strayByte => "invalid unicode code point".toList
  | tooDeep => "recursion limit exceeded".toList

/-- What was being read when the text ended. -/
inductive Unfinished
  | value | list | object | string
deriving DecidableEq, Repr, Inhabited

def Unfinished.message : Unfinished → Text
  | value => "EOF while parsing a value".toList
  | list => "EOF while parsing a list".toList
  | object => "EOF while parsing an object".toList
  | string => "EOF while parsing a string".toList

end ManPage.Json
