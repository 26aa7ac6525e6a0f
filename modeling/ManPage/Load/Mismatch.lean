import ManPage.Json.Value
import ManPage.Text.Basic
import ManPage.Text.Quoted
import ManPage.Tree.Kind
import ManPage.Tree.Symbol

/-! # Mismatches

How a JSON value fails to be the document, node, field or symbol that is expected in its place.
-/
namespace ManPage.Load
open Json Text

/-- What a value is, as far as a message tells. -/
inductive Found
  | scalar (s : Scalar)
  | sequence
  | map
deriving DecidableEq, Repr, Inhabited

def Found.ofValue : Value → Found
  | .scalar s => scalar s
  | .array _ => sequence
  | .object _ => map

def inBackquotes (t : Text) : Text := '\x60' :: t ++ ['\x60']

def Found.describe : Found → Text
  | scalar .null => "null".toList
  | scalar (.bool b) => "boolean ".toList ++ inBackquotes (if b then "true" else "false").toList
  | scalar (.number (.integer n)) => "integer ".toList ++ inBackquotes (signedDecimal n)
  | scalar (.number (.float negative m)) =>
    "floating point ".toList ++ inBackquotes (Decimal.messageStyle.write negative m)
  | scalar (.string t) => "string ".toList ++ t.quoted
  | sequence => "sequence".toList
  | map => "map".toList

inductive Expected
  | document | sequence | node | tag | string | level | symbol | unit
deriving DecidableEq, Repr, Inhabited

def Expected.describe : Expected → Text
  | document => "struct Document".toList
  | sequence => "a sequence".toList
  | node => "internally tagged enum Node".toList
  | tag => "variant identifier".toList
  | string => "a string".toList
  | level => "u8".toList
  | symbol => "string or map".toList
  | unit => "unit".toList

inductive Mismatch
  | invalidType (found : Found) (expected : Expected)
  | levelOutOfRange (n : Int)
  | notOneEntry
  | duplicate (key : Text)
  | missing (key : Text)
  | unknownTypographic (name : Text)
  | unknownQuote (name : Text)
  | tooFew (given : Nat) (kind : Kind) (fields : Nat)
  | tooMany (given : Nat) (fields : Nat)
deriving DecidableEq, Repr, Inhabited

namespace Mismatch

/-- The name of a kind with fields. -/
def kindLabel : Kind → Text
  | .blank => "Blank".toList
  | .text => "Text".toList
  | .typographic => "TypographicSym".toList
  | .quote => "SmartQuote".toList
  | .header => "Header".toList
  | .rule => "HorizontalRule".toList
  | .bulletList => "UnorderedList".toList
  | .orderedList => "OrderedList".toList
  | .listItem => "ListItem".toList
  | .abbreviation => "Abbreviation".toList
  | .blockQuote => "BlockQuote".toList
  | .codeBlock => "CodeBlock".toList
  | .comment => "Comment".toList
  | .paragraph => "Paragraph".toList
  | .emphasis => "Emphasis".toList
  | .strong => "Strong".toList
  | .codeSpan => "CodeSpan".toList
  | .link => "Link".toList
  | .unknown => "Unknown".toList

def elements (n : Nat) : Text :=
  decimal n ++ (if n = 1 then " element" else " elements").toList

def unknownName (name : Text) (known : List Text) : Text :=
  "unknown variant ".toList ++ inBackquotes name ++ ", expected one of ".toList ++
    List.intercalate ", ".toList (known.map inBackquotes)

def message : Mismatch → Text
  | invalidType found expected =>
    "invalid type: ".toList ++ found.describe ++ ", expected ".toList ++ expected.describe
  | levelOutOfRange n =>
    "invalid value: integer ".toList ++ inBackquotes (signedDecimal n) ++ ", expected u8".toList
  | notOneEntry => "invalid value: map, expected map with a single key".toList
  | duplicate key => "duplicate field ".toList ++ inBackquotes key
  | missing key => "missing field ".toList ++ inBackquotes key
  | unknownTypographic name => unknownName name (Typographic.all.map Typographic.name)
  | unknownQuote name => unknownName name (Quote.all.map Quote.name)
  | tooFew given kind fields =>
    "invalid length ".toList ++ decimal given ++ ", expected struct variant Node::".toList ++
      kindLabel kind ++ " with ".toList ++ elements fields
  | tooMany given fields =>
    "invalid length ".toList ++ decimal given ++ ", expected ".toList ++ elements fields ++
      " in sequence".toList

end Mismatch
end ManPage.Load
