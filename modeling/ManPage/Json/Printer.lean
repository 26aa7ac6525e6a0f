import ManPage.Json.Value
import ManPage.Text.Basic

/-! # Writing JSON

The compact form has no space at all. The pretty form has a line for each element and each entry,
indented by two spaces a level; brackets with nothing between them stay together.
-/
namespace ManPage.Json
open Text

/-- Quotes, backslashes and control characters are escaped; all else is written as it is. -/
def escapedChar (c : Char) : Text :=
  match c with
  | '"' => "\\\"".toList
  | '\\' => "\\\\".toList
  | '\x08' => "\\b".toList
  | '\x0C' => "\\f".toList
  | '\n' => "\\n".toList
  | '\r' => "\\r".toList
  | '\t' => "\\t".toList
  | c =>
    if c.toNat < 0x20 then
      "\\u00".toList ++ [Nat.digitChar (c.toNat / 16), Nat.digitChar (c.toNat % 16)]
    else [c]

def writeString (t rest : Text) : Text := '"' :: t.flatMap escapedChar ++ '"' :: rest

def writeScalar (s : Scalar) (rest : Text) : Text :=
  match s with
  | .null => "null".toList ++ rest
  | .bool b => (if b then "true" else "false").toList ++ rest
  | .number (.integer n) => signedDecimal n ++ rest
  | .number (.float negative m) => Decimal.messageStyle.write negative m ++ rest
  | .string t => writeString t rest

inductive Form
  | compact | pretty
deriving DecidableEq, Repr, Inhabited

namespace Form

/-- The start of a line inside `depth` brackets. -/
def line (form : Form) (depth : Nat) (rest : Text) : Text :=
  match form with
  | compact => rest
  | pretty => '\n' :: List.replicate (2 * depth) ' ' ++ rest

def colon (form : Form) (rest : Text) : Text :=
  match form with
  | compact => ':' :: rest
  | pretty => ':' :: ' ' :: rest

mutual

/-- A value inside `depth` brackets, with `rest` behind it. -/
def write (form : Form) (depth : Nat) : Value → Text → Text
  | .scalar s, rest => writeScalar s rest
  | .array [], rest => '[' :: ']' :: rest
  | .array (v :: vs), rest =>
    '[' :: form.line (depth + 1) (form.write (depth + 1) v
      (form.writeItems (depth + 1) vs (form.line depth (']' :: rest))))
  | .object [], rest => '{' :: '}' :: rest
  | .object ((key, v) :: es), rest =>
    '{' :: form.line (depth + 1) (writeString key (form.colon (form.write (depth + 1) v
      (form.writeEntries (depth + 1) es (form.line depth ('}' :: rest))))))

/-- The elements behind the first one. -/
def writeItems (form : Form) (depth : Nat) : List Value → Text → Text
  | [], rest => rest
  | v :: vs, rest =>
    ',' :: form.line depth (form.write depth v (form.writeItems depth vs rest))

/-- The entries behind the first one. -/
def writeEntries (form : Form) (depth : Nat) : List (Text × Value) → Text → Text
  | [], rest => rest
  | (key, v) :: es, rest =>
    ',' :: form.line depth (writeString key (form.colon (form.write depth v
      (form.writeEntries depth es rest))))

end

end Form
end ManPage.Json
