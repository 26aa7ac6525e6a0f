import ManPage.Json.Printer
import ManPage.Load.Schema

/-! # Saving documents

The JSON value of a node is an object with the tag first and the fields of its kind in their order;
`children` is always written. A document is an object with its blocks.
-/
namespace ManPage
open Json

namespace Node

def ofString (t : Text) : Value := .scalar (.string t)

def tagged (kind : Kind) (entries : List (Text × Value)) : Value :=
  .object ((Load.tagKey, ofString kind.tag) :: entries)

open Load in
mutual

def toValue : Node → Value
  | .blank => tagged .blank []
  | .text v => tagged .text [(Field.value.key, ofString v)]
  | .typographic s => tagged .typographic [(Field.typographic.key, ofString s.name)]
  | .quote q => tagged .quote [(Field.quote.key, ofString q.name)]
  | .header level rawText children =>
    tagged .header [(Field.level.key, .scalar (.number (.integer level.toNat))),
      (Field.rawText.key, ofString rawText), (Field.children.key, .array (toValues children))]
  | .rule => tagged .rule []
  | .bulletList children => tagged .bulletList [(Field.children.key, .array (toValues children))]
  | .orderedList children => tagged .orderedList [(Field.children.key, .array (toValues children))]
  | .listItem children => tagged .listItem [(Field.children.key, .array (toValues children))]
  | .abbreviation v => tagged .abbreviation [(Field.value.key, ofString v)]
  | .blockQuote children => tagged .blockQuote [(Field.children.key, .array (toValues children))]
  | .codeBlock v => tagged .codeBlock [(Field.value.key, ofString v)]
  | .comment v => tagged .comment [(Field.value.key, ofString v)]
  | .paragraph children => tagged .paragraph [(Field.children.key, .array (toValues children))]
  | .emphasis children => tagged .emphasis [(Field.children.key, .array (toValues children))]
  | .strong children => tagged .strong [(Field.children.key, .array (toValues children))]
  | .codeSpan v => tagged .codeSpan [(Field.value.key, ofString v)]
  | .link href children =>
    tagged .link [(Field.href.key, ofString href), (Field.children.key, .array (toValues children))]
  | .unknown => tagged .unknown []

def toValues : List Node → List Value
  | [] => []
  | n :: ns => toValue n :: toValues ns

end

def toText (form : Form) (n : Node) : Text := form.write 0 n.toValue []

end Node

namespace Document

def toValue (d : Document) : Value := .object [(blocksKey, .array (Node.toValues d.blocks))]

def toText (form : Form) (d : Document) : Text := form.write 0 d.toValue []

end Document
end ManPage
