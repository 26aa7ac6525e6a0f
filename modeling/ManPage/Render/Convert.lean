import ManPage.Render.Conversion
import ManPage.Render.Marker
import ManPage.Text.Basic
import ManPage.Tree.Link
import ManPage.Tree.Node

/-! # Converting nodes

Each node becomes a fragment of a page, or nothing. The fragments of inline children are put one
behind the other and trimmed as a whole; block fragments are separated by one line feed. A page is
the fragments of a document's blocks with a banner of comments above them.
-/
namespace ManPage
open Text

namespace Fragment

def headerMacro (level : UInt8) : Text :=
  if level = 1 then ".TH".toList else if level = 2 then ".SH".toList else ".SS".toList

def header (level : UInt8) (rawText : Text) : Text := headerMacro level ++ ' ' :: rawText

def rule : Text := ".ti 0\n\\l'\\n(.lu'".toList

def indented (body : Text) : Text := ".RS\n".toList ++ body ++ "\n.RE".toList

def codeBlock (value : Text) : Text := ".nf\n".toList ++ trimEnd (escape value) ++ "\n.fi".toList

def comment (value : Text) : Text := joinLines ((lines value).map (".\\\" ".toList ++ ·))

def emphasis (body : Text) : Text := "\\fI".toList ++ body ++ "\\fP".toList

def strong (body : Text) : Text := "\\fB".toList ++ body ++ "\\fP".toList

def codeSpan (value : Text) : Text := "\\fB\\fC".toList ++ value ++ "\\fR".toList

def inline (parts : List Text) : Text := trim parts.flatten

def link (href : Text) (body : Text) : Text :=
  match LinkTarget.ofHref href with
  | .mail address =>
    (if body = address then [] else body) ++ "\n.MT ".toList ++ address ++ "\n.ME".toList
  | .manPage name (some sec) => "\n.BR ".toList ++ name ++ " (".toList ++ sec ++ ")".toList
  | .manPage name none => "\n.BR ".toList ++ name
  | .url href => body ++ "\n.UR ".toList ++ href ++ "\n.UE".toList

def isIndented : Text → Bool
  | ' ' :: ' ' :: _ => true
  | '\t' :: _ => true
  | _ => false

/-- The description, if the children have the shape of a definition: emphasis or code as the term,
then indented text. -/
def description? : List Node → Option Text
  | .emphasis _ :: .text v :: _ => if isIndented v then some v else none
  | .codeSpan _ :: .text v :: _ => if isIndented v then some v else none
  | _ => none

def definition (term value rest : Text) : Text :=
  trimEnd (".TP\n".toList ++ term ++ '\n' :: trimStart (escape value) ++ '\n' :: rest)

/-- The paragraph with the children given, whose fragments are `parts`. -/
def paragraph (children : List Node) (parts : List Text) : Text :=
  match description? children with
  | some value => definition (parts.headD []) value (inline (parts.drop 2))
  | none => ".PP\n".toList ++ inline parts

end Fragment

open Fragment

mutual

def convert : Node → Conversion (Option Text)
  | .blank => pure (some ".LP".toList)
  | .text value => pure (some (escape value))
  | .abbreviation value => pure (some (escape value))
  | .typographic symbol => pure (some symbol.glyph)
  | .quote symbol => pure (some symbol.glyph)
  | .header level rawText _ => pure (some (header level rawText))
  | .rule => pure (some rule)
  | .bulletList children => do
    let parts ← listItems .bullet children
    return some (indented (joinLines parts))
  | .orderedList children => do
    let list ← Conversion.nextList
    let parts ← listItems (.step list) children
    return some (Marker.declaration list ++ '\n' :: indented (joinLines parts))
  | .blockQuote children => do
    let parts ← quoted children
    return some (".PP\n".toList ++ indented (joinLines parts))
  | .codeBlock value => pure (some (codeBlock value))
  | .comment value => pure (some (comment value))
  | .paragraph children => do
    let parts ← convertAll children
    return some (paragraph children parts)
  | .emphasis children => do
    let parts ← convertAll children
    return some (emphasis (inline parts))
  | .strong children => do
    let parts ← convertAll children
    return some (strong (inline parts))
  | .codeSpan value => pure (some (codeSpan value))
  | .link href children => do
    let parts ← convertAll children
    if LinkTarget.isMalformed href then Conversion.report (.malformedLink href)
    return some (link href (inline parts))
  | .listItem _ => do
    Conversion.report (.dropped .listItem)
    return none
  | .unknown => do
    Conversion.report (.dropped .unknown)
    return none

/-- The fragments of the nodes that have one. -/
def convertAll : List Node → Conversion (List Text)
  | [] => pure []
  | n :: ns => do
    let part ← convert n
    let parts ← convertAll ns
    return part.toList ++ parts

/-- In a block quote a paragraph is its inline text alone. -/
def quoted : List Node → Conversion (List Text)
  | [] => pure []
  | .paragraph children :: ns => do
    let parts ← convertAll children
    let more ← quoted ns
    return inline parts :: more
  | n :: ns => do
    let part ← convert n
    let more ← quoted ns
    return part.toList ++ more

/-- One fragment for each item of a list, also for an item without a paragraph. -/
def listItems (marker : Marker) : List Node → Conversion (List Text)
  | [] => pure []
  | .listItem children :: ns => do
    let parts ← itemParagraphs marker.first marker.further children
    let more ← listItems marker ns
    return joinLines parts :: more
  | n :: ns => do
    Conversion.report (.skipped n.kind)
    listItems marker ns

/-- The paragraphs of an item, the next one below the macro `opening`, all others below
`further`. -/
def itemParagraphs (opening further : Text) : List Node → Conversion (List Text)
  | [] => pure []
  | .paragraph children :: ns => do
    let parts ← convertAll children
    let more ← itemParagraphs further further ns
    return (opening ++ '\n' :: inline parts) :: more
  | _ :: ns => itemParagraphs opening further ns

end

/-! ## Pages -/

def bannerLines : Text :=
  ".\\\" Generated by roffdown 0.1.0\n.\\\" https://github.com/roffdown/roffdown#readme".toList

namespace Document

/-- The page without its banner. -/
def body (d : Document) : Conversion Text := joinLines <$> convertAll d.blocks

def page (d : Document) : Conversion Text := (bannerLines ++ '\n' :: ·) <$> d.body

/-- The page of a document by itself. -/
def render (d : Document) : Text := (d.page.run 0).result

end Document

end ManPage
