import ManPage.Proofs.Load.Fields

/-! # The declared schema

What a JSON value is as a document, said of the value as a whole: which keys an object may have, which
of them once, and what must stand under them. Whatever is not said here is ignored. The order in which
entries are written, and in which a reader would come upon what is wrong, has no part in it.
-/
namespace ManPage.Declared
open Json

/-- A value, and the nodes that it is if it is an array of nodes. -/
structure Reading where
  value : Value
  nodes? : Option (List Node)

/-- What stands under a key that may be left out but must not be repeated. -/
def optional? {α : Type} (key : Text) (es : List (Text × α)) : Option (Option α) :=
  match Load.under key es with
  | [] => some none
  | [a] => some (some a)
  | _ => none

/-- What stands under a key that must be given once. -/
def required? {α β : Type} (key : Text) (decode : α → Option β) (es : List (Text × α)) : Option β :=
  match Load.under key es with
  | [a] => decode a
  | _ => none

def string? : Value → Option Text
  | .scalar (.string t) => some t
  | _ => none

/-- An integer that is written without fraction or exponent and fits into a byte. -/
def level? : Value → Option UInt8
  | .scalar (.number (.integer n)) => if 0 ≤ n ∧ n ≤ 255 then some (UInt8.ofNat n.toNat) else none
  | _ => none

/-- A symbol by its name, or by an object that has nothing but an empty entry under that name. -/
def symbol? {α : Type} (ofName? : Text → Option α) : Value → Option α
  | .scalar (.string name) => ofName? name
  | .object [(name, .scalar .null)] => ofName? name
  | .object [(name, .object [])] => ofName? name
  | _ => none

/-- The kind that a tag names. -/
def namedKind? : Value → Option Kind
  | .scalar (.string tag) => some (Kind.ofTag tag)
  | _ => none

/-- The kind that a tag names, or that has the tag as its number. -/
def kind? : Value → Option Kind
  | .scalar (.string tag) => some (Kind.ofTag tag)
  | .scalar (.number (.integer n)) => if 0 ≤ n then some (Kind.ofIndex n.toNat) else none
  | _ => none

/-- The keys of the fields of a kind, in the order of an array. -/
def keys : Kind → List Text
  | .blank | .rule | .unknown => []
  | .text | .typographic | .quote | .abbreviation | .codeBlock | .comment | .codeSpan =>
    ["value".toList]
  | .header => ["level".toList, "raw_text".toList, "children".toList]
  | .link => ["href".toList, "children".toList]
  | .bulletList | .orderedList | .listItem | .blockQuote | .paragraph | .emphasis | .strong =>
    ["children".toList]

/-- The text under a key. -/
def text? (key : Text) (es : List (Text × Reading)) : Option Text :=
  required? key (fun r => string? r.value) es

/-- The children of a node; there are none if nothing is said of them. -/
def children? (es : List (Text × Reading)) : Option (List Node) := do
  match ← optional? "children".toList es with
  | some r => r.nodes?
  | none => some []

/-- The node of a kind with what stands under the keys of its fields. -/
def ofFields? (es : List (Text × Reading)) : Kind → Option Node
  | .blank => some .blank
  | .rule => some .rule
  | .unknown => some .unknown
  | .text => Node.text <$> text? "value".toList es
  | .abbreviation => Node.abbreviation <$> text? "value".toList es
  | .codeBlock => Node.codeBlock <$> text? "value".toList es
  | .comment => Node.comment <$> text? "value".toList es
  | .codeSpan => Node.codeSpan <$> text? "value".toList es
  | .typographic =>
    Node.typographic <$> required? "value".toList (fun r => symbol? Typographic.ofName? r.value) es
  | .quote => Node.quote <$> required? "value".toList (fun r => symbol? Quote.ofName? r.value) es
  | .header => do
    let level ← required? "level".toList (fun r => level? r.value) es
    let rawText ← text? "raw_text".toList es
    let children ← children? es
    return .header level rawText children
  | .link => do
    let href ← text? "href".toList es
    let children ← children? es
    return .link href children
  | .bulletList => Node.bulletList <$> children? es
  | .orderedList => Node.orderedList <$> children? es
  | .listItem => Node.listItem <$> children? es
  | .blockQuote => Node.blockQuote <$> children? es
  | .paragraph => Node.paragraph <$> children? es
  | .emphasis => Node.emphasis <$> children? es
  | .strong => Node.strong <$> children? es

section
variable (tag? : Value → Option Kind)

/-- A node as an array: the tag, and then the fields, of which the last ones may be left out. -/
def ofItems? : List Reading → Option Node
  | [] => none
  | tag :: items => do
    let kind ← tag? tag.value
    if items.length ≤ (keys kind).length then ofFields? ((keys kind).zip items) kind else none

/-- A node as an object: the tag and the fields in any order. -/
def ofEntries? (es : List (Text × Reading)) : Option Node := do
  let kind ← required? "type".toList (fun r => tag? r.value) es
  ofFields? es kind

mutual

/-- A node whose tag, like the tags of all nodes inside it, is read by `tag?`. -/
def node? : Value → Option Node
  | .scalar _ => none
  | .array items => ofItems? tag? (readings items)
  | .object es => ofEntries? tag? (entries es)

def nodes? : List Value → Option (List Node)
  | [] => some []
  | v :: vs => do
    let n ← node? v
    let ns ← nodes? vs
    return n :: ns

def reading : Value → Reading
  | .scalar s => ⟨.scalar s, none⟩
  | .array items => ⟨.array items, nodes? items⟩
  | .object es => ⟨.object es, none⟩

def readings : List Value → List Reading
  | [] => []
  | v :: vs => reading v :: readings vs

def entries : List (Text × Value) → List (Text × Reading)
  | [] => []
  | (key, v) :: es => (key, reading v) :: entries es

end

/-- A block of a document has a tag that is a name; `tag?` reads the tags of the nodes inside it. -/
def block? : Value → Option Node
  | .scalar _ => none
  | .array items => ofItems? namedKind? (readings tag? items)
  | .object es => ofEntries? namedKind? (entries tag? es)

def blocks? : Value → Option (List Node)
  | .array items => items.mapM (block? tag?)
  | _ => none

/-- A document is an object, in which the blocks may be left out, or an array of no or one element. -/
def document? : Value → Option Document
  | .array [] => some ⟨[]⟩
  | .array [v] => Document.mk <$> blocks? tag? v
  | .object es => do
    match ← optional? "children".toList es with
    | some v => Document.mk <$> blocks? tag? v
    | none => some ⟨[]⟩
  | _ => none

end

end ManPage.Declared
