import ManPage.Load.Mismatch
import ManPage.Tree.Node

/-! # The schema of nodes

Each kind of node has fields in a fixed order. A node is written as an object, with the tag of its
kind and the fields in any order, or as an array of the tag and the fields in their order. Keys that
are no fields of the kind are ignored, and `children` may be left out.
-/
namespace ManPage.Load
open Json

inductive Field
  | value | typographic | quote | level | rawText | href | children
deriving DecidableEq, Repr, Inhabited

def Field.key : Field → Text
  | value | typographic | quote => "value".toList
  | level => "level".toList
  | rawText => "raw_text".toList
  | href => "href".toList
  | children => "children".toList

def tagKey : Text := "type".toList

def fields : Kind → List Field
  | .text | .abbreviation | .codeBlock | .comment | .codeSpan => [.value]
  | .typographic => [.typographic]
  | .quote => [.quote]
  | .header => [.level, .rawText, .children]
  | .link => [.href, .children]
  | .bulletList | .orderedList | .listItem | .blockQuote | .paragraph | .emphasis | .strong =>
    [.children]
  | .blank | .rule | .unknown => []

/-- The fields that have been read. -/
structure Slots where
  value : Option Text := none
  typographic : Option Typographic := none
  quote : Option Quote := none
  level : Option UInt8 := none
  rawText : Option Text := none
  href : Option Text := none
  children : Option (List Node) := none
deriving Repr, Inhabited

namespace Slots

def has (s : Slots) : Field → Bool
  | .value => s.value.isSome
  | .typographic => s.typographic.isSome
  | .quote => s.quote.isSome
  | .level => s.level.isSome
  | .rawText => s.rawText.isSome
  | .href => s.href.isSome
  | .children => s.children.isSome

def need {α : Type} (absent : Field → Mismatch) (f : Field) : Option α → Except Mismatch α
  | some a => .ok a
  | none => .error (absent f)

/-- The node of the kind given with these fields; `absent` is raised for the first field that is
missing. -/
def node (absent : Field → Mismatch) (s : Slots) : Kind → Except Mismatch Node
  | .blank => .ok .blank
  | .rule => .ok .rule
  | .unknown => .ok .unknown
  | .text => return .text (← need absent .value s.value)
  | .abbreviation => return .abbreviation (← need absent .value s.value)
  | .codeBlock => return .codeBlock (← need absent .value s.value)
  | .comment => return .comment (← need absent .value s.value)
  | .codeSpan => return .codeSpan (← need absent .value s.value)
  | .typographic => return .typographic (← need absent .typographic s.typographic)
  | .quote => return .quote (← need absent .quote s.quote)
  | .header => do
    let level ← need absent .level s.level
    let rawText ← need absent .rawText s.rawText
    return .header level rawText (s.children.getD [])
  | .link => return .link (← need absent .href s.href) (s.children.getD [])
  | .bulletList => .ok (.bulletList (s.children.getD []))
  | .orderedList => .ok (.orderedList (s.children.getD []))
  | .listItem => .ok (.listItem (s.children.getD []))
  | .blockQuote => .ok (.blockQuote (s.children.getD []))
  | .paragraph => .ok (.paragraph (s.children.getD []))
  | .emphasis => .ok (.emphasis (s.children.getD []))
  | .strong => .ok (.strong (s.children.getD []))

end Slots

def readString : Value → Except Mismatch Text
  | .scalar (.string t) => .ok t
  | v => .error (.invalidType (.ofValue v) .string)

def readLevel : Value → Except Mismatch UInt8
  | .scalar (.number (.integer n)) =>
    if 0 ≤ n ∧ n ≤ 255 then .ok (UInt8.ofNat n.toNat) else .error (.levelOutOfRange n)
  | v => .error (.invalidType (.ofValue v) .level)

def readUnit : Value → Except Mismatch Unit
  | .scalar .null => .ok ()
  | .object [] => .ok ()
  | v => .error (.invalidType (.ofValue v) .unit)

/-- A symbol is its name, or an object with one entry that has the name as its key. -/
def readSymbol {α : Type} (ofName? : Text → Option α) (unknown : Text → Mismatch) :
    Value → Except Mismatch α
  | .scalar (.string t) => named t
  | .object [(t, v)] => do
    let symbol ← named t
    readUnit v
    return symbol
  | .object _ => .error .notOneEntry
  | v => .error (.invalidType (.ofValue v) .symbol)
where
  named (t : Text) : Except Mismatch α :=
    match ofName? t with
    | some symbol => .ok symbol
    | none => .error (unknown t)

/-- The kind that a tag names. Inside a node a kind may also be given by its number. -/
def readTag : Value → Except Mismatch Kind
  | .scalar (.string t) => .ok (Kind.ofTag t)
  | .scalar (.number (.integer n)) =>
    if 0 ≤ n then .ok (Kind.ofIndex n.toNat)
    else .error (.invalidType (.scalar (.number (.integer n))) .tag)
  | v => .error (.invalidType (.ofValue v) .tag)

/-- The kind of a node from its entries; `found` is the kind read before them. -/
def entriesKind (found : Option Kind) : List (Text × Value) → Except Mismatch Kind
  | [] =>
    match found with
    | some kind => .ok kind
    | none => .error (.missing tagKey)
  | (key, v) :: es =>
    if key = tagKey then
      match found with
      | some _ => .error (.duplicate tagKey)
      | none => do
        let kind ← readTag v
        entriesKind (some kind) es
    else entriesKind found es

/-- A node of an object: a field that is missing is named. -/
def nodeOfEntries (kind : Kind) (s : Slots) : Except Mismatch Node :=
  s.node (fun f => .missing f.key) kind

/-- A node of an array with `given` elements behind the tag. -/
def nodeOfItems (kind : Kind) (given : Nat) (s : Slots) : Except Mismatch Node := do
  if (fields kind).length < given then throw (.tooMany given (fields kind).length)
  s.node (fun _ => .tooFew given kind (fields kind).length) kind

mutual

def readNode : Value → Except Mismatch Node
  | .scalar s => .error (.invalidType (.scalar s) .node)
  | .array [] => .error (.missing tagKey)
  | .array (tag :: items) => do
    let kind ← readTag tag
    let slots ← readItems (fields kind) items {}
    nodeOfItems kind items.length slots
  | .object entries => do
    let kind ← entriesKind none entries
    let slots ← readEntries (fields kind) entries {}
    nodeOfEntries kind slots

def readNodes : List Value → Except Mismatch (List Node)
  | [] => .ok []
  | v :: vs => do
    let n ← readNode v
    let ns ← readNodes vs
    return n :: ns

def readField (s : Slots) : Field → Value → Except Mismatch Slots
  | .value, v => return { s with value := ← readString v }
  | .typographic, v =>
    return { s with typographic := ← readSymbol Typographic.ofName? .unknownTypographic v }
  | .quote, v => return { s with quote := ← readSymbol Quote.ofName? .unknownQuote v }
  | .level, v => return { s with level := ← readLevel v }
  | .rawText, v => return { s with rawText := ← readString v }
  | .href, v => return { s with href := ← readString v }
  | .children, .array items => do
    let ns ← readNodes items
    return { s with children := some ns }
  | .children, v => .error (.invalidType (.ofValue v) .sequence)

/-- The entries of an object, in the order in which they are written. -/
def readEntries (fs : List Field) : List (Text × Value) → Slots → Except Mismatch Slots
  | [], s => .ok s
  | (key, v) :: es, s =>
    match fs.find? fun f => f.key == key with
    | none => readEntries fs es s
    | some f =>
      if s.has f then .error (.duplicate key)
      else do
        let s ← readField s f v
        readEntries fs es s

/-- The elements of an array behind the tag, a field for each as long as there are fields. -/
def readItems : List Field → List Value → Slots → Except Mismatch Slots
  | f :: fs, v :: vs, s => do
    let s ← readField s f v
    readItems fs vs s
  | _, _, s => .ok s

end

def ofEntries (kind : Kind) (entries : List (Text × Value)) : Except Mismatch Node := do
  nodeOfEntries kind (← readEntries (fields kind) entries {})

def ofItems (kind : Kind) (items : List Value) : Except Mismatch Node := do
  nodeOfItems kind items.length (← readItems (fields kind) items {})

end ManPage.Load
