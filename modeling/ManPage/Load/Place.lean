import ManPage.Load.Error
import ManPage.Load.Schema

/-! # Places in a document

A document is read in one pass, and three ways of reading alternate. The document, the array of its
blocks and each block up to its tag are read as what they are; all else in a block is kept as JSON
values until the block is closed; values under other keys of the document are skipped. A place
records the brackets that are open around it, and what has been read in them.
-/
namespace ManPage.Load
open Json

inductive Bracket
  | array | object
deriving DecidableEq, Repr, Inhabited

/-- What is to be read: a document, or one node by itself. -/
inductive Goal
  | document | node
deriving DecidableEq, Repr, Inhabited

abbrev Goal.Result : Goal → Type
  | document => Document
  | node => Node

/-- The place of a node that is read up to its tag: alone, or a block of a document that is written
as `form`, after the blocks `done`, latest first. -/
inductive NodePlace : Goal → Type
  | alone : NodePlace .node
  | block (form : Bracket) (done : List Node) : NodePlace .document

/-- The place of a value that is kept. -/
inductive ValuePlace : Goal → Type
  | nodeItem {g : Goal} (node : NodePlace g) (kind : Kind) (items : List Value) : ValuePlace g
  | nodeEntry {g : Goal} (node : NodePlace g) (kind : Option Kind) (entries : List (Text × Value))
      (key : Text) : ValuePlace g
  | item {g : Goal} (items : List Value) (around : ValuePlace g) : ValuePlace g
  | entry {g : Goal} (entries : List (Text × Value)) (key : Text) (around : ValuePlace g) :
      ValuePlace g

/-- A place where a value is due. -/
inductive Slot : Goal → Type
  | document : Slot .document
  | blockList (form : Bracket) : Slot .document
  | node {g : Goal} (node : NodePlace g) : Slot g
  | tagItem {g : Goal} (node : NodePlace g) : Slot g
  | tagEntry {g : Goal} (node : NodePlace g) (entries : List (Text × Value)) : Slot g
  | value {g : Goal} (place : ValuePlace g) : Slot g
  | skipped (blocks : Option (List Node)) (around : List Bracket) : Slot .document

/-- The innermost open bracket is that of an array. -/
inductive OpenArray : Goal → Type
  | document : OpenArray .document
  | blockList (form : Bracket) (done : List Node) : OpenArray .document
  | node {g : Goal} (node : NodePlace g) : OpenArray g
  | nodeItems {g : Goal} (node : NodePlace g) (kind : Kind) (items : List Value) : OpenArray g
  | value {g : Goal} (items : List Value) (place : ValuePlace g) : OpenArray g
  | skipped (blocks : Option (List Node)) (around : List Bracket) : OpenArray .document

/-- The innermost open bracket is that of an object. -/
inductive OpenObject : Goal → Type
  | document (blocks : Option (List Node)) : OpenObject .document
  | node {g : Goal} (node : NodePlace g) (kind : Option Kind) (entries : List (Text × Value)) :
      OpenObject g
  | value {g : Goal} (entries : List (Text × Value)) (place : ValuePlace g) : OpenObject g
  | skipped (blocks : Option (List Node)) (around : List Bracket) : OpenObject .document

/-- A place between two tokens. A document that is written as an array ends behind its only
element. -/
inductive Between : Goal → Type
  | value {g : Goal} (slot : Slot g) : Between g
  | firstItem {g : Goal} (array : OpenArray g) : Between g
  | nextItem {g : Goal} (array : OpenArray g) : Between g
  | afterItem {g : Goal} (array : OpenArray g) : Between g
  | firstKey {g : Goal} (object : OpenObject g) : Between g
  | nextKey {g : Goal} (object : OpenObject g) : Between g
  | colon {g : Goal} (slot : Slot g) : Between g
  | afterEntry {g : Goal} (object : OpenObject g) : Between g
  | afterOnly (blocks : List Node) : Between .document
  | afterOnlyComma : Between .document
  | finished {g : Goal} (result : g.Result) : Between g

variable {g : Goal}

/-- The number of open brackets around the place. -/
def NodePlace.depth : NodePlace g → Nat
  | alone => 0
  | block .. => 2

def ValuePlace.depth : ValuePlace g → Nat
  | nodeItem node _ _ => node.depth + 1
  | nodeEntry node _ _ _ => node.depth + 1
  | item _ around => around.depth + 1
  | entry _ _ around => around.depth + 1

/-- No more brackets than these may be open at once. -/
def maxDepth : Nat := 127

def enter {α : Type} (depth : Nat) (a : α) : Except Error α :=
  if depth < maxDepth then .ok a else .error (.fault .tooDeep)

def expected {α : Type} (found : Found) (e : Expected) : Except Error α :=
  .error (.mismatch (.invalidType found e))

def ofMismatch {α : Type} : Except Mismatch α → Except Error α
  | .ok a => .ok a
  | .error m => .error (.mismatch m)

namespace NodePlace

/-- A node has been read. -/
def deliver : NodePlace g → Node → Between g
  | alone, n => .finished n
  | block form done, n => .afterItem (.blockList form (n :: done))

end NodePlace

namespace ValuePlace

/-- A value has been read. -/
def deliver : ValuePlace g → Value → Between g
  | nodeItem node kind items, v => .afterItem (.nodeItems node kind (v :: items))
  | nodeEntry node kind entries key, v => .afterEntry (.node node kind ((key, v) :: entries))
  | item items around, v => .afterItem (.value (v :: items) around)
  | entry entries key around, v => .afterEntry (.value ((key, v) :: entries) around)

end ValuePlace

/-- The blocks of a document that is written as `form` have been read. -/
def deliverBlocks (form : Bracket) (blocks : List Node) : Between .document :=
  match form with
  | .array => .afterOnly blocks
  | .object => .afterEntry (.document (some blocks))

/-- A value has been skipped inside the brackets `around`, innermost first. -/
def deliverSkipped (blocks : Option (List Node)) : List Bracket → Between .document
  | [] => .afterEntry (.document blocks)
  | .array :: around => .afterItem (.skipped blocks around)
  | .object :: around => .afterEntry (.skipped blocks around)

namespace Slot

/-- Values in this place are checked in full. -/
def strict : Slot g → Bool
  | skipped .. => false
  | _ => true

/-- A value without brackets has been read. -/
def scalar : Slot g → Scalar → Except Error (Between g)
  | document, s => expected (.scalar s) .document
  | blockList _, s => expected (.scalar s) .sequence
  | node _, s => expected (.scalar s) .node
  | tagItem place, .string t => .ok (.afterItem (.nodeItems place (Kind.ofTag t) []))
  | tagItem _, s => expected (.scalar s) .tag
  | tagEntry place entries, .string t =>
    .ok (.afterEntry (.node place (some (Kind.ofTag t)) entries))
  | tagEntry .., s => expected (.scalar s) .tag
  | value place, s => .ok (place.deliver (.scalar s))
  | skipped blocks around, _ => .ok (deliverSkipped blocks around)

def openArray : Slot g → Except Error (OpenArray g)
  | document => .ok .document
  | blockList form => .ok (.blockList form [])
  | node place => enter place.depth (.node place)
  | tagItem _ => expected .sequence .tag
  | tagEntry .. => expected .sequence .tag
  | value place => enter place.depth (.value [] place)
  | skipped blocks around => .ok (.skipped blocks around)

def openObject : Slot g → Except Error (OpenObject g)
  | document => .ok (.document none)
  | blockList _ => expected .map .sequence
  | node place => enter place.depth (.node place none [])
  | tagItem _ => expected .map .tag
  | tagEntry .. => expected .map .tag
  | value place => enter place.depth (.value [] place)
  | skipped blocks around => .ok (.skipped blocks around)

end Slot

namespace OpenArray

def strict : OpenArray g → Bool
  | skipped .. => false
  | _ => true

/-- The place of the next element. -/
def slot : OpenArray g → Slot g
  | document => .blockList .array
  | blockList form done => .node (.block form done)
  | node place => .tagItem place
  | nodeItems place kind items => .value (.nodeItem place kind items)
  | value items place => .value (.item items place)
  | skipped blocks around => .skipped blocks (.array :: around)

def close : OpenArray g → Except Error (Between g)
  | document => .ok (.finished ⟨[]⟩)
  | blockList form done => .ok (deliverBlocks form done.reverse)
  | node _ => .error (.mismatch (.missing tagKey))
  | nodeItems place kind items => do
    let n ← ofMismatch (ofItems kind items.reverse)
    return place.deliver n
  | value items place => .ok (place.deliver (.array items.reverse))
  | skipped blocks around => .ok (deliverSkipped blocks around)

end OpenArray

namespace OpenObject

def strict : OpenObject g → Bool
  | skipped .. => false
  | _ => true

/-- The place of the value under a key. -/
def slot : OpenObject g → Text → Except Error (Slot g)
  | document blocks, key =>
    if key = Document.blocksKey then
      match blocks with
      | some _ => .error (.mismatch (.duplicate Document.blocksKey))
      | none => .ok (.blockList .object)
    else .ok (.skipped blocks [])
  | node place kind entries, key =>
    if key = tagKey then
      match kind with
      | some _ => .error (.mismatch (.duplicate tagKey))
      | none => .ok (.tagEntry place entries)
    else .ok (.value (.nodeEntry place kind entries key))
  | value entries place, key => .ok (.value (.entry entries key place))
  | skipped blocks around, _ => .ok (.skipped blocks (.object :: around))

def close : OpenObject g → Except Error (Between g)
  | document blocks => .ok (.finished ⟨blocks.getD []⟩)
  | node _ none _ => .error (.mismatch (.missing tagKey))
  | node place (some kind) entries => do
    let n ← ofMismatch (ofEntries kind entries.reverse)
    return place.deliver n
  | value entries place => .ok (place.deliver (.object entries.reverse))
  | skipped blocks around => .ok (deliverSkipped blocks around)

end OpenObject
end ManPage.Load
