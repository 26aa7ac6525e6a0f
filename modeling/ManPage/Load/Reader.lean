import ManPage.Json.Numeral
import ManPage.Json.Quotation
import ManPage.Load.Place

/-! # Reading

The reader takes a text piece by piece and answers the first error. Between two pieces it stands
between two tokens or inside one. A numeral has no mark at its end: the piece behind it is read from
the place that follows the number.
-/
namespace ManPage.Load
open Json
open Text (Piece)

inductive Reader : Goal → Type
  | between {g : Goal} (place : Between g) : Reader g
  | string {g : Goal} (slot : Slot g) (q : Quotation) : Reader g
  | key {g : Goal} (object : OpenObject g) (q : Quotation) : Reader g
  | numeral {g : Goal} (slot : Slot g) (phase : NumeralPhase) (spelling : List Char) : Reader g
  | literal {g : Goal} (slot : Slot g) (s : Scalar) (next : Char) (rest : List Char) : Reader g

variable {g : Goal}

def isSpace : Piece → Bool
  | .char c => c == ' ' || c == '\t' || c == '\n' || c == '\r'
  | .stray _ => false

def fault {α : Type} (f : Fault) : Except Error α := .error (.fault f)

namespace Slot

/-- The first piece of a value. -/
def start (slot : Slot g) : Piece → Except Error (Reader g)
  | .char '[' => return .between (.firstItem (← slot.openArray))
  | .char '{' => return .between (.firstKey (← slot.openObject))
  | .char '"' => .ok (.string slot {})
  | .char 't' => .ok (.literal slot (.bool true) 'r' ['u', 'e'])
  | .char 'f' => .ok (.literal slot (.bool false) 'a' ['l', 's', 'e'])
  | .char 'n' => .ok (.literal slot .null 'u' ['l', 'l'])
  | .char c =>
    match NumeralPhase.start? c with
    | some phase => .ok (.numeral slot phase [c])
    | none => fault .expectedValue
  | .stray _ => fault .expectedValue

/-- A numeral has been read; of one that is skipped the size does not matter. -/
def numeral (slot : Slot g) (spelling : List Char) : Except Error (Between g) :=
  if slot.strict then
    match Numeral.number? spelling with
    | some n => slot.scalar (.number n)
    | none => fault .numberTooLarge
  else slot.scalar .null

end Slot

namespace Between

/-- A piece that is no space. -/
def token (place : Between g) (p : Piece) : Except Error (Reader g) :=
  match place with
  | value slot => slot.start p
  | firstItem array =>
    if p = .char ']' then return .between (← array.close) else array.slot.start p
  | nextItem array =>
    if p = .char ']' ∧ array.strict then fault .trailingComma else array.slot.start p
  | afterItem array =>
    if p = .char ',' then .ok (.between (.nextItem array))
    else if p = .char ']' then return .between (← array.close)
    else fault .expectedItemEnd
  | firstKey object =>
    if p = .char '}' then return .between (← object.close)
    else if p = .char '"' then .ok (.key object {})
    else fault .expectedKey
  | nextKey object =>
    if p = .char '"' then .ok (.key object {})
    else if p = .char '}' ∧ object.strict then fault .trailingComma
    else fault .expectedKey
  | colon slot => if p = .char ':' then .ok (.between (.value slot)) else fault .expectedColon
  | afterEntry object =>
    if p = .char ',' then .ok (.between (.nextKey object))
    else if p = .char '}' then return .between (← object.close)
    else fault .expectedEntryEnd
  | afterOnly blocks =>
    if p = .char ']' then .ok (.between (.finished ⟨blocks⟩))
    else if p = .char ',' then .ok (.between .afterOnlyComma)
    else fault .trailingCharacters
  | afterOnlyComma =>
    if p = .char ']' then fault .trailingComma else fault .trailingCharacters
  | finished _ => fault .trailingCharacters

def step (place : Between g) (p : Piece) : Except Error (Reader g) :=
  if isSpace p then .ok (.between place) else place.token p

/-- The text ends here. -/
def finish : Between g → Except Error g.Result
  | value _ => .error (.unfinished .value)
  | firstItem _ => .error (.unfinished .list)
  | nextItem _ => .error (.unfinished .value)
  | afterItem _ => .error (.unfinished .list)
  | firstKey _ => .error (.unfinished .object)
  | nextKey object => .error (.unfinished (if object.strict then .value else .object))
  | colon _ => .error (.unfinished .object)
  | afterEntry _ => .error (.unfinished .object)
  | afterOnly _ => .error (.unfinished .list)
  | afterOnlyComma => fault .trailingCharacters
  | finished result => .ok result

end Between

namespace Reader

def step : Reader g → Piece → Except Error (Reader g)
  | between place, p => place.step p
  | string slot q, p =>
    match q.step slot.strict p with
    | .error f => fault f
    | .ok (.next q) => .ok (string slot q)
    | .ok (.closed t) => return between (← slot.scalar (.string t))
  | key object q, p =>
    match q.step object.strict p with
    | .error f => fault f
    | .ok (.next q) => .ok (key object q)
    | .ok (.closed t) => return between (.colon (← object.slot t))
  | numeral slot phase spelling, p =>
    match p, phase.stepPiece p with
    | .char c, .next phase => .ok (numeral slot phase (c :: spelling))
    | _, .ended => do
      let place ← slot.numeral spelling.reverse
      place.step p
    | _, _ => fault .invalidNumeral
  | literal slot s next rest, p =>
    if p = .char next then
      match rest with
      | [] => return between (← slot.scalar s)
      | next :: rest => .ok (literal slot s next rest)
    else fault .expectedLiteral

def finish : Reader g → Except Error g.Result
  | between place => place.finish
  | string .. => .error (.unfinished .string)
  | key .. => .error (.unfinished .string)
  | numeral slot phase spelling =>
    if phase.complete then do
      let place ← slot.numeral spelling.reverse
      place.finish
    else if slot.strict then .error (.unfinished .value)
    else fault .invalidNumeral
  | literal .. => .error (.unfinished .value)

def feed (r : Reader g) (ps : List Piece) : Except Error (Reader g) := ps.foldlM step r

def read (r : Reader g) (ps : List Piece) : Except Error g.Result := do
  let r ← r.feed ps
  r.finish

theorem feed_append (r : Reader g) (ps qs : List Piece) :
    r.feed (ps ++ qs) = r.feed ps >>= fun r => r.feed qs := by
  simp only [feed, List.foldlM_append]

end Reader
end ManPage.Load

/-! ## Documents and nodes -/

namespace ManPage

open Load in
def Document.ofPieces (ps : List Text.Piece) : Except Load.Error Document :=
  (Reader.between (.value .document)).read ps

def Document.ofText (t : Text) : Except Load.Error Document := Document.ofPieces t.toPieces

def Document.ofBytes (bytes : List UInt8) : Except Load.Error Document :=
  Document.ofPieces (Text.Utf8.pieces bytes)

open Load in
def Node.ofText (t : Text) : Except Load.Error Node :=
  (Reader.between (.value (.node .alone))).read t.toPieces

/-- What a path leads to. -/
inductive PathTarget
  | unreachable (e : Load.PathError)
  | directory
  | file (bytes : List UInt8)
deriving DecidableEq, Repr, Inhabited

def Document.ofTarget : PathTarget → Except Load.OpenError Document
  | .unreachable e => .error (.unreachable e)
  | .directory => .error .directory
  | .file bytes => (Document.ofBytes bytes).mapError .invalid

end ManPage
