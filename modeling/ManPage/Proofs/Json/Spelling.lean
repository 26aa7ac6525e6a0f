import ManPage.Json.Value
import ManPage.Json.Numeral
import ManPage.Json.Quotation

/-! # Spellings of JSON values

The grammar of RFC 8259 as data: a spelling is one way to write a value, with its numerals, its
string escapes and all of its space. A spelling has a text, and it has a value if its numbers are
in range, its surrogate escapes are paired, and no more brackets are nested than there is room for.
-/
namespace ManPage.Json
open Text

def isBlank (c : Char) : Bool := c == ' ' || c == '\t' || c == '\n' || c == '\r'

/-- The insignificant space between two tokens. -/
abbrev Space := {t : Text // t.all isBlank}

def noSpace : Space := ⟨[], rfl⟩

@[simp] theorem val_noSpace : noSpace.val = [] := rfl

def IsDigits (t : Text) : Prop := t ≠ [] ∧ t.all Char.isDigit

/-- No digits stand behind a leading zero. -/
def IsWhole (t : Text) : Prop := t = ['0'] ∨ IsDigits t ∧ t.head? ≠ some '0'

def IsFraction (t : Text) : Prop := ∃ ds, IsDigits ds ∧ t = '.' :: ds

def IsExponent (t : Text) : Prop :=
  ∃ mark sign ds, (mark = 'e' ∨ mark = 'E') ∧ (sign = [] ∨ sign = ['+'] ∨ sign = ['-']) ∧
    IsDigits ds ∧ t = mark :: (sign ++ ds)

def IsNumeral (t : Text) : Prop :=
  ∃ minus whole fraction exponent, (minus = [] ∨ minus = ['-']) ∧ IsWhole whole ∧
    (fraction = [] ∨ IsFraction fraction) ∧ (exponent = [] ∨ IsExponent exponent) ∧
    t = minus ++ (whole ++ (fraction ++ exponent))

/-- A character of a string literal: as it is, behind a backslash, or by its code unit. -/
inductive StringUnit
  | plain (c : Char) (h : c ≠ '"' ∧ c ≠ '\\' ∧ 0x20 ≤ c.toNat)
  | short (letter c : Char) (h : Quotation.unescape? letter = some c)
  | code (digits : Text) (n : Nat) (h : Quotation.hex? digits.toPieces = some n)

namespace StringUnit

def text : StringUnit → Text
  | plain c _ => [c]
  | short letter _ _ => ['\\', letter]
  | code digits _ _ => '\\' :: 'u' :: digits

def texts (us : List StringUnit) : Text := us.flatMap text

@[simp] theorem texts_nil : texts [] = [] := rfl

@[simp] theorem texts_cons (u : StringUnit) (us : List StringUnit) :
    texts (u :: us) = u.text ++ texts us := rfl

/-- The text of a string literal, with its quotes. -/
def literal (us : List StringUnit) : Text := '"' :: (texts us ++ ['"'])

/-- The character of a pair of surrogates. -/
def paired (lead trail : Nat) : Char :=
  Char.ofNat (0x10000 + (lead - 0xD800) * 0x400 + (trail - 0xDC00))

/-- What the units stand for; of the surrogates each lead must have its trail. -/
def decode : List StringUnit → Except Fault Text
  | [] => .ok []
  | plain c _ :: us => (c :: ·) <$> decode us
  | short _ c _ :: us => (c :: ·) <$> decode us
  | code _ n _ :: us =>
    if Quotation.isTrail n then .error .loneSurrogate
    else if Quotation.isLead n then
      match us with
      | code _ m _ :: us =>
        if Quotation.isTrail m then (paired n m :: ·) <$> decode us else .error .loneSurrogate
      | _ => .error .unpairedSurrogate
    else (Char.ofNat n :: ·) <$> decode us

end StringUnit

inductive ScalarSpelling
  | null
  | bool (b : Bool)
  | numeral (t : Text) (h : IsNumeral t)
  | string (us : List StringUnit)

namespace ScalarSpelling

def text : ScalarSpelling → Text
  | null => "null".toList
  | bool b => (if b then "true" else "false").toList
  | numeral t _ => t
  | string us => StringUnit.literal us

def scalar : ScalarSpelling → Except Fault Scalar
  | null => .ok .null
  | bool b => .ok (.bool b)
  | numeral t _ =>
    match Numeral.number? t with
    | some n => .ok (.number n)
    | none => .error .numberTooLarge
  | string us => .string <$> StringUnit.decode us

end ScalarSpelling

structure Padded (α : Type) where
  before : Space
  it : α
  behind : Space

structure Member (α : Type) where
  key : Padded (List StringUnit)
  value : Padded α

/-- `inside` is the space behind the opening bracket, all of it if nothing is in the brackets. -/
inductive Spelling
  | scalar (s : ScalarSpelling)
  | array (inside : Space) (items : List (Padded Spelling))
  | object (inside : Space) (entries : List (Member Spelling))

def Padded.text {α : Type} (f : α → Text) (p : Padded α) : Text :=
  p.before.val ++ (f p.it ++ p.behind.val)

def Member.text {α : Type} (f : α → Text) (m : Member α) : Text :=
  m.key.text StringUnit.literal ++ ':' :: m.value.text f

/-- The texts with a comma before each of them. -/
def behindCommas (ts : List Text) : Text := ts.flatMap (',' :: ·)

@[simp] theorem behindCommas_nil : behindCommas [] = [] := rfl

@[simp] theorem behindCommas_cons (t : Text) (ts : List Text) :
    behindCommas (t :: ts) = ',' :: (t ++ behindCommas ts) := rfl

/-- The texts with commas between them. -/
def withCommas : List Text → Text
  | [] => []
  | t :: ts => t ++ behindCommas ts

namespace Spelling

mutual

def text : Spelling → Text
  | scalar s => s.text
  | array inside items => '[' :: (inside.val ++ (withCommas (itemTexts items) ++ [']']))
  | object inside entries => '{' :: (inside.val ++ (withCommas (entryTexts entries) ++ ['}']))

def itemTexts : List (Padded Spelling) → List Text
  | [] => []
  | ⟨before, s, behind⟩ :: r => (before.val ++ (text s ++ behind.val)) :: itemTexts r

def entryTexts : List (Member Spelling) → List Text
  | [] => []
  | ⟨key, ⟨before, s, behind⟩⟩ :: r =>
    (key.text StringUnit.literal ++ ':' :: (before.val ++ (text s ++ behind.val))) :: entryTexts r

end

mutual

/-- The value of a spelling where `room` more brackets may be opened. -/
def value (room : Nat) : Spelling → Except Fault Value
  | scalar s => .scalar <$> s.scalar
  | array _ items =>
    match room with
    | 0 => .error .tooDeep
    | room + 1 => .array <$> values room items
  | object _ entries =>
    match room with
    | 0 => .error .tooDeep
    | room + 1 => .object <$> entryValues room entries

def values (room : Nat) : List (Padded Spelling) → Except Fault (List Value)
  | [] => .ok []
  | ⟨_, s, _⟩ :: r => do
    let v ← value room s
    let vs ← values room r
    return v :: vs

def entryValues (room : Nat) : List (Member Spelling) → Except Fault (List (Text × Value))
  | [] => .ok []
  | ⟨key, ⟨_, s, _⟩⟩ :: r => do
    let key ← StringUnit.decode key.it
    let v ← value room s
    let es ← entryValues room r
    return (key, v) :: es

end

section Induction
set_option linter.unusedSectionVars false
variable {P : Spelling → Prop} (scalar : ∀ s, P (.scalar s))
  (array : ∀ inside items, (∀ p ∈ items, P p.it) → P (.array inside items))
  (object : ∀ inside entries, (∀ m ∈ entries, P m.value.it) → P (.object inside entries))
include scalar array object

mutual

/-- What holds of a spelling if it holds of all spellings in its brackets holds of every spelling. -/
theorem induct : ∀ s, P s
  | .scalar s => scalar s
  | .array inside items => array inside items (forall_items items)
  | .object inside entries => object inside entries (forall_entries entries)

theorem forall_items : ∀ items : List (Padded Spelling), ∀ p ∈ items, P p.it
  | [] => fun _ h => nomatch h
  | ⟨before, s, behind⟩ :: r => by
    have hs := induct s
    have hr := forall_items r
    intro p hp
    rcases List.mem_cons.mp hp with rfl | hp
    · exact hs
    · exact hr p hp

theorem forall_entries : ∀ entries : List (Member Spelling), ∀ m ∈ entries, P m.value.it
  | [] => fun _ h => nomatch h
  | ⟨key, ⟨before, s, behind⟩⟩ :: r => by
    have hs := induct s
    have hr := forall_entries r
    intro m hm
    rcases List.mem_cons.mp hm with rfl | hm
    · exact hs
    · exact hr m hm

end

end Induction

/-- The key and the value of an entry. -/
def member (room : Nat) (m : Member Spelling) : Except Fault (Text × Value) := do
  let key ← StringUnit.decode m.key.it
  let v ← value room m.value.it
  return (key, v)

theorem values_eq (room : Nat) (items : List (Padded Spelling)) :
    values room items = items.mapM fun p => value room p.it := by
  induction items with
  | nil => rfl
  | cons p r ih => rw [values, ih, List.mapM_cons]

theorem entryValues_eq (room : Nat) (entries : List (Member Spelling)) :
    entryValues room entries = entries.mapM (member room) := by
  induction entries with
  | nil => rfl
  | cons m r ih => simp [entryValues, ih, member, List.mapM_cons]

theorem value_array_succ (room : Nat) (inside : Space) (items : List (Padded Spelling)) :
    (array inside items).value (room + 1) = .array <$> items.mapM fun p => p.it.value room := by
  rw [value, values_eq]

theorem value_object_succ (room : Nat) (inside : Space) (entries : List (Member Spelling)) :
    (object inside entries).value (room + 1) = .object <$> entries.mapM (member room) := by
  rw [value, entryValues_eq]

theorem itemTexts_eq (items : List (Padded Spelling)) :
    itemTexts items = items.map (Padded.text text) := by
  induction items with
  | nil => rfl
  | cons p r ih => rw [itemTexts, ih]; rfl

theorem entryTexts_eq (entries : List (Member Spelling)) :
    entryTexts entries = entries.map (Member.text text) := by
  induction entries with
  | nil => rfl
  | cons m r ih => rw [entryTexts, ih]; rfl

theorem text_array (inside : Space) (items : List (Padded Spelling)) :
    (array inside items).text =
      '[' :: (inside.val ++ (withCommas (items.map (Padded.text text)) ++ [']'])) := by
  rw [text, itemTexts_eq]

theorem text_object (inside : Space) (entries : List (Member Spelling)) :
    (object inside entries).text =
      '{' :: (inside.val ++ (withCommas (entries.map (Member.text text)) ++ ['}'])) := by
  rw [text, entryTexts_eq]

end Spelling
end ManPage.Json
