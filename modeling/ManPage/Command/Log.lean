import ManPage.Render.Conversion
import ManPage.Text.Basic

/-! # Log lines

The command logs the events of the conversion, the finished page, and the file that it made. A
setting lists which lines are shown: each directive names a least level, for all lines or for those
of a program. Without a setting, or with one that cannot be read, the least level is `info`, or
`error` for a quiet run.
-/
namespace ManPage.Command

inductive LogLine
  | event (e : Event)
  | rendered
  | wrote (path : Text)
deriving DecidableEq, Repr, Inhabited

namespace LogLine

def level : LogLine → Level
  | event e => e.level
  | rendered => .debug
  | wrote _ => .info

def text : LogLine → Text
  | event e => e.message
  | rendered => "rendered man page".toList
  | wrote path => "wrote man page ".toList ++ path

end LogLine

/-- The program that all lines come from. -/
def programName : Text := "roffdown".toList

/-- Lines of the programs whose name starts with `target` are shown from the level `least` on; none
of them if there is no level. -/
structure Directive where
  target : Text
  least : Option Level
deriving DecidableEq, Repr, Inhabited

namespace Directive

/-- The number that a text spells, with or without a plus sign. -/
def natural? (t : Text) : Option Nat :=
  let digits := if t.head? = some '+' then t.drop 1 else t
  if digits ≠ [] ∧ digits.all Char.isDigit then
    some (digits.foldl (fun n c => 10 * n + (c.toNat - '0'.toNat)) 0)
  else none

/-- A level by its number or by its name in letters of any case; `off` is no level at all. -/
def level? (t : Text) : Option (Option Level) :=
  match natural? t with
  | some 0 => some none
  | some 1 => some (some .error)
  | some 2 => some (some .warn)
  | some 3 => some (some .info)
  | some 4 => some (some .debug)
  | some 5 => some (some .trace)
  | _ =>
    match String.ofList (t.map Char.toLower) with
    | "off" => some none
    | "error" => some (some .error)
    | "warn" => some (some .warn)
    | "info" => some (some .info)
    | "debug" => some (some .debug)
    | "trace" => some (some .trace)
    | _ => none

/-- The first character of a directive. -/
def isInitial (c : Char) : Bool :=
  c == '-' || c == ':' || c == '_' || c.isAlphanum || decide (0x80 ≤ c.toNat)

/-- A level, a name, or a name and a level. A name without a level shows every line. -/
def parse? (t : Text) : Option Directive :=
  match Text.trim t with
  | [] => none
  | c :: r =>
    if ¬ isInitial c then none
    else
      let name := (c :: r).takeWhile (· ≠ '=')
      if name.length = (c :: r).length then
        match level? t with
        | some least => some ⟨[], least⟩
        | none => some ⟨t, some .trace⟩
      else
        match t.drop (name.length + 1) with
        | [] => some ⟨t.take name.length, some .trace⟩
        | value => (level? value).map (⟨t.take name.length, ·⟩)

end Directive

abbrev Verbosity := List Directive

namespace Verbosity

/-- The parts between commas. -/
def splitSetting : Text → List Text
  | [] => [[]]
  | ',' :: r => [] :: splitSetting r
  | c :: r =>
    match splitSetting r with
    | [] => [[c]]
    | part :: parts => (c :: part) :: parts

/-- A setting without directives shows errors. -/
def parse? (setting : Text) : Option Verbosity :=
  match (splitSetting setting).filter (· ≠ []) with
  | [] => some [⟨[], some .error⟩]
  | parts => parts.mapM Directive.parse?

def unset (quiet : Bool) : Verbosity := [⟨[], some (if quiet then .error else .info)⟩]

def ofSetting (quiet : Bool) (setting : Option Text) : Verbosity :=
  (setting.bind parse?).getD (unset quiet)

/-- The directive with the longest name that applies, the last one of several. -/
def applying (v : Verbosity) : Option Directive :=
  v.foldl (fun best d =>
    if d.target.isPrefixOf programName ∧
        (best.map fun b => b.target.length).getD 0 ≤ d.target.length then some d
    else best) none

def shows (v : Verbosity) (line : LogLine) : Bool :=
  match v.applying.bind Directive.least with
  | some least => decide (least.rank ≤ line.level.rank)
  | none => false

end Verbosity
end ManPage.Command
