import ManPage.Render.Convert
import ManPage.Text.Utf8

/-! # Layouts and sinks

A layout leaves the banner of a page out or adds a line feed to its end. A page is written to a sink
as UTF-8. A sink may take only so many bytes; a page that is longer fills it and fails.
-/
namespace ManPage

structure Layout where
  banner : Bool := true
  trailingNewline : Bool := false
deriving DecidableEq, Repr, Inhabited

namespace Layout

/-- A line feed is added only to a page that does not end with one. -/
def close (l : Layout) (page : Text) : Text :=
  if l.trailingNewline && page.getLast? != some '\n' then page ++ ['\n'] else page

def typeset (l : Layout) (d : Document) : Walk Text :=
  (l.close <$> (if l.banner then d.page else d.body)).run 0

def render (l : Layout) (d : Document) : Text := (l.typeset d).result

end Layout

/-- A sink was full after this many bytes. -/
structure SinkFull where
  written : Nat
deriving DecidableEq, Repr, Inhabited

def SinkFull.message : Text := "failed to write whole buffer".toList

/-- Writes to a sink with the capacity given, or to one without a limit, and answers what was
written. -/
def Text.writeTo (page : Text) (capacity : Option Nat) : Except SinkFull Text :=
  match capacity with
  | some n => if n < (Text.encode page).length then .error ⟨n⟩ else .ok page
  | none => .ok page

def Layout.exportTo (l : Layout) (d : Document) (capacity : Option Nat) : Except SinkFull Text :=
  (l.render d).writeTo capacity

end ManPage
