import ManPage.Text.Basic

/-! # Typographic symbols and curly quotes

Each symbol has a name, by which a tree refers to it, and a glyph, which stands for it on a page.
-/
namespace ManPage

inductive Typographic
  | enDash | emDash | ellipsis | leftGuillemet | rightGuillemet
  | leftGuillemetSpace | rightGuillemetSpace
deriving DecidableEq, Repr, Inhabited

namespace Typographic

def all : List Typographic :=
  [enDash, emDash, ellipsis, leftGuillemet, rightGuillemet, leftGuillemetSpace, rightGuillemetSpace]

def name : Typographic → Text
  | enDash => "ndash".toList
  | emDash => "mdash".toList
  | ellipsis => "hellip".toList
  | leftGuillemet => "laquo".toList
  | rightGuillemet => "raquo".toList
  | leftGuillemetSpace => "laquo_space".toList
  | rightGuillemetSpace => "raquo_space".toList

def ofName? (name : Text) : Option Typographic := all.find? fun s => s.name == name

def glyph : Typographic → Text
  | enDash => "--".toList
  | emDash => "—".toList
  | ellipsis => "…".toList
  | leftGuillemet | leftGuillemetSpace => "«".toList
  | rightGuillemet | rightGuillemetSpace => "»".toList

theorem ofName?_name (s : Typographic) : ofName? s.name = some s := by
  cases s <;> rfl

/-- A glyph needs no escape. -/
theorem not_mem_glyph (s : Typographic) : '\\' ∉ s.glyph := by
  cases s <;> decide

end Typographic

inductive Quote
  | leftSingle | rightSingle | leftDouble | rightDouble
deriving DecidableEq, Repr, Inhabited

namespace Quote

def all : List Quote := [leftSingle, rightSingle, leftDouble, rightDouble]

def name : Quote → Text
  | leftSingle => "lsquo".toList
  | rightSingle => "rsquo".toList
  | leftDouble => "ldquo".toList
  | rightDouble => "rdquo".toList

def ofName? (name : Text) : Option Quote := all.find? fun q => q.name == name

def glyph : Quote → Text
  | leftSingle => "‘".toList
  | rightSingle => "’".toList
  | leftDouble => "“".toList
  | rightDouble => "”".toList

theorem ofName?_name (q : Quote) : ofName? q.name = some q := by
  cases q <;> rfl

theorem not_mem_glyph (q : Quote) : '\\' ∉ q.glyph := by
  cases q <;> decide

end Quote
end ManPage
