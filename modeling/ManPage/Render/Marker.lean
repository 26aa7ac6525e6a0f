import ManPage.Text.Basic

/-! # Item markers

The macro that opens an item and the macro that goes on with it. An ordered list counts in a number
register of its own.
-/
namespace ManPage

inductive Marker
  | bullet
  | step (list : Nat)
deriving DecidableEq, Repr, Inhabited

namespace Marker

/-- The register of the ordered list with the number given. -/
def register (list : Nat) : Text := "step".toList ++ Text.decimal list

def first : Marker → Text
  | bullet => ".IP \\(bu 2".toList
  | step list => ".IP \\n+[".toList ++ register list ++ "]".toList

def further : Marker → Text
  | bullet => ".IP \"\" 2".toList
  | step list => ".IP \\n[".toList ++ register list ++ "]".toList

/-- The request that sets the register of a list to zero, to be stepped by one. -/
def declaration (list : Nat) : Text := ".nr ".toList ++ register list ++ " 0 1".toList

section
variable {c : Char} (hdigit : c.isDigit = false) (hstep : c ∉ "step".toList) (list : Nat)
include hdigit hstep

theorem not_mem_register : c ∉ register list := by
  intro hmem
  rcases List.mem_append.mp hmem with h | h
  · exact hstep h
  · have hisDigit := Nat.isDigit_of_mem_toDigits (by decide) (by decide) h
    rw [hdigit] at hisDigit
    contradiction

theorem not_mem_around {before behind : Text} (hbefore : c ∉ before) (hbehind : c ∉ behind) :
    c ∉ before ++ register list ++ behind := by
  have hregister := not_mem_register hdigit hstep list
  rw [List.mem_append, List.mem_append]
  rintro ((h | h) | h) <;> contradiction

end

end Marker
end ManPage
