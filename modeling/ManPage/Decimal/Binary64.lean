/-! # Magnitudes of binary64 numbers

A finite magnitude is a significand below `2^53` times a power of two, not below `2^-1074`. A
quotient of natural numbers is rounded to the nearest magnitude, an exact tie to the even one.
-/
namespace ManPage.Decimal

structure Magnitude where
  significand : Nat
  exponent : Int
deriving DecidableEq, Repr, Inhabited

/-- `num / den`, rounded to the nearest natural number, a tie to the even one. -/
def roundDiv (num den : Nat) : Nat :=
  let q := num / den
  let r := num % den
  if den < 2 * r ∨ (den = 2 * r ∧ q % 2 = 1) then q + 1 else q

namespace Magnitude

def zero : Magnitude := ⟨0, -1074⟩

/-- The quotient of `num` and `den · 2^e`, as a quotient of natural numbers. -/
def scaled (num den : Nat) (e : Int) : Nat × Nat := (num <<< (-e).toNat, den <<< e.toNat)

/-- The least exponent, from `-1074` on, at which `num / den` has at most 53 binary digits. -/
def exponentOf (num den : Nat) : Int :=
  let e : Int := (num.log2 : Int) - den.log2 - 53
  let (n, d) := scaled num den e
  max (if n < d <<< 53 then e else e + 1) (-1074)

/-- The nearest magnitude to `num / den`; none if it is too large. -/
def round? (num den : Nat) : Option Magnitude :=
  if num = 0 then some zero
  else
    let e := exponentOf num den
    let (n, d) := scaled num den e
    let s := roundDiv n d
    let m : Magnitude := if s = 1 <<< 53 then ⟨1 <<< 52, e + 1⟩ else ⟨s, e⟩
    if m.exponent ≤ 971 then some m else none

def num (m : Magnitude) : Nat := m.significand <<< m.exponent.toNat

def den (m : Magnitude) : Nat := 1 <<< (-m.exponent).toNat

def mul? (a b : Magnitude) : Option Magnitude := round? (a.num * b.num) (a.den * b.den)

def div? (a b : Magnitude) : Option Magnitude := round? (a.num * b.den) (a.den * b.num)

/-- The magnitude nearest to `10^k`. -/
def powerOfTen? (k : Nat) : Option Magnitude := round? (Nat.pow 10 k) 1

/-- The greatest power of ten that is a magnitude. -/
def maxPower : Nat := 308

/-- `digits · 10^power` in steps that are rounded one by one: first the digits, then the product
with one power of ten or the quotient by one or two of them. -/
def ofDecimal? (digits : Nat) (power : Int) : Option Magnitude := do
  let m ← round? digits 1
  if digits = 0 then return m
  else if maxPower < power then none
  else if 0 ≤ power then m.mul? (← powerOfTen? power.toNat)
  else
    let k := (-power).toNat
    if k ≤ maxPower then m.div? (← powerOfTen? k)
    else (← m.div? (← powerOfTen? maxPower)).div? (← powerOfTen? (min (k - maxPower) maxPower))

end Magnitude
end ManPage.Decimal
