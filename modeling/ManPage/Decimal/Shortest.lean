import ManPage.Decimal.Binary64
import ManPage.Text.Basic

/-! # Shortest decimals

The shortest decimal that is read back as a given magnitude, and how it is laid out. A decimal is
read back if it lies between the midpoints to the two neighbours; the midpoints belong to an even
significand.
-/
namespace ManPage.Decimal

namespace Magnitude

/-- The midpoint below, the magnitude itself and the midpoint above, in units of a quarter of the
last binary place. Below a power of two the lower neighbour is half as far away. -/
def bounds (m : Magnitude) : Nat × Nat × Nat :=
  let v := 4 * m.significand
  let narrow := m.significand = 1 <<< 52 ∧ -1074 < m.exponent
  (if narrow then v - 1 else v - 2, v, v + 2)

/-- The decimal with the fewest digits among those with last place `10^k` that is read back. -/
def onGrid? (m : Magnitude) (k : Int) : Option Nat :=
  let (low, v, high) := m.bounds
  let s := m.exponent - 2
  let a := Nat.pow 10 (-k).toNat <<< s.toNat
  let b := Nat.pow 10 k.toNat <<< (-s).toNat
  let even := m.significand % 2 = 0
  let readBack (q : Nat) : Bool :=
    if even then decide (low * a ≤ q * b) && decide (q * b ≤ high * a)
    else decide (low * a < q * b) && decide (q * b < high * a)
  let q := v * a / b
  let best := roundDiv (v * a) b
  if 0 < best ∧ readBack best then some best
  else if 0 < q ∧ readBack q then some q
  else if readBack (q + 1) then some (q + 1)
  else none

/-- Digits and the power of ten of the last one, from the coarsest grid with a hit. -/
def shortest (m : Magnitude) : Nat × Int :=
  ((List.range 660).findSome? fun (i : Nat) =>
    let k : Int := 309 - i
    (m.onGrid? k).map (·, k)).getD (0, 0)

end Magnitude

/-- How a decimal is written: positionally when the exponent of its leading digit is from
`plainFrom` to `plainTo`, else with that exponent and its sign. -/
structure Style where
  plainFrom : Int
  plainTo : Int

/-- Numbers in messages. -/
def messageStyle : Style := ⟨-5, 15⟩

namespace Style

def scientific (digits : Text) (exponent : Int) : Text :=
  let fraction := match digits.drop 1 with
    | [] => []
    | ds => '.' :: ds
  digits.take 1 ++ fraction ++ ['e', if exponent < 0 then '-' else '+'] ++
    Nat.toDigits 10 exponent.natAbs

/-- The decimal `digits · 10^power`. -/
def layout (style : Style) (digits : Text) (power : Int) : Text :=
  let point : Int := digits.length + power
  if point - 1 < style.plainFrom ∨ style.plainTo < point - 1 then
    scientific digits (point - 1)
  else if 0 ≤ power then digits ++ List.replicate power.toNat '0' ++ ".0".toList
  else if 0 < point then digits.take point.toNat ++ '.' :: digits.drop point.toNat
  else "0.".toList ++ List.replicate (-point).toNat '0' ++ digits

def write (style : Style) (negative : Bool) (m : Magnitude) : Text :=
  let body :=
    if m.significand = 0 then "0.0".toList
    else style.layout (Nat.toDigits 10 m.shortest.1) m.shortest.2
  if negative then '-' :: body else body

end Style
end ManPage.Decimal
