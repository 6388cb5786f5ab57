/-!
# Shortest decimals

A binary number stands for all reals that round to it. The shortest decimal of a binary number is
the one with the fewest digits among them; of several it is the nearest to the number, and of two
equally near ones the larger. It is found on the decimal grids from coarse to fine: the first grid
that has a point in the interval of the number gives the fewest digits, and if a grid has such a
point, then one of the two neighbours of the number on that grid is one.
-/

namespace ShaderTemplate.Decimal

/-- The positive number `mantissa * 2 ^ exponent` and the gap below it. -/
structure Binary where
  /-- The mantissa. -/
  mantissa : Nat
  /-- The exponent of two. -/
  exponent : Int
  /-- Whether the number below is only half as far away as the number above. -/
  closeBelow : Bool
  deriving Repr, DecidableEq

/-- The number `digits * 10 ^ exponent`. -/
structure Numeral where
  /-- The digits, as a number. -/
  digits : Nat
  /-- The exponent of ten. -/
  exponent : Int
  deriving Repr, DecidableEq, Inhabited

/-- A number and the interval of the reals that round to it, as multiples of one unit. -/
structure Interval where
  /-- The lower end. -/
  low : Nat
  /-- The number. -/
  value : Nat
  /-- The upper end. -/
  high : Nat
  /-- The unit is `1 / scale`. -/
  scale : Nat
  /-- Whether the ends belong to the interval. -/
  closed : Bool
  deriving Repr, DecidableEq

/-- The interval of a binary number. The ends lie halfway to the neighbours and round to a number
with an even mantissa. -/
def Binary.interval (b : Binary) : Interval :=
  -- A quarter of the last binary place is the unit, so that all ends are whole.
  let shift := b.exponent - 2
  let up := Nat.pow 2 shift.toNat
  { low := (4 * b.mantissa - if b.closeBelow then 1 else 2) * up
    value := 4 * b.mantissa * up
    high := (4 * b.mantissa + 2) * up
    scale := Nat.pow 2 (-shift).toNat
    closed := b.mantissa % 2 == 0 }

/-- Decide whether a multiple of the unit is in the interval. -/
def Interval.holds (i : Interval) (x : Nat) : Bool :=
  if i.closed then i.low ≤ x && x ≤ i.high else i.low < x && x < i.high

/-- Find the point of the grid of multiples of `10 ^ exponent` that lies in the interval nearest to
the number. -/
def Interval.onGrid? (i : Interval) (exponent : Int) : Option Numeral :=
  -- All numbers are taken in the unit that makes both the interval and the grid whole.
  let fine := Nat.pow 10 (-exponent).toNat
  let wide : Interval :=
    { i with low := i.low * fine, value := i.value * fine, high := i.high * fine }
  let step := Nat.pow 10 exponent.toNat * i.scale
  let below := wide.value / step
  let rest := wide.value % step
  let belowHolds := wide.holds (below * step)
  let aboveHolds := wide.holds ((below + 1) * step)
  -- Of two points in the interval the nearer is taken, and the upper one if both are as near.
  if aboveHolds && (!belowHolds || step ≤ 2 * rest) then some ⟨below + 1, exponent⟩
  else if belowHolds then some ⟨below, exponent⟩
  else none

/-- A grid so coarse that none of its points but zero is below twice the number. -/
def Interval.coarsest (i : Interval) : Int :=
  -- The logarithm of two to the base ten is a little less than 30103 / 100000.
  let bits := (i.high.log2 : Int) - i.scale.log2 + 1
  bits * 30103 / 100000 + 2

/-- The number of grids that are searched. -/
def gridCount : Nat := 400

/-- The decimal with the fewest digits that rounds to a binary number. -/
def Binary.shortest (b : Binary) : Numeral :=
  let i := b.interval
  ((List.range gridCount).findSome? fun (n : Nat) => i.onGrid? (i.coarsest - n)).getD default

end ShaderTemplate.Decimal
