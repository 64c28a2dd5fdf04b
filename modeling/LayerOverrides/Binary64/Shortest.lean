import LayerOverrides.Binary64.Basic
/-!
# The shortest decimal that stands for a number

Every number is the nearest one to an interval of reals around it, whose ends belong to it if the
significand is even. The shortest decimal is a point of the coarsest decimal grid that has one in
this interval; of two, the one nearer to the number, and of two equally near the even one.
-/

namespace LayerOverrides.Binary64

/-- The exponents of the grids to try, the coarsest first. -/
def coarsestGrid : Int := 308

def gridCount : Nat := 633

/-- The number and its interval, in units of `2 ^ -1076`. -/
structure Interval where
  lower : Nat
  center : Nat
  upper : Nat
  closed : Bool

/-- The gap below a power of two is half the gap above it. -/
def interval (magnitude : Nat) : Interval :=
  let m := significand magnitude
  let unit := Nat.pow 2 (scale magnitude)
  let below := if m = hiddenBit ∧ 0 < scale magnitude then 1 else 2
  ⟨(4 * m - below) * unit, 4 * m * unit, (4 * m + 2) * unit, m % 2 == 0⟩

def Interval.holds (i : Interval) (numerator denominator : Nat) : Bool :=
  if i.closed then i.lower * denominator ≤ numerator && numerator ≤ i.upper * denominator
  else i.lower * denominator < numerator && numerator < i.upper * denominator

/-- The point of the grid of `10 ^ exponent` in the interval that is nearest to its center. -/
def Interval.gridPoint? (i : Interval) (exponent : Int) : Option Nat :=
  let up := Nat.pow 10 exponent.toNat * Nat.pow 2 1076
  let down := Nat.pow 10 (-exponent).toNat
  let c := i.center * down / up
  let gap := i.center * down % up
  match i.holds (c * up) down, i.holds ((c + 1) * up) down with
  | true, true =>
    if 2 * gap < up then some c
    else if up < 2 * gap then some (c + 1)
    else if c % 2 = 0 then some c else some (c + 1)
  | true, false => some c
  | false, true => some (c + 1)
  | false, false => none

def Interval.search (i : Interval) : (grids : Nat) → (exponent : Int) → Nat × Int
  | 0, exponent => (0, exponent)
  | grids + 1, exponent =>
    match i.gridPoint? exponent with
    | some c => (c, exponent)
    | none => i.search grids (exponent - 1)

/-- Digits and exponent of the shortest decimal of a magnitude other than zero. -/
def shortest (magnitude : Nat) : Nat × Int :=
  (interval magnitude).search gridCount coarsestGrid

end LayerOverrides.Binary64
