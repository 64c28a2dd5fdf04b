/-!
# Finite binary floating-point numbers of 64 bits

A finite number is a sign and a magnitude, the magnitude being the code of the IEEE 754 format
without the sign bit: its order is the order of the absolute values, and every code below
`2047 * 2 ^ 52` is finite. All arithmetic is on natural numbers, and each operation rounds the
exact result once, to nearest with ties to even.
-/

namespace LayerOverrides

/-- The weight of the leading bit of a significand, `2 ^ 52`, which the format leaves out. -/
def Binary64.hiddenBit : Nat := 0x10000000000000

/-- The least magnitude that is not finite. -/
def Binary64.infinite : Nat := 2047 * hiddenBit

structure Binary64 where
  negative : Bool
  magnitude : Nat
  finite : magnitude < Binary64.infinite
  deriving DecidableEq

namespace Binary64

def zero (negative : Bool) : Binary64 := ⟨negative, 0, by decide⟩

/-- The integer whose product with `2 ^ scale / 2 ^ 1074` is the absolute value. -/
def significand (magnitude : Nat) : Nat :=
  if magnitude < hiddenBit then magnitude else hiddenBit + magnitude % hiddenBit

def scale (magnitude : Nat) : Nat := magnitude / hiddenBit - 1

/-- The quotient rounded to nearest, ties to even. -/
def roundedQuotient (n d : Nat) : Nat :=
  let q := n / d
  let r := n % d
  if 2 * r < d then q
  else if d < 2 * r then q + 1
  else if q % 2 = 0 then q else q + 1

/-- The magnitude nearest to `n / d`. The significand carries into the exponent by itself, so the
sum is right also where rounding reaches the next power of two. -/
def nearest (n d : Nat) : Nat :=
  let scaled := n * Nat.pow 2 1074
  let scale := (scaled / d).log2 - 52
  scale * hiddenBit + roundedQuotient scaled (d * Nat.pow 2 scale)

def times (a b : Nat) : Nat :=
  nearest (significand a * significand b * Nat.pow 2 (scale a + scale b)) (Nat.pow 2 2148)

def dividedBy (a b : Nat) : Nat :=
  nearest (significand a * Nat.pow 2 (scale a)) (significand b * Nat.pow 2 (scale b))

/-- The value without its fraction. -/
def truncated (x : Binary64) : Int :=
  let whole : Nat := significand x.magnitude * Nat.pow 2 (scale x.magnitude) / Nat.pow 2 1074
  if x.negative then -(whole : Int) else (whole : Int)

/-- Equality of values: the two zeros are equal. -/
def sameValue (x y : Binary64) : Bool :=
  x.magnitude == y.magnitude && (x.negative == y.negative || x.magnitude == 0)

end Binary64

end LayerOverrides
