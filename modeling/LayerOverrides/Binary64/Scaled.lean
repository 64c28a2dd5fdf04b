import LayerOverrides.Binary64.Basic
/-!
# Numbers given by digits and a power of ten

A number in decimal notation is read in two steps, each of which rounds: as many leading digits as
fit into 64 bits become a number, which one multiplication or division by a power of ten then
scales. Digits past those of the whole part count as zeros; those of the fraction count as absent.
-/

namespace LayerOverrides.Binary64

/-- The greatest power of ten that is finite, and all powers below it, are kept to scale by. -/
def greatestPower : Nat := 308

def powerOfTen (k : Nat) : Nat := nearest (Nat.pow 10 k) 1

/-- Division by `10 ^ k`, in steps no longer than `greatestPower`. -/
def scaledDown : (steps : Nat) → (magnitude k : Nat) → Nat
  | 0, magnitude, _ => magnitude
  | steps + 1, magnitude, k =>
    if k ≤ greatestPower then dividedBy magnitude (powerOfTen k)
    else if magnitude = 0 then 0
    else scaledDown steps (dividedBy magnitude (powerOfTen greatestPower)) (k - greatestPower)

/-- The magnitude of `digits * 10 ^ exponent`, not always finite. -/
def scaledMagnitude (digits : Nat) : (exponent : Int) → Nat
  | .ofNat k =>
    if k ≤ greatestPower then times (nearest digits 1) (powerOfTen k)
    else if digits = 0 then 0
    else infinite
  | .negSucc k => scaledDown (k / greatestPower + 1) (nearest digits 1) (k + 1)

/-- The number `digits * 10 ^ exponent`; there is none if it is too large. -/
def ofScaled? (negative : Bool) (digits : Nat) (exponent : Int) : Option Binary64 :=
  if h : scaledMagnitude digits exponent < infinite then
    some ⟨negative, scaledMagnitude digits exponent, h⟩
  else none

/-- Significant digits read so far. -/
structure Digits where
  value : Nat
  exponent : Int

/-- One more digit of the whole part. Once a digit does not fit, the later ones do not either. -/
def Digits.whole (s : Digits) (digit : Nat) : Digits :=
  if s.exponent = 0 ∧ s.value * 10 + digit < 0x10000000000000000 then ⟨s.value * 10 + digit, 0⟩
  else ⟨s.value, s.exponent + 1⟩

/-- The digits of the fraction up to the first that does not fit. -/
def Digits.fraction (s : Digits) : List Nat → Digits
  | [] => s
  | digit :: rest =>
    if s.value * 10 + digit < 0x10000000000000000 then
      Digits.fraction ⟨s.value * 10 + digit, s.exponent - 1⟩ rest
    else s

def Digits.ofParts (whole fraction : List Nat) : Digits :=
  (whole.foldl Digits.whole ⟨0, 0⟩).fraction fraction

end LayerOverrides.Binary64
