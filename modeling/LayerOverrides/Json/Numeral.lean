import LayerOverrides.Json.Basic
import LayerOverrides.Binary64.Scaled
import LayerOverrides.Binary64.Shortest
import LayerOverrides.Text.Decimal
/-!
# Numbers in JSON text

A numeral without fraction and exponent is an integer if it fits one of the 64-bit ranges, and
every other numeral is a double; so is `-0`. Doubles are written with the fewest digits, always
with a point or an exponent: in positions from `1e-5` up to below `1e16`, and otherwise with one
digit in front of the point and a signed exponent.
-/

namespace LayerOverrides.Json

/-- The parts of a numeral. -/
structure Numeral where
  negative : Bool
  whole : List Char
  fraction : Option (List Char)
  exponent : Option Int

/-- A whole part has no leading zero. -/
def Numeral.isWhole : List Char → Bool
  | [] => false
  | ['0'] => true
  | '0' :: _ => false
  | _ => true

/-- The exponent after its letter; the sign is optional. -/
def Numeral.readExponent : List Char → Option (Option Int)
  | [] => some none
  | c :: s => if c = 'e' ∨ c = 'E' then (Text.readInt? s).map some else none

/-- Fraction and exponent, each of which may be absent. -/
def Numeral.readTail : List Char → Option (Option (List Char) × Option Int)
  | '.' :: s =>
    if s.takeWhile Char.isDigit = [] then none
    else (Numeral.readExponent (s.dropWhile Char.isDigit)).map fun e =>
      (some (s.takeWhile Char.isDigit), e)
  | s => (Numeral.readExponent s).map fun e => (none, e)

def Numeral.readUnsigned (negative : Bool) (s : List Char) : Option Numeral :=
  let whole := s.takeWhile Char.isDigit
  if Numeral.isWhole whole then
    (Numeral.readTail (s.dropWhile Char.isDigit)).map fun (fraction, exponent) =>
      ⟨negative, whole, fraction, exponent⟩
  else none

def Numeral.ofText? : List Char → Option Numeral
  | '-' :: s => Numeral.readUnsigned true s
  | s => Numeral.readUnsigned false s

def digits (s : List Char) : List Nat := s.map fun c => c.toNat - '0'.toNat

def Numeral.double? (n : Numeral) : Option Number :=
  let d := Binary64.Digits.ofParts (digits n.whole) (digits (n.fraction.getD []))
  (Binary64.ofScaled? n.negative d.value (d.exponent + n.exponent.getD 0)).map .double

def Numeral.number? (n : Numeral) : Option Number :=
  if n.fraction.isNone ∧ n.exponent.isNone then
    let value := Nat.ofDigitChars 10 n.whole 0
    if n.negative then
      if h : 0 < value ∧ value ≤ 0x8000000000000000 then
        some (.integer (-(value : Int)) (by omega) (by omega))
      else n.double?
    else if h : value < 0x10000000000000000 then some (.integer value (by omega) (by omega))
    else n.double?
  else n.double?

def Number.ofText? (s : List Char) : Option Number :=
  (Numeral.ofText? s).bind Numeral.number?

/-- Digits with the point behind the first `point` of them, and a zero where a side is empty. -/
def positional (digits : List Char) (point : Int) : List Char :=
  match point with
  | .negSucc k => '0' :: '.' :: List.replicate (k + 1) '0' ++ digits
  | .ofNat 0 => '0' :: '.' :: digits
  | .ofNat n =>
    if digits.length ≤ n then digits ++ List.replicate (n - digits.length) '0' ++ ['.', '0']
    else digits.take n ++ '.' :: digits.drop n

/-- One digit, the others behind the point, and the exponent of the first. -/
def scientific (digits : List Char) (point : Int) : List Char :=
  let mantissa := match digits with
    | [] => []
    | [d] => [d]
    | d :: rest => d :: '.' :: rest
  let exponent := match point - 1 with
    | .ofNat n => 'e' :: '+' :: Text.writeNat n
    | .negSucc n => 'e' :: '-' :: Text.writeNat (n + 1)
  mantissa ++ exponent

def magnitudeText (magnitude : Nat) : List Char :=
  if magnitude = 0 then ['0', '.', '0']
  else
    let (value, exponent) := Binary64.shortest magnitude
    let digits := Text.writeNat value
    let point := exponent + digits.length
    if -5 < point ∧ point ≤ 16 then positional digits point else scientific digits point

def Number.text : Number → List Char
  | .integer n _ _ => Text.writeInt n
  | .double x => if x.negative then '-' :: magnitudeText x.magnitude else magnitudeText x.magnitude

end LayerOverrides.Json
