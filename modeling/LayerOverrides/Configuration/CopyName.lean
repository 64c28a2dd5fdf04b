import LayerOverrides.Configuration.Basic
import LayerOverrides.Text.Decimal
/-!
# Names of copies

A copy is called after its base, with a number in brackets behind a blank. The number is one more
than the greatest that is in use for the base, where a name without a number counts as the first.
-/

namespace LayerOverrides

/-- A name taken apart; the base has no line break in it if there is a number. -/
structure CopyName where
  base : String
  number : Option UInt32
  deriving DecidableEq

namespace CopyName

/-- The characters in front of ` (digits)`, and the digits. -/
def cut? (name : List Char) : Option (List Char × List Char) :=
  match name.reverse with
  | ')' :: rest => match rest.dropWhile Char.isDigit with
    | '(' :: ' ' :: base =>
      if '\n' ∈ base then none else some (base.reverse, (rest.takeWhile Char.isDigit).reverse)
    | _ => none
  | _ => none

/-- A number counts if it is positive and fits into 32 bits; otherwise it belongs to the base. -/
def ofName (name : String) : CopyName :=
  match cut? name.toList with
  | none => ⟨name, none⟩
  | some (base, digits) => match Text.readNat? digits with
    | none => ⟨name, none⟩
    | some n =>
      if 0 < n ∧ n < 0x100000000 then ⟨String.ofList base, some (UInt32.ofNat n)⟩ else ⟨name, none⟩

/-- The next number; the greatest one has none and stays. -/
def next (n : UInt32) : UInt32 := if n.toNat + 1 < 0x100000000 then n + 1 else n

def numbered (base : String) (n : UInt32) : String :=
  String.ofList (base.toList ++ ' ' :: '(' :: Text.writeNat n.toNat ++ [')'])

/-- The numbers in use for a base. -/
def numbersOf (base : String) (names : List String) : List UInt32 :=
  names.filterMap fun name =>
    let copy := ofName name
    if copy.base = base then some (copy.number.getD 1) else none

/-- A name for a new configuration: the one asked for, unless its base is in use. -/
def fresh (existing : List String) (requested : String) : String :=
  let base := (ofName requested).base
  match numbersOf base existing with
  | [] => requested
  | n :: numbers => numbered base (next (numbers.foldl max n))

end CopyName

/-- A copy under a name of its own. -/
def Configuration.duplicate (c : Configuration) (existing : List Configuration) : Configuration :=
  { c with name := CopyName.fresh (existing.map Configuration.name) c.name }

end LayerOverrides
