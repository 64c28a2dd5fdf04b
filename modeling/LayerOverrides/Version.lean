import LayerOverrides.Text.Blank
import LayerOverrides.Text.Decimal
import LayerOverrides.Text.Separated
/-!
# Format versions

A version is three numbers, compared from the left. Its text may leave out numbers at the end, may
put blanks around each number, and may go on with anything behind a `-`, a `+` or a third point.
-/

namespace LayerOverrides

structure Version where
  major : UInt32
  minor : UInt32
  patch : UInt32
  deriving DecidableEq

namespace Version

instance : LT Version :=
  ⟨fun v w => v.major < w.major ∨ v.major = w.major ∧
    (v.minor < w.minor ∨ v.minor = w.minor ∧ v.patch < w.patch)⟩

instance : LE Version := ⟨fun v w => ¬ w < v⟩

instance (v w : Version) : Decidable (v < w) :=
  inferInstanceAs (Decidable (_ ∨ _ ∧ (_ ∨ _ ∧ _)))

instance (v w : Version) : Decidable (v ≤ w) := inferInstanceAs (Decidable (¬ w < v))

/-- A number of 32 bits between blanks. -/
def number? (s : List Char) : Option UInt32 :=
  match Text.readNat? (Text.trim s) with
  | some n => if n < 0x100000000 then some (UInt32.ofNat n) else none
  | none => none

/-- The part of a version text in front of its suffixes. -/
def core (s : List Char) : List Char := (Text.trim s).takeWhile fun c => c ≠ '-' ∧ c ≠ '+'

/-- The number at an index; a missing one is zero. -/
def numberAt? (parts : List (List Char)) (index : Nat) : Option UInt32 :=
  match parts[index]? with
  | some part => number? part
  | none => some 0

def ofText? (s : List Char) : Option Version :=
  if core s = [] then none
  else
    let parts := Text.split '.' (core s)
    match numberAt? parts 0, numberAt? parts 1, numberAt? parts 2 with
    | some major, some minor, some patch => some ⟨major, minor, patch⟩
    | _, _, _ => none

def ofString? (s : String) : Option Version := ofText? s.toList

def text (v : Version) : List Char :=
  Text.writeNat v.major.toNat ++ '.' :: Text.writeNat v.minor.toNat ++
    '.' :: Text.writeNat v.patch.toNat

def toText (v : Version) : String := String.ofList v.text

/-- The version of every document that is written. -/
def current : Version := ⟨2, 2, 0⟩

/-- The first version whose documents have a wrapper. -/
def firstWrapped : Version := ⟨2, 1, 0⟩

/-- The first version whose settings carry their own kind. -/
def firstTyped : Version := ⟨2, 2, 0⟩

/-- The version of documents that do not say theirs. -/
def unstated : Version := ⟨2, 0, 1⟩

theorem lt_irrefl (v : Version) : ¬ v < v := by
  rintro (h | ⟨-, h | ⟨-, h⟩⟩) <;> exact absurd h (UInt32.lt_irrefl _)

theorem le_refl (v : Version) : v ≤ v := lt_irrefl v

end Version

end LayerOverrides
