import LayerOverrides.Binary64.Basic
/-!
# JSON values

A number is an integer of the signed or unsigned 64-bit range, or a finite double; the two forms
stay apart even where they have the same value. The members of an object are a list in ascending
order of keys, each key once, as [Json.insertMember] keeps it.
-/

namespace LayerOverrides

inductive Json.Number where
  | integer (value : Int) (lower : -0x8000000000000000 ≤ value)
    (upper : value < 0x10000000000000000)
  | double (value : Binary64)
  deriving DecidableEq

inductive Json where
  | null
  | bool (value : Bool)
  | number (value : Json.Number)
  | string (value : String)
  | array (items : List Json)
  | object (members : List (String × Json))

namespace Json

abbrev Members := List (String × Json)

def string? : Json → Option String
  | .string s => some s
  | _ => none

/-- The member's value is replaced if there is one, and otherwise comes in where its key belongs. -/
def insertMember (key : String) (value : Json) : Members → Members
  | [] => [(key, value)]
  | (key', value') :: members =>
    if key = key' then (key, value) :: members
    else if key < key' then (key, value) :: (key', value') :: members
    else (key', value') :: insertMember key value members

/-- An integer of the signed 64-bit range. -/
def Number.int64? : Number → Option Int64
  | .integer n _ _ => if n < 0x8000000000000000 then some (Int64.ofInt n) else none
  | .double _ => none

/-- The value without its fraction. -/
def Number.truncated : Number → Int
  | .integer n _ _ => n
  | .double x => x.truncated

/-- Equality of numbers of one form; doubles are compared by value. -/
def Number.same : Number → Number → Bool
  | .integer m _ _, .integer n _ _ => m == n
  | .double x, .double y => x.sameValue y
  | _, _ => false

def ofInt64 (n : Int64) : Json :=
  .number (.integer n.toInt (Int64.le_toInt n)
    (Int.lt_of_lt_of_le (Int64.toInt_lt n) (by decide)))

mutual

/-- Equality of values, with numbers compared by [Number.same]. -/
def same : Json → Json → Bool
  | .null, .null => true
  | .bool a, .bool b => a == b
  | .number m, .number n => m.same n
  | .string s, .string t => s == t
  | .array l, .array l' => sameItems l l'
  | .object l, .object l' => sameMembers l l'
  | _, _ => false

def sameItems : List Json → List Json → Bool
  | [], [] => true
  | a :: l, b :: l' => same a b && sameItems l l'
  | _, _ => false

def sameMembers : List (String × Json) → List (String × Json) → Bool
  | [], [] => true
  | (k, a) :: l, (k', b) :: l' => k == k' && same a b && sameMembers l l'
  | _, _ => false

end

mutual

/-- How many containers lie within each other at most. -/
def depth : Json → Nat
  | .array items => depthItems items + 1
  | .object members => depthMembers members + 1
  | _ => 0

def depthItems : List Json → Nat
  | [] => 0
  | a :: l => max a.depth (depthItems l)

def depthMembers : List (String × Json) → Nat
  | [] => 0
  | (_, a) :: l => max a.depth (depthMembers l)

end

end Json

end LayerOverrides
