import LayerOverrides.Setting.Kind
import LayerOverrides.Json.Numeral
import LayerOverrides.Text.Blank
import LayerOverrides.Text.Separated
/-!
# Values of settings

A value carries its kind. Reading a JSON value as a kind is generous about the spelling of scalars
and lists; writing has one form per kind, which reads back as the value ([read?_toJson]).
-/

namespace LayerOverrides.Setting

inductive Value where
  | text (role : TextRole) (value : String)
  | int (value : Int64)
  | bool (spelling : Spelling) (value : Bool)
  | list (role : ListRole) (items : List String)
  deriving DecidableEq

namespace Value

def kind : Value → Kind
  | .text role _ => .text role
  | .int _ => .int
  | .bool spelling _ => .bool spelling
  | .list role _ => .list role

/-- A list is always an array, never a text with commas. -/
def toJson : Value → Json
  | .text _ s => .string s
  | .int n => Json.ofInt64 n
  | .bool _ b => .bool b
  | .list _ items => .array (items.map .string)

def asText? : Value → Option String
  | .text _ s => some s
  | _ => none

def asInt? : Value → Option Int64
  | .int n => some n
  | _ => none

def asBool? : Value → Option Bool
  | .bool _ b => some b
  | _ => none

def asList? : Value → Option (List String)
  | .list _ items => some items
  | _ => none

end Value

/-- The text of a scalar. -/
def scalarText? : Json → Option String
  | .string s => some s
  | .number n => some (String.ofList n.text)
  | .bool true => some "true"
  | .bool false => some "false"
  | _ => none

/-- An integer of 64 bits in decimal, with an optional sign. -/
def readInt64? (s : List Char) : Option Int64 :=
  match Text.readInt? s with
  | some n =>
    if -0x8000000000000000 ≤ n ∧ n < 0x8000000000000000 then some (Int64.ofInt n) else none
  | none => none

def integer? : Json → Option Int64
  | .number n => n.int64?
  | .string s => readInt64? (Text.trim s.toList)
  | _ => none

def truth? (spelling : Spelling) : Json → Option Bool
  | .bool b => some b
  | .string s => match spelling with
    | .words => some (s == "TRUE")
    | .digits => some (s == "1")
  | .number n => match spelling with
    | .words => none
    | .digits => some (n.int64? == some 1)
  | _ => none

/-- The words between the commas of a text, without the blanks around them. -/
def words (s : List Char) : List String :=
  ((Text.split ',' s).map Text.trim |>.filter (· ≠ [])).map String.ofList

/-- The words of a text, or the strings of an array as they are. -/
def list? : Json → Option (List String)
  | .string s => some (words s.toList)
  | .array items => some (items.filterMap Json.string?)
  | _ => none

namespace Kind

/-- The value that a setting has before it is given one. -/
def empty : Kind → Value
  | .text role => .text role ""
  | .int => .int 0
  | .bool spelling => .bool spelling false
  | .list role => .list role []

/-- The value of this kind that a JSON value spells. -/
def read? : Kind → Json → Option Value
  | .text role, node => (scalarText? node).map (.text role)
  | .int, node => (integer? node).map .int
  | .bool spelling, node => (truth? spelling node).map (.bool spelling)
  | .list role, node => (list? node).map (.list role)

end Kind

/-- The value read from a node of the same kind, if it spells one, and otherwise the old value. -/
def Value.load (v : Value) (node : Json) : Value := (v.kind.read? node).getD v

theorem kind_empty (k : Kind) : k.empty.kind = k := by cases k <;> rfl

theorem kind_of_read? {k : Kind} {node : Json} {v : Value} (h : k.read? node = some v) :
    v.kind = k := by
  cases k <;> simp only [Kind.read?, Option.map_eq_some_iff] at h <;>
    obtain ⟨_, _, rfl⟩ := h <;> rfl

theorem kind_load (v : Value) (node : Json) : (v.load node).kind = v.kind := by
  unfold Value.load
  cases h : v.kind.read? node with
  | none => rfl
  | some w => exact kind_of_read? h

theorem int64?_ofInt64 (n : Int64) : integer? (Json.ofInt64 n) = some n := by
  have h := Int64.toInt_lt n
  simp only [integer?, Json.ofInt64, Json.Number.int64?]
  rw [if_pos (by omega), Int64.ofInt_toInt]

theorem filterMap_string? (items : List String) :
    (items.map Json.string).filterMap Json.string? = items := by
  induction items with
  | nil => rfl
  | cons s items ih => simp [Json.string?, ih]

theorem read?_toJson (v : Value) : v.kind.read? v.toJson = some v := by
  cases v with
  | text role s => rfl
  | int n => simp [Value.kind, Value.toJson, Kind.read?, int64?_ofInt64]
  | bool spelling b => rfl
  | list role items =>
    simp only [Value.kind, Value.toJson, Kind.read?, list?, filterMap_string?, Option.map_some]

end LayerOverrides.Setting
