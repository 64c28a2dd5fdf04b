import LayerOverrides.Json.Basic
import LayerOverrides.Configuration.Basic
/-!
# Fields of documents

Each field is read on its own and has a value to fall back on if it is missing or of another type,
so that a flaw in one field never spoils the rest of a document.
-/

namespace LayerOverrides.Json

def members? : Json → Option Members
  | .object members => some members
  | _ => none

/-- The members of an object; other values have none. -/
def membersOf (value : Json) : Members := value.members?.getD []

namespace Members

def get? (members : Members) (key : String) : Option Json := List.lookup key members

/-- A string, or the empty one. -/
def textAt (members : Members) (key : String) : String :=
  match members.get? key with
  | some (.string s) => s
  | _ => ""

/-- The items of an array, or none. -/
def itemsAt (members : Members) (key : String) : List Json :=
  match members.get? key with
  | some (.array items) => items
  | _ => []

/-- The members of an object, or none. -/
def membersAt (members : Members) (key : String) : Members :=
  match members.get? key with
  | some value => value.membersOf
  | none => []

end Members

/-- A rank is a number from 0 to below `2 ^ 32`. -/
def rankOfInt? (n : Int) : Option UInt32 :=
  if 0 ≤ n ∧ n < 0x100000000 then some (UInt32.ofNat n.toNat) else none

/-- A number counts without its fraction, and a text as the integer that it spells. -/
def rank? : Json → Option UInt32
  | .number n => rankOfInt? n.truncated
  | .string s => (Text.readInt? (Text.trim s.toList)).bind rankOfInt?
  | _ => none

namespace Members

def rankAt (members : Members) (key : String) : Option UInt32 := (members.get? key).bind rank?

/-- The platforms of a document or an entry: all if the field is missing, none if it is no array. -/
def platforms (members : Members) : PlatformSet :=
  match members.get? "platforms" with
  | none => .all
  | some (.array items) => .ofTokens (items.filterMap Json.string?)
  | some _ => .none

/-- The fields that all generations have, in a configuration without entries. -/
def header (members : Members) (name : String) : Configuration where
  name := name
  description := members.textAt "description"
  platforms := members.platforms
  editorState := (members.get? "editor_state").getD .null
  entries := []

end Members

end LayerOverrides.Json
