import LayerOverrides.Json.Token
/-!
# Reading JSON text

Tokens are put together by a machine that keeps the containers which are still open, the innermost
first. At most [maxDepth] containers may be open at once. A member that comes twice keeps its last
value.
-/

namespace LayerOverrides.Json

/-- How many containers may lie within each other. -/
def maxDepth : Nat := 127

/-- An open container that waits for a value: the items so far, the latest first, or the members
so far and the key of the value. -/
inductive Frame where
  | array (latest : List Json)
  | object (members : Members) (key : String)

namespace Reader

/-- What may come next; each state also holds the containers around it. -/
inductive State where
  | value (frames : List Frame)
  | firstItem (frames : List Frame)
  | nextItem (latest : List Json) (frames : List Frame)
  | firstKey (frames : List Frame)
  | key (members : Members) (frames : List Frame)
  | colon (members : Members) (key : String) (frames : List Frame)
  | nextMember (members : Members) (frames : List Frame)
  | done (value : Json)

/-- A complete value goes into the container that waits for it. -/
def complete (value : Json) : List Frame → State
  | [] => .done value
  | .array latest :: frames => .nextItem (value :: latest) frames
  | .object members key :: frames => .nextMember (insertMember key value members) frames

/-- The first token of a value. -/
def begin (frames : List Frame) : Token → Option State
  | .beginArray => if frames.length < maxDepth then some (.firstItem frames) else none
  | .beginObject => if frames.length < maxDepth then some (.firstKey frames) else none
  | .text s => some (complete (.string s) frames)
  | .scalar v => some (complete v frames)
  | _ => none

def step : State → Token → Option State
  | .value frames, token => begin frames token
  | .firstItem frames, .endArray => some (complete (.array []) frames)
  | .firstItem frames, token => begin (.array [] :: frames) token
  | .nextItem latest frames, .comma => some (.value (.array latest :: frames))
  | .nextItem latest frames, .endArray => some (complete (.array latest.reverse) frames)
  | .firstKey frames, .endObject => some (complete (.object []) frames)
  | .firstKey frames, .text key => some (.colon [] key frames)
  | .key members frames, .text key => some (.colon members key frames)
  | .colon members key frames, .colon => some (.value (.object members key :: frames))
  | .nextMember members frames, .comma => some (.key members frames)
  | .nextMember members frames, .endObject => some (complete (.object members) frames)
  | _, _ => none

def finish : State → Option Json
  | .done value => some value
  | _ => none

end Reader

def ofTokens? (tokens : List Token) : Option Json :=
  (tokens.foldlM Reader.step (Reader.State.value [])).bind Reader.finish

/-- The value that a text stands for. -/
def ofText? (s : List Char) : Option Json := (Token.scan s).bind ofTokens?

def ofString? (s : String) : Option Json := ofText? s.toList

end LayerOverrides.Json
