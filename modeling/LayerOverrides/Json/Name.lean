import LayerOverrides.Json.Token
/-!
# Names in JSON text

A member of a closed vocabulary is written as a string. It is also read from an object that has the
name as its only key and nothing to go with it, which is `null`; a repeated key is refused, although
values take one.
-/

namespace LayerOverrides.Json

/-- The name that tokens stand for, as a string or as the key of `null`. -/
def nameOfTokens? : List Token → Option String
  | [.text name] => some name
  | [.beginObject, .text name, .colon, .scalar .null, .endObject] => some name
  | _ => none

/-- The name that a text stands for. -/
def nameOfText? (s : List Char) : Option String := (Token.scan s).bind nameOfTokens?

end LayerOverrides.Json
