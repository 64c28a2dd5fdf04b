import LayerOverrides.Text.Vocabulary
/-!
# Kinds of settings

There are ten kinds of settings, of four shapes: texts, integers, truth values and lists of words.
The kinds of one shape differ in what the value is for, and truth values in how old documents
spell them.
-/

namespace LayerOverrides.Setting

/-- What a text is for. -/
inductive TextRole where
  | plain
  | saveFile
  | loadFile
  | saveFolder
  | choice
  deriving DecidableEq

/-- How old documents spell a truth value: as `TRUE` and `FALSE`, or as `1` and `0`. -/
inductive Spelling where
  | words
  | digits
  deriving DecidableEq

inductive ListRole where
  | excludedMessages
  | flags
  deriving DecidableEq

inductive Kind where
  | text (role : TextRole)
  | int
  | bool (spelling : Spelling)
  | list (role : ListRole)
  deriving DecidableEq

namespace Kind

def all : List Kind :=
  [.text .plain, .int, .text .saveFile, .text .loadFile, .text .saveFolder, .bool .words,
    .bool .digits, .text .choice, .list .excludedMessages, .list .flags]

def token : Kind → String
  | .text .plain => "STRING"
  | .int => "INT"
  | .text .saveFile => "SAVE_FILE"
  | .text .loadFile => "LOAD_FILE"
  | .text .saveFolder => "SAVE_FOLDER"
  | .bool .words => "BOOL"
  | .bool .digits => "BOOL_NUMERIC"
  | .text .choice => "ENUM"
  | .list .excludedMessages => "VUID_EXCLUDE"
  | .list .flags => "FLAGS"

/-- A second token for lists of flags, which only older documents have. -/
def formerFlagsToken : String := "MULTI_ENUM"

/-- Blanks around a token do not matter. -/
def ofToken? (s : String) : Option Kind :=
  let word := Text.trim s.toList
  if Text.spells formerFlagsToken.toList word then some (.list .flags)
  else Text.findSpelled all token word

/-- The kind with exactly this token. -/
def ofExactToken? (s : String) : Option Kind := all.find? fun k => k.token == s

theorem ofToken?_token (k : Kind) : ofToken? k.token = some k := by
  rcases k with (_ | _ | _ | _ | _) | _ | (_ | _) | (_ | _) <;> decide

end Kind

end LayerOverrides.Setting
