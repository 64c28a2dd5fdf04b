import LayerOverrides.Json.Numeral
/-!
# Writing JSON text

In the compact layout there is no white space. In the pretty layout every item and member stands on
a line of its own, indented by two blanks for each container around it; an empty container stays
`[]` or an empty pair of braces.
-/

namespace LayerOverrides.Json

inductive Layout where
  | compact
  | pretty
  deriving DecidableEq

namespace Layout

/-- The break in front of an item, inside `depth` containers. -/
def newline : Layout → (depth : Nat) → List Char
  | .compact, _ => []
  | .pretty, depth => '\n' :: List.replicate (2 * depth) ' '

def colon : Layout → List Char
  | .compact => [':']
  | .pretty => [':', ' ']

end Layout

def hexDigits (c : Char) : List Char := [Nat.digitChar (c.toNat / 16), Nat.digitChar (c.toNat % 16)]

/-- Quotes, backslashes and control characters are escaped, nothing else. -/
def escape (c : Char) : List Char :=
  if c = '"' then ['\\', '"']
  else if c = '\\' then ['\\', '\\']
  else if c = '\x08' then ['\\', 'b']
  else if c = '\x0c' then ['\\', 'f']
  else if c = '\n' then ['\\', 'n']
  else if c = '\r' then ['\\', 'r']
  else if c = '\t' then ['\\', 't']
  else if c.toNat < 0x20 then '\\' :: 'u' :: '0' :: '0' :: hexDigits c
  else [c]

def quoted (s : String) : List Char := '"' :: s.toList.flatMap escape ++ ['"']

mutual

def render (layout : Layout) (depth : Nat) : Json → List Char
  | .null => ['n', 'u', 'l', 'l']
  | .bool true => ['t', 'r', 'u', 'e']
  | .bool false => ['f', 'a', 'l', 's', 'e']
  | .number n => n.text
  | .string s => quoted s
  | .array [] => ['[', ']']
  | .array (a :: l) =>
    '[' :: layout.newline (depth + 1) ++ render layout (depth + 1) a ++
      renderItems layout (depth + 1) l ++ layout.newline depth ++ [']']
  | .object [] => ['\x7b', '\x7d']
  | .object ((key, a) :: l) =>
    '\x7b' :: layout.newline (depth + 1) ++ quoted key ++ layout.colon ++
      render layout (depth + 1) a ++ renderMembers layout (depth + 1) l ++
      layout.newline depth ++ ['\x7d']

/-- The items after the first, each behind its comma. -/
def renderItems (layout : Layout) (depth : Nat) : List Json → List Char
  | [] => []
  | a :: l => ',' :: layout.newline depth ++ render layout depth a ++ renderItems layout depth l

def renderMembers (layout : Layout) (depth : Nat) : List (String × Json) → List Char
  | [] => []
  | (key, a) :: l =>
    ',' :: layout.newline depth ++ quoted key ++ layout.colon ++ render layout depth a ++
      renderMembers layout depth l

end

def text (layout : Layout) (value : Json) : List Char := render layout 0 value

def toText (layout : Layout) (value : Json) : String := String.ofList (value.text layout)

end LayerOverrides.Json
