import LayerOverrides.Json.Numeral
/-!
# Tokens of JSON text

A text is cut into tokens by a machine that looks at one character at a time. White space separates
tokens and is dropped; a bare word ends where white space, a quote or a bracket follows and must
then be a literal or a numeral. Strings take the escapes of the format: a code of a surrogate pair
needs its other half right behind it, and control characters must be escaped.
-/

namespace LayerOverrides.Json

inductive Token where
  | beginArray
  | endArray
  | beginObject
  | endObject
  | comma
  | colon
  | text (value : String)
  | scalar (value : Json)

namespace Token

def isSpace (c : Char) : Bool := c = ' ' || c = '\n' || c = '\t' || c = '\r'

def ofBracket? : Char → Option Token
  | '[' => some .beginArray
  | ']' => some .endArray
  | '\x7b' => some .beginObject
  | '\x7d' => some .endObject
  | ',' => some .comma
  | ':' => some .colon
  | _ => none

def ofWord? (word : List Char) : Option Token :=
  if word = ['n', 'u', 'l', 'l'] then some (.scalar .null)
  else if word = ['t', 'r', 'u', 'e'] then some (.scalar (.bool true))
  else if word = ['f', 'a', 'l', 's', 'e'] then some (.scalar (.bool false))
  else (Number.ofText? word).map fun n => .scalar (.number n)

/-- The value of a hexadecimal digit. -/
def hexDigit? (c : Char) : Option Nat :=
  if c.isDigit then some (c.toNat - '0'.toNat)
  else if 'a' ≤ c ∧ c ≤ 'f' then some (c.toNat - 'a'.toNat + 10)
  else if 'A' ≤ c ∧ c ≤ 'F' then some (c.toNat - 'A'.toNat + 10)
  else none

/-- The character of a one-letter escape. -/
def escaped? : Char → Option Char
  | '"' => some '"'
  | '\\' => some '\\'
  | '/' => some '/'
  | 'b' => some '\x08'
  | 'f' => some '\x0c'
  | 'n' => some '\n'
  | 'r' => some '\r'
  | 't' => some '\t'
  | _ => none

/-- Where the machine stands. What it holds of a word or a string has the latest character first;
inside a code, `high` is the half of a pair that came before, and `count` digits are still due. -/
inductive State where
  | between
  | word (latest : List Char)
  | string (latest : List Char)
  | escape (latest : List Char)
  | code (latest : List Char) (high : Option Nat) (count : Nat) (value : Nat)
  | pairEscape (latest : List Char) (high : Nat)
  | pairCode (latest : List Char) (high : Nat)

/-- The state after the last digit of a code. -/
def finishCode (latest : List Char) (high : Option Nat) (value : Nat) : Option State :=
  match high with
  | none =>
    if 0xD800 ≤ value ∧ value < 0xDC00 then some (.pairEscape latest value)
    else if 0xDC00 ≤ value ∧ value < 0xE000 then none
    else some (.string (Char.ofNat value :: latest))
  | some high =>
    if 0xDC00 ≤ value ∧ value < 0xE000 then
      some (.string (Char.ofNat (0x10000 + (high - 0xD800) * 0x400 + (value - 0xDC00)) :: latest))
    else none

/-- Between tokens, a character starts the next one. -/
def start (tokens : List Token) (c : Char) : State × List Token :=
  if isSpace c then (.between, tokens)
  else if c = '"' then (.string [], tokens)
  else match ofBracket? c with
    | some token => (.between, token :: tokens)
    | none => (.word [c], tokens)

/-- Whether a character ends a word. -/
def endsWord (c : Char) : Bool := isSpace c || c = '"' || (ofBracket? c).isSome

/-- One character; the tokens have the latest first. -/
def step : State × List Token → Char → Option (State × List Token)
  | (.between, tokens), c => some (start tokens c)
  | (.word latest, tokens), c =>
    if endsWord c then (ofWord? latest.reverse).map fun token => start (token :: tokens) c
    else some (.word (c :: latest), tokens)
  | (.string latest, tokens), c =>
    if c = '"' then some (.between, .text (String.ofList latest.reverse) :: tokens)
    else if c = '\\' then some (.escape latest, tokens)
    else if c.toNat < 0x20 then none
    else some (.string (c :: latest), tokens)
  | (.escape latest, tokens), c =>
    if c = 'u' then some (.code latest none 4 0, tokens)
    else (escaped? c).map fun d => (.string (d :: latest), tokens)
  | (.code latest high count value, tokens), c =>
    (hexDigit? c).bind fun digit =>
      if count ≤ 1 then
        (finishCode latest high (16 * value + digit)).map fun state => (state, tokens)
      else some (.code latest high (count - 1) (16 * value + digit), tokens)
  | (.pairEscape latest high, tokens), c =>
    if c = '\\' then some (.pairCode latest high, tokens) else none
  | (.pairCode latest high, tokens), c =>
    if c = 'u' then some (.code latest (some high) 4 0, tokens) else none

/-- The tokens at the end of the text, in their order. -/
def finish : State × List Token → Option (List Token)
  | (.between, tokens) => some tokens.reverse
  | (.word latest, tokens) =>
    (ofWord? latest.reverse).map fun token => (token :: tokens).reverse
  | _ => none

def scan (s : List Char) : Option (List Token) :=
  (s.foldlM step (State.between, [])).bind finish

end Token

end LayerOverrides.Json
