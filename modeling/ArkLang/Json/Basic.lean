/-!
# JSON texts

Values are written with an item on each line and two blanks for each level. Only quotes, backslashes
and control characters of a text are escaped.
-/

namespace ArkLang

/-- A value. -/
inductive Json where
  | bool (value : Bool)
  | number (value : Nat)
  | text (value : String)
  | array (items : List Json)
  | object (fields : List (String × Json))
  deriving Repr, Inhabited

namespace Json

def hexDigit (n : Nat) : Char :=
  (Nat.toDigits 16 n).headD '0'

/-- A character of a text as it is written. -/
def escapedChar (c : Char) : List Char :=
  if c = '"' || c = '\\' then ['\\', c]
  else if c = '\x08' then ['\\', 'b']
  else if c = '\t' then ['\\', 't']
  else if c = '\n' then ['\\', 'n']
  else if c = '\x0c' then ['\\', 'f']
  else if c = '\r' then ['\\', 'r']
  else if c < ' ' then ['\\', 'u', '0', '0', hexDigit (c.toNat / 16), hexDigit (c.toNat % 16)]
  else [c]

def quoted (text : String) : String :=
  "\"" ++ String.ofList (text.toList.flatMap escapedChar) ++ "\""

def margin (level : Nat) : String :=
  String.ofList (List.replicate (2 * level) ' ')

/-- Items between brackets, one on each line. Without items the brackets stand side by side. -/
def bracketed (level : Nat) (opening closing : String) (items : List String) : String :=
  if items.isEmpty then opening ++ closing
  else
    let separated := ",\n".intercalate (items.map (margin (level + 1) ++ ·))
    opening ++ "\n" ++ separated ++ "\n" ++ margin level ++ closing

mutual

def textAt (level : Nat) : Json → String
  | bool value => if value then "true" else "false"
  | number value => toString value
  | text value => quoted value
  | array items => bracketed level "[" "]" (textsAt (level + 1) items)
  | object fields => bracketed level "\x7b" "\x7d" (fieldsAt (level + 1) fields)
termination_by structural j => j

def textsAt (level : Nat) : List Json → List String
  | [] => []
  | item :: rest => textAt level item :: textsAt level rest
termination_by structural items => items

def fieldsAt (level : Nat) : List (String × Json) → List String
  | [] => []
  | field :: rest => fieldAt level field :: fieldsAt level rest
termination_by structural fields => fields

def fieldAt (level : Nat) : String × Json → String
  | (name, value) => quoted name ++ ": " ++ textAt level value
termination_by structural field => field

end

/-- The text of a value. -/
def pretty (j : Json) : String :=
  j.textAt 0

end Json

end ArkLang
