/-!
# Settings files

A settings file is a sequence of entries: headers that open a table, and keys with values. Keys are
paths of names. This module holds the entries and the classes of characters that their text is made
of.
-/

namespace ArkLang

namespace Toml

/-- A key: the names that lead to a value. -/
abbrev Key := List String

/-- A value. Numbers, truth values and dates are only told apart from texts, lists and tables. -/
inductive Value where
  | text (value : String)
  | scalar
  | array (items : List Value)
  | table (pairs : List (Key × Value))
  deriving Repr, Inhabited

/-- An entry of a settings file. -/
inductive Entry where
  /-- `[key]` -/
  | header (key : Key)
  /-- `[[key]]` -/
  | arrayHeader (key : Key)
  /-- `key = value` -/
  | pair (key : Key) (value : Value)
  deriving Repr, Inhabited

/-! ### Characters -/

/-- A blank inside a line. -/
def isBlank (c : Char) : Bool :=
  c = ' ' || c = '\t'

/-- A character that can stand inside a line. -/
def isInline (c : Char) : Bool :=
  c = '\t' || ' ' ≤ c && c ≠ '\x7f'

/-- A character of a name without quotes. -/
def isBare (c : Char) : Bool :=
  c.isAlphanum || c = '_' || c = '-'

/-- A character that stands for itself between double quotes. -/
def isBasic (c : Char) : Bool :=
  isInline c && c ≠ '"' && c ≠ '\\'

/-- A character that stands for itself between single quotes. -/
def isLiteral (c : Char) : Bool :=
  isInline c && c ≠ '\''

/-! ### Blanks and line ends -/

def skipBlanks (cs : List Char) : List Char :=
  cs.dropWhile isBlank

/-- A text behind a line end. -/
def newline? : List Char → Option (List Char)
  | '\n' :: rest => some rest
  | '\r' :: '\n' :: rest => some rest
  | _ => none

/-- A text behind a comment, if it starts with one. -/
def skipComment : List Char → List Char
  | '#' :: rest => rest.dropWhile isInline
  | cs => cs

/-- A text behind what may follow an entry on its line: blanks, a comment, and the end of the line
or of the text. -/
def endLine? (cs : List Char) : Option (List Char) :=
  match skipComment (skipBlanks cs) with
  | [] => some []
  | rest => newline? rest

/-- A text behind blanks and line ends, with a bound on their number. -/
def skipSpaceWithin : Nat → List Char → List Char
  | 0, cs => cs
  | n + 1, cs =>
    match newline? (skipBlanks cs) with
    | some rest => skipSpaceWithin n rest
    | none => skipBlanks cs

/-- A text behind blanks, comments and line ends, with a bound on their number. -/
def skipLinesWithin : Nat → List Char → List Char
  | 0, cs => cs
  | n + 1, cs =>
    match newline? (skipComment (skipBlanks cs)) with
    | some rest => skipLinesWithin n rest
    | none => skipBlanks cs

/-- A text behind blanks, comments and line ends. -/
def skipLines (cs : List Char) : List Char :=
  skipLinesWithin cs.length cs

end Toml

end ArkLang
