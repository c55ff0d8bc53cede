import ArkLang.Token.Basic

/-!
# Lexemes

A lexeme is the longest stretch at the start of a text that belongs together: blanks, a comment, a
word, a number, a quoted string, or a sign. `scan` finds the lexeme that starts with a given
character and says what it is. The lexeme always holds that first character, so reading on from
behind it always gets nearer to the end of the text.
-/

namespace ArkLang

/-- What a stretch of text is: a gap between tokens, a token, or a fault. -/
inductive Piece where
  | gap
  | token (kind : TokenKind)
  | fault (cause : LexFault)
  deriving DecidableEq, Repr

/-- A stretch found at the start of a text. -/
structure Lexeme where
  piece : Piece
  /-- The number of characters that belong to the stretch, its first one not counted. -/
  more : Nat
  deriving DecidableEq, Repr

/-- Blanks separate tokens and mean nothing else. -/
def isBlank (c : Char) : Bool :=
  c = ' ' || c = '\t' || c = '\r' || c = '\n' || c = '\x0c'

/-- A name starts with an ASCII letter or an underscore. -/
def isNameStart (c : Char) : Bool :=
  c.isAlpha || c = '_'

/-- A name goes on with ASCII letters, digits and underscores. -/
def isNameChar (c : Char) : Bool :=
  c.isAlphanum || c = '_'

/-- Whether a text is spelled like a name: a name start and then name characters. -/
def isNameText : List Char → Bool
  | [] => false
  | c :: cs => isNameStart c && cs.all isNameChar

/-! ### Words -/

/-- A word is a keyword if it is spelled like one, and a name otherwise. -/
def scanWord (c : Char) (cs : List Char) : Lexeme :=
  let tail := cs.takeWhile isNameChar
  let word := String.ofList (c :: tail)
  let kind := match Keyword.ofText? word with
    | some keyword => TokenKind.keyword keyword
    | none => .ident word
  ⟨.token kind, tail.length⟩

/-! ### Numbers -/

/-- The number that a list of decimal digits denotes. -/
def decimalValue (ds : List Char) : Nat :=
  ds.foldl (fun n d => 10 * n + (d.toNat - '0'.toNat)) 0

/-- How many characters go on a number after a digit: digits, and points that a digit follows. -/
def numberTail : List Char → Nat
  | '.' :: d :: cs => if d.isDigit then numberTail cs + 2 else 0
  | d :: cs => if d.isDigit then numberTail cs + 1 else 0
  | [] => 0

/-- Integer literals are below this bound. -/
def intBound : Nat :=
  Nat.pow 2 63

def intPiece (digits : List Char) : Piece :=
  let value := decimalValue digits
  if value < intBound then .token (.int value)
  else .fault (.intOutOfRange (String.ofList digits))

/-- What two runs of digits with a point between them are. -/
def floatPiece (whole fraction : List Char) : Piece :=
  let read := Binary64.ofDecimal? (decimalValue (whole ++ fraction)) (-(fraction.length : Int))
  read.elim (.fault (.floatOutOfRange (String.ofList (whole ++ '.' :: fraction))))
    fun value => .token (.float value)

/-- A number is one run of digits, or two with a point between them. More points, or name
characters right after it, make it malformed. -/
def scanNumber (c : Char) (cs : List Char) : Lexeme :=
  let tail := cs.take (numberTail cs)
  let word := (cs.drop (numberTail cs)).takeWhile isNameChar
  let body := c :: tail
  let whole := body.takeWhile Char.isDigit
  let more := tail.length + word.length
  match word, body.drop whole.length with
  | [], [] => ⟨intPiece whole, more⟩
  | [], _ :: fraction =>
    if fraction.all Char.isDigit then ⟨floatPiece whole fraction, more⟩
    else ⟨.fault (.malformedNumber (String.ofList body)), more⟩
  | _, _ => ⟨.fault (.malformedNumber (String.ofList (body ++ word))), more⟩

/-! ### Quoted strings -/

/-- How many characters of a string literal stand before its end: its closing quote, the end of
the line, or a backslash with nothing to escape. -/
def stringBody (quote : Char) : List Char → Nat
  | '\\' :: c :: cs => if c = '\n' then 0 else stringBody quote cs + 2
  | '\\' :: [] => 0
  | c :: cs => if c = quote || c = '\n' then 0 else stringBody quote cs + 1
  | [] => 0

def escapedChar? : Char → Option Char
  | 'n' => some '\n'
  | 't' => some '\t'
  | 'r' => some '\r'
  | '"' => some '"'
  | '\'' => some '\''
  | '\\' => some '\\'
  | _ => none

/-- The text that a string body denotes, unless it has an unknown escape. -/
def unescape? : List Char → Option (List Char)
  | '\\' :: c :: cs => do
    let first ← escapedChar? c
    let rest ← unescape? cs
    return first :: rest
  | '\\' :: [] => none
  | c :: cs => (unescape? cs).map (c :: ·)
  | [] => some []

/-- A string literal ends at the quote that opened it, on the same line. -/
def scanString (quote : Char) (cs : List Char) : Lexeme :=
  let size := stringBody quote cs
  match cs.drop size with
  | c :: _ =>
    if c = quote then
      match unescape? (cs.take size) with
      | some value => ⟨.token (.str (String.ofList value)), size + 1⟩
      | none => ⟨.fault .unknownEscape, size + 1⟩
    else if c = '\\' then ⟨.fault .unterminatedString, size + 1⟩
    else ⟨.fault .unterminatedString, size⟩
  | [] => ⟨.fault .unterminatedString, size⟩

/-! ### Comments and signs -/

/-- How many characters of a text a block comment takes up to its end, which it holds. -/
def commentTail? : List Char → Option Nat
  | '*' :: '/' :: _ => some 2
  | _ :: cs => (commentTail? cs).map (· + 1)
  | [] => none

/-- A comment after a slash: to the end of the line, or up to the end of the block. -/
def scanComment? : List Char → Option Lexeme
  | '/' :: cs => some ⟨.gap, (cs.takeWhile (· ≠ '\n')).length + 1⟩
  | '*' :: cs =>
    match commentTail? cs with
    | some size => some ⟨.gap, size + 1⟩
    | none => some ⟨.fault .unterminatedComment, cs.length + 1⟩
  | _ => none

/-- The longest sign at the start of a text. -/
def scanSymbol (c : Char) (cs : List Char) : Lexeme :=
  match Symbol.all.find? fun sign => sign.chars.isPrefixOf (c :: cs) with
  | some sign => ⟨.token (.symbol sign), sign.chars.length - 1⟩
  | none => ⟨.fault (.unexpectedChar c), 0⟩

/-- The lexeme of a text that starts with `c` and goes on with `cs`. -/
def scan (c : Char) (cs : List Char) : Lexeme :=
  if isBlank c then ⟨.gap, (cs.takeWhile isBlank).length⟩
  else if isNameStart c then scanWord c cs
  else if c.isDigit then scanNumber c cs
  else if c = '"' || c = '\'' then scanString c cs
  else if c = '/' then (scanComment? cs).getD (scanSymbol c cs)
  else scanSymbol c cs

end ArkLang
