import ArkLang.Tree.Basic
import ArkLang.Tree.Dialect
import ArkLang.Tree.Parser.Error

/-!
# Parsers over tokens

A parser reads a prefix of the remaining tokens, numbers the nodes it builds, and may fail. What it
has read and numbered before a failure stays read and numbered, so parsing can go on after it.

The token for the end of input is never consumed. When the tokens lack it, one is assumed behind the
last token, at the position of that token.
-/

namespace ArkLang

/-- What a parser knows and does not change. -/
structure ParseContext where
  tokens : List Token
  dialect : Dialect
  /-- Whether parsing goes on after an error. -/
  recovering : Bool

/-- What a parser changes. -/
structure ParseState where
  /-- The tokens not read yet. -/
  rest : List Token
  nextId : NodeId
  /-- The errors after which parsing went on, in order. -/
  errors : List ParseError

/-- A parser gives a value or an error; its state outlives an error. -/
abbrev Parser := ReaderT ParseContext (ExceptT ParseError (StateM ParseState))

/-- The end of input as it is assumed behind the last of some tokens. -/
def endToken (tokens : List Token) : Token :=
  match tokens.getLast? with
  | some last => ⟨.eof, .emptyAt last.span.stop, last.position, false⟩
  | none => ⟨.eof, .emptyAt 0, ⟨1, 1⟩, false⟩

namespace Parser

/-! ### Reading tokens -/

def current : Parser Token := do
  return (← get).rest.headD (endToken (← read).tokens)

def isNext (kind : TokenKind) : Parser Bool :=
  return (← current).kind == kind

/-- Whether the next token is a given sign. -/
def isSign (sign : Symbol) : Parser Bool :=
  isNext (.symbol sign)

/-- Whether all tokens are read. -/
def isEnd : Parser Bool :=
  isNext .eof

/-- The kind of the token `n` places behind the next one, if there is one. -/
def peek? (n : Nat) : Parser (Option TokenKind) :=
  return ((← get).rest[n]?).map Token.kind

/-- The number of tokens not read yet. -/
def remaining : Parser Nat :=
  return (← get).rest.length

/-- The tokens behind the next one, which is never the end of input. -/
def afterNext : List Token → List Token
  | [] => []
  | t :: ts => if t.kind = .eof then t :: ts else ts

/-- Steps over the next token, but never over the end of input. -/
def advance : Parser Unit :=
  modify fun s => { s with rest := afterNext s.rest }

/-- The next token, which is stepped over. -/
def bump : Parser Token := do
  let token ← current
  advance
  return token

/-- A number for a new node. -/
def freshId : Parser NodeId := do
  let id := (← get).nextId
  modify fun s => { s with nextId := id + 1 }
  return id

/-! ### Failing -/

def failAt {α : Type} (token : Token) (fault : ParseFault) : Parser α :=
  throw ⟨fault, token.span, token.position⟩

/-- Fails at a span; its position is that of the first token that starts there or later. -/
def failOver {α : Type} (span : Span) (fault : ParseFault) : Parser α := do
  let tokens := (← read).tokens
  let token := (tokens.find? fun t => span.offset ≤ t.span.offset).getD (endToken tokens)
  throw ⟨fault, span, token.position⟩

def failExpected {α : Type} (token : Token) (what : Expectation) : Parser α :=
  failAt token (.expected what token.kind)

/-! ### Asking for tokens -/

/-- Steps over a token of a given kind. -/
def expect (kind : TokenKind) : Parser Token := do
  let token ← current
  if token.kind = kind then
    advance
    return token
  else
    failExpected token (.token kind)

/-- Steps over a given sign. -/
def expectSign (sign : Symbol) : Parser Token :=
  expect (.symbol sign)

/-- Steps over a name. A token that is not a name is stepped over all the same. -/
def expectIdent : Parser Ident := do
  let token ← bump
  match token.kind with
  | .ident name => return ⟨name, token.span⟩
  | _ => failExpected token .identifier

/-- Steps over the sign that closes what `opening` has opened. -/
def expectClosing (sign : Symbol) (opening : Token) : Parser Token := do
  if ← isSign sign then
    bump
  else
    let token ← current
    if token.kind = .eof then
      failAt opening (.neverClosed opening.kind opening.position)
    else
      failExpected token (.token (.symbol sign))

/-- Items with commas between them, up to a closing sign or the end of input; a comma may follow the
last one. The number bounds how many items are read. -/
def commaList {α : Type} (closing : Symbol) (item : Parser α) : Nat → Parser (List α)
  | 0 => return []
  | limit + 1 => do
    if (← isSign closing) || (← isEnd) then
      return []
    let first ← item
    if ← isSign .comma then
      advance
      return first :: (← commaList closing item limit)
    else
      return [first]

end Parser

end ArkLang
