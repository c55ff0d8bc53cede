import ArkLang.Tree.Parser.Expr
import ArkLang.Token.Lexeme

/-!
# Parsing statements

Statements end at a semicolon, a line break or a closing brace. The parser of each kind of statement
takes the parser of blocks as an argument, and a block is read by the parser of statements, one
nesting level further in.

When parsing goes on after errors, the tokens of a statement that failed are skipped up to the next
place where a statement can start, also inside a block, and the error is kept.
-/

namespace ArkLang.Parser

/-! ### Imports and variables -/

/-- A text without the ending `.ark`, however often it stands there. The number bounds how often. -/
def withoutExtension : Nat → List Char → List Char
  | 0, cs => cs
  | limit + 1, cs =>
    match cs.reverse with
    | 'k' :: 'r' :: 'a' :: '.' :: rest => withoutExtension limit rest.reverse
    | _ => cs

/-- The name under which the module at a quoted path is reachable. -/
def moduleAlias (path : String) : String :=
  let last := (path.toList.reverse.takeWhile (· ≠ '/')).reverse
  String.ofList (withoutExtension last.length last)

/-- Further segments of a bare module path. The number bounds how many there are. -/
def pathSegments : Nat → Parser (List Ident)
  | 0 => return []
  | limit + 1 => do
    if ← isSign .slash then
      advance
      let segment ← expectIdent
      return segment :: (← pathSegments limit)
    else
      return []

def importDecl : Parser Import := do
  let keyword ← expect (.keyword .modKw)
  let token ← current
  match token.kind with
  | .str path => do
    advance
    let name := moduleAlias path
    if isNameText name.toList then
      return ⟨keyword.span.join token.span, path, true, ⟨name, token.span⟩⟩
    else
      failAt token (.badModuleName path)
  | .ident _ => do
    let first ← expectIdent
    let more ← pathSegments (← remaining)
    let path := String.intercalate "/" ((first :: more).map Located.value)
    let name := more.getLastD first
    return ⟨keyword.span.join name.span, path, false, name⟩
  | _ => failExpected token .modulePath

/-- A declaration whose type is left out. -/
def inferredVar (id : NodeId) (name : Ident) (sign : Token) (mutable : Bool) (symbol : Symbol) :
    Parser VarDecl := do
  if (← read).dialect = .strict then
    failAt sign (.inferredDeclaration symbol name.value)
  let value ← expr
  return ⟨⟨id, name.span.join value.span⟩, name, mutable, none, some value⟩

def typedVar (id : NodeId) (name : Ident) (mutable : Bool) : Parser VarDecl := do
  let type ← typeExpr
  if ← isSign .eq then
    advance
    let value ← expr
    return ⟨⟨id, name.span.join value.span⟩, name, mutable, some type, some value⟩
  else if !mutable then
    failOver name.span (.constantWithoutValue name.value)
  else if (← read).dialect = .strict then
    failOver name.span (.strictWithoutValue name.value)
  else
    return ⟨⟨id, name.span.join type.span⟩, name, mutable, some type, none⟩

/-- Reads a variable declaration. -/
def varDecl : Parser VarDecl := do
  let id ← freshId
  let name ← expectIdent
  let sign ← bump
  match sign.kind with
  | .symbol .colonEq => inferredVar id name sign true .colonEq
  | .symbol .colonColonEq => inferredVar id name sign false .colonColonEq
  | .symbol .colon => typedVar id name true
  | .symbol .colonColon => typedVar id name false
  | _ => failExpected sign .declarationSign

/-! ### Procedures -/

/-- Whether a closed list of items is the head of a procedure: a type follows it, or a body follows
and all items look like parameters. Both have to start on the same line. -/
def opensBody (params : Bool) : List Token → Bool
  | [] => false
  | t :: _ =>
    !t.newlineBefore && match t.kind with
      | .symbol .colon => true
      | .symbol .lbrace => params
      | _ => false

/-- Whether the token of an item and the tokens behind it look like a parameter: a name, and a type
or a default behind it. -/
def looksLikeParam (t : Token) (ts : List Token) : Bool :=
  match t.kind, ts.head?.map Token.kind with
  | .ident _, some (.symbol .colon) => true
  | .ident _, some (.symbol .eq) => true
  | _, _ => false

/-- Looks for the end of a list of items, `depth` brackets deep. The flags say whether an item
starts here and whether all items so far look like parameters. -/
def headOfProc (depth : Nat) (itemStart params : Bool) : List Token → Bool
  | [] => false
  | t :: ts =>
    let params' := if itemStart then params && looksLikeParam t ts else params
    match t.kind with
    | .eof => false
    | .symbol .lparen | .symbol .lbracket | .symbol .lbrace =>
      headOfProc (depth + 1) false params' ts
    | .symbol .rparen | .symbol .rbracket | .symbol .rbrace =>
      if depth ≤ 1 then opensBody params ts else headOfProc (depth - 1) false params' ts
    | .symbol .comma =>
      if depth = 1 then headOfProc depth true params ts else headOfProc depth false params' ts
    | _ => headOfProc depth false params' ts

/-- Whether tokens that start with a name and a parenthesis declare a procedure. If not, they are a
call. -/
def opensProc (ts : List Token) : Bool :=
  headOfProc 1 true true (ts.drop 2)

def param : Parser Param := do
  let id ← freshId
  let name ← expectIdent
  let type ← if ← isSign .colon then
      advance
      some <$> typeExpr
    else pure none
  let default ← if ← isSign .eq then
      advance
      some <$> expr
    else pure none
  if type.isNone then
    if (← read).dialect = .strict then
      failOver name.span (.strictWithoutParamType name.value)
    if default.isNone then
      failOver name.span (.untypedParam name.value)
  let last := match type, default with
    | _, some value => value.span
    | some type, none => type.span
    | none, none => name.span
  return ⟨⟨id, name.span.join last⟩, name, type, default⟩

/-- Parameters up to the closing parenthesis. The flag says whether one before them has a default;
then they need one too. The number bounds how many there are. -/
def paramList : Nat → (defaulted : Bool) → Parser (List Param)
  | 0, _ => return []
  | limit + 1, defaulted => do
    if (← isSign .rparen) || (← isEnd) then
      return []
    let first ← param
    if defaulted && first.default.isNone then
      failOver first.node.span (.defaultOrder first.name.value)
    if ← isSign .comma then
      advance
      return first :: (← paramList limit (defaulted || first.default.isSome))
    else
      return [first]

def procDecl (block : Parser Block) : Parser ProcDecl := do
  let id ← freshId
  let name ← expectIdent
  let opening ← expectSign .lparen
  let params ← paramList (← remaining) false
  let _ ← expectClosing .rparen opening
  let ret ← if ← isSign .colon then
      advance
      some <$> typeExpr
    else if (← read).dialect = .strict then
      failOver name.span (.strictWithoutReturn name.value)
    else pure none
  let body ← block
  return ⟨⟨id, name.span.join body.span⟩, name, params, ret, body⟩

/-! ### Artifacts -/

/-- The value of an enumeration case after its `=`. -/
def caseValue (name : Ident) : Parser EnumCase := do
  let negative ← isSign .minus
  if negative then
    advance
  let token ← bump
  match token.kind with
  | .int value =>
    let signed : Int := if negative then -value else value
    return ⟨name.span.join token.span, name, some ⟨signed, token.span⟩⟩
  | _ => failAt token (.caseValue name.value token.kind)

/-- Reads a member of an artifact. -/
def member (block : Parser Block) : Parser Member := do
  match ← peek? 0, ← peek? 1 with
  | some (.ident _), some (.symbol .lparen) => return .proc (← procDecl block)
  | some (.ident _), some (.symbol .colon)
  | some (.ident _), some (.symbol .colonColon)
  | some (.ident _), some (.symbol .colonEq)
  | some (.ident _), some (.symbol .colonColonEq) => return .prop (← varDecl)
  | some (.ident _), _ => do
    let name ← expectIdent
    if ← isSign .eq then
      advance
      return .enumCase (← caseValue name)
    else
      return .enumCase ⟨name.span, name, none⟩
  | _, _ => do failExpected (← current) .artifactMember

def isSeparator (t : Token) : Bool :=
  t.kind == .symbol .comma || t.kind == .symbol .semi

/-- Whether a member may end before a token. -/
def endsMember (t : Token) : Bool :=
  t.newlineBefore || isSeparator t || t.kind == .symbol .rbrace || t.kind == .eof

/-- Members up to the closing brace. The number bounds how many there are. -/
def memberList (block : Parser Block) (name : Ident) : Nat → Parser (List Member)
  | 0 => return []
  | limit + 1 => do
    modify fun s => { s with rest := s.rest.dropWhile isSeparator }
    if (← isSign .rbrace) || (← isEnd) then
      return []
    let first ← member block
    let token ← current
    if endsMember token then
      return first :: (← memberList block name limit)
    else
      failExpected token (.memberEnd name.value)

/-- What an artifact with some members is: an enumeration if it has cases, a record if it has a
variable property, a namespace otherwise. -/
def classify (name : Ident) (members : List Member) : Parser ArtifactKind :=
  let cases := members.filterMap fun
    | .enumCase decl => some decl
    | _ => none
  match cases with
  | first :: _ =>
    if cases.length < members.length then failOver first.span (.mixedEnumeration name.value)
    else return .enumeration
  | [] =>
    let changeable := members.any fun
      | .prop decl => decl.mutable
      | _ => false
    return if changeable then .record else .namespaced

def artifactDecl (block : Parser Block) : Parser ArtifactDecl := do
  let id ← freshId
  let name ← expectIdent
  let _ ← expectSign .colonColon
  let opening ← expectSign .lbrace
  let members ← memberList block name ((← remaining) + 1)
  let closing ← expectClosing .rbrace opening
  let kind ← classify name members
  return ⟨⟨id, name.span.join closing.span⟩, name, kind, members⟩

/-! ### Control flow -/

/-- The arms of a chain; `fallback` is the arm without a condition, if it came already, and `last`
the end of the last arm. The number bounds how many there are. -/
def chainArms (block : Parser Block) :
    Nat → (fallback : Option Block) → (last : Span) → Parser (List Guarded × Option Block × Span)
  | 0, fallback, last => return ([], fallback, last)
  | limit + 1, fallback, last => do
    if ← isSign .chain then
      let bar ← bump
      if fallback.isSome then
        failAt bar .catchAllNotLast
      if ← isSign .lbrace then
        let body ← block
        chainArms block limit (some body) body.span
      else
        let cond ← expr
        let body ← block
        let (arms, fallback, last) ← chainArms block limit none body.span
        return (⟨bar.span.join body.span, cond, body⟩ :: arms, fallback, last)
    else
      return ([], fallback, last)

/-- Reads a chain of conditions. -/
def chain (block : Parser Block) : Parser Stmt := do
  let start := (← current).span
  let (arms, fallback, last) ← chainArms block (← remaining) none start
  if arms.isEmpty then
    failOver start .chainWithoutCondition
  else
    return .chain (start.join last) arms fallback

/-- Reads a loop under a condition. -/
def whileLoop (block : Parser Block) : Parser Stmt := do
  let keyword ← expect (.keyword .whileKw)
  let cond ← expr
  let body ← block
  return .whileLoop ⟨keyword.span.join body.span, cond, body⟩

/-- Reads a loop over a range. -/
def rangeLoop (block : Parser Block) : Parser Stmt := do
  let id ← freshId
  let var ← expectIdent
  let _ ← expectSign .comma
  let start ← expr
  let token ← current
  if token.kind = .symbol .dotDot then
    advance
    let stop ← expr
    let body ← block
    return .rangeLoop ⟨id, var.span.join body.span⟩ var start stop body
  else
    failExpected token .rangeDots

/-- Reads a return; its value has to start on the same line. -/
def returnStmt : Parser Stmt := do
  let keyword ← expect (.keyword .returnKw)
  let token ← current
  if token.newlineBefore || token.kind == .symbol .semi || token.kind == .symbol .rbrace ||
      token.kind == .eof then
    return .ret keyword.span none
  else
    let value ← expr
    return .ret (keyword.span.join value.span) (some value)

/-- Reads a statement that starts with an expression: a condition and its body, an assignment, or
the expression alone. -/
def exprStmt (block : Parser Block) : Parser Stmt := do
  let value ← expr
  let token ← current
  if token.kind == .symbol .lbrace && !token.newlineBefore then
    let body ← block
    return .cond ⟨value.span.join body.span, value, body⟩
  else if token.kind == .symbol .eq then
    if !value.isAssignable then
      failOver value.span .invalidTarget
    advance
    let source ← expr
    let token ← current
    if token.kind == .symbol .eq then
      failAt token .chainedAssignment
    else
      return .assign (value.span.join source.span) value source
  else
    return .expr value

/-! ### Statements -/

def stmtWith (block : Parser Block) : Parser Stmt := do
  match ← peek? 0 with
  | some (.keyword .modKw) => return .importUnit (← importDecl)
  | some (.keyword .whileKw) => whileLoop block
  | some (.symbol .chain) => chain block
  | some (.keyword .breakKw) => return .breakLoop (← bump).span
  | some (.keyword .skipKw) => return .skipTurn (← bump).span
  | some (.keyword .returnKw) => returnStmt
  | some (.symbol .lbrace) => return .block (← block)
  | some (.ident _) =>
    match ← peek? 1, ← peek? 2 with
    | some (.symbol .comma), _ => rangeLoop block
    | some (.symbol .colonColon), some (.symbol .lbrace) => return .artifact (← artifactDecl block)
    | some (.symbol .colon), _
    | some (.symbol .colonColon), _
    | some (.symbol .colonEq), _
    | some (.symbol .colonColonEq), _ => return .var (← varDecl)
    | some (.symbol .lparen), _ =>
      if opensProc (← get).rest then return .proc (← procDecl block) else exprStmt block
    | _, _ => exprStmt block
  | _ => exprStmt block

/-- Steps over the end of a statement: a semicolon, or nothing at a line break or the end of the
block. -/
def stmtEnd : Parser Unit := do
  let token ← current
  if token.kind = .symbol .semi then
    advance
  else if token.newlineBefore || token.kind == .symbol .rbrace || token.kind == .eof then
    return
  else
    failExpected token .statementEnd

/-- A statement and its end. Imports and artifacts stand at the top level only, and a condition does
not follow a chain. -/
def terminatedStmt (block : Parser Block) (topLevel afterChain : Bool) : Parser Stmt := do
  let token ← current
  if token.kind = .symbol .rbrace then
    failAt token .unmatchedBrace
  let stmt ← stmtWith block
  match stmt with
  | .importUnit decl => if !topLevel then failOver decl.span .importInBlock
  | .artifact decl => if !topLevel then failOver decl.node.span .artifactInBlock
  | .cond arm => if afterChain then failOver arm.span .condAfterChain
  | _ => pure ()
  stmtEnd
  return stmt

def isChain : Stmt → Bool
  | .chain .. => true
  | _ => false

/-- The tokens from the next statement boundary on, when a statement failed that started with
`start` tokens left: a line break, the token behind a semicolon, or the brace that closes the block,
all outside of inner braces. A brace that the statement itself starts with is stepped over. -/
def skipToBoundary (start : Nat) (depth : Nat) : List Token → List Token
  | [] => []
  | t :: ts =>
    if t.kind = .eof then t :: ts
    else if depth = 0 ∧ ts.length + 1 < start ∧ t.newlineBefore then t :: ts
    else match t.kind with
      | .symbol .lbrace => skipToBoundary start (depth + 1) ts
      | .symbol .rbrace =>
        if depth = 0 then (if ts.length + 1 = start then ts else t :: ts)
        else skipToBoundary start (depth - 1) ts
      | .symbol .semi => if depth = 0 then ts else skipToBoundary start depth ts
      | _ => skipToBoundary start depth ts

/-- Runs a parser and gives its outcome, an error included. -/
def attempt {α : Type} (p : Parser α) : Parser (Except ParseError α) :=
  tryCatch (Except.ok <$> p) fun error => return .error error

/-- Keeps an error and skips to the next statement boundary. -/
def recoverFrom (start : Nat) (error : ParseError) : Parser Unit :=
  modify fun s =>
    { s with rest := skipToBoundary start 0 s.rest, errors := s.errors ++ [error] }

/-- Statements up to the end of input or, inside a block, its closing brace. The number bounds how
many there are. -/
def stmtsWith (block : Parser Block) (topLevel : Bool) :
    Nat → (afterChain : Bool) → Parser (List Stmt)
  | 0, _ => return []
  | limit + 1, afterChain => do
    modify fun s => { s with rest := s.rest.dropWhile (·.kind == .symbol .semi) }
    if ← isEnd then
      return []
    if (← isSign .rbrace) && !topLevel then
      return []
    let start ← remaining
    match ← attempt (terminatedStmt block topLevel afterChain) with
    | .ok stmt => return stmt :: (← stmtsWith block topLevel limit (isChain stmt))
    | .error error =>
      if (← read).recovering then
        recoverFrom start error
        stmtsWith block topLevel limit false
      else
        throw error

/-- A block with fewer than `depth` blocks around its innermost part. -/
def blockWithin : (depth : Nat) → Parser Block
  | 0 => do failExpected (← current) (.token (.symbol .lbrace))
  | depth + 1 => do
    let opening ← expectSign .lbrace
    let stmts ← stmtsWith (blockWithin depth) false ((← remaining) + 1) false
    let closing ← expectClosing .rbrace opening
    return ⟨opening.span.join closing.span, stmts⟩

def block : Parser Block := do
  blockWithin ((← remaining) + 1)

/-- Reads the statements of a unit. -/
def program : Parser Program := do
  return ⟨← stmtsWith block true ((← remaining) + 1) false⟩

end ArkLang.Parser
