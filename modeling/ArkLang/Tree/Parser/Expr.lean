import ArkLang.Tree.Parser.Basic

/-!
# Parsing types and expressions

An expression is read by levels: operands joined by binary operators, each operand with signs in
front of it, each of these an atom with calls, indices and members behind it. Binary operators are
read by precedence climbing. What is written behind an atom has to start on its line.

The parser of a level takes the parser of the level below as an argument. Only an opening bracket
leads back to the top, so a nesting deeper than the number of tokens cannot be reached, and that
number serves as the bound of the recursion.
-/

namespace ArkLang.Parser

/-! ### Types -/

def typeWith (inner : Parser TypeExpr) : Parser TypeExpr := do
  let token ← current
  match token.kind with
  | .ident _ => do
    let name ← expectIdent
    let dot ← current
    let qualified : Bool := match ← peek? 1 with
      | some (.ident _) => dot.kind == .symbol .dot && !dot.newlineBefore
      | _ => false
    if qualified then
      advance
      let item ← expectIdent
      return .qualified (name.span.join item.span) name item
    else
      return .named name.span name
  | .symbol .lbracket => do
    advance
    let elem ← inner
    if ← isSign .semi then
      advance
      let sizeToken ← bump
      match sizeToken.kind with
      | .int size => do
        let closing ← expectClosing .rbracket token
        return .array (token.span.join closing.span) elem size
      | _ => failExpected sizeToken .arraySize
    else
      let closing ← expectClosing .rbracket token
      return .list (token.span.join closing.span) elem
  | .symbol .lparen => do
    if (← read).dialect = .inferred then
      failAt token .inferredProcType
    advance
    let params ← commaList .rparen inner (← remaining)
    let _ ← expectClosing .rparen token
    let _ ← expectSign .arrow
    let ret ← inner
    return .proc (token.span.join ret.span) params ret
  | _ => failExpected token .type

/-- A type with fewer than `depth` types around its innermost part. -/
def typeWithin : (depth : Nat) → Parser TypeExpr
  | 0 => do failExpected (← current) .type
  | depth + 1 => typeWith (typeWithin depth)

def typeExpr : Parser TypeExpr := do
  typeWithin ((← remaining) + 1)

/-! ### Expressions -/

/-- A new node over a span. -/
def freshNode (span : Span) : Parser Node :=
  return ⟨← freshId, span⟩

/-- An atom: a literal, a name, a property of the enclosing artifact, a list of items, or an
expression in parentheses. Its first token is stepped over in any case. -/
def atom (expr : Parser Expr) : Parser Expr := do
  let token ← bump
  match token.kind with
  | .int value => return .int (← freshNode token.span) value
  | .float value => return .float (← freshNode token.span) value
  | .str value => return .str (← freshNode token.span) value
  | .keyword .trueKw => return .bool (← freshNode token.span) true
  | .keyword .falseKw => return .bool (← freshNode token.span) false
  | .ident name => return .ident (← freshNode token.span) name
  | .symbol .dot => do
    let name ← expectIdent
    return .selfProp (← freshNode (token.span.join name.span)) name
  | .symbol .lparen => do
    let inner ← expr
    let _ ← expectClosing .rparen token
    return inner
  | .symbol .lbracket => do
    let items ← commaList .rbracket expr (← remaining)
    let closing ← expectClosing .rbracket token
    return .array (← freshNode (token.span.join closing.span)) items
  | _ => failExpected token .expression

/-- What stands behind an atom on its line: increments, calls, indices and members. The number
bounds how many there are. -/
def suffixes (expr : Parser Expr) : Nat → Expr → Parser Expr
  | 0, base => return base
  | limit + 1, base => do
    let token ← current
    if token.newlineBefore then
      return base
    match token.kind with
    | .symbol .plusPlus => do
      advance
      suffixes expr limit (.postOp (← freshNode (base.span.join token.span)) .inc base)
    | .symbol .minusMinus => do
      advance
      suffixes expr limit (.postOp (← freshNode (base.span.join token.span)) .dec base)
    | .symbol .lparen => do
      advance
      let args ← commaList .rparen expr (← remaining)
      let closing ← expectClosing .rparen token
      suffixes expr limit (.call (← freshNode (base.span.join closing.span)) base args)
    | .symbol .lbracket => do
      advance
      let place ← expr
      let closing ← expectClosing .rbracket token
      suffixes expr limit (.index (← freshNode (base.span.join closing.span)) base place)
    | .symbol .dot => do
      advance
      let name ← expectIdent
      suffixes expr limit (.member (← freshNode (base.span.join name.span)) base name)
    | _ => return base

/-- An atom and what stands behind it. -/
def suffixed (expr : Parser Expr) : Parser Expr := do
  let base ← atom expr
  suffixes expr (← remaining) base

/-- The operator that a token is in front of an operand. -/
def unaryOp? : TokenKind → Option UnaryOp
  | .symbol .minus => some .neg
  | .symbol .bang => some .not
  | .symbol .tilde => some .bitNot
  | _ => none

/-- An operand with signs in front of it. The number bounds how many there are. -/
def signed (operand : Parser Expr) : Nat → Parser Expr
  | 0 => operand
  | limit + 1 => do
    let token ← current
    match unaryOp? token.kind with
    | some op => do
      advance
      let inner ← signed operand limit
      return .unary (← freshNode (token.span.join inner.span)) op inner
    | none => operand

/-- The operator that a token is between two operands. -/
def binOp? : TokenKind → Option BinOp
  | .symbol .star => some .mul
  | .symbol .slash => some .div
  | .symbol .percent => some .rem
  | .symbol .plus => some .add
  | .symbol .minus => some .sub
  | .symbol .shl => some .shl
  | .symbol .shr => some .shr
  | .symbol .lt => some .lt
  | .symbol .le => some .le
  | .symbol .gt => some .gt
  | .symbol .ge => some .ge
  | .symbol .eqEq => some .eq
  | .symbol .bangEq => some .ne
  | .symbol .amp => some .bitAnd
  | .symbol .caret => some .bitXor
  | .symbol .bar => some .bitOr
  | .symbol .andAnd => some .and
  | .symbol .orOr => some .or
  | _ => none

/-- Goes on from the operand `left` with all operators that bind at least as tightly as `least`. The
first number bounds how many there are. -/
def climb (operand : Parser Expr) : Nat → (least : Nat) → Expr → Parser Expr
  | 0, _, left => return left
  | limit + 1, least, left => do
    match binOp? (← current).kind with
    | none => return left
    | some op =>
      if op.precedence < least then
        return left
      advance
      let first ← operand
      let right ← climb operand limit (op.precedence + 1) first
      let joined := Expr.binary (← freshNode (left.span.join right.span)) left op right
      climb operand limit least joined

/-- An expression, with a parser for the expressions between brackets. -/
def exprWith (inner : Parser Expr) : Parser Expr := do
  let operand := do signed (suffixed inner) (← remaining)
  let left ← operand
  climb operand (← remaining) 1 left

/-- An expression with fewer than `depth` pairs of brackets around its innermost part. -/
def exprWithin : (depth : Nat) → Parser Expr
  | 0 => do failExpected (← current) .expression
  | depth + 1 => exprWith (exprWithin depth)

def expr : Parser Expr := do
  exprWithin ((← remaining) + 1)

/-- Reads an expression that ends with the input. -/
def wholeExpr : Parser Expr := do
  let value ← expr
  let token ← current
  if token.kind = .eof then
    return value
  else
    failExpected token .endOfInput

end ArkLang.Parser
