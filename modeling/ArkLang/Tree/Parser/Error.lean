import ArkLang.Token.Basic

/-!
# Parse errors

What can be wrong with a sequence of tokens, and how it is reported. A fault is a cause; its class
and its wording are functions of it.
-/

namespace ArkLang

/-- What was looked for where something else was found. -/
inductive Expectation where
  | token (kind : TokenKind)
  | identifier
  | expression
  | type
  | endOfInput
  | artifactMember
  | declarationSign
  | arraySize
  | modulePath
  | rangeDots
  | statementEnd
  | memberEnd (artifact : String)
  deriving DecidableEq, Repr

/-- How a message names what was looked for. -/
def Expectation.text : Expectation → String
  | token kind => kind.describe
  | identifier => "identifier"
  | expression => "an expression"
  | type => "a type"
  | endOfInput => "end of input"
  | artifactMember => "an artifact member"
  | declarationSign => "a declaration operator"
  | arraySize => "an array size"
  | modulePath => "a module path after `Mod`"
  | rangeDots => "`..` in range header"
  | statementEnd => "`;` or a line break"
  | memberEnd artifact => "`,` or a line break between members of `" ++ artifact ++ "`"

/-- What can be wrong with a sequence of tokens. -/
inductive ParseFault where
  | expected (what : Expectation) (found : TokenKind)
  | neverClosed (opening : TokenKind) (position : Position)
  | unmatchedBrace
  | importInBlock
  | artifactInBlock
  | condAfterChain
  | invalidTarget
  | chainedAssignment
  | badModuleName (path : String)
  | caseValue (name : String) (found : TokenKind)
  | mixedEnumeration (name : String)
  | catchAllNotLast
  | chainWithoutCondition
  | defaultOrder (param : String)
  | untypedParam (param : String)
  | constantWithoutValue (name : String)
  | inferredDeclaration (sign : Symbol) (name : String)
  | strictWithoutValue (name : String)
  | strictWithoutReturn (name : String)
  | strictWithoutParamType (param : String)
  | inferredProcType
  deriving DecidableEq, Repr

namespace ParseFault

/-- The class under which a fault is reported. -/
def kindName : ParseFault → String
  | neverClosed .. | unmatchedBrace => "UnbalancedBlock"
  | inferredDeclaration .. | strictWithoutValue _ | strictWithoutReturn _
  | strictWithoutParamType _ | inferredProcType => "DialectMismatch"
  | _ => "UnexpectedToken"

def message : ParseFault → String
  | expected what found => "expected " ++ what.text ++ ", found " ++ found.describe
  | neverClosed opening position =>
    opening.describe ++ " opened at line " ++ toString position.line ++ ", column " ++
      toString position.column ++ " is never closed"
  | unmatchedBrace => "unmatched `\x7d`"
  | importInBlock => "imports must appear at module level"
  | artifactInBlock => "artifact declarations must appear at module level"
  | condAfterChain => "a conditional following a `|>` chain must itself start with `|>`"
  | invalidTarget => "invalid assignment target"
  | chainedAssignment => "assignments cannot be chained"
  | badModuleName path => "module path \"" ++ path ++ "\" does not end in a valid module name"
  | caseValue name found =>
    "enum case `" ++ name ++ "` needs an integer literal value, found " ++ found.describe
  | mixedEnumeration name =>
    "enum cases cannot be mixed with properties or procedures in `" ++ name ++ "`"
  | catchAllNotLast => "the catch-all `|> \x7b ... \x7d` arm must be the last arm of a chain"
  | chainWithoutCondition => "a `|>` chain needs at least one conditional arm"
  | defaultOrder param =>
    "parameter `" ++ param ++ "` without a default follows a parameter with a default"
  | untypedParam param => "parameter `" ++ param ++ "` needs a type or a default value"
  | constantWithoutValue name => "immutable declaration `" ++ name ++ "` needs a value"
  | inferredDeclaration sign name =>
    "`" ++ sign.text ++ "` declarations belong to the inferred dialect; write `" ++ name ++
      ": Type = value`"
  | strictWithoutValue name =>
    "`" ++ name ++ "` has no value; declarations without a value belong to the inferred dialect"
  | strictWithoutReturn name =>
    "procedure `" ++ name ++ "` needs a return type in the strict dialect"
  | strictWithoutParamType param =>
    "parameter `" ++ param ++ "` needs a type in the strict dialect"
  | inferredProcType => "procedure types belong to the strict dialect"

end ParseFault

/-- A fault and its place. -/
structure ParseError where
  fault : ParseFault
  span : Span
  position : Position
  deriving DecidableEq, Repr

end ArkLang
