import ArkLang.Number.Shortest
import ArkLang.Tree.Basic

/-!
# Printing trees

A tree is printed as text that reads back as a tree of the same structure. Parentheses are written
where precedence asks for them, and where a line would otherwise be read together with the one
before it, or a condition as a procedure declaration. Blocks are indented by four blanks a level.
-/

namespace ArkLang

/-- A character as it stands in a string literal. -/
def quotedInLiteral : Char → List Char
  | '\n' => ['\\', 'n']
  | '\t' => ['\\', 't']
  | '\r' => ['\\', 'r']
  | '"' => ['\\', '"']
  | '\\' => ['\\', '\\']
  | c => [c]

def quoted (text : String) : String :=
  String.ofList ('"' :: text.toList.flatMap quotedInLiteral ++ ['"'])

/-! ### Types and expressions -/

mutual

def TypeExpr.print : TypeExpr → String
  | .named _ name => name.value
  | .qualified _ module name => module.value ++ "." ++ name.value
  | .array _ elem size => "[" ++ elem.print ++ "; " ++ toString size ++ "]"
  | .list _ elem => "[" ++ elem.print ++ "]"
  | .proc _ params ret =>
    "(" ++ String.intercalate ", " (TypeExpr.printAll params) ++ ") -> " ++ ret.print

def TypeExpr.printAll : List TypeExpr → List String
  | [] => []
  | t :: ts => t.print :: TypeExpr.printAll ts

end

/-- A float literal: its shortest digits, with a point. -/
def Binary64.print (x : Binary64) : String :=
  let text := x.positionalText
  if text.toList.contains '.' then text else text ++ ".0"

namespace Expr

/-- The level of expressions with a sign in front. -/
def signedLevel : Nat := 11

/-- The level of expressions with something behind their base. -/
def suffixedLevel : Nat := 12

/-- How tightly the outermost part of an expression binds. -/
def level : Expr → Nat
  | binary _ _ op _ => op.precedence
  | unary .. => signedLevel
  | postOp .. | call .. | index .. | member .. => suffixedLevel
  | _ => 13

/-- Whether the text of an expression starts with a minus sign. -/
def startsWithMinus : Expr → Bool
  | unary _ .neg _ => true
  | binary _ left _ _ => left.startsWithMinus
  | postOp _ _ base | call _ base _ | index _ base _ | member _ base _ =>
    suffixedLevel ≤ base.level && base.startsWithMinus
  | _ => false

def isNumber : Expr → Bool
  | int .. | float .. => true
  | _ => false

def isNamedCall : Expr → Bool
  | call _ (ident ..) _ => true
  | _ => false

/-- Puts a text in parentheses if asked to. -/
def parenthesized (needed : Bool) (text : String) : String :=
  if needed then "(" ++ text ++ ")" else text

mutual

def print : Expr → String
  | int _ value => toString value
  | float _ value => value.print
  | str _ value => quoted value
  | bool _ value => if value then "true" else "false"
  | ident _ name => name
  | selfProp _ name => "." ++ name.value
  | array _ items => "[" ++ String.intercalate ", " (printAll items) ++ "]"
  | unary _ op operand =>
    -- two minus signs in a row would be a decrement
    let doubled := op == .neg && operand.startsWithMinus
    op.text ++ parenthesized (doubled || operand.level < signedLevel) operand.print
  | binary _ left op right =>
    parenthesized (left.level < op.precedence) left.print ++ " " ++ op.text ++ " " ++
      parenthesized (right.level < op.precedence + 1) right.print
  | postOp _ op operand => parenthesized (operand.level < suffixedLevel) operand.print ++ op.text
  | call _ callee args =>
    parenthesized (callee.level < suffixedLevel) callee.print ++ "(" ++
      String.intercalate ", " (printAll args) ++ ")"
  | index _ base place =>
    parenthesized (base.level < suffixedLevel) base.print ++ "[" ++ place.print ++ "]"
  | member _ base name =>
    -- a point right behind a number would belong to it
    parenthesized (base.isNumber || base.level < suffixedLevel) base.print ++ "." ++ name.value

def printAll : List Expr → List String
  | [] => []
  | e :: es => e.print :: printAll es

end

/-- An expression at the start of a statement. A minus sign there would go on with the line before,
and a call of a name in front of a block would declare a procedure. -/
def printFirst (e : Expr) (isCond : Bool) : String :=
  parenthesized (e.startsWithMinus || (isCond && e.isNamedCall)) e.print

end Expr

/-! ### Declarations and statements -/

/-- The blanks in front of a line. -/
def indentation (depth : Nat) : String :=
  String.ofList (List.replicate (4 * depth) ' ')

/-- A variable declaration as text. -/
def VarDecl.print (d : VarDecl) : String :=
  d.name.value ++ match d.type, d.value with
    | none, some value => (if d.mutable then " := " else " ::= ") ++ value.print
    | some type, value =>
      (if d.mutable then ": " else " :: ") ++ type.print ++ match value with
        | some value => " = " ++ value.print
        | none => ""
    | none, none => ": void"

def Param.print (p : Param) : String :=
  p.name.value ++ (match p.type with
    | some type => ": " ++ type.print
    | none => "") ++ match p.default with
    | some value => " = " ++ value.print
    | none => ""

def EnumCase.print (c : EnumCase) : String :=
  c.name.value ++ match c.value with
    | some value => " = " ++ toString value.value
    | none => ""

/-- The head of a procedure declaration as text. -/
def printHead (name : Ident) (params : List Param) (ret : Option TypeExpr) : String :=
  name.value ++ "(" ++ String.intercalate ", " (params.map Param.print) ++ ")" ++ (match ret with
    | some type => ": " ++ type.print
    | none => "") ++ " "

/-- Whether the first of some statements is a chain. -/
def startsWithChain : List Stmt → Bool
  | .chain .. :: _ => true
  | _ => false

mutual

/-- A statement as text, without the blanks in front of it. -/
def Stmt.print (depth : Nat) : Stmt → String
  | .importUnit decl => "Mod " ++ if decl.quoted then quoted decl.path else decl.path
  | .var decl => decl.print
  | .proc decl => decl.print depth
  | .artifact decl => decl.print depth
  | .assign _ target value => target.print ++ " = " ++ value.print
  | .cond ⟨_, cond, body⟩ => cond.printFirst true ++ " " ++ body.print depth
  | .chain _ arms fallback =>
    String.intercalate " " (Guarded.printAll depth arms) ++ Block.printFallback depth fallback
  | .whileLoop ⟨_, cond, body⟩ => "while " ++ cond.print ++ " " ++ body.print depth
  | .rangeLoop _ var start stop body =>
    var.value ++ ", " ++ start.print ++ " .. " ++ stop.print ++ " " ++ body.print depth
  | .breakLoop _ => "break"
  | .skipTurn _ => "skip"
  | .ret _ value => "return" ++ match value with
    | some value => " " ++ value.print
    | none => ""
  | .block body => body.print depth
  | .expr value => value.printFirst false
termination_by structural x => x

/-- Statements as text, each on its lines. A semicolon keeps two chains in a row apart. -/
def Stmt.printAll (depth : Nat) : List Stmt → String
  | [] => ""
  | s :: ss =>
    indentation depth ++ s.print depth ++
      (if startsWithChain [s] && startsWithChain ss then ";\n" else "\n") ++ Stmt.printAll depth ss
termination_by structural x => x

def Guarded.printAll (depth : Nat) : List Guarded → List String
  | [] => []
  | ⟨_, cond, body⟩ :: gs =>
    ("|> " ++ cond.print ++ " " ++ body.print depth) :: Guarded.printAll depth gs
termination_by structural x => x

/-- The last arm of a chain, which has no condition, as text. -/
def Block.printFallback (depth : Nat) : Option Block → String
  | none => ""
  | some body => " |> " ++ body.print depth
termination_by structural x => x

def Block.print (depth : Nat) : Block → String
  | ⟨_, []⟩ => "\x7b\x7d"
  | ⟨_, s :: ss⟩ => "\x7b\n" ++ Stmt.printAll (depth + 1) (s :: ss) ++ indentation depth ++ "\x7d"
termination_by structural x => x

def ProcDecl.print (depth : Nat) : ProcDecl → String
  | ⟨_, name, params, ret, body⟩ => printHead name params ret ++ body.print depth
termination_by structural x => x

def ArtifactDecl.print (depth : Nat) : ArtifactDecl → String
  | ⟨_, name, _, []⟩ => name.value ++ " :: \x7b\x7d"
  | ⟨_, name, _, m :: ms⟩ =>
    name.value ++ " :: \x7b\n" ++ Member.printAll (depth + 1) (m :: ms) ++ indentation depth ++
      "\x7d"
termination_by structural x => x

/-- A member of an artifact as text. -/
def Member.print (depth : Nat) : Member → String
  | .prop decl => decl.print
  | .proc decl => decl.print depth
  | .enumCase decl => decl.print
termination_by structural x => x

/-- The members of an artifact as text, each on its lines. -/
def Member.printAll (depth : Nat) : List Member → String
  | [] => ""
  | m :: ms => indentation depth ++ m.print depth ++ "\n" ++ Member.printAll depth ms
termination_by structural x => x

end

def Program.print (p : Program) : String :=
  Stmt.printAll 0 p.stmts

end ArkLang
