import ArkLang.Text.Span
import ArkLang.Number.Binary64
import ArkLang.Tree.Operator

/-!
# Syntax trees

A program is a list of statements. Every part of a tree carries the span it was read from.
Declarations, parameters, range loops and expressions carry a number as well, their identity inside
the unit: what an analysis finds out about them is kept in tables keyed by it.
-/

namespace ArkLang

/-- The identity of a node inside one unit, given in the order of reading. -/
abbrev NodeId := Nat

/-- The identity and the place of a node. -/
structure Node where
  id : NodeId
  span : Span
  deriving DecidableEq, Repr, Inhabited

/-- A type as it is written. -/
inductive TypeExpr where
  /-- A scalar or an artifact. -/
  | named (span : Span) (name : Ident)
  /-- An artifact of an imported module. -/
  | qualified (span : Span) (module name : Ident)
  /-- `[T; n]` -/
  | array (span : Span) (elem : TypeExpr) (size : Nat)
  /-- `[T]` -/
  | list (span : Span) (elem : TypeExpr)
  /-- `(T, U) -> R` -/
  | proc (span : Span) (params : List TypeExpr) (ret : TypeExpr)
  deriving Repr, Inhabited

def TypeExpr.span : TypeExpr → Span
  | named span _ | qualified span _ _ | array span _ _ | list span _ | proc span _ _ => span

/-- Expressions. A number literal is unsigned; a sign in front of it is an operator. -/
inductive Expr where
  | int (node : Node) (value : Nat)
  | float (node : Node) (value : Binary64)
  | str (node : Node) (value : String)
  | bool (node : Node) (value : Bool)
  | ident (node : Node) (name : String)
  /-- `.name`: a property or procedure of the enclosing artifact. -/
  | selfProp (node : Node) (name : Ident)
  | array (node : Node) (items : List Expr)
  | unary (node : Node) (op : UnaryOp) (operand : Expr)
  | binary (node : Node) (left : Expr) (op : BinOp) (right : Expr)
  | postOp (node : Node) (op : PostOp) (operand : Expr)
  | call (node : Node) (callee : Expr) (args : List Expr)
  | index (node : Node) (base index : Expr)
  | member (node : Node) (base : Expr) (name : Ident)
  deriving Repr, Inhabited

namespace Expr

/-- The identity and place of an expression. -/
def node : Expr → Node
  | int node _ | float node _ | str node _ | bool node _ | ident node _ | selfProp node _
  | array node _ | unary node _ _ | binary node _ _ _ | postOp node _ _ | call node _ _
  | index node _ _ | member node _ _ => node

def id (e : Expr) : NodeId :=
  e.node.id

def span (e : Expr) : Span :=
  e.node.span

/-- The value of an integer literal, with or without a sign in front of it. -/
def constInt? : Expr → Option Int
  | int _ value => some value
  | unary _ .neg (int _ value) => some (-value)
  | _ => none

/-- Whether an expression is of a form that can stand to the left of an assignment. -/
def isAssignable : Expr → Bool
  | ident .. | selfProp .. | member .. | index .. => true
  | _ => false

end Expr

/-- `Mod math`, `Mod util/strings`, `Mod "lib/geo"` -/
structure Import where
  span : Span
  /-- The path as written, without quotes. -/
  path : String
  quoted : Bool
  /-- The name under which the module is reachable: the last segment of the path. -/
  name : Ident
  deriving DecidableEq, Repr, Inhabited

/-- A bare name is looked up in the search root; every other path starts at the importing unit. -/
def Import.isRooted (i : Import) : Bool :=
  !i.quoted && !i.path.toList.contains '/'

/-- A variable, a constant or a property. -/
structure VarDecl where
  node : Node
  name : Ident
  mutable : Bool
  type : Option TypeExpr
  value : Option Expr
  deriving Repr, Inhabited

/-- A parameter of a procedure. -/
structure Param where
  node : Node
  name : Ident
  type : Option TypeExpr
  default : Option Expr
  deriving Repr, Inhabited

/-- A case of an enumeration. -/
structure EnumCase where
  span : Span
  name : Ident
  value : Option (Located Int)
  deriving DecidableEq, Repr, Inhabited

/-- What an artifact is. -/
inductive ArtifactKind where
  | record | enumeration | namespaced
  deriving DecidableEq, Repr, Inhabited

mutual

/-- Statements. -/
inductive Stmt where
  | importUnit (decl : Import)
  | var (decl : VarDecl)
  | proc (decl : ProcDecl)
  | artifact (decl : ArtifactDecl)
  | assign (span : Span) (target value : Expr)
  /-- `cond { ... }` -/
  | cond (arm : Guarded)
  /-- `|> a { ... } |> b { ... } |> { ... }` -/
  | chain (span : Span) (arms : List Guarded) (fallback : Option Block)
  | whileLoop (loop : Guarded)
  /-- `i, lo .. hi { ... }`, both ends included -/
  | rangeLoop (node : Node) (var : Ident) (start stop : Expr) (body : Block)
  | breakLoop (span : Span)
  | skipTurn (span : Span)
  | ret (span : Span) (value : Option Expr)
  | block (body : Block)
  | expr (value : Expr)

/-- A body under a condition. -/
structure Guarded where
  span : Span
  cond : Expr
  body : Block

/-- Statements between braces. -/
structure Block where
  span : Span
  stmts : List Stmt

/-- A procedure with its body. -/
structure ProcDecl where
  node : Node
  name : Ident
  params : List Param
  ret : Option TypeExpr
  body : Block

/-- A record, an enumeration or a namespace. -/
structure ArtifactDecl where
  node : Node
  name : Ident
  kind : ArtifactKind
  members : List Member

/-- A member of an artifact. -/
inductive Member where
  | prop (decl : VarDecl)
  | proc (decl : ProcDecl)
  | enumCase (decl : EnumCase)

end

instance : Inhabited Block := ⟨⟨default, []⟩⟩

instance : Inhabited ProcDecl := ⟨⟨default, default, [], none, default⟩⟩

instance : Inhabited Stmt := ⟨.breakLoop default⟩

/-- The place of a statement. -/
def Stmt.span : Stmt → Span
  | importUnit decl => decl.span
  | var decl => decl.node.span
  | proc decl => decl.node.span
  | artifact decl => decl.node.span
  | assign span _ _ => span
  | cond arm => arm.span
  | chain span _ _ => span
  | whileLoop loop => loop.span
  | rangeLoop node _ _ _ _ => node.span
  | breakLoop span | skipTurn span => span
  | ret span _ => span
  | block body => body.span
  | expr value => value.span

namespace ArtifactDecl

def props (a : ArtifactDecl) : List VarDecl :=
  a.members.filterMap fun
    | .prop decl => some decl
    | _ => none

def procs (a : ArtifactDecl) : List ProcDecl :=
  a.members.filterMap fun
    | .proc decl => some decl
    | _ => none

def cases (a : ArtifactDecl) : List EnumCase :=
  a.members.filterMap fun
    | .enumCase decl => some decl
    | _ => none

end ArtifactDecl

/-- A whole unit. -/
structure Program where
  stmts : List Stmt

instance : Inhabited Program := ⟨⟨[]⟩⟩

/-- The import statements of a unit, in order. -/
def Program.imports (p : Program) : List Import :=
  p.stmts.filterMap fun
    | .importUnit decl => some decl
    | _ => none

end ArkLang
