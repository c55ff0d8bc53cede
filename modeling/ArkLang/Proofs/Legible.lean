import ArkLang.Proofs.Lexing
import ArkLang.Tree.Parser

/-!
# Trees that can be written down

A tree is legible when it obeys the rules of the language that its constructors do not enforce:
names are spelled like names, integers are in range, and whatever the dialect asks for is there. The
marks of a legible tree are the tokens of its text.
-/

namespace ArkLang

/-! ### Signs of operators -/

def UnaryOp.sign : UnaryOp → Symbol
  | .neg => .minus
  | .not => .bang
  | .bitNot => .tilde

def PostOp.sign : PostOp → Symbol
  | .inc => .plusPlus
  | .dec => .minusMinus

def BinOp.sign : BinOp → Symbol
  | .mul => .star
  | .div => .slash
  | .rem => .percent
  | .add => .plus
  | .sub => .minus
  | .shl => .shl
  | .shr => .shr
  | .lt => .lt
  | .le => .le
  | .gt => .gt
  | .ge => .ge
  | .eq => .eqEq
  | .ne => .bangEq
  | .bitAnd => .amp
  | .bitXor => .caret
  | .bitOr => .bar
  | .and => .andAnd
  | .or => .orOr

theorem UnaryOp.toList_text (op : UnaryOp) : op.text.toList = op.sign.chars := by
  cases op <;> rfl

theorem PostOp.toList_text (op : PostOp) : op.text.toList = op.sign.chars := by
  cases op <;> rfl

theorem BinOp.toList_text (op : BinOp) : op.text.toList = op.sign.chars := by
  cases op <;> rfl

/-- The sign of an operator is read as that operator. -/
@[simp] theorem Parser.unaryOp?_sign (op : UnaryOp) : unaryOp? (.symbol op.sign) = some op := by
  cases op <;> rfl

@[simp] theorem Parser.binOp?_sign (op : BinOp) : binOp? (.symbol op.sign) = some op := by
  cases op <;> rfl

/-! ### Legible trees -/

mutual

/-- A type expression that can be written down. -/
def TypeExpr.Legible (d : Dialect) : TypeExpr → Prop
  | .named _ name => IsName name.value
  | .qualified _ module name => IsName module.value ∧ IsName name.value
  | .array _ elem size => elem.Legible d ∧ size < intBound
  | .list _ elem => elem.Legible d
  | .proc _ params ret => d = .strict ∧ TypeExpr.AllLegible d params ∧ ret.Legible d

def TypeExpr.AllLegible (d : Dialect) : List TypeExpr → Prop
  | [] => True
  | t :: ts => t.Legible d ∧ TypeExpr.AllLegible d ts

end

mutual

def Expr.Legible : Expr → Prop
  | .int _ value => value < intBound
  | .float .. | .str .. | .bool .. => True
  | .ident _ name => IsName name
  | .selfProp _ name => IsName name.value
  | .array _ items => Expr.AllLegible items
  | .unary _ _ operand => operand.Legible
  | .binary _ left _ right => left.Legible ∧ right.Legible
  | .postOp _ _ operand => operand.Legible
  | .call _ callee args => callee.Legible ∧ Expr.AllLegible args
  | .index _ base place => base.Legible ∧ place.Legible
  | .member _ base name => base.Legible ∧ IsName name.value

def Expr.AllLegible : List Expr → Prop
  | [] => True
  | e :: es => e.Legible ∧ Expr.AllLegible es

end

/-- A variable declaration that can be written down. Leaving out the type or the value is up to the
inferred dialect, and a constant has a value. -/
def VarDecl.Legible (d : Dialect) (v : VarDecl) : Prop :=
  IsName v.name.value ∧ (∀ t ∈ v.type, t.Legible d) ∧ (∀ e ∈ v.value, e.Legible) ∧
    (v.type = none → d = .inferred ∧ v.value.isSome) ∧
    (v.value = none → d = .inferred ∧ v.mutable)

/-- A parameter that can be written down. Leaving out the type is up to the inferred dialect, and
needs a default. -/
def Param.Legible (d : Dialect) (p : Param) : Prop :=
  IsName p.name.value ∧ (∀ t ∈ p.type, t.Legible d) ∧ (∀ e ∈ p.default, e.Legible) ∧
    (p.type = none → d = .inferred ∧ p.default.isSome)

/-- Parameters that can be written down; those behind one with a default have one as well. -/
def Param.AllLegible (d : Dialect) (defaulted : Bool) : List Param → Prop
  | [] => True
  | p :: ps => p.Legible d ∧ (defaulted → p.default.isSome) ∧
    Param.AllLegible d (defaulted || p.default.isSome) ps

def EnumCase.Legible (c : EnumCase) : Prop :=
  IsName c.name.value ∧ ∀ v ∈ c.value, v.value.natAbs < intBound

def pathSegmentsOf (path : String) : List String :=
  (path.toList.splitOn '/').map String.ofList

/-- A path is its segments with slashes between them. -/
theorem intercalate_pathSegmentsOf (path : String) :
    ['/'].intercalate ((pathSegmentsOf path).map String.toList) = path.toList := by
  have segments : (pathSegmentsOf path).map String.toList = path.toList.splitOn '/' := by
    simp [pathSegmentsOf, Function.comp_def]
  rw [segments, List.intercalate_splitOn]

/-- An import that can be written down: its name follows from its path. -/
def Import.Legible (i : Import) : Prop :=
  if i.quoted then i.name.value = Parser.moduleAlias i.path ∧ isNameText i.name.value.toList
  else (∀ segment ∈ pathSegmentsOf i.path, IsName segment) ∧
    (pathSegmentsOf i.path).getLast? = some i.name.value

def Member.isCase : Member → Bool
  | .enumCase _ => true
  | _ => false

def Member.isChangeable : Member → Bool
  | .prop decl => decl.mutable
  | _ => false

def artifactKindOf (members : List Member) : ArtifactKind :=
  if members.any Member.isCase then .enumeration
  else if members.any Member.isChangeable then .record
  else .namespaced

/-- The members are cases only, or none of them is a case. -/
def CasesApart (members : List Member) : Prop :=
  (∀ m ∈ members, m.isCase) ∨ ∀ m ∈ members, ¬ m.isCase

mutual

/-- A statement that can be written down. Imports and artifacts stand at the top level only. -/
def Stmt.Legible (d : Dialect) (topLevel : Bool) : Stmt → Prop
  | .importUnit decl => topLevel ∧ decl.Legible
  | .var decl => decl.Legible d
  | .proc decl => decl.Legible d
  | .artifact decl => topLevel ∧ decl.Legible d
  | .assign _ target value => target.isAssignable ∧ target.Legible ∧ value.Legible
  | .cond ⟨_, cond, body⟩ => cond.Legible ∧ body.Legible d
  | .chain _ arms fallback =>
    arms ≠ [] ∧ Guarded.AllLegible d arms ∧ Block.OptionLegible d fallback
  | .whileLoop ⟨_, cond, body⟩ => cond.Legible ∧ body.Legible d
  | .rangeLoop _ var start stop body =>
    IsName var.value ∧ start.Legible ∧ stop.Legible ∧ body.Legible d
  | .breakLoop _ | .skipTurn _ => True
  | .ret _ value => ∀ e ∈ value, e.Legible
  | .block body => body.Legible d
  | .expr value => value.Legible

def Stmt.AllLegible (d : Dialect) (topLevel afterChain : Bool) : List Stmt → Prop
  | [] => True
  | s :: ss => s.Legible d topLevel ∧ (afterChain → ∀ arm, s ≠ .cond arm) ∧
    Stmt.AllLegible d topLevel (Parser.isChain s) ss

def Guarded.AllLegible (d : Dialect) : List Guarded → Prop
  | [] => True
  | ⟨_, cond, body⟩ :: gs => cond.Legible ∧ body.Legible d ∧ Guarded.AllLegible d gs

def Block.Legible (d : Dialect) : Block → Prop
  | ⟨_, stmts⟩ => Stmt.AllLegible d false false stmts

def Block.OptionLegible (d : Dialect) : Option Block → Prop
  | none => True
  | some body => body.Legible d

/-- A procedure that can be written down. Leaving out its type is up to the inferred dialect. -/
def ProcDecl.Legible (d : Dialect) : ProcDecl → Prop
  | ⟨_, name, params, ret, body⟩ => IsName name.value ∧ Param.AllLegible d false params ∧
    (∀ t ∈ ret, t.Legible d) ∧ (ret = none → d = .inferred) ∧ body.Legible d

/-- An artifact that can be written down. What it is follows from its members. -/
def ArtifactDecl.Legible (d : Dialect) : ArtifactDecl → Prop
  | ⟨_, name, kind, members⟩ => IsName name.value ∧ kind = artifactKindOf members ∧
    CasesApart members ∧ Member.AllLegible d members

def Member.Legible (d : Dialect) : Member → Prop
  | .prop decl => decl.Legible d
  | .proc decl => decl.Legible d
  | .enumCase decl => decl.Legible

def Member.AllLegible (d : Dialect) : List Member → Prop
  | [] => True
  | m :: ms => m.Legible d ∧ Member.AllLegible d ms

end

def Program.Legible (d : Dialect) (p : Program) : Prop :=
  Stmt.AllLegible d true false p.stmts

/-! ### The tokens of a tree -/

def Symbol.mark (s : Symbol) : Mark :=
  (.symbol s, false)

@[simp] theorem Symbol.mark_eq (s : Symbol) : s.mark = (.symbol s, false) := rfl

/-- Items with a sign between them. -/
def separated (s : Symbol) (items : List (List Mark)) : List Mark :=
  [s.mark].intercalate items

mutual

def TypeExpr.marks : TypeExpr → List Mark
  | .named _ name => [(.ident name.value, false)]
  | .qualified _ module name =>
    [(.ident module.value, false), Symbol.dot.mark, (.ident name.value, false)]
  | .array _ elem size =>
    Symbol.lbracket.mark :: elem.marks ++
      [Symbol.semi.mark, (.int size, false), Symbol.rbracket.mark]
  | .list _ elem => Symbol.lbracket.mark :: elem.marks ++ [Symbol.rbracket.mark]
  | .proc _ params ret =>
    Symbol.lparen.mark :: separated .comma (TypeExpr.marksAll params) ++
      Symbol.rparen.mark :: Symbol.arrow.mark :: ret.marks

def TypeExpr.marksAll : List TypeExpr → List (List Mark)
  | [] => []
  | t :: ts => t.marks :: TypeExpr.marksAll ts

end

/-- Puts tokens in parentheses if asked to. The tokens depend on whether they start a line. -/
def parenthesizedMarks (needed nl : Bool) (marks : Bool → List Mark) : List Mark :=
  if needed then (.symbol .lparen, nl) :: marks false ++ [Symbol.rparen.mark] else marks nl

mutual

/-- The tokens of an expression; the flag says whether it starts a line. -/
def Expr.marks (nl : Bool) : Expr → List Mark
  | .int _ value => [(.int value, nl)]
  | .float _ value => [(.float value, nl)]
  | .str _ value => [(.str value, nl)]
  | .bool _ value => [(.keyword (if value then .trueKw else .falseKw), nl)]
  | .ident _ name => [(.ident name, nl)]
  | .selfProp _ name => [(.symbol .dot, nl), (.ident name.value, false)]
  | .array _ items =>
    (.symbol .lbracket, nl) :: separated .comma (Expr.marksAll items) ++ [Symbol.rbracket.mark]
  | .unary _ op operand =>
    (.symbol op.sign, nl) ::
      parenthesizedMarks (op == .neg && operand.startsWithMinus || operand.level < signedLevel)
        false fun nl => operand.marks nl
  | .binary _ left op right =>
    parenthesizedMarks (left.level < op.precedence) nl (fun nl => left.marks nl) ++
      op.sign.mark ::
        parenthesizedMarks (right.level < op.precedence + 1) false fun nl => right.marks nl
  | .postOp _ op operand =>
    parenthesizedMarks (operand.level < suffixedLevel) nl (fun nl => operand.marks nl) ++
      [op.sign.mark]
  | .call _ callee args =>
    parenthesizedMarks (callee.level < suffixedLevel) nl (fun nl => callee.marks nl) ++
      Symbol.lparen.mark :: separated .comma (Expr.marksAll args) ++ [Symbol.rparen.mark]
  | .index _ base place =>
    parenthesizedMarks (base.level < suffixedLevel) nl (fun nl => base.marks nl) ++
      Symbol.lbracket.mark :: place.marks false ++ [Symbol.rbracket.mark]
  | .member _ base name =>
    parenthesizedMarks (base.isNumber || base.level < suffixedLevel) nl (fun nl => base.marks nl) ++
      [Symbol.dot.mark, (.ident name.value, false)]

def Expr.marksAll : List Expr → List (List Mark)
  | [] => []
  | e :: es => e.marks false :: Expr.marksAll es

end

/-- The tokens of an expression at the start of a statement. -/
def Expr.marksFirst (nl isCond : Bool) (e : Expr) : List Mark :=
  parenthesizedMarks (e.startsWithMinus || (isCond && e.isNamedCall)) nl fun nl => e.marks nl

def typeMarks (sign : Symbol) : Option TypeExpr → List Mark
  | some type => sign.mark :: type.marks
  | none => []

def valueMarks (sign : Symbol) : Option Expr → List Mark
  | some value => sign.mark :: value.marks false
  | none => []

def VarDecl.marks (nl : Bool) (v : VarDecl) : List Mark :=
  (.ident v.name.value, nl) :: match v.type with
    | some type =>
      typeMarks (if v.mutable then .colon else .colonColon) (some type) ++ valueMarks .eq v.value
    | none => valueMarks (if v.mutable then .colonEq else .colonColonEq) v.value

def Param.marks (p : Param) : List Mark :=
  (.ident p.name.value, false) :: typeMarks .colon p.type ++ valueMarks .eq p.default

def intMarks (value : Int) : List Mark :=
  (if value < 0 then [Symbol.minus.mark] else []) ++ [(.int value.natAbs, false)]

def EnumCase.marks (nl : Bool) (c : EnumCase) : List Mark :=
  (.ident c.name.value, nl) :: match c.value with
    | some value => Symbol.eq.mark :: intMarks value.value
    | none => []

def Import.marks (nl : Bool) (i : Import) : List Mark :=
  (.keyword .modKw, nl) :: if i.quoted then [(.str i.path, false)]
    else separated .slash ((pathSegmentsOf i.path).map fun segment => [(.ident segment, false)])

def headMarks (nl : Bool) (name : Ident) (params : List Param) (ret : Option TypeExpr) :
    List Mark :=
  (.ident name.value, nl) :: Symbol.lparen.mark :: separated .comma (params.map Param.marks) ++
    Symbol.rparen.mark :: typeMarks .colon ret

mutual

/-- The tokens of a statement; the flag says whether it starts a line. -/
def Stmt.marks (nl : Bool) : Stmt → List Mark
  | .importUnit decl => decl.marks nl
  | .var decl => decl.marks nl
  | .proc decl => decl.marks nl
  | .artifact decl => decl.marks nl
  | .assign _ target value => target.marks nl ++ Symbol.eq.mark :: value.marks false
  | .cond ⟨_, cond, body⟩ => cond.marksFirst nl true ++ body.marks false
  | .chain _ arms fallback => Guarded.marksAll nl arms ++ Block.fallbackMarks fallback
  | .whileLoop ⟨_, cond, body⟩ =>
    (.keyword .whileKw, nl) :: cond.marks false ++ body.marks false
  | .rangeLoop _ var start stop body =>
    (.ident var.value, nl) :: Symbol.comma.mark :: start.marks false ++
      Symbol.dotDot.mark :: stop.marks false ++ body.marks false
  | .breakLoop _ => [(.keyword .breakKw, nl)]
  | .skipTurn _ => [(.keyword .skipKw, nl)]
  | .ret _ value => (.keyword .returnKw, nl) :: match value with
    | some value => value.marks false
    | none => []
  | .block body => body.marks nl
  | .expr value => value.marksFirst nl false

/-- The tokens of statements, each on lines of its own. The flag is that of the first one. -/
def Stmt.marksAll (nl : Bool) : List Stmt → List Mark
  | [] => []
  | s :: ss => s.marks nl ++
    (if startsWithChain [s] && startsWithChain ss then [Symbol.semi.mark] else []) ++
      Stmt.marksAll true ss

/-- The tokens of the arms of a chain. The flag is that of the first one. -/
def Guarded.marksAll (nl : Bool) : List Guarded → List Mark
  | [] => []
  | ⟨_, cond, body⟩ :: gs => (.symbol .chain, nl) :: cond.marks false ++ body.marks false ++
    Guarded.marksAll false gs

/-- The tokens of the last arm of a chain. -/
def Block.fallbackMarks : Option Block → List Mark
  | none => []
  | some body => Symbol.chain.mark :: body.marks false

def Block.marks (nl : Bool) : Block → List Mark
  | ⟨_, []⟩ => [(.symbol .lbrace, nl), Symbol.rbrace.mark]
  | ⟨_, s :: ss⟩ =>
    (.symbol .lbrace, nl) :: Stmt.marksAll true (s :: ss) ++ [(.symbol .rbrace, true)]

def ProcDecl.marks (nl : Bool) : ProcDecl → List Mark
  | ⟨_, name, params, ret, body⟩ => headMarks nl name params ret ++ body.marks false

def ArtifactDecl.marks (nl : Bool) : ArtifactDecl → List Mark
  | ⟨_, name, _, []⟩ =>
    [(.ident name.value, nl), Symbol.colonColon.mark, Symbol.lbrace.mark, Symbol.rbrace.mark]
  | ⟨_, name, _, m :: ms⟩ =>
    (.ident name.value, nl) :: Symbol.colonColon.mark :: Symbol.lbrace.mark ::
      Member.marksAll (m :: ms) ++ [(.symbol .rbrace, true)]

def Member.marks : Member → List Mark
  | .prop decl => decl.marks true
  | .proc decl => decl.marks true
  | .enumCase decl => decl.marks true

def Member.marksAll : List Member → List Mark
  | [] => []
  | m :: ms => m.marks ++ Member.marksAll ms

end

def Program.marks (p : Program) : List Mark :=
  Stmt.marksAll false p.stmts ++ [(.eof, !p.stmts.isEmpty)]

end ArkLang
