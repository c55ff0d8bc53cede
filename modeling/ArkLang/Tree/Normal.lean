import ArkLang.Tree.Basic

/-!
# Trees up to places and identities

Two trees have the same structure when they differ only in places and identities. The normal form of
a tree has all places at zero and its identities numbered in the order of reading: a declaration
comes before its parts, an expression after its operands. Trees of the same structure have the same
normal form.
-/

namespace ArkLang

/-- The place of everything in a normal form. -/
def nowhere : Span :=
  ⟨0, 0⟩

/-- A name without its place. -/
def Ident.normalize (name : Ident) : Ident :=
  ⟨name.value, nowhere⟩

/-! ### Normal forms -/

abbrev Numbering := StateM NodeId

/-- The next node of a normal form. -/
def Numbering.next : Numbering Node := do
  let id ← get
  set (id + 1)
  return ⟨id, nowhere⟩

mutual

def TypeExpr.normalize : TypeExpr → TypeExpr
  | .named _ name => .named nowhere (Ident.normalize name)
  | .qualified _ module name => .qualified nowhere (Ident.normalize module) (Ident.normalize name)
  | .array _ elem size => .array nowhere elem.normalize size
  | .list _ elem => .list nowhere elem.normalize
  | .proc _ params ret => .proc nowhere (TypeExpr.normalizeAll params) ret.normalize

def TypeExpr.normalizeAll : List TypeExpr → List TypeExpr
  | [] => []
  | t :: ts => t.normalize :: TypeExpr.normalizeAll ts

end

mutual

/-- The normal form of an expression: operands are numbered first. -/
def Expr.normalize : Expr → Numbering Expr
  | .int _ value => return .int (← .next) value
  | .float _ value => return .float (← .next) value
  | .str _ value => return .str (← .next) value
  | .bool _ value => return .bool (← .next) value
  | .ident _ name => return .ident (← .next) name
  | .selfProp _ name => return .selfProp (← .next) (Ident.normalize name)
  | .array _ items => do
    let items ← Expr.normalizeAll items
    return .array (← .next) items
  | .unary _ op operand => do
    let operand ← operand.normalize
    return .unary (← .next) op operand
  | .binary _ left op right => do
    let left ← left.normalize
    let right ← right.normalize
    return .binary (← .next) left op right
  | .postOp _ op operand => do
    let operand ← operand.normalize
    return .postOp (← .next) op operand
  | .call _ callee args => do
    let callee ← callee.normalize
    let args ← Expr.normalizeAll args
    return .call (← .next) callee args
  | .index _ base place => do
    let base ← base.normalize
    let place ← place.normalize
    return .index (← .next) base place
  | .member _ base name => do
    let base ← base.normalize
    return .member (← .next) base (Ident.normalize name)

def Expr.normalizeAll : List Expr → Numbering (List Expr)
  | [] => return []
  | e :: es => do
    let e ← e.normalize
    return e :: (← Expr.normalizeAll es)

end

def Expr.normalizeOption : Option Expr → Numbering (Option Expr)
  | none => return none
  | some e => return some (← e.normalize)

def VarDecl.normalize (d : VarDecl) : Numbering VarDecl := do
  let node ← .next
  let value ← Expr.normalizeOption d.value
  return ⟨node, Ident.normalize d.name, d.mutable, d.type.map TypeExpr.normalize, value⟩

def Param.normalize (p : Param) : Numbering Param := do
  let node ← .next
  let default ← Expr.normalizeOption p.default
  return ⟨node, Ident.normalize p.name, p.type.map TypeExpr.normalize, default⟩

def Param.normalizeAll : List Param → Numbering (List Param)
  | [] => return []
  | p :: ps => do
    let p ← p.normalize
    return p :: (← Param.normalizeAll ps)

def EnumCase.normalize (c : EnumCase) : EnumCase :=
  ⟨nowhere, Ident.normalize c.name, c.value.map fun v => ⟨v.value, nowhere⟩⟩

mutual

/-- The normal form of a statement. -/
def Stmt.normalize : Stmt → Numbering Stmt
  | .importUnit decl =>
    return .importUnit ⟨nowhere, decl.path, decl.quoted, Ident.normalize decl.name⟩
  | .var decl => return .var (← decl.normalize)
  | .proc decl => return .proc (← decl.normalize)
  | .artifact decl => return .artifact (← decl.normalize)
  | .assign _ target value => do
    let target ← target.normalize
    return .assign nowhere target (← value.normalize)
  | .cond arm => return .cond (← arm.normalize)
  | .chain _ arms fallback => do
    let arms ← Guarded.normalizeAll arms
    return .chain nowhere arms (← Block.normalizeOption fallback)
  | .whileLoop loop => return .whileLoop (← loop.normalize)
  | .rangeLoop _ var start stop body => do
    let node ← .next
    let start ← start.normalize
    let stop ← stop.normalize
    return .rangeLoop node (Ident.normalize var) start stop (← body.normalize)
  | .breakLoop _ => return .breakLoop nowhere
  | .skipTurn _ => return .skipTurn nowhere
  | .ret _ value => return .ret nowhere (← Expr.normalizeOption value)
  | .block body => return .block (← body.normalize)
  | .expr value => return .expr (← value.normalize)

def Stmt.normalizeAll : List Stmt → Numbering (List Stmt)
  | [] => return []
  | s :: ss => do
    let s ← s.normalize
    return s :: (← Stmt.normalizeAll ss)

def Guarded.normalize : Guarded → Numbering Guarded
  | ⟨_, cond, body⟩ => do
    let cond ← cond.normalize
    return ⟨nowhere, cond, ← body.normalize⟩

def Guarded.normalizeAll : List Guarded → Numbering (List Guarded)
  | [] => return []
  | g :: gs => do
    let g ← g.normalize
    return g :: (← Guarded.normalizeAll gs)

def Block.normalize : Block → Numbering Block
  | ⟨_, stmts⟩ => return ⟨nowhere, ← Stmt.normalizeAll stmts⟩

def Block.normalizeOption : Option Block → Numbering (Option Block)
  | none => return none
  | some body => return some (← body.normalize)

def ProcDecl.normalize : ProcDecl → Numbering ProcDecl
  | ⟨_, name, params, ret, body⟩ => do
    let node ← .next
    let params ← Param.normalizeAll params
    return ⟨node, Ident.normalize name, params, ret.map TypeExpr.normalize, ← body.normalize⟩

def ArtifactDecl.normalize : ArtifactDecl → Numbering ArtifactDecl
  | ⟨_, name, kind, members⟩ => do
    let node ← .next
    return ⟨node, Ident.normalize name, kind, ← Member.normalizeAll members⟩

def Member.normalize : Member → Numbering Member
  | .prop decl => return .prop (← decl.normalize)
  | .proc decl => return .proc (← decl.normalize)
  | .enumCase decl => return .enumCase decl.normalize

def Member.normalizeAll : List Member → Numbering (List Member)
  | [] => return []
  | m :: ms => do
    let m ← m.normalize
    return m :: (← Member.normalizeAll ms)

end

/-- The normal form of a program: no places, and nodes numbered from zero. -/
def Program.normalize (p : Program) : Program :=
  ⟨((Stmt.normalizeAll p.stmts).run 0).1⟩

/-! ### Same structure -/

mutual

/-- Whether two type expressions differ at most in places. -/
def TypeExpr.same : TypeExpr → TypeExpr → Bool
  | .named _ a, .named _ b => a.value == b.value
  | .qualified _ m a, .qualified _ n b => m.value == n.value && a.value == b.value
  | .array _ s m, .array _ t n => s.same t && m == n
  | .list _ s, .list _ t => s.same t
  | .proc _ ss r, .proc _ ts u => TypeExpr.sameAll ss ts && r.same u
  | _, _ => false

def TypeExpr.sameAll : List TypeExpr → List TypeExpr → Bool
  | [], [] => true
  | s :: ss, t :: ts => s.same t && TypeExpr.sameAll ss ts
  | _, _ => false

end

mutual

/-- Whether two expressions differ at most in places and identities. -/
def Expr.same : Expr → Expr → Bool
  | .int _ a, .int _ b => a == b
  | .float _ a, .float _ b => a == b
  | .str _ a, .str _ b => a == b
  | .bool _ a, .bool _ b => a == b
  | .ident _ a, .ident _ b => a == b
  | .selfProp _ a, .selfProp _ b => a.value == b.value
  | .array _ as, .array _ bs => Expr.sameAll as bs
  | .unary _ o a, .unary _ p b => o == p && a.same b
  | .binary _ a o c, .binary _ b p d => a.same b && o == p && c.same d
  | .postOp _ o a, .postOp _ p b => o == p && a.same b
  | .call _ a as, .call _ b bs => a.same b && Expr.sameAll as bs
  | .index _ a c, .index _ b d => a.same b && c.same d
  | .member _ a m, .member _ b n => a.same b && m.value == n.value
  | _, _ => false

def Expr.sameAll : List Expr → List Expr → Bool
  | [], [] => true
  | a :: as, b :: bs => a.same b && Expr.sameAll as bs
  | _, _ => false

end

/-- Lifts a comparison to values that may be missing. -/
def sameOption {α : Type} (same : α → α → Bool) : Option α → Option α → Bool
  | none, none => true
  | some a, some b => same a b
  | _, _ => false

def VarDecl.same (a b : VarDecl) : Bool :=
  a.name.value == b.name.value && a.mutable == b.mutable &&
    sameOption TypeExpr.same a.type b.type && sameOption Expr.same a.value b.value

def Param.same (a b : Param) : Bool :=
  a.name.value == b.name.value && sameOption TypeExpr.same a.type b.type &&
    sameOption Expr.same a.default b.default

def Param.sameAll : List Param → List Param → Bool
  | [], [] => true
  | a :: as, b :: bs => a.same b && Param.sameAll as bs
  | _, _ => false

def EnumCase.same (a b : EnumCase) : Bool :=
  a.name.value == b.name.value && a.value.map Located.value == b.value.map Located.value

mutual

/-- Whether two statements differ at most in places and identities. -/
def Stmt.same : Stmt → Stmt → Bool
  | .importUnit a, .importUnit b =>
    a.path == b.path && a.quoted == b.quoted && a.name.value == b.name.value
  | .var a, .var b => a.same b
  | .proc a, .proc b => a.same b
  | .artifact a, .artifact b => a.same b
  | .assign _ a c, .assign _ b d => a.same b && c.same d
  | .cond a, .cond b => a.same b
  | .chain _ as c, .chain _ bs d => Guarded.sameAll as bs && Block.sameOption c d
  | .whileLoop a, .whileLoop b => a.same b
  | .rangeLoop _ v a c e, .rangeLoop _ w b d f =>
    v.value == w.value && a.same b && c.same d && e.same f
  | .breakLoop _, .breakLoop _ => true
  | .skipTurn _, .skipTurn _ => true
  | .ret _ a, .ret _ b => ArkLang.sameOption Expr.same a b
  | .block a, .block b => a.same b
  | .expr a, .expr b => a.same b
  | _, _ => false
termination_by structural x => x

def Stmt.sameAll : List Stmt → List Stmt → Bool
  | [], [] => true
  | a :: as, b :: bs => a.same b && Stmt.sameAll as bs
  | _, _ => false
termination_by structural x => x

def Guarded.same : Guarded → Guarded → Bool
  | ⟨_, a, c⟩, ⟨_, b, d⟩ => a.same b && c.same d
termination_by structural x => x

def Guarded.sameAll : List Guarded → List Guarded → Bool
  | [], [] => true
  | a :: as, b :: bs => a.same b && Guarded.sameAll as bs
  | _, _ => false
termination_by structural x => x

def Block.same : Block → Block → Bool
  | ⟨_, as⟩, ⟨_, bs⟩ => Stmt.sameAll as bs
termination_by structural x => x

def Block.sameOption : Option Block → Option Block → Bool
  | none, none => true
  | some a, some b => a.same b
  | _, _ => false
termination_by structural x => x

def ProcDecl.same : ProcDecl → ProcDecl → Bool
  | ⟨_, m, ps, r, a⟩, ⟨_, n, qs, s, b⟩ =>
    m.value == n.value && Param.sameAll ps qs && ArkLang.sameOption TypeExpr.same r s && a.same b
termination_by structural x => x

def ArtifactDecl.same : ArtifactDecl → ArtifactDecl → Bool
  | ⟨_, m, k, as⟩, ⟨_, n, l, bs⟩ => m.value == n.value && k == l && Member.sameAll as bs
termination_by structural x => x

def Member.same : Member → Member → Bool
  | .prop a, .prop b => a.same b
  | .proc a, .proc b => a.same b
  | .enumCase a, .enumCase b => a.same b
  | _, _ => false
termination_by structural x => x

def Member.sameAll : List Member → List Member → Bool
  | [], [] => true
  | a :: as, b :: bs => a.same b && Member.sameAll as bs
  | _, _ => false
termination_by structural x => x

end

/-- Whether two programs differ at most in places and identities. -/
def Program.same (p q : Program) : Bool :=
  Stmt.sameAll p.stmts q.stmts

end ArkLang
