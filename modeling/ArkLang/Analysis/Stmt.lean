import ArkLang.Analysis.Expr

/-!
# Checking declarations and statements

An error ends the check of one statement; the statements behind it are still checked. A variable
whose value has an error is declared all the same, with an unknown type.
-/

namespace ArkLang

namespace Check

variable (need : Item → Check Unit)

/-! ### Declarations -/

/-- The annotated type of a declaration, unless it is already known. -/
def annotation (declared : Option Ty) (type : Option TypeExpr) : Check (Option Ty) := do
  match declared, type with
  | some t, _ => return some t
  | none, some t => return some (← ofExcept ((← read).valueTypeOf t))
  | none, none => return none

/-- The type of a slot from its annotation and the value put into it; `nothing` is the cause to
report if the value is that of a procedure that returns nothing. -/
def slotType (c : Context) (declared : Option Ty) (value : Option Expr) (nothing : SemanticFault) :
    Check Ty := do
  match declared, value with
  | some t, some value =>
    expectType need c value t
    return t
  | some t, none => return t
  | none, some value =>
    let t ← exprType need c value none
    if t = .void then
      fail nothing value.span
    return t
  | none, none => return .unknown

/-- The type of a variable or property. -/
def declType (c : Context) (decl : VarDecl) (declared : Option Ty) : Check Ty := do
  slotType need c (← annotation declared decl.type) decl.value (.holdsNothing decl.name.value)

def paramType (c : Context) (param : Param) : Check Ty := do
  slotType need c (← annotation none param.type) param.default (.defaultOfNothing param.name.value)

/-- Declares a parameter. A name that another parameter has is reported, and the parameter gets a
symbol that no name reaches. -/
def declareParam (c : Context) (name : Ident) (type : Ty) : Check (SymbolId × Context) := do
  match ← attempt (declare c name .param type false) with
  | .ok declared => return declared
  | .error _ =>
    note ⟨.paramTwice name.value, name.span⟩
    return (← newSymbol c name .param type false, c)

/-- Types and declares parameters in order. A default sees the parameters before it. -/
def paramInfos (c : Context) : List Param → Check (List ParamInfo)
  | [] => return []
  | param :: rest => do
    let type ← orNote (paramType need c param) .unknown
    let (symbol, inner) ← declareParam c param.name type
    setDeclSymbol param.node.id symbol
    let info : ParamInfo := ⟨param.name.value, type, param.default.isSome, symbol⟩
    return info :: (← paramInfos inner rest)

/-- Checks the parameters and the declared result of a procedure. Defaults see the module and the
parameters before them. -/
def signature (id : ProcId) (decl : ProcDecl) : Check Unit := do
  let c : Context := { frames := [[]], procs := [id] }
  let params ← paramInfos need c decl.params
  let o ← read
  match decl.ret with
  | none => updateProc id fun p => { p with info.params := params }
  | some type =>
    let ret ← orNote (ofExcept (o.typeOf type)) .unknown
    updateProc id fun p => { p with info.params := params, info.ret := ret, ret := some ret }

/-- Adds a procedure that is declared in a block. -/
def newProc (c : Context) (decl : ProcDecl) : Check ProcId := do
  let id := (← get).procs.size
  let info : ProcInfo :=
    { id, name := decl.name.value, path := [decl.name.value], decl := decl.node.id, params := [],
      ret := .unknown, kind := .nested c.proc, captures := [], nestedIn := c.proc }
  modify fun s => { s with
    procs := s.procs.push { info, hasDeclaredRet := decl.ret.isSome }
    procDecls := s.procDecls.insert decl.node.id id }
  return id

/-- What `.name` speaks of in a procedure declared in a block: procedures of a namespace lend it,
methods of a record do not lend their receiver. -/
def lentSelf : Option SelfContext → Option SelfContext
  | some (.namespaced ref) => some (.namespaced ref)
  | _ => none

def bodyContext (outer : Context) (self : Option SelfContext) (id : ProcId) : Check Context := do
  let params := (← procEntry id).info.params
  return { frames := [] :: params.map (fun p => (p.name, p.symbol)) :: outer.frames,
           procs := id :: outer.procs, self }

/-- Checks the body of a procedure, declared where `outer` says. Afterwards its result is settled:
nothing, unless something was returned. -/
def body (outer : Context) (self : Option SelfContext) (id : ProcId) (code : Context → Check Unit) :
    Check Unit := do
  code (← bodyContext outer self id)
  updateProc id fun p =>
    let ret := p.ret.getD .void
    { p with ret := some ret, info.ret := ret }

/-! ### Statements -/

def condition (c : Context) (cond : Expr) : Check Unit := do
  let type ← exprType need c cond none
  if type ≠ .bool && !type.isUnknown then
    fail (.conditionType type) cond.span

/-- Checks the upper end of a range: a number, or an array or list that stands for its length. -/
def rangeEnd (c : Context) (stop : Expr) : Check Unit := do
  match ← exprType need c stop none with
  | .int | .array _ _ | .list _ | .unknown => return ()
  | other => fail (.rangeEndType other) stop.span

/-- Checks a `return` against what is known of the result. The first `return` decides a result that
is not declared. -/
def returnStmt (c : Context) (span : Span) (value : Option Expr) : Check Unit := do
  let some id := c.proc | fail .returnOutsideProc span
  let entry ← procEntry id
  let name := entry.info.name
  match value, entry.ret with
  | some value, some .void =>
    let _ ← exprType need c value none
    fail (.returnsValue name entry.hasDeclaredRet) value.span
  | some value, some ret =>
    if entry.hasDeclaredRet then
      expectType need c value ret
    else
      let type ← exprType need c value (some ret)
      if type = .int && ret = .float then
        widen value.id
      else unless type.agrees ret do
        fail (.returnsDiffer name type ret) value.span
  | some value, none =>
    let type ← exprType need c value none
    if type = .void then
      fail .returnsCallOfNothing value.span
    updateProc id fun p => { p with ret := some type }
  | none, none => updateProc id fun p => { p with ret := some .void }
  | none, some .void | none, some .unknown => return ()
  | none, some ret => fail (.returnsNothing name ret entry.hasDeclaredRet) span

def assignment (c : Context) (target value : Expr) : Check Unit := do
  let type ← exprType need c target none
  assign c target
  expectType need c value type

def localVar (c : Context) (decl : VarDecl) : Check Context := do
  let outcome ← attempt (declType need c decl none)
  let type := outcome.toOption.getD .unknown
  match ← attempt (declare c decl.name .var type decl.mutable) with
  | .error e =>
    note e
    return c
  | .ok (symbol, inner) =>
    setDeclSymbol decl.node.id symbol
    noteOutcome outcome
    return inner

/-- Checks the ends of a range; of two errors the first counts. -/
def rangeEnds (c : Context) (start stop : Expr) : Check (Except SemanticError Unit) := do
  let first ← attempt (expectType need c start .int)
  let second ← attempt (rangeEnd need c stop)
  match first with
  | .ok _ => return second
  | .error e => return .error e

def jumpStmt (c : Context) (jump : Jump) (span : Span) : Check Unit := do
  unless c.inLoop do
    fail (.jumpOutsideLoop jump) span

mutual

/-- Checks a statement, and gives the context of the statements behind it. -/
def stmt (c : Context) : Stmt → Check Context
  | .importUnit _ | .artifact _ => return c
  | .var decl => localVar need c decl
  | .proc decl => nestedProc c decl
  | .assign _ target value => do
    orNote (assignment need c target value) ()
    return c
  | .cond ⟨_, cond, body⟩ => do
    let outcome ← attempt (condition need c cond)
    block c false body
    noteOutcome outcome
    return c
  | .chain _ arms fallback => do
    chainArms c arms
    match fallback with
    | some body => block c false body
    | none => pure ()
    return c
  | .whileLoop ⟨_, cond, body⟩ => do
    let outcome ← attempt (condition need c cond)
    block c true body
    noteOutcome outcome
    return c
  | .rangeLoop node var start stop body => do
    let outcome ← rangeEnds need c start stop
    match ← attempt (declare (c.enter true) var .loopVar .int false) with
    | .error e => note e
    | .ok (symbol, inner) =>
      setDeclSymbol node.id symbol
      block inner false body
      noteOutcome outcome
    return c
  | .breakLoop span => do
    orNote (jumpStmt c .breakLoop span) ()
    return c
  | .skipTurn span => do
    orNote (jumpStmt c .skipTurn span) ()
    return c
  | .ret span value => do
    orNote (returnStmt need c span value) ()
    return c
  | .block body => do
    block c false body
    return c
  | .expr value => do
    let _ ← orNote (exprType need c value none) .unknown
    return c
termination_by structural s => s

/-- Checks the statements of a block in a scope of their own. -/
def block (c : Context) (inLoop : Bool) : Block → Check Unit
  | ⟨_, body⟩ => stmts (c.enter inLoop) body
termination_by structural b => b

/-- Checks statements in order; each sees what the ones before it declare. -/
def stmts (c : Context) : List Stmt → Check Unit
  | [] => return ()
  | s :: rest => do
    let inner ← stmt c s
    stmts inner rest
termination_by structural ss => ss

def chainArms (c : Context) : List Guarded → Check Unit
  | [] => return ()
  | ⟨_, cond, body⟩ :: rest => do
    orNote (condition need c cond) ()
    block c false body
    chainArms c rest
termination_by structural arms => arms

def nestedProc (c : Context) : ProcDecl → Check Context
  | ⟨node, name, params, ret, ⟨span, code⟩⟩ => do
    let decl : ProcDecl := ⟨node, name, params, ret, ⟨span, code⟩⟩
    let id ← newProc c decl
    match ← attempt (declare c name (.nestedProc id) .unknown false) with
    | .error e =>
      note e
      return c
    | .ok (symbol, inner) =>
      setDeclSymbol node.id symbol
      once (.signature id) (signature need id decl)
      once (.body id) (body inner (lentSelf c.self) id fun c => stmts c code)
      setSymbolType symbol (← procEntry id).info.sig.type
      return inner
termination_by structural decl => decl

end

end Check

end ArkLang
