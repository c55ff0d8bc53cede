import ArkLang.Lowering.Expr

/-!
# Lowering statements and procedures

A block releases the lists that it owns when it ends; a jump releases those of all blocks it leaves,
and a `return` those of the whole procedure, its parameters included.

A procedure becomes a function with all its parameters. For every number of arguments that a call
may leave out there is another one, which adds the defaults. A procedure that can be used as a value
has one more, which takes an environment. A procedure in a block takes the symbols it captures from
its environment.
-/

namespace ArkLang

/-- Whether statements end in a jump. -/
def endsInJump (body : List Stmt) : Bool :=
  match body.getLast? with
  | some (.ret _ _) | some (.breakLoop _) | some (.skipTurn _) => true
  | _ => false

/-- Whether an expression is a literal that a constant of file scope can hold. -/
def isConstantLiteral (u : CheckedUnit) : Expr → Bool
  | .int _ _ | .float _ _ | .str _ _ | .bool _ _ => true
  | .unary _ .neg (.int _ _) | .unary _ .neg (.float _ _) => true
  | .member node _ _ =>
    match u.resolutions.get? node.id with
    | some (.enumCase _ _) => true
    | _ => false
  | _ => false

namespace Lower

/-! ### Releasing lists -/

def release (owned : Owned) : Lower C.Stmt :=
  return .release (← cType owned.type) owned.name

def releaseAll : List Owned → Lower (List C.Stmt)
  | [] => return []
  | owned :: rest => do
    let first ← release owned
    return first :: (← releaseAll rest)

/-! ### Storage of the module -/

/-- Whether a variable of the module or a constant of a namespace is stored as a constant. -/
def isStoredConstant (type : Ty) (mutable : Bool) (value : Option Expr) : Lower Bool := do
  let u ← unit
  return !mutable && (← table).isScalar type && value.any (isConstantLiteral u)

def initialValue (a : Activation) (value : Option Expr) (type : Ty) : Lower C.Expr :=
  match value with
  | some e => ownedValue a e
  | none => defaultValue type

/-- Lowers the declaration of a variable. A variable of the module has its storage elsewhere. -/
def varStmt (a : Activation) (decl : VarDecl) : Lower (List C.Stmt × Activation) := do
  let sym ← symbolOf decl.node.id
  let init ← initialValue a decl.value sym.type
  if sym.isGlobal then
    if ← isStoredConstant sym.type sym.mutable decl.value then
      return ([], a)
    else
      return ([.assign (.ident (← globalName sym.name)) init], a)
  else
    let type ← cType sym.type
    let isConst := !sym.mutable && (← table).isScalar sym.type
    let name := localName sym
    return ([.declare isConst type name init, .use name], a.own name sym.type)

/-- Sets the constants of a namespace where it is declared. -/
def namespaceConstants (a : Activation) (ref : ArtifactRef) :
    List (PropInfo × VarDecl) → Lower (List C.Stmt)
  | [] => return []
  | (prop, decl) :: rest => do
    if ← isStoredConstant prop.type prop.mutable decl.value then
      namespaceConstants a ref rest
    else
      let init ← initialValue a decl.value prop.type
      let first := C.Stmt.assign (.ident (C.memberName ref prop.name)) init
      return first :: (← namespaceConstants a ref rest)

/-- Lowers the declaration of an artifact as a statement. -/
def artifactStmt (a : Activation) (decl : ArtifactDecl) : Lower (List C.Stmt) := do
  match decl.kind with
  | .namespaced =>
    let ref : ArtifactRef := ⟨(← unit).module, decl.name.value⟩
    let info ← artifact ref
    namespaceConstants a ref (info.props.zip decl.props)
  | _ => return []

/-! ### Simple statements -/

/-- Lowers an assignment. The list that was held before is released. -/
def assignStmt (a : Activation) (target value : Expr) : Lower (List C.Stmt) := do
  let type ← typeOf target
  let v ← ownedValue a value
  let t ← expr a target
  if type.containsList then
    let list ← cType type
    return [.expr (.call (.helper list "assign") [.address t, v])]
  else
    return [.assign t v]

/-- Lowers an expression as a statement. A temporary list is released. -/
def exprStmt (a : Activation) (e : Expr) : Lower (List C.Stmt) := do
  let u ← unit
  let type := u.typeOf e.id
  let v ← value a e
  if type.containsList && !isPlace u e then
    let list ← cType type
    return [.expr (.call (.helper list "drop") [v])]
  else
    match e with
    | .call _ _ _ | .postOp _ _ _ => return [.expr v]
    | _ => return [.drop v]

/-- Lowers a `return`. The value is kept while lists are released. -/
def returnStmt (a : Activation) (result : Option Expr) : Lower (List C.Stmt) := do
  match result with
  | none => return (← releaseAll a.ownedByFunction) ++ [.ret none]
  | some e =>
    let v ← ownedValue a e
    if a.holdsLists then
      let name ← temporary "ret"
      let type ← cType a.ret
      let releases ← releaseAll a.ownedByFunction
      return [.declare false type name v] ++ releases ++ [.ret (some (.ident name))]
    else
      return [.ret (some v)]

def jumpStmt (a : Activation) (jump : C.Stmt) : Lower (List C.Stmt) := do
  let owned ← require (Activation.ownedInLoop? a.scopes) .jumpOutsideLoop
  return (← releaseAll owned) ++ [jump]

def rangeEnd (a : Activation) (stop : Expr) : Lower C.Expr := do
  let type ← typeOf stop
  match type with
  | .int => value a stop
  | .array _ size => arrayLength (operand a stop) size
  | .list _ => listLength (operand a stop) type
  | _ => throw (.rangeEnd type)

/-! ### Procedures -/

def paramsOf : List ParamInfo → Lower (List (C.Param × Ty))
  | [] => return []
  | p :: rest => do
    let type ← cType p.type
    let name := localName (← symbol p.symbol)
    return (⟨type, false, name⟩, p.type) :: (← paramsOf rest)

/-- The environment that procedures in blocks and procedures as values take. -/
def envParam : C.Param :=
  ⟨"void", true, .envParam⟩

/-- The parameter in front of all others: the environment of a procedure in a block, or the receiver
of a method. -/
def leadParam (kind : ProcKind) : Option C.Param :=
  match kind with
  | .nested _ => some envParam
  | .method ref mutates =>
    let record := (C.artifactName ref).text
    some ⟨if mutates then record else "const " ++ record, true, .receiver⟩
  | _ => none

def captureFields : List SymbolId → Lower (List (C.TypeName × SymbolId))
  | [] => return []
  | id :: rest => do
    let type ← cType (← symbol id).type
    return (type, id) :: (← captureFields rest)

def addEnvironment (proc : ProcInfo) : Lower Unit := do
  if proc.isNested && !proc.captures.isEmpty then
    let name ← envName proc.id
    let fields ← captureFields proc.captures
    addTo fun s => { s with environments := s.environments.push ⟨name, fields⟩ }

def openBody (proc : ProcInfo) (lead : Option C.Param) : Lower (List C.Stmt) := do
  match lead with
  | none => return []
  | some p =>
    if proc.isNested && !proc.captures.isEmpty then return [.openEnv (← envName proc.id)]
    else return [.use p.name]

def closeBody (proc : ProcInfo) (a : Activation) : Lower (List C.Stmt) := do
  if proc.ret = .void then
    releaseAll a.ownedByFunction
  else
    let path := ".".intercalate proc.path
    return [.expr (support "ark_rt_missing_return" [.string path])]

/-- A call that ends a function. -/
def forward (proc : ProcInfo) (name : C.Name) (args : List C.Name) : C.Stmt :=
  let call := C.Expr.call name (args.map .ident)
  if proc.ret = .void then .expr call else .ret (some call)

/-- Declares parameters that a call leaves out, with their defaults. -/
def declareDefaults (a : Activation) : List (C.Param × Param) → Lower (List C.Stmt)
  | [] => return []
  | (p, decl) :: rest => do
    let default ← require decl.default (.missingDefault decl.name.value)
    let v ← ownedValue a default
    return .declare false p.type p.name v :: (← declareDefaults a rest)

/-- Adds the function of a procedure for calls that supply a number of arguments. -/
def addOmitting (proc : ProcInfo) (decls : List Param) (sig : C.Signature) (lead : Option C.Param)
    (params : List C.Param) (keep : Nat) : Lower Unit := do
  let short : C.Signature :=
    ⟨sig.ret, .omitting sig.name (params.length - keep), lead.toList ++ params.take keep⟩
  addPrototype short
  let a : Activation := { proc := some proc.id, ret := proc.ret }
  let defaults ← declareDefaults a ((params.zip decls).drop keep)
  addBody short (defaults ++ [forward proc sig.name (sig.params.map C.Param.name)])

/-- Adds the functions of a procedure for calls that supply numbers of arguments. -/
def addAllOmitting (proc : ProcInfo) (decls : List Param) (sig : C.Signature)
    (lead : Option C.Param) (params : List C.Param) : List Nat → Lower Unit
  | [] => return ()
  | keep :: rest => do
    addOmitting proc decls sig lead params keep
    addAllOmitting proc decls sig lead params rest

/-- The numbers from a first one up to, and without, a last one. -/
def numbersFrom (first last : Nat) : List Nat :=
  (List.range (last - first)).map (first + ·)

/-- Whether a procedure can be used as a value without an environment. -/
def hasValueForm : ProcKind → Bool
  | .topLevel | .namespaced _ => true
  | _ => false

/-- Lowers a procedure. `body` lowers its statements, and `jumps` says whether they end in a
jump. -/
def procedure (proc : ProcInfo) (decls : List Param) (jumps : Bool)
    (body : Activation → Lower (List C.Stmt × Activation)) : Lower Unit := do
  let name ← procName proc
  let ret ← cType proc.ret
  let lead := leadParam proc.kind
  let typed ← paramsOf proc.params
  let params := typed.map Prod.fst
  addEnvironment proc
  let sig : C.Signature := ⟨ret, name, lead.toList ++ params⟩
  addPrototype sig
  let owned := (typed.filter (·.2.containsList)).map fun (p, type) => (⟨p.name, type⟩ : Owned)
  let opening ← openBody proc lead
  let code ← inFunction do
    let (code, a) ← body { proc := some proc.id, ret := proc.ret, params := owned }
    let closing ← if jumps then pure [] else closeBody proc a
    return code ++ closing
  addBody sig (opening ++ params.map (fun p => .use p.name) ++ code)
  addAllOmitting proc decls sig lead params (numbersFrom proc.sig.required params.length)
  if hasValueForm proc.kind then
    let viaValue : C.Signature := ⟨ret, .viaValue name, envParam :: params⟩
    addFunction viaValue [.use .envParam, forward proc name (params.map C.Param.name)]

/-- Copies captured symbols into an environment. -/
def copyCaptures (a : Activation) (target : C.Name) : List SymbolId → Lower (List C.Stmt)
  | [] => return []
  | id :: rest => do
    let v ← varAccess a id
    return .assign (.arrow target (.capture id)) v :: (← copyCaptures a target rest)

/-- Declares a procedure in a block as a value, with an environment of its own. -/
def bindNested (a : Activation) (proc : ProcInfo) (decl : NodeId) : Lower (List C.Stmt) := do
  let sym ← symbolOf decl
  let type ← cType sym.type
  let function ← procName proc
  let name := localName sym
  if proc.captures.isEmpty then
    return [.bindProc type name .null function, .use name]
  else
    let fresh ← temporary "env"
    let copies ← copyCaptures a fresh proc.captures
    return [.newEnv (← envName proc.id) fresh] ++ copies ++
      [.bindProc type name (.ident fresh) function, .use name]

/-! ### Statements -/

mutual

/-- Lowers a statement, and gives the activation of the statements behind it. -/
def stmt (a : Activation) : Stmt → Lower (List C.Stmt × Activation)
  | .importUnit _ => return ([], a)
  | .artifact decl => return (← artifactStmt a decl, a)
  | .var decl => varStmt a decl
  | .proc ⟨node, _, params, _, ⟨_, code⟩⟩ => do
    let proc ← procOf node.id
    if proc.isNested then
      procedure proc params (endsInJump code) fun inner => stmts inner code
      return (← bindNested a proc node.id, a)
    else
      return ([], a)
  | .assign _ target v => return (← assignStmt a target v, a)
  | .cond ⟨_, cond, ⟨_, body⟩⟩ => do
    let c ← value a cond
    return ([.cond [⟨c, ← block a false body⟩] none], a)
  | .chain _ arms fallback => do
    let lowered ← chainArms a arms
    match fallback with
    | none => return ([.cond lowered none], a)
    | some ⟨_, body⟩ => return ([.cond lowered (some (← block a false body))], a)
  | .whileLoop ⟨_, cond, ⟨_, body⟩⟩ => do
    let c ← value a cond
    return ([.whileLoop c (← block a true body)], a)
  | .rangeLoop node _ start stop ⟨_, body⟩ => do
    let first ← value a start
    let last ← rangeEnd a stop
    let s ← temporary "start"
    let e ← temporary "end"
    let i ← temporary "i"
    let var := localName (← symbolOf node.id)
    return ([.countLoop s e i var first last (← block a true body)], a)
  | .breakLoop _ => return (← jumpStmt a .breakLoop, a)
  | .skipTurn _ => return (← jumpStmt a .continueLoop, a)
  | .ret _ result => return (← returnStmt a result, a)
  | .block ⟨_, body⟩ => return ([.block (← block a false body)], a)
  | .expr e => return (← exprStmt a e, a)
termination_by structural s => s

/-- Lowers statements in order, and gives the activation behind them. -/
def stmts (a : Activation) : List Stmt → Lower (List C.Stmt × Activation)
  | [] => return ([], a)
  | s :: rest => do
    let (first, inner) ← stmt a s
    let (others, last) ← stmts inner rest
    return (first ++ others, last)
termination_by structural ss => ss

/-- Lowers the statements of a block, which releases what it owns. -/
def block (a : Activation) (isLoopBody : Bool) : List Stmt → Lower (List C.Stmt)
  | [] => return []
  | s :: rest => do
    let (first, inner) ← stmt (a.enter isLoopBody) s
    let (others, last) ← stmts inner rest
    let releases ← if endsInJump (s :: rest) then pure [] else releaseAll last.ownedByBlock
    return first ++ others ++ releases
termination_by structural ss => ss

def chainArms (a : Activation) : List Guarded → Lower (List C.Arm)
  | [] => return []
  | ⟨_, cond, ⟨_, body⟩⟩ :: rest => do
    let c ← value a cond
    let code ← block a false body
    return ⟨c, code⟩ :: (← chainArms a rest)
termination_by structural arms => arms

end

end Lower

end ArkLang
