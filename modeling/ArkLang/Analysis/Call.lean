import ArkLang.Analysis.Name
import ArkLang.Analysis.Operand
import ArkLang.Analysis.Place

/-!
# Calls

What a call calls, and the type of its result. The form of the callee decides: a name, `.name`,
`base.name`, or any other expression, whose value is then called.

The checks here do not look into the arguments. They are given what checking the arguments, the
callee or its base does.
-/

namespace ArkLang

/-- The arguments of a call, as checks. -/
structure Arguments where
  count : Nat
  /-- The types of the arguments, checked in order. -/
  types : Check (List Ty)
  /-- Checks the arguments in order against the types of as many slots. -/
  expect : List Ty → Check Unit

namespace Check

variable (need : Item → Check Unit)

/-- Checks the arguments of a call against the parameters of a procedure. -/
def bindArguments (node : Node) (name : String) (sig : ProcSig) (args : Arguments) :
    Check Unit := do
  let most := sig.params.length
  if args.count < sig.required || most < args.count then
    fail (.argumentCount name sig.required most args.count) node.span
  args.expect sig.paramTypes

def applyValue (node : Node) (callee : Ty) (args : Arguments) : Check Ty := do
  match callee with
  | .proc params ret =>
    if args.count ≠ params.length then
      fail (.valueArgumentCount params.length args.count) node.span
    args.expect params
    setCall node.id .value
    return ret
  | .unknown =>
    let _ ← args.types
    return .unknown
  | _ => fail (.notCallable callee) node.span

/-- Calls a procedure of known signature under a path. -/
def procCall (node callee : Node) (name : String) (ref : ProcRef) (sig : ProcSig)
    (args : Arguments) : Check Ty := do
  bindArguments node name sig args
  resolve callee.id (.proc ref)
  setType callee.id sig.type
  setCall node.id (.proc ref args.count sig.params.length)
  return sig.ret

/-- Calls a procedure that is declared in a block. -/
def nestedCall (c : Context) (node callee : Node) (sym : SymbolInfo) (proc : ProcId)
    (args : Arguments) : Check Ty := do
  capture sym callee.span c.procs
  let sig ← localSig need proc node.span
  bindArguments node sym.name sig args
  resolve callee.id (.var sym.id)
  setType callee.id sig.type
  setCall node.id (.nestedProc sym.id proc args.count sig.params.length)
  return sig.ret

/-- Makes a record. Properties without an argument keep their defaults. -/
def construct (node : Node) (ref : ArtifactRef) (args : Arguments) : Check Ty := do
  match (← read).artifactKind? ref with
  | some .record =>
    let props ← artifactProps need ref
    if props.length < args.count then
      fail (.propertyCount ref.name props.length args.count) node.span
    args.expect (props.map PropInfo.type)
    setCall node.id (.constructor ref args.count props.length)
    return .artifact ref
  | some .enumeration => fail (.enumConstructed ref.name) node.span
  | some .namespaced => fail (.namespaceConstructed ref.name) node.span
  | none => return .unknown

def builtinCall (node : Node) (builtin : Builtin) (args : Arguments) : Check Ty := do
  let (least, most) := builtin.arity
  if args.count < least || most < args.count then
    fail (.argumentCount builtin.name least most args.count) node.span
  let types ← args.types
  setCall node.id (.builtin builtin)
  if types.any Ty.isUnknown then
    return if builtin = .print then .void else .unknown
  let o ← read
  let record? : Ty → Option ArtifactRef
    | .artifact ref => if o.artifactKind? ref = some .record then some ref else none
    | _ => none
  if let some ref := types.findSome? record? then
    fail (.builtinTakesRecord builtin ref.name) node.span
  match builtin.result? types with
  | some type => return type
  | none => fail (.builtinTakes builtin types) node.span

/-- Calls a bare name. `value` types the name as an expression. -/
def nameCall (c : Context) (node callee : Node) (name : String) (value : Check Ty)
    (args : Arguments) : Check Ty := do
  match c.lookup (← read) name with
  | some (.symbol id) =>
    let sym ← symbol id
    match sym.kind with
    | .nestedProc proc => nestedCall need c node callee sym proc args
    | _ => applyValue node (← value) args
  | some (.proc id) =>
    let sig ← localSig need id node.span
    procCall node callee name (← procRef id) sig args
  | some (.artifact ref) =>
    resolve callee.id (.artifact ref)
    construct need node ref args
  | some (.module _) => fail (.moduleCalled name) callee.span
  | none =>
    match Builtin.ofName? name with
    | some builtin => builtinCall node builtin args
    | none => fail (.undefinedProc name) callee.span

/-! ### Methods -/

def namespaceCall (node callee : Node) (ref : ArtifactRef) (name : Ident)
    (source : Outline.MethodSource) (args : Arguments) : Check Ty := do
  let sig ← methodSig need node.span source
  procCall node callee name.value ⟨ref.module, [ref.name, name.value]⟩ sig args

/-- Calls a method of a record. Whether it changes its receiver is judged later. -/
def methodCall (c : Context) (node : Node) (ref : ArtifactRef) (name : Ident)
    (source : Outline.MethodSource) (receiver : Receiver) (place : Place) (args : Arguments) :
    Check Ty := do
  let sig ← methodSig need node.span source
  bindArguments node name.value sig args
  setCall node.id (.method ref name.value args.count sig.params.length false receiver)
  postpone ⟨node, place, ref, name.value, c.proc⟩
  return sig.ret

/-- Calls `.name`. `value` types `.name` as an expression. -/
def selfCall (c : Context) (node callee : Node) (name : Ident) (value : Check Ty)
    (args : Arguments) : Check Ty := do
  let o ← read
  match c.self with
  | some (.record ref _) =>
    match o.method? ref name.value with
    | some source => methodCall need c node ref name source .self ⟨.self, none⟩ args
    | none => applyValue node (← value) args
  | some (.namespaced ref) =>
    match o.method? ref name.value with
    | some source => namespaceCall need node callee ref name source args
    | none => applyValue node (← value) args
  | none => applyValue node (← value) args

/-- Adds to or takes from a list. -/
def listCall (c : Context) (node : Node) (base : Expr) (elem : Ty) (name : Ident)
    (args : Arguments) : Check Ty := do
  writeTo c (← placeOf c base) ⟨.listTemporary name.value, base.span⟩
    fun reason => ⟨.listFixed name.value reason, node.span⟩
  if name.value = "push" then
    if args.count ≠ 1 then
      fail (.argumentCount "push" 1 1 args.count) node.span
    args.expect [elem]
    setCall node.id .listPush
    return .void
  else
    if args.count ≠ 0 then
      fail (.argumentCount "pop" 0 0 args.count) node.span
    setCall node.id .listPop
    return elem

/-- Calls a member of what a static path names. -/
def staticCall (c : Context) (node callee : Node) (path : StaticPath) (name : Ident)
    (args : Arguments) : Check Ty := do
  let o ← read
  let value : Check Ty := do
    let type ← staticMember need c callee path name
    setType callee.id type
    applyValue node type args
  match path with
  | .failed =>
    let _ ← args.types
    return .unknown
  | .module interface =>
    match interface.procs.get? name.value with
    | some sig => procCall node callee name.value ⟨interface.module, [name.value]⟩ sig args
    | none =>
      if interface.artifacts.contains name.value then
        let ref : ArtifactRef := ⟨interface.module, name.value⟩
        resolve callee.id (.artifact ref)
        construct need node ref args
      else
        value
  | .artifact ref =>
    match o.artifactKind? ref, o.method? ref name.value with
    | some .namespaced, some source => namespaceCall need node callee ref name source args
    | _, _ => value

/-- Calls a member of a value of a given type. -/
def valueMemberCall (c : Context) (node callee : Node) (base : Expr) (baseType : Ty) (name : Ident)
    (args : Arguments) : Check Ty := do
  let value : Check Ty := do
    let type ← valueMember need callee baseType name
    setType callee.id type
    applyValue node type args
  match baseType with
  | .list elem =>
    if name.value = "push" || name.value = "pop" then
      listCall c node base elem name args
    else
      value
  | .artifact ref =>
    match (← read).method? ref name.value with
    | some source =>
      methodCall need c node ref name source .value (← placeOf c base) args
    | none => value
  | .unknown =>
    let _ ← args.types
    return .unknown
  | _ => value

/-- Calls `base.name`. `baseType` types the base as an expression. -/
def memberCall (c : Context) (node callee : Node) (base : Expr) (name : Ident)
    (baseType : Check Ty) (args : Arguments) : Check Ty := do
  match ← staticPath c base with
  | some path => staticCall need c node callee path name args
  | none => valueMemberCall need c node callee base (← baseType) name args

end Check

end ArkLang
