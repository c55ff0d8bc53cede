import ArkLang.Analysis.State

/-!
# Names and members

What names, `.name` and `base.name` denote, and the types of what they denote. `need` checks an item
on demand.
-/

namespace ArkLang

namespace Check

/-! ### Symbols and procedures -/

/-- Adds a symbol to the captures of the procedures between its use and its owner, innermost first.
A procedure is no capture of itself, and a list cannot be captured. -/
def capture (sym : SymbolInfo) (span : Span) : List ProcId → Check Unit
  | [] => return ()
  | proc :: outer => do
    if sym.owner = some proc || sym.kind = .nestedProc proc then
      return ()
    let info := (← procEntry proc).info
    if sym.type.containsList then
      fail (.capturesList info.name sym.name) span
    unless info.captures.contains sym.id do
      updateProc proc fun p => { p with info.captures := p.info.captures ++ [sym.id] }
    capture sym span outer

variable (need : Item → Check Unit)

/-- The type of a variable of the module where it is used. Module-level code only sees variables
declared before it. -/
def useGlobal (c : Context) (sym : SymbolInfo) (global : LocalGlobal) (span : Span) :
    Check Unit := do
  if let some current := c.position then
    if current ≤ global.position then
      fail (.usedBeforeDeclaration sym.name) span
  if global.declared.isNone then
    if ← isInProgress (.global sym.id) then
      fail (.dependsOnItself sym.name) span
    need (.global sym.id)

/-- The type of a symbol where it is used. -/
def useSymbol (c : Context) (id : SymbolId) (span : Span) : Check Ty := do
  let sym ← symbol id
  if sym.isGlobal then
    if let some global := (← read).globals[id]? then
      useGlobal need c sym global span
  else
    capture sym span c.procs
  return (← symbol id).type

/-- The signature of a procedure of the unit. A result that is not declared comes from the body. -/
def localSig (id : ProcId) (span : Span) : Check ProcSig := do
  need (.signature id)
  if (← procEntry id).ret.isNone then
    need (.body id)
  let entry ← procEntry id
  match entry.ret with
  | some ret => return { entry.info.sig with ret }
  | none => fail (.recursiveReturn entry.info.name) span

/-- A procedure of the unit by its path. -/
def procRef (id : ProcId) : Check ProcRef :=
  return ⟨(← read).module, (← procEntry id).info.path⟩

def identType (c : Context) (node : Node) (name : String) : Check Ty := do
  match c.lookup (← read) name with
  | some (.symbol id) =>
    let type ← useSymbol need c id node.span
    resolve node.id (.var id)
    return type
  | some (.proc id) =>
    let sig ← localSig need id node.span
    resolve node.id (.proc (← procRef id))
    return sig.type
  | some (.artifact _) => fail (.typeAsValue name) node.span
  | some (.module _) => fail (.moduleAsValue name) node.span
  | none =>
    if (Builtin.ofName? name).isSome then fail (.builtinAsValue name) node.span
    else fail (.undefinedName name) node.span

/-! ### Members of artifacts -/

/-- The properties of an artifact, those of this unit as far as their types are known. -/
def artifactProps (ref : ArtifactRef) : Check (List PropInfo) := do
  let o ← read
  match o.localArtifact? ref with
  | some a =>
    need (.props a.name)
    return ((← get).props.get? a.name).getD []
  | none => return ((o.importedArtifact? ref).map ArtifactInfo.props).getD []

def artifactProp? (ref : ArtifactRef) (name : String) : Check (Option PropInfo) :=
  return (← artifactProps need ref).find? (·.name == name)

def methodSig (span : Span) : Outline.MethodSource → Check ProcSig
  | .ofProc id => localSig need id span
  | .ofInterface method => return method.sig

/-- The type of a constant or procedure of a namespace. Module-level code outside the namespace only
sees constants declared before it. -/
def namespaceMember (c : Context) (node : Node) (ref : ArtifactRef) (name : Ident) : Check Ty := do
  let o ← read
  let path := [ref.name, name.value]
  let early : SemanticFault := .usedBeforeDeclaration (ref.name ++ "." ++ name.value)
  match ← artifactProp? need ref name.value with
  | some prop =>
    if let (some a, some current) := (o.localArtifact? ref, c.position) then
      if current ≤ a.position && c.self ≠ some (.namespaced ref) then
        fail early node.span
    resolve node.id (.global ref.module path)
    return prop.type
  | none =>
    match o.method? ref name.value with
    | some source =>
      let sig ← methodSig need node.span source
      resolve node.id (.proc ⟨ref.module, path⟩)
      return sig.type
    | none =>
      if (o.localArtifact? ref).any (·.declares name.value) then
        fail early name.span
      else
        fail (.noNamespaceMember ref.name name.value) name.span

/-- The type of `.name`. -/
def selfPropType (c : Context) (node : Node) (name : Ident) : Check Ty := do
  match c.self with
  | none => fail (.selfOutsideArtifact name.value) node.span
  | some (.namespaced ref) => namespaceMember need c node ref name
  | some (.record ref _) =>
    match ← artifactProp? need ref name.value with
    | some prop =>
      resolve node.id (.selfField name.value)
      return prop.type
    | none =>
      if ((← read).method? ref name.value).isSome then
        fail (.selfMethodNotCalled name.value) node.span
      else
        fail (.noProperty ref.name name.value) name.span

/-- The type of a property of a value. -/
def valueMember (node : Node) (base : Ty) (name : Ident) : Check Ty := do
  match base with
  | .unknown => return .unknown
  | .artifact ref =>
    if (← read).artifactKind? ref ≠ some .record then
      fail (.noProperties base) name.span
    match ← artifactProp? need ref name.value with
    | some prop =>
      resolve node.id (.field name.value)
      return prop.type
    | none =>
      if ((← read).method? ref name.value).isSome then
        fail (.methodNotCalled name.value ref.name) node.span
      else
        fail (.noProperty ref.name name.value) name.span
  | _ => fail (.noProperty base.text name.value) name.span

/-! ### Paths to modules and artifacts -/

/-- A path that names no value. -/
inductive StaticPath where
  | module (interface : Interface)
  | artifact (ref : ArtifactRef)
  /-- A module whose import failed; everything in it is unknown. -/
  | failed
  deriving Inhabited

/-- The module or artifact that an expression names, if it names one. -/
def staticPath (c : Context) : Expr → Check (Option StaticPath)
  | .ident node name => do
    match c.lookup (← read) name with
    | some (.module (some interface)) =>
      resolve node.id (.module interface.module)
      return some (.module interface)
    | some (.module none) => return some .failed
    | some (.artifact ref) =>
      resolve node.id (.artifact ref)
      return some (.artifact ref)
    | _ => return none
  | .member node base name => do
    match ← staticPath c base with
    | some (.module interface) =>
      if interface.artifacts.contains name.value then
        let ref : ArtifactRef := ⟨interface.module, name.value⟩
        resolve node.id (.artifact ref)
        return some (.artifact ref)
      else
        return none
    | some .failed => return some .failed
    | _ => return none
  | _ => return none

/-- The type of a variable or procedure of an imported module. -/
def moduleMember (node : Node) (interface : Interface) (name : Ident) : Check Ty := do
  let path := [name.value]
  match interface.globals.get? name.value with
  | some global =>
    resolve node.id (.global interface.module path)
    return global.type
  | none =>
    match interface.procs.get? name.value with
    | some sig =>
      resolve node.id (.proc ⟨interface.module, path⟩)
      return sig.type
    | none =>
      if interface.artifacts.contains name.value then
        fail (.typeAsValue name.value) node.span
      else
        fail (.noModuleMember interface.module name.value) name.span

/-- The type of a case of an enumeration or of a member of a namespace. -/
def artifactMember (c : Context) (node : Node) (ref : ArtifactRef) (name : Ident) : Check Ty := do
  let o ← read
  match o.artifactKind? ref with
  | some .enumeration =>
    match o.caseValue? ref name.value with
    | some value =>
      resolve node.id (.enumCase ref value)
      return .artifact ref
    | none => fail (.noEnumCase ref.name name.value) name.span
  | some .namespaced => namespaceMember need c node ref name
  | _ => fail (.recordMember ref.name) node.span

/-- The type of a member of what a static path names. -/
def staticMember (c : Context) (node : Node) (path : StaticPath) (name : Ident) : Check Ty :=
  match path with
  | .failed => return .unknown
  | .module interface => moduleMember node interface name
  | .artifact ref => artifactMember need c node ref name

end Check

end ArkLang
