import ArkLang.Lowering.Stmt

/-!
# Lowering declarations of a module

Variables of a module and constants of a namespace get storage of file scope. A record gets a
constructor, one more for every number of properties that a call may leave out, and a function that
gives the record with all properties at their defaults.
-/

namespace ArkLang

namespace Lower

/-- Gives a declaration storage of file scope. The answer is what the module releases at its end. -/
def storage (decl : VarDecl) (name : C.Name) (type : Ty) (mutable : Bool) :
    Lower (List Owned) := do
  let typeName ← cType type
  let isConst ← isStoredConstant type mutable decl.value
  match decl.value, isConst with
  | some e, true =>
    let init ← value {} e
    addTo fun s => { s with globals := s.globals.push ⟨typeName, name, some init⟩ }
    return []
  | _, _ =>
    addTo fun s => { s with globals := s.globals.push ⟨typeName, name, none⟩ }
    return if type.containsList then [⟨name, type⟩] else []

/-- Gives the constants of a namespace their storage. -/
def namespaceStorage (ref : ArtifactRef) : List (PropInfo × VarDecl) → Lower (List Owned)
  | [] => return []
  | (prop, decl) :: rest => do
    let first ← storage decl (C.memberName ref prop.name) prop.type prop.mutable
    return first ++ (← namespaceStorage ref rest)

/-! ### Records -/

/-- The properties of a record as parameters of its constructor. -/
def fieldParams : List PropInfo → Lower (List C.Param)
  | [] => return []
  | p :: rest => do
    let type ← cType p.type
    return ⟨type, false, .field p.name⟩ :: (← fieldParams rest)

def fieldDefaults : List (PropInfo × VarDecl) → Lower (List C.Expr)
  | [] => return []
  | (prop, decl) :: rest => do
    let first ← initialValue {} decl.value prop.type
    return first :: (← fieldDefaults rest)

/-- Adds the constructors that take the first properties only. Each needs the defaults of the
others. -/
def addShortConstructors (ref : ArtifactRef) (record : C.TypeName) (fields : List C.Param)
    (defaults : List C.Expr) : List Nat → Lower Unit
  | [] => return ()
  | keep :: rest => do
    if defaults.length < keep then
      throw (.shortRecord ref)
    let full := C.Name.constructor record
    let kept := fields.take keep
    let args := kept.map (fun f => C.Expr.ident f.name) ++ defaults.drop keep
    addFunction ⟨record, .omitting full (fields.length - keep), kept⟩
      [.ret (some (.call full args))]
    addShortConstructors ref record fields defaults rest

/-- Adds the functions of a record. -/
def record (ref : ArtifactRef) (props : List (PropInfo × VarDecl)) : Lower Unit := do
  let info ← artifact ref
  let name ← cType (.artifact ref)
  let fields ← fieldParams info.props
  let defaults ← fieldDefaults props
  let full := C.Name.constructor name
  addFunction ⟨name, full, fields⟩
    ([.reserve name .result] ++ fields.map (fun f => .setField f.name) ++
      [.ret (some (.ident .result))])
  addShortConstructors ref name fields defaults (numbersFrom 1 fields.length)
  addFunction ⟨name, .defaultRecord name, []⟩ [.ret (some (.call full defaults))]

/-! ### Declarations -/

/-- Lowers a procedure of the module or of an artifact. -/
def procDecl (decl : ProcDecl) (proc : ProcInfo) : Lower Unit :=
  procedure proc decl.params (endsInJump decl.body.stmts) fun a => stmts a decl.body.stmts

def artifactProcs : List ProcDecl → Lower Unit
  | [] => return ()
  | decl :: rest => do
    procDecl decl (← procOf decl.node.id)
    artifactProcs rest

/-- Lowers an artifact. The answer is what the module releases at its end. -/
def artifactDecl (decl : ArtifactDecl) : Lower (List Owned) := do
  let ref : ArtifactRef := ⟨(← unit).module, decl.name.value⟩
  let info ← artifact ref
  let owned ← match decl.kind with
    | .enumeration => do
      let cases := info.cases.map fun (name, value) => (C.memberName ref name, value)
      addTo fun s => { s with enumCases := s.enumCases ++ cases }
      pure []
    | .namespaced => namespaceStorage ref (info.props.zip decl.props)
    | .record => do
      record ref (info.props.zip decl.props)
      pure []
  artifactProcs decl.procs
  return owned

/-- Lowers what a statement declares for the module. The answer is what the module releases at its
end. -/
def decl : Stmt → Lower (List Owned)
  | .artifact a => artifactDecl a
  | .proc p => do
    let proc ← procOf p.node.id
    if proc.kind = .topLevel then
      procDecl p proc
    return []
  | .var v => do
    let sym ← symbolOf v.node.id
    storage v (← globalName sym.name) sym.type sym.mutable
  | _ => return []

/-- Lowers what statements declare for the module, in order. -/
def decls : List Stmt → Lower (List Owned)
  | [] => return []
  | s :: rest => do
    let first ← decl s
    return first ++ (← decls rest)

end Lower

end ArkLang
