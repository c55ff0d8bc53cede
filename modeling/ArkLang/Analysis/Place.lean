import ArkLang.Analysis.State

/-!
# Places

Which expressions can be written to. A place belongs to a variable, to the receiver of a method, or
to something that never changes; results of calls and literals are temporary.
-/

namespace ArkLang

namespace Analysis

/-- Whether a property of a record may change, as far as properties are known. -/
def isMutableProp (s : Analysis) (o : Outline) (ref : ArtifactRef) (name : String) : Bool :=
  let props := match o.localArtifact? ref with
    | some a => (s.props.get? a.name).getD []
    | none => ((o.importedArtifact? ref).map ArtifactInfo.props).getD []
  (props.find? (·.name == name)).any PropInfo.mutable

/-- Why a symbol cannot be written to, if it cannot. -/
def symbolFixed (c : Context) (sym : SymbolInfo) (name : String) : Option Fixed :=
  if !sym.isGlobal && sym.owner ≠ c.proc then some (.captured name)
  else if sym.mutable then none
  else some <| match sym.kind with
    | .param => .param name
    | .loopVar => .loopVar name
    | .nestedProc _ => .nestedProc name
    | .var => .var name

/-- The place of an expression whose type is already known. -/
def place (s : Analysis) (o : Outline) (c : Context) : Expr → Place
  | .ident node name =>
    match s.resolutions.get? node.id with
    | some (.var id) => ⟨.symbol id, symbolFixed c (s.symbols.getD id default) name⟩
    | _ => ⟨.static, some (.otherName name)⟩
  | .selfProp node name =>
    match s.resolutions.get? node.id, c.self with
    | some (.selfField _), some (.record ref _) =>
      let mutable := s.isMutableProp o ref name.value
      ⟨.self, if mutable then none else some (.selfProperty name.value)⟩
    | some (.global _ _), _ => ⟨.static, some (.namespaceConstant name.value)⟩
    | _, _ => ⟨.static, some (.selfName name.value)⟩
  | .member node base name =>
    match s.resolutions.get? node.id with
    | some (.field _) =>
      let outer := place s o c base
      let mutable := match s.exprTypes.get? base.id with
        | some (.artifact ref) => s.isMutableProp o ref name.value
        | _ => true
      ⟨outer.root, outer.fixed.or (if mutable then none else some (.property name.value))⟩
    | some (.global _ _) => ⟨.static, some (.imported name.value)⟩
    | _ => ⟨.static, some (.otherName name.value)⟩
  | .index _ base _ => place s o c base
  | _ => ⟨.temporary, none⟩

end Analysis

namespace Check

/-- The place of an expression whose type is already known. -/
def placeOf (c : Context) (e : Expr) : Check Place :=
  return (← get).place (← read) c e

/-- Records that the method around the code writes to its receiver. -/
def markSelfWrite (c : Context) : Check Unit :=
  match c.self with
  | some (.record _ method) => updateProc method fun p => { p with writesSelf := true }
  | _ => return ()

/-- Checks that a place can be written to, with the causes to report if it is temporary or fixed. -/
def writeTo (c : Context) (place : Place) (temporary : SemanticError)
    (fixed : Fixed → SemanticError) : Check Unit := do
  if place.root = .temporary then
    throw temporary
  if let some reason := place.fixed then
    throw (fixed reason)
  if place.root = .self then
    markSelfWrite c

/-- Checks that an expression whose type is already known can be written to. -/
def assign (c : Context) (target : Expr) : Check Unit := do
  writeTo c (← placeOf c target) ⟨.assignsTemporary, target.span⟩
    fun reason => ⟨.assignsFixed reason, target.span⟩

end Check

end ArkLang
