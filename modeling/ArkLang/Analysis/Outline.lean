import ArkLang.Analysis.Fault
import ArkLang.Module.Unit

/-!
# Outlines

The module-level declarations of a unit, collected before anything is checked: declarations may be
used before the place where they stand. Imports and artifacts are collected first, because the
annotation of any variable may name them.

A name belongs to the first declaration that takes it. A later one is reported; a variable or
procedure with a taken name is still checked, an artifact with a taken name is left out.
-/

namespace ArkLang

/-- What a name stands for. -/
inductive Binding where
  | symbol (id : SymbolId)
  | proc (id : ProcId)
  | artifact (ref : ArtifactRef)
  /-- An imported module; without an interface if the import failed. -/
  | module (interface : Option Interface)
  deriving Repr, Inhabited

/-- The artifact that `.name` speaks of. -/
inductive SelfContext where
  /-- The receiver of a method of a record. -/
  | record (artifact : ArtifactRef) (method : ProcId)
  | namespaced (artifact : ArtifactRef)
  deriving DecidableEq, Repr, Inhabited

/-- A procedure of the module, a method or a procedure of a namespace. -/
structure LocalProc where
  decl : ProcDecl
  path : List String
  kind : ProcKind
  self : Option SelfContext
  deriving Inhabited

/-- A variable of the module. -/
structure LocalGlobal where
  decl : VarDecl
  /-- The number of the statement that declares it. -/
  position : Nat
  /-- The annotated type; unknown if the annotation is wrong. -/
  declared : Option Ty
  deriving Inhabited

/-- An artifact of the module. -/
structure LocalArtifact where
  decl : ArtifactDecl
  /-- The number of the statement that declares it. -/
  position : Nat
  methods : List (String × ProcId) := []
  cases : List (String × Int) := []

/-- The module-level declarations of a unit. -/
structure Outline where
  module : ModuleId
  /-- The interfaces of the imports, the last one first. -/
  imported : List Interface := []
  /-- The interface of a module that is reached through the types of another one. -/
  reached : ModuleId → Option Interface
  /-- The names of the module, in the order of declaration. -/
  names : List (String × Binding) := []
  artifacts : List LocalArtifact := []
  /-- The procedures, each under its number. -/
  procs : Array LocalProc := #[]
  /-- The variables, each under the number of its symbol. -/
  globals : Array LocalGlobal := #[]
  /-- What is wrong with the declarations themselves, in the order of discovery. -/
  errors : Array SemanticError := #[]

namespace LocalArtifact

def name (a : LocalArtifact) : String :=
  a.decl.name.value

def kind (a : LocalArtifact) : ArtifactKind :=
  a.decl.kind

/-- Whether an artifact has a member of a name, whether or not its type is known yet. -/
def declares (a : LocalArtifact) (name : String) : Bool :=
  a.decl.members.any fun
    | .prop decl => decl.name.value == name
    | .proc decl => decl.name.value == name
    | .enumCase decl => decl.name.value == name

end LocalArtifact

namespace Outline

/-! ### Artifacts by reference -/

def interface? (o : Outline) (module : ModuleId) : Option Interface :=
  (o.imported.find? (·.module == module)).or (o.reached module)

def localArtifact? (o : Outline) (ref : ArtifactRef) : Option LocalArtifact :=
  if ref.module = o.module then o.artifacts.find? (·.name == ref.name) else none

/-- An artifact of another module. -/
def importedArtifact? (o : Outline) (ref : ArtifactRef) : Option ArtifactInfo :=
  (o.interface? ref.module).bind (·.artifacts.get? ref.name)

def artifactKind? (o : Outline) (ref : ArtifactRef) : Option ArtifactKind :=
  match o.localArtifact? ref with
  | some a => some a.kind
  | none => (o.importedArtifact? ref).map ArtifactInfo.kind

def caseValue? (o : Outline) (ref : ArtifactRef) (name : String) : Option Int :=
  match o.localArtifact? ref with
  | some a => a.cases.lookup name
  | none => (o.importedArtifact? ref).bind (·.case? name)

/-- Where the signature of a method is found: with a procedure of this unit, or in an interface. -/
inductive MethodSource where
  | ofProc (id : ProcId)
  | ofInterface (method : MethodInfo)

def method? (o : Outline) (ref : ArtifactRef) (name : String) : Option MethodSource :=
  match o.localArtifact? ref with
  | some a => (a.methods.lookup name).map .ofProc
  | none => ((o.importedArtifact? ref).bind (·.method? name)).map .ofInterface

/-! ### Types as they are written -/

/-- The type of an artifact. A namespace is none. -/
def artifactType (o : Outline) (ref : ArtifactRef) (span : Span) : Except SemanticError Ty :=
  match o.artifactKind? ref with
  | some .namespaced => .error ⟨.namespaceAsType ref.name, span⟩
  | _ => .ok (.artifact ref)

/-- The scalar type of a name. -/
def scalar? : String → Option Ty
  | "int" => some .int
  | "float" => some .float
  | "string" => some .string
  | "bool" => some .bool
  | "void" => some .void
  | _ => none

def namedType (o : Outline) (name : Ident) (span : Span) : Except SemanticError Ty :=
  match scalar? name.value with
  | some t => .ok t
  | none =>
    match o.names.lookup name.value with
    | some (.artifact ref) => o.artifactType ref span
    | _ => .error ⟨.unknownType name.value, name.span⟩

/-- The type of a name in an imported module; unknown if the import failed. -/
def qualifiedType (o : Outline) (module name : Ident) (span : Span) : Except SemanticError Ty :=
  match o.names.lookup module.value with
  | some (.module none) => .ok .unknown
  | some (.module (some interface)) =>
    if interface.artifacts.contains name.value then
      o.artifactType ⟨interface.module, name.value⟩ span
    else
      .error ⟨.noTypeInModule module.value name.value, name.span⟩
  | _ => .error ⟨.unknownModule module.value, module.span⟩

def arrayType (elem : Ty) (elemSpan : Span) (size : Nat) (span : Span) : Except SemanticError Ty :=
  if elem.containsList then .error ⟨.arraysOfLists, elemSpan⟩
  else if size = 0 then .error ⟨.arraySizeZero, span⟩
  else if maxArraySize < size then .error ⟨.arraySizeLimit size, span⟩
  else .ok (.array elem size)

/-- Refuses a type without values. -/
def valueType (type : Ty) (span : Span) : Except SemanticError Ty :=
  if type = .void then .error ⟨.voidValue, span⟩ else .ok type

mutual

def typeOf (o : Outline) : TypeExpr → Except SemanticError Ty
  | .named span name => o.namedType name span
  | .qualified span module name => o.qualifiedType module name span
  | .array span elem size => do
    let type ← typeOf o elem
    arrayType (← valueType type elem.span) elem.span size span
  | .list _ elem => do
    let type ← typeOf o elem
    return .list (← valueType type elem.span)
  | .proc _ params ret => do
    let types ← valueTypesOf o params
    return .proc types (← typeOf o ret)
termination_by structural t => t

/-- The types that type expressions denote, none of them void. -/
def valueTypesOf (o : Outline) : List TypeExpr → Except SemanticError (List Ty)
  | [] => .ok []
  | t :: ts => do
    let type ← typeOf o t
    let type ← valueType type t.span
    return type :: (← valueTypesOf o ts)
termination_by structural ts => ts

end

def valueTypeOf (o : Outline) (t : TypeExpr) : Except SemanticError Ty := do
  let type ← o.typeOf t
  valueType type t.span

/-! ### Collecting declarations -/

/-- Adds an error. -/
def report (o : Outline) (fault : SemanticFault) (span : Span) : Outline :=
  { o with errors := o.errors.push ⟨fault, span⟩ }

/-- Gives a name its meaning unless it has one. -/
def bind (o : Outline) (name : Ident) (binding : Binding) : Outline :=
  if (o.names.lookup name.value).isSome then
    o.report (.declaredInModule name.value) name.span
  else
    { o with names := o.names ++ [(name.value, binding)] }

/-- Adds a procedure under the next number. -/
def addProc (o : Outline) (proc : LocalProc) : Outline :=
  { o with procs := o.procs.push proc }

def addImport (o : Outline) (resolver : Resolver) (decl : Import) : Outline :=
  match resolver.resolve decl with
  | .ok interface =>
    { o with imported := interface :: o.imported }.bind decl.name (.module (some interface))
  | .error (.notFound path) =>
    (o.report (.moduleNotFound path) decl.span).bind decl.name (.module none)
  | .error (.circular path) =>
    (o.report (.circularImport path) decl.span).bind decl.name (.module none)
  | .error .failed => o.bind decl.name (.module none)

/-- The value after a given one; values are 64 bits wide and wrap around. -/
def nextCaseValue (value : Int) : Int :=
  (value + 1).bmod (Nat.pow 2 64)

/-- The members of an artifact as far as they are collected. -/
structure Members where
  outline : Outline
  names : List String := []
  methods : List (String × ProcId) := []
  cases : List (String × Int) := []
  /-- The value of the next case without a written one. -/
  nextValue : Int := 0

/-- What a procedure of an artifact is, and what `.name` speaks of in it. -/
def memberRole (kind : ArtifactKind) (ref : ArtifactRef) (id : ProcId) : ProcKind × SelfContext :=
  match kind with
  | .record => (.method ref false, .record ref id)
  | _ => (.namespaced ref, .namespaced ref)

/-- Adds a member of an artifact, unless its name is taken by another member. -/
def Members.add (artifact : ArtifactDecl) (m : Members) (member : Member) : Members :=
  let name : Ident := match member with
    | .prop decl => decl.name
    | .proc decl => decl.name
    | .enumCase decl => decl.name
  if m.names.contains name.value then
    let fault := .memberTwice name.value artifact.name.value
    { m with outline := m.outline.report fault name.span }
  else
    let m := { m with names := name.value :: m.names }
    match member with
    | .prop _ => m
    | .enumCase decl =>
      let value := (decl.value.map Located.value).getD m.nextValue
      { m with cases := m.cases ++ [(name.value, value)], nextValue := nextCaseValue value }
    | .proc decl =>
      let id := m.outline.procs.size
      let ref : ArtifactRef := ⟨m.outline.module, artifact.name.value⟩
      let (kind, self) := memberRole artifact.kind ref id
      let proc : LocalProc := ⟨decl, [artifact.name.value, name.value], kind, some self⟩
      { m with outline := m.outline.addProc proc, methods := m.methods ++ [(name.value, id)] }

/-- Adds an artifact with its members, unless its name is taken. -/
def addArtifact (o : Outline) (position : Nat) (decl : ArtifactDecl) : Outline :=
  let name := decl.name
  let named := o.bind name (.artifact ⟨o.module, name.value⟩)
  if (o.names.lookup name.value).isSome then named
  else
    let m := decl.members.foldl (Members.add decl) { outline := named }
    let artifact : LocalArtifact :=
      { decl, position, methods := m.methods, cases := m.cases }
    { m.outline with artifacts := m.outline.artifacts ++ [artifact] }

/-- Adds a procedure of the module. -/
def addTopLevel (o : Outline) (decl : ProcDecl) : Outline :=
  (o.addProc ⟨decl, [decl.name.value], .topLevel, none⟩).bind decl.name (.proc o.procs.size)

/-- Adds a variable of the module. -/
def addGlobal (o : Outline) (position : Nat) (decl : VarDecl) : Outline :=
  let add (o : Outline) (declared : Option Ty) : Outline :=
    { o with globals := o.globals.push ⟨decl, position, declared⟩ }.bind decl.name
      (.symbol o.globals.size)
  match decl.type.map o.valueTypeOf with
  | none => add o none
  | some (.ok type) => add o (some type)
  | some (.error e) => add { o with errors := o.errors.push e } (some .unknown)

/-- Adds the imports and artifacts of statements that are numbered from a given one. -/
def addTypes (resolver : Resolver) (o : Outline) : Nat → List Stmt → Outline
  | _, [] => o
  | position, stmt :: rest =>
    let o := match stmt with
      | .importUnit decl => o.addImport resolver decl
      | .artifact decl => o.addArtifact position decl
      | _ => o
    addTypes resolver o (position + 1) rest

/-- Adds the procedures and variables of statements that are numbered from a given one. -/
def addValues (o : Outline) : Nat → List Stmt → Outline
  | _, [] => o
  | position, stmt :: rest =>
    let o := match stmt with
      | .proc decl => o.addTopLevel decl
      | .var decl => o.addGlobal position decl
      | _ => o
    addValues o (position + 1) rest

def ofProgram (module : ModuleId) (resolver : Resolver) (program : Program) : Outline :=
  let empty : Outline := { module, reached := resolver.interface? }
  (addTypes resolver empty 0 program.stmts).addValues 0 program.stmts

end Outline

end ArkLang
