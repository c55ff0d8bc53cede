import ArkLang.Lowering.Type

/-!
# Lowering

Lowering goes through the tree of a checked unit once. It adds to the sections of the program, notes
the types that need a definition, and numbers the variables it adds to a function.
-/

namespace ArkLang

/-- What lowering knows. -/
structure LowerContext where
  unit : CheckedUnit
  table : ArtifactTable

/-- What lowering writes. -/
structure LowerState where
  types : TypeOrder := {}
  sections : C.Sections := {}
  /-- The number of variables added to the function being lowered. -/
  temporaries : Nat := 0
  deriving Inhabited

/-- Lowering gives a value or a fault. -/
abbrev Lower := ReaderT LowerContext (StateT LowerState (Except LowerFault))

/-- A variable that owns a list. -/
structure Owned where
  name : C.Name
  type : Ty
  deriving DecidableEq, Repr, Inhabited

/-- A block that is being lowered. -/
structure OpenScope where
  /-- The variables of the block that own lists, the last one first. -/
  owned : List Owned := []
  isLoopBody : Bool := false
  deriving DecidableEq, Repr, Inhabited

/-- The function being lowered. -/
structure Activation where
  /-- The procedure; none for module-level code. -/
  proc : Option ProcId := none
  ret : Ty := .void
  /-- The parameters that own lists. -/
  params : List Owned := []
  /-- The blocks that are open, innermost first. -/
  scopes : List OpenScope := [{}]
  deriving Repr, Inhabited

namespace Activation

/-- The activation of a new block. -/
def enter (a : Activation) (isLoopBody : Bool) : Activation :=
  { a with scopes := { isLoopBody } :: a.scopes }

/-- Notes a variable of the innermost block, if it owns a list. -/
def own (a : Activation) (name : C.Name) (type : Ty) : Activation :=
  match a.scopes with
  | scope :: outer =>
    if type.containsList then
      { a with scopes := { scope with owned := ⟨name, type⟩ :: scope.owned } :: outer }
    else
      a
  | [] => a

/-- Whether anything is to be released before the function is left. -/
def holdsLists (a : Activation) : Bool :=
  !a.params.isEmpty || a.scopes.any fun s => !s.owned.isEmpty

/-- What the innermost block owns, the last one first. -/
def ownedByBlock (a : Activation) : List Owned :=
  (a.scopes.head?.map OpenScope.owned).getD []

/-- What all open blocks own, innermost and latest first. -/
def ownedByBlocks (a : Activation) : List Owned :=
  a.scopes.flatMap OpenScope.owned

/-- What is to be released before the function is left. -/
def ownedByFunction (a : Activation) : List Owned :=
  a.ownedByBlocks ++ a.params

/-- What some blocks own up to the innermost loop body; none if there is no loop. -/
def ownedInLoop? : List OpenScope → Option (List Owned)
  | [] => none
  | scope :: outer =>
    if scope.isLoopBody then some scope.owned
    else (ownedInLoop? outer).map (scope.owned ++ ·)

end Activation

namespace Lower

/-! ### What was found out about the unit -/

def unit : Lower CheckedUnit :=
  return (← read).unit

def table : Lower ArtifactTable :=
  return (← read).table

/-- A value that must be there. -/
def require {α : Type} (x : Option α) (fault : LowerFault) : Lower α :=
  match x with
  | some x => return x
  | none => throw fault

def typeOf (e : Expr) : Lower Ty :=
  return (← unit).typeOf e.id

/-- The type of an expression where it is used: an integer may be widened. -/
def valueType (e : Expr) : Lower Ty := do
  let u ← unit
  return if u.widened.contains e.id then .float else u.typeOf e.id

def procOf (id : NodeId) : Lower ProcInfo := do
  let u ← unit
  let proc ← require (u.procDecls.get? id) .missingProc
  return u.procs.getD proc default

def symbolOf (id : NodeId) : Lower SymbolInfo := do
  let u ← unit
  let symbol ← require (u.declSymbols.get? id) .missingSymbol
  return u.symbols.getD symbol default

def symbol (id : SymbolId) : Lower SymbolInfo :=
  return (← unit).symbols.getD id default

def artifact (ref : ArtifactRef) : Lower ArtifactInfo := do
  (← table).find ref

/-! ### Names -/

def localName (sym : SymbolInfo) : C.Name :=
  .localVar sym.id sym.name

def procName (proc : ProcInfo) : Lower C.Name := do
  let module := (← unit).module
  return if proc.isNested then .nested module proc.id proc.name else .member module proc.path

/-- The name of a procedure of the unit by its number. -/
def procNameOf (id : ProcId) : Lower C.Name := do
  procName ((← unit).procs.getD id default)

/-- The type of the environment of a procedure. -/
def envName (proc : ProcId) : Lower C.Name :=
  return .environment (← unit).module proc

/-- The name of a variable of the module. -/
def globalName (name : String) : Lower C.Name :=
  return .member (← unit).module [name]

/-- A name for a variable that the lowering adds. -/
def temporary (what : String) : Lower C.Name := do
  let number := (← get).temporaries + 1
  modify fun s => { s with temporaries := number }
  return .temporary number what

/-- Lowers a function of its own: its variables are numbered from one. -/
def inFunction {α : Type} (x : Lower α) : Lower α := do
  let before := (← get).temporaries
  modify fun s => { s with temporaries := 0 }
  let result ← x
  modify fun s => { s with temporaries := before }
  return result

/-! ### Types -/

/-- The name of a type, which is then defined. -/
def cType (type : Ty) : Lower C.TypeName := do
  let t ← table
  let (_, types) ← (t.register type).run (← get).types
  modify fun s => { s with types }
  t.typeName type

/-- The value of a variable that is declared without one. -/
def defaultValue (type : Ty) : Lower C.Expr := do
  let name ← cType type
  (← table).defaultValue name type

/-! ### Sections -/

/-- Changes the sections of the program. -/
def addTo (f : C.Sections → C.Sections) : Lower Unit :=
  modify fun s => { s with sections := f s.sections }

/-- Adds the type of a function. -/
def addPrototype (sig : C.Signature) : Lower Unit :=
  addTo fun s => { s with prototypes := s.prototypes.push sig }

/-- Adds a function whose type was added before. -/
def addBody (sig : C.Signature) (body : List C.Stmt) : Lower Unit :=
  addTo fun s => { s with functions := s.functions.push ⟨sig, body⟩ }

/-- Adds a function and its type. -/
def addFunction (sig : C.Signature) (body : List C.Stmt) : Lower Unit := do
  addPrototype sig
  addBody sig body

end Lower

end ArkLang
