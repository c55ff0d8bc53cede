import ArkLang.Analysis.Outline

/-!
# Checking

Checking a unit fills tables. It goes through the declarations of the unit in order, but whatever it
needs of a declaration further on (the type of a variable, the signature or the result of a
procedure, the properties of an artifact) it checks on demand, each such item once. An item that is
needed while it is being checked depends on itself.

An error ends the check of a statement or a declaration; what the tables hold by then stays, and
checking goes on with the next one.
-/

namespace ArkLang

/-- What is checked once, on demand. -/
inductive Item where
  /-- The type of a variable of the module. -/
  | global (symbol : SymbolId)
  /-- The parameters and the declared result of a procedure. -/
  | signature (proc : ProcId)
  | body (proc : ProcId)
  /-- The properties of an artifact of the module. -/
  | props (artifact : String)
  deriving DecidableEq, Repr, Inhabited

/-- A procedure while its unit is being checked. -/
structure ProcEntry where
  info : ProcInfo
  hasDeclaredRet : Bool
  /-- The result as far as it is known: declared, or seen at a `return`. -/
  ret : Option Ty := none
  /-- Whether a method writes to its receiver itself. -/
  writesSelf : Bool := false
  deriving Repr, Inhabited

/-- What a place that is written to belongs to. -/
inductive PlaceRoot where
  | symbol (id : SymbolId)
  /-- The receiver of the method that holds the code. -/
  | self
  /-- An imported variable, a constant of a namespace or a procedure. -/
  | static
  /-- The result of a call or a literal. -/
  | temporary
  deriving DecidableEq, Repr, Inhabited

/-- What an expression denotes as a place to write to. -/
structure Place where
  root : PlaceRoot
  /-- Why it cannot be written to, if it cannot. -/
  fixed : Option Fixed
  deriving DecidableEq, Repr, Inhabited

/-- A method call whose receiver can only be judged once it is known which methods change theirs. -/
structure PendingReceiver where
  call : Node
  place : Place
  artifact : ArtifactRef
  method : String
  /-- The procedure that makes the call. -/
  caller : Option ProcId
  deriving Repr, Inhabited

/-- The tables and the errors of a unit while it is being checked. -/
structure Analysis extends Findings where
  symbols : Array SymbolInfo := #[]
  procs : Array ProcEntry := #[]
  /-- The properties of the artifacts, as far as their types are known. -/
  props : NameTable (List PropInfo) := {}
  started : List Item := []
  finished : List Item := []
  pending : Array PendingReceiver := #[]
  errors : Array SemanticError := #[]

/-- A check reads the outline of the unit, changes its tables, and gives a value or an error; what
it wrote before an error stays. -/
abbrev Check := ReaderT Outline (ExceptT SemanticError (StateM Analysis))

/-- The names that one block declares, in order. -/
abbrev Frame := List (String × SymbolId)

/-- Where the code being checked stands. -/
structure Context where
  /-- The local names in scope, innermost block first. -/
  frames : List Frame := []
  /-- The procedures around the code, innermost first; none for module-level code. -/
  procs : List ProcId := []
  inLoop : Bool := false
  self : Option SelfContext := none
  /-- The number of the module-level statement that runs the code: it sees only what is declared
  before it. Code of procedures runs later and sees everything. -/
  position : Option Nat := none
  deriving Repr, Inhabited

namespace Context

/-- The innermost procedure around the code. -/
def proc (c : Context) : Option ProcId :=
  c.procs.head?

/-- The context of a new block. -/
def enter (c : Context) (inLoop : Bool) : Context :=
  { c with frames := [] :: c.frames, inLoop := c.inLoop || inLoop }

/-- Whether the innermost block declares a name. -/
def declares (c : Context) (name : String) : Bool :=
  match c.frames with
  | frame :: _ => (frame.lookup name).isSome
  | [] => false

/-- Declares a name in the innermost block. -/
def bind (c : Context) (name : String) (symbol : SymbolId) : Context :=
  match c.frames with
  | frame :: outer => { c with frames := (frame ++ [(name, symbol)]) :: outer }
  | [] => { c with frames := [[(name, symbol)]] }

/-- What a name stands for: the innermost block that declares it decides, then the module. -/
def lookup (c : Context) (o : Outline) (name : String) : Option Binding :=
  match c.frames.findSome? (·.lookup name) with
  | some symbol => some (.symbol symbol)
  | none => o.names.lookup name

end Context

namespace Check

/-! ### Errors -/

/-- Fails for a cause at a place. -/
def fail {α : Type} (fault : SemanticFault) (span : Span) : Check α :=
  throw ⟨fault, span⟩

def note (e : SemanticError) : Check Unit :=
  modify fun s => { s with errors := s.errors.push e }

/-- The outcome of a check as a value. -/
def attempt {α : Type} (x : Check α) : Check (Except SemanticError α) :=
  tryCatch (Except.ok <$> x) fun e => return .error e

/-- Runs a check; an error is noted, and a given value stands for the missing one. -/
def orNote {α : Type} (x : Check α) (missing : α) : Check α :=
  tryCatch x fun e => do
    note e
    return missing

def noteOutcome {α : Type} : Except SemanticError α → Check Unit
  | .ok _ => return ()
  | .error e => note e

/-- A pure outcome as a check. -/
def ofExcept {α : Type} : Except SemanticError α → Check α
  | .ok x => return x
  | .error e => throw e

/-! ### Tables -/

/-- Records the type of an expression. -/
def setType (id : NodeId) (type : Ty) : Check Unit :=
  modify fun s => { s with exprTypes := s.exprTypes.insert id type }

/-- Records that an integer expression is used as a float. -/
def widen (id : NodeId) : Check Unit :=
  modify fun s => { s with widened := s.widened.insert id }

/-- Records what a name or member denotes. -/
def resolve (id : NodeId) (resolution : Resolution) : Check Unit :=
  modify fun s => { s with resolutions := s.resolutions.insert id resolution }

def setCall (id : NodeId) (target : CallTarget) : Check Unit :=
  modify fun s => { s with calls := s.calls.insert id target }

def setDeclSymbol (id : NodeId) (symbol : SymbolId) : Check Unit :=
  modify fun s => { s with declSymbols := s.declSymbols.insert id symbol }

/-- Records that a call of a method is to be judged later. -/
def postpone (receiver : PendingReceiver) : Check Unit :=
  modify fun s => { s with pending := s.pending.push receiver }

/-! ### Symbols and procedures -/

def symbol (id : SymbolId) : Check SymbolInfo :=
  return (← get).symbols.getD id default

def procEntry (id : ProcId) : Check ProcEntry :=
  return (← get).procs.getD id default

def updateProc (id : ProcId) (f : ProcEntry → ProcEntry) : Check Unit :=
  modify fun s => { s with procs := s.procs.modify id f }

def setSymbolType (id : SymbolId) (type : Ty) : Check Unit :=
  modify fun s => { s with symbols := s.symbols.modify id fun x => { x with type } }

/-- Adds a local symbol under the next number. -/
def newSymbol (c : Context) (name : Ident) (kind : SymbolKind) (type : Ty) (mutable : Bool) :
    Check SymbolId := do
  let id := (← get).symbols.size
  let symbol : SymbolInfo :=
    { id, name := name.value, kind, type, mutable, isGlobal := false, owner := c.proc,
      depth := c.frames.length, span := name.span }
  modify fun s => { s with symbols := s.symbols.push symbol }
  return id

/-- Declares a local name in the innermost block, unless that block declares it already. -/
def declare (c : Context) (name : Ident) (kind : SymbolKind) (type : Ty) (mutable : Bool) :
    Check (SymbolId × Context) := do
  if c.declares name.value then
    fail (.declaredInScope name.value) name.span
  let id ← newSymbol c name kind type mutable
  return (id, c.bind name.value id)

/-! ### Items -/

/-- Whether an item is neither checked nor being checked. -/
def isUntouched (item : Item) : Check Bool :=
  return !(← get).started.contains item

def isInProgress (item : Item) : Check Bool := do
  let s ← get
  return s.started.contains item && !s.finished.contains item

/-- Checks an item unless that was done or begun before. -/
def once (item : Item) (check : Check Unit) : Check Unit := do
  if ← isUntouched item then
    modify fun s => { s with started := item :: s.started }
    check
    modify fun s => { s with finished := item :: s.finished }

end Check

end ArkLang
