import Std.Data.TreeMap
import Std.Data.TreeSet
import ArkLang.Module.Interface
import ArkLang.Type.Builtin

/-!
# Checked units

A unit that passed all checks, with what was found out about its tree. Symbols and procedures are
numbered in the order in which they were met; everything else is kept in tables keyed by the
identity of nodes.
-/

namespace ArkLang

/-- The number of a symbol inside one unit. -/
abbrev SymbolId := Nat

/-- The number of a procedure inside one unit. -/
abbrev ProcId := Nat

/-- What a symbol is. -/
inductive SymbolKind where
  | var | param | loopVar
  /-- A procedure declared inside a block. -/
  | nestedProc (proc : ProcId)
  deriving DecidableEq, Repr, Inhabited

/-- A variable, parameter, loop variable or nested procedure. -/
structure SymbolInfo where
  id : SymbolId
  name : String
  kind : SymbolKind
  type : Ty
  mutable : Bool
  /-- Whether it is declared directly at module level. -/
  isGlobal : Bool
  /-- The procedure whose frame holds the symbol; none for module-level code. -/
  owner : Option ProcId
  /-- The number of scopes around the declaration. -/
  depth : Nat
  span : Span
  deriving DecidableEq, Repr, Inhabited

/-- A procedure or method by its module and its path there. -/
structure ProcRef where
  module : ModuleId
  path : List String
  deriving DecidableEq, Repr, Inhabited

/-- Where a procedure is declared. -/
inductive ProcKind where
  | topLevel
  /-- Inside the body of another procedure, or in a block of module-level code. -/
  | nested (parent : Option ProcId)
  | method (artifact : ArtifactRef) (mutatesSelf : Bool)
  | namespaced (artifact : ArtifactRef)
  deriving DecidableEq, Repr, Inhabited

/-- A parameter with its symbol. -/
structure ParamInfo where
  name : String
  type : Ty
  hasDefault : Bool
  symbol : SymbolId
  deriving DecidableEq, Repr, Inhabited

/-- A procedure with what was found out about it. -/
structure ProcInfo where
  id : ProcId
  name : String
  path : List String
  decl : NodeId
  params : List ParamInfo
  ret : Ty
  kind : ProcKind
  /-- The symbols of enclosing procedures that this one reads, in the order of first use. -/
  captures : List SymbolId
  nestedIn : Option ProcId
  deriving DecidableEq, Repr, Inhabited

namespace ProcInfo

/-- A procedure as callers see it. -/
def sig (p : ProcInfo) : ProcSig :=
  ⟨p.params.map fun q => ⟨q.name, q.type, q.hasDefault⟩, p.ret⟩

/-- Whether a procedure is declared inside a block. -/
def isNested (p : ProcInfo) : Bool :=
  match p.kind with
  | .nested _ => true
  | _ => false

def isMethod (p : ProcInfo) : Bool :=
  match p.kind with
  | .method _ _ => true
  | _ => false

/-- Whether a procedure is a method that may change its receiver. -/
def mutatesSelf (p : ProcInfo) : Bool :=
  match p.kind with
  | .method _ mutates => mutates
  | _ => false

end ProcInfo

/-- What a name or a member denotes. -/
inductive Resolution where
  /-- A local, parameter, loop variable, variable of the module or nested procedure. -/
  | var (symbol : SymbolId)
  /-- A procedure as a value. -/
  | proc (ref : ProcRef)
  /-- An imported variable or a constant of a namespace. -/
  | global (module : ModuleId) (path : List String)
  | enumCase (artifact : ArtifactRef) (value : Int)
  /-- `value.name` on a record. -/
  | field (name : String)
  /-- `.name` in a method of a record. -/
  | selfField (name : String)
  | module (id : ModuleId)
  | artifact (ref : ArtifactRef)
  deriving DecidableEq, Repr, Inhabited

/-- What the receiver of a method call is. -/
inductive Receiver where
  /-- The expression in front of the dot. -/
  | value
  /-- The receiver of the method that makes the call. -/
  | self
  deriving DecidableEq, Repr, Inhabited

/-- What a call calls. -/
inductive CallTarget where
  | proc (ref : ProcRef) (supplied total : Nat)
  | nestedProc (symbol : SymbolId) (proc : ProcId) (supplied total : Nat)
  | method (artifact : ArtifactRef) (name : String) (supplied total : Nat) (mutating : Bool)
      (receiver : Receiver)
  | constructor (artifact : ArtifactRef) (supplied total : Nat)
  /-- A procedure held as a value. -/
  | value
  | builtin (which : Builtin)
  | listPush
  | listPop
  deriving DecidableEq, Repr, Inhabited

abbrev NodeTable (α : Type) := Std.TreeMap NodeId α

abbrev NodeSet := Std.TreeSet NodeId

/-- What was found out about the nodes of one unit. -/
structure Findings where
  exprTypes : NodeTable Ty := {}
  /-- Integer expressions that are used as floats. -/
  widened : NodeSet := {}
  resolutions : NodeTable Resolution := {}
  calls : NodeTable CallTarget := {}
  /-- The symbols of variable declarations, parameters, range loops and nested procedures. -/
  declSymbols : NodeTable SymbolId := {}
  procDecls : NodeTable ProcId := {}

/-- A unit that passed all checks. -/
structure CheckedUnit extends Findings where
  module : ModuleId
  program : Program
  symbols : Array SymbolInfo
  procs : Array ProcInfo
  /-- The artifacts of the unit under the nodes that declare them. -/
  artifacts : NodeTable ArtifactInfo
  interface : Interface

/-- The type of an expression; unknown where none was found. -/
def Findings.typeOf (f : Findings) (id : NodeId) : Ty :=
  f.exprTypes.getD id .unknown

end ArkLang
