import ArkLang.Type.Basic
import ArkLang.Tree.Basic
import ArkLang.Module.NameTable

/-!
# Module interfaces

What a checked module offers to the modules that import it: its variables, procedures and artifacts
with their types.
-/

namespace ArkLang

/-- A parameter as callers see it. -/
structure ParamSig where
  name : String
  type : Ty
  hasDefault : Bool
  deriving DecidableEq, Repr, Inhabited

/-- A procedure as callers see it. -/
structure ProcSig where
  params : List ParamSig
  ret : Ty
  deriving DecidableEq, Repr, Inhabited

namespace ProcSig

/-- The number of arguments that every call supplies: the parameters before the first one with a
default. -/
def required (sig : ProcSig) : Nat :=
  (sig.params.takeWhile fun p => !p.hasDefault).length

def paramTypes (sig : ProcSig) : List Ty :=
  sig.params.map ParamSig.type

def type (sig : ProcSig) : Ty :=
  .proc sig.paramTypes sig.ret

end ProcSig

/-- A property of a record or a constant of a namespace. -/
structure PropInfo where
  name : String
  type : Ty
  mutable : Bool
  deriving DecidableEq, Repr, Inhabited

/-- A method of a record or a procedure of a namespace. -/
structure MethodInfo where
  name : String
  sig : ProcSig
  /-- Whether a call may change the receiver. -/
  mutatesSelf : Bool
  deriving DecidableEq, Repr, Inhabited

/-- An artifact with its members. -/
structure ArtifactInfo where
  name : String
  module : ModuleId
  kind : ArtifactKind
  props : List PropInfo
  methods : List MethodInfo
  cases : List (String × Int)
  deriving DecidableEq, Repr, Inhabited

namespace ArtifactInfo

def prop? (a : ArtifactInfo) (name : String) : Option PropInfo :=
  a.props.find? (·.name == name)

def method? (a : ArtifactInfo) (name : String) : Option MethodInfo :=
  a.methods.find? (·.name == name)

def case? (a : ArtifactInfo) (name : String) : Option Int :=
  a.cases.lookup name

end ArtifactInfo

/-- A variable of a module. -/
structure GlobalInfo where
  type : Ty
  mutable : Bool
  deriving DecidableEq, Repr, Inhabited

/-- What a module offers to its importers. -/
structure Interface where
  module : ModuleId
  globals : NameTable GlobalInfo := {}
  procs : NameTable ProcSig := {}
  artifacts : NameTable ArtifactInfo := {}
  deriving Repr, Inhabited

/-- Why an import has no interface. -/
inductive ImportFailure where
  | notFound (path : String)
  | circular (path : String)
  /-- The imported unit has errors, reported on their own. -/
  | failed
  deriving DecidableEq, Repr, Inhabited

/-- How the imports of one unit are answered. -/
structure Resolver where
  /-- The interface an import statement names. -/
  resolve : Import → Except ImportFailure Interface
  /-- The interface of a module that is reached through the types of another one. -/
  interface? : ModuleId → Option Interface

end ArkLang
