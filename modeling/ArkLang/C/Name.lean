import ArkLang.Module.Unit

/-!
# C names

The names that a program's declarations get in C. A name of a module is spelled with the length of
every segment in front of it, so that the boundaries between segments stay visible; characters that
C names cannot have are written as underscores.
-/

namespace ArkLang

namespace C

def isNameChar (c : Char) : Bool :=
  c.isAlphanum || c == '_'

/-- A name with underscores for what C names cannot have. -/
def cleaned (name : String) : String :=
  String.ofList (name.toList.map fun c => if isNameChar c then c else '_')

/-- A segment of a path with its length in front. -/
def segment (name : String) : String :=
  toString name.length ++ cleaned name

def segments (names : List String) : String :=
  String.join (names.map segment)

def moduleSegments (module : ModuleId) : List String :=
  (module.name.toList.splitOn '/').map String.ofList

/-- A module inside a name. -/
def modulePart (module : ModuleId) : String :=
  segments (moduleSegments module)

/-- The names of a program in C. -/
inductive Name where
  /-- A variable, procedure, constant, enumeration case, record or method by its path. -/
  | member (module : ModuleId) (path : List String)
  /-- A procedure that is declared in a block. -/
  | nested (module : ModuleId) (proc : ProcId) (name : String)
  /-- A procedure or constructor called with a number of arguments left out. -/
  | omitting (base : Name) (count : Nat)
  /-- A procedure as it is called through a value. -/
  | viaValue (base : Name)
  /-- The constructor of a record type. -/
  | constructor (record : String)
  /-- The record with all properties at their defaults. -/
  | defaultRecord (record : String)
  /-- What runs the module-level code of a module. -/
  | moduleStart (module : ModuleId)
  /-- What releases the lists of a module. -/
  | moduleEnd (module : ModuleId)
  /-- The type of the environment of a procedure. -/
  | environment (module : ModuleId) (proc : ProcId)
  /-- A function of the support library. -/
  | support (name : String)
  /-- A function that belongs to a type. -/
  | helper (type name : String)
  /-- A local variable, parameter or loop variable. -/
  | localVar (symbol : SymbolId) (name : String)
  /-- A variable that the lowering adds. -/
  | temporary (number : Nat) (what : String)
  /-- A property of a record. -/
  | field (name : String)
  /-- The copy of a captured symbol in an environment. -/
  | capture (symbol : SymbolId)
  /-- The receiver of a method. -/
  | receiver
  /-- The environment that a procedure is called with. -/
  | envParam
  /-- The environment under its own type. -/
  | env
  /-- The record that a constructor fills. -/
  | result
  deriving DecidableEq, Repr, Inhabited

def Name.text : Name → String
  | member module path => "ark_" ++ modulePart module ++ "_" ++ segments path
  | nested module proc name =>
    "ark_" ++ modulePart module ++ "__n" ++ toString proc ++ "_" ++ cleaned name
  | omitting base count => text base ++ "__a" ++ toString count
  | viaValue base => text base ++ "__v"
  | constructor record => record ++ "__new"
  | defaultRecord record => record ++ "__default"
  | moduleStart module => "ark_" ++ modulePart module ++ "__init"
  | moduleEnd module => "ark_" ++ modulePart module ++ "__fini"
  | environment module proc => "ark_env_" ++ modulePart module ++ "_" ++ toString proc
  | support name => name
  | helper type name => type ++ "_" ++ name
  | localVar symbol name => "l" ++ toString symbol ++ "_" ++ cleaned name
  | temporary number what => "t" ++ toString number ++ "_" ++ what
  | field name => "f_" ++ cleaned name
  | capture symbol => "c" ++ toString symbol
  | receiver => "self"
  | envParam => "env_"
  | env => "env"
  | result => "r"

def artifactName (ref : ArtifactRef) : Name :=
  .member ref.module [ref.name]

def memberName (ref : ArtifactRef) (name : String) : Name :=
  .member ref.module [ref.name, name]

end C

end ArkLang
