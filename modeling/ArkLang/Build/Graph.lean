import ArkLang.Build.Diagnostic
import ArkLang.Path.Normal

/-!
# The units of a program

A program consists of the units that can be reached from its entry by following imports. They are
found in the order in which they are first imported, the entry first; a unit is followed even if it
is faulty, as far as it could be read. An import leads to the unit at its path, or to the fault with
which that path cannot be loaded.
-/

namespace ArkLang

/-- A unit that was loaded and read. -/
structure SourceUnit where
  path : NormalPath
  /-- The name of the unit in messages. -/
  label : String
  module : ModuleId
  text : String
  /-- The program as far as it could be read. -/
  program : Program
  /-- What was wrong with the text, in the order of places. -/
  readErrors : List Diagnostic

/-- How units are read and where bare imports are looked up. -/
structure Layout where
  dialect : Dialect
  searchRoot : Path
  deriving DecidableEq, Repr, Inhabited

/-- What was wrong with a text. Errors of lexemes hide those of the grammar, which follow from
them. -/
def Recovered.diagnostics (r : Recovered) (label : String) : List Diagnostic :=
  let found := if r.lexErrors.isEmpty then r.parseErrors.map (.ofParse label)
    else r.lexErrors.map (.ofLex label)
  found.mergeSort Diagnostic.le

def SourceUnit.read (layout : Layout) (path : NormalPath) (text : String) : SourceUnit :=
  let label := unitLabel path.path layout.searchRoot
  let recovered := recoverProgram layout.dialect text
  { path, label, text
    module := ⟨moduleName path.path layout.searchRoot⟩
    program := recovered.program
    readErrors := recovered.diagnostics label }

/-- Where the imports of a unit point, in order. -/
def SourceUnit.importPaths (layout : Layout) (u : SourceUnit) : List NormalPath :=
  u.program.imports.map fun i => importPath u.path.path i layout.searchRoot

/-! ### Discovery -/

/-- The units found so far, and the one at a path if it is new and can be loaded. -/
def addUnit (sources : Sources) (layout : Layout) (units : List SourceUnit) (path : NormalPath) :
    List SourceUnit :=
  if units.any (·.path = path) then units
  else match sources.load path with
    | .ok text => units ++ [.read layout path text]
    | .error _ => units

/-- Follows the imports of units from a position on, with a bound on the number of units. -/
def discoverWithin (sources : Sources) (layout : Layout) :
    Nat → Nat → List SourceUnit → List SourceUnit
  | 0, _, units => units
  | n + 1, next, units =>
    match units[next]? with
    | none => units
    | some u =>
      discoverWithin sources layout n (next + 1)
        ((u.importPaths layout).foldl (addUnit sources layout) units)

/-- The units that can be reached from an entry, which is the first of them. -/
def discover (sources : Sources) (layout : Layout) (entry : SourceUnit) : List SourceUnit :=
  discoverWithin sources layout sources.loadable.length 0 [entry]

/-! ### Imports -/

/-- An import of a unit and where it leads: to a unit by its position, or to a fault. -/
structure ImportEdge where
  span : Span
  target : Except LoadFault Nat

/-- A unit with its imports. -/
structure LinkedUnit extends SourceUnit where
  imports : List ImportEdge

/-- The units of a program with their imports. -/
structure UnitGraph where
  units : List LinkedUnit

/-- Where a path leads among some units. -/
def target (sources : Sources) (units : List SourceUnit) (path : NormalPath) :
    Except LoadFault Nat :=
  match units.findIdx? (·.path = path), sources.load path with
  | some i, _ => .ok i
  | none, .error fault => .error fault
  | none, .ok _ => .error (.notFound path)

/-- A unit with its imports, as they lead to some units. -/
def SourceUnit.link (sources : Sources) (layout : Layout) (units : List SourceUnit)
    (u : SourceUnit) : LinkedUnit :=
  { u with
    imports := u.program.imports.map fun i =>
      ⟨i.span, target sources units (importPath u.path.path i layout.searchRoot)⟩ }

def UnitGraph.ofEntry (sources : Sources) (layout : Layout) (entry : SourceUnit) : UnitGraph :=
  let units := discover sources layout entry
  ⟨units.map (·.link sources layout units)⟩

/-- What is reported of an import that cannot be read. Other faults are left to the analysis. -/
def ImportEdge.diagnostic? (label : String) (index : LineIndex) (edge : ImportEdge) :
    Option Diagnostic :=
  match edge.target with
  | .error fault =>
    if fault.isUnreadable then some (.atSpan label index edge.span (.load fault)) else none
  | .ok _ => none

/-- What is wrong with a unit before it is analyzed. -/
def LinkedUnit.diagnostics (u : LinkedUnit) : List Diagnostic :=
  u.readErrors ++ u.imports.filterMap (·.diagnostic? u.label (.ofText u.text))

end ArkLang
