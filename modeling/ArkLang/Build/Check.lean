import ArkLang.Analysis.Unit
import ArkLang.Build.Level

/-!
# Checking programs

The units of a program are analyzed level by level. A unit whose text has errors is not analyzed,
and the interface of a unit is published only if its analysis found no errors; the units of one
level do not see each other. All diagnostics are reported together.
-/

namespace ArkLang

/-- The settings of a build. -/
structure Settings where
  dialect : Dialect := .inferred
  /-- Where bare imports are looked up; without it, in the directory of the entry. -/
  searchRoot : Option Path := none
  deriving DecidableEq, Repr, Inhabited

def Manifest.settings (m : Manifest) : Settings :=
  ⟨m.dialect, some m.searchRoot⟩

/-- How the units of an entry are read under some settings. -/
def Settings.layout (s : Settings) (entry : Path) : Layout :=
  ⟨s.dialect, s.searchRoot.getD (entry.parent?.getD .empty)⟩

/-- Interfaces under the names of their modules. -/
abbrev Published := NameTable Interface

/-- What an analysis gives. -/
abbrev Outcome := Except (List SemanticError) CheckedUnit

namespace UnitGraph

variable (g : UnitGraph)

/-- The position of the unit of a module, the last one if there are several. -/
def position? (module : ModuleId) : Option Nat :=
  (List.range g.units.length).reverse.find? fun u => g.units[u]?.any (·.module = module)

/-- The import of a module that stands at a span, with the position of its unit. -/
def edge? (module : ModuleId) (span : Span) : Option (Nat × ImportEdge) := do
  let u ← g.position? module
  let unit ← g.units[u]?
  let edge ← unit.imports.find? (·.span = span)
  return (u, edge)

/-- The interface that an import of a module leads to. -/
def resolve (published : Published) (module : ModuleId) (i : Import) :
    Except ImportFailure Interface :=
  match g.edge? module i.span with
  | none => .error .failed
  | some (u, edge) =>
    match edge.target with
    | .error (.notFound _) => .error (.notFound i.path)
    | .error (.circular _) => .error (.circular i.path)
    | .error (.unreadable _ _) => .error .failed
    | .ok v =>
      if g.isCircular u v then .error (.circular i.path)
      else match g.units[v]?.bind fun unit => published.get? unit.module.name with
        | some interface => .ok interface
        | none => .error .failed

/-- How the imports of a module are answered. -/
def resolver (published : Published) (module : ModuleId) : Resolver where
  resolve := g.resolve published module
  interface? other := published.get? other.name

/-- The result of analyzing a unit, if its text has no errors. -/
def outcome? (published : Published) (u : Nat) : Option (Nat × Outcome) := do
  let unit ← g.units[u]?
  guard unit.diagnostics.isEmpty
  return (u, analyze unit.module (g.resolver published unit.module) unit.program)

end UnitGraph

/-- Publishes the interface of a unit that has no errors. -/
def publish (published : Published) : Nat × Outcome → Published
  | (_, .ok unit) => published.insert unit.module.name unit.interface
  | (_, .error _) => published

namespace UnitGraph

variable (g : UnitGraph)

/-- The results of analyzing levels, one after the other. -/
def outcomesFrom : Published → List (List Nat) → List (Nat × Outcome)
  | _, [] => []
  | published, level :: rest =>
    let found := level.filterMap (g.outcome? published)
    found ++ outcomesFrom (found.foldl publish published) rest

/-- The results of all analyses, in the order of levels. -/
def outcomes : List (Nat × Outcome) :=
  g.outcomesFrom {} g.levels

/-- The errors that the analysis of a unit found. -/
def semanticErrors (outcomes : List (Nat × Outcome)) (u : Nat) : List SemanticError :=
  match outcomes.lookup u with
  | some (.error errors) => errors
  | _ => []

def unitDiagnostics (outcomes : List (Nat × Outcome)) (u : Nat) : List Diagnostic :=
  match g.units[u]? with
  | none => []
  | some unit =>
    let index := LineIndex.ofText unit.text
    unit.diagnostics ++ (semanticErrors outcomes u).map fun e =>
      .atSpan unit.label index e.span (.semantic e.fault)

/-- All diagnostics, unit by unit in the order in which the units were found. -/
def diagnostics (outcomes : List (Nat × Outcome)) : List Diagnostic :=
  (List.range g.units.length).flatMap (g.unitDiagnostics outcomes)

/-- The checked units in the order of levels, or all diagnostics. -/
def checked : Except (List Diagnostic) (List CheckedUnit) :=
  let outcomes := g.outcomes
  let diagnostics := g.diagnostics outcomes
  if diagnostics.isEmpty then .ok (outcomes.filterMap (·.2.toOption))
  else .error diagnostics

end UnitGraph

/-- Checks the program of an entry. An entry that cannot be loaded is the only diagnostic. -/
def check (sources : Sources) (settings : Settings) (entry : Path) :
    Except (List Diagnostic) (List CheckedUnit) :=
  let layout := settings.layout entry
  let path := entry.normalize
  match sources.load path with
  | .error fault => .error [.unplaced (unitLabel path.path layout.searchRoot) (.load fault)]
  | .ok text => (UnitGraph.ofEntry sources layout (.read layout path text)).checked

end ArkLang
