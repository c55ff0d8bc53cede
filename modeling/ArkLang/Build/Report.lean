import ArkLang.Build.Diagnostic
import ArkLang.Json.Basic

/-!
# Reports

A report says whether a build succeeded, and lists its diagnostics.
-/

namespace ArkLang

def Diagnostic.json (d : Diagnostic) : Json :=
  .object [("phase", .text d.problem.phase.name), ("kind", .text d.problem.kindName),
    ("unit", .text d.unit), ("line", .number d.position.line),
    ("column", .number d.position.column), ("message", .text d.problem.message)]

/-- The outcome of a build. -/
structure Report where
  diagnostics : List Diagnostic := []

namespace Report

/-- The name of the format. -/
def schema : String := "ark.compile-report.v1"

/-- A report as a value. A build without diagnostics succeeded. -/
def json (r : Report) : Json :=
  .object [("schema", .text schema), ("ok", .bool r.diagnostics.isEmpty),
    ("diagnostics", .array (r.diagnostics.map Diagnostic.json))]

def text (r : Report) : String :=
  r.json.pretty

/-- What a failed build says. -/
def headline (r : Report) : String :=
  "compilation failed with " ++ toString r.diagnostics.length ++ " error(s)"

/-- The number of diagnostics of a phase. -/
def count (r : Report) (phase : Phase) : Nat :=
  (r.diagnostics.filter (·.problem.phase = phase)).length

end Report

end ArkLang
