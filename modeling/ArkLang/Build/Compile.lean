import ArkLang.Build.Check
import ArkLang.Build.Report
import ArkLang.Lowering.Program

/-!
# Compiling programs

A program that passes all checks is lowered to C.
-/

namespace ArkLang

/-- A program and its C. -/
structure Compiled where
  units : List CheckedUnit
  code : C.Lines

def compile (sources : Sources) (settings : Settings) (entry : Path) :
    Except (List Diagnostic) Compiled := do
  let units ← check sources settings entry
  match lowerProgram units with
  | .ok code => return ⟨units, code⟩
  | .error fault =>
    throw [.unplaced (unitLabel entry (settings.searchRoot.getD .empty)) (.lowering fault)]

/-! ### Programs of one unit -/

def textUnit : Path := ⟨"main.ark"⟩

/-- A unit that is given as text. -/
def textSources (text : String) : Sources :=
  .ofFiles [(textUnit, .text text)]

/-- Checks a program of one unit. It has nothing to import. -/
def checkText (settings : Settings) (text : String) : Except (List Diagnostic) (List CheckedUnit) :=
  check (textSources text) settings textUnit

/-- Compiles a program of one unit. -/
def compileText (settings : Settings) (text : String) : Except (List Diagnostic) Compiled :=
  compile (textSources text) settings textUnit

end ArkLang
