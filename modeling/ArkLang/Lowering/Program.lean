import ArkLang.C.Support
import ArkLang.Lowering.Decl
import ArkLang.Lowering.TypeText

/-!
# Lowering programs

The units of a program go into one C file. Each has a function that runs its module-level
code and one that releases the lists it holds; the program runs the first ones in the order of the
units and the second ones in the opposite order.
-/

namespace ArkLang

/-- The type of a function without parameters and without a result. -/
def C.Signature.action (name : C.Name) : C.Signature :=
  ⟨"void", name, []⟩

def Lower.module : Lower Unit := do
  let u ← unit
  let owned ← decls u.program.stmts
  let start ← inFunction do
    let (code, a) ← stmts {} u.program.stmts
    return code ++ (← releaseAll a.ownedByBlocks)
  let finish ← releaseAll owned.reverse
  addFunction (.action (.moduleStart u.module)) start
  addFunction (.action (.moduleEnd u.module)) finish
  addTo fun s => { s with modules := s.modules.push u.module }

def lowerUnits (table : ArtifactTable) :
    LowerState → List CheckedUnit → Except LowerFault LowerState
  | state, [] => .ok state
  | state, unit :: rest => do
    let (_, next) ← (Lower.module { unit, table }).run state
    lowerUnits table next rest

namespace C

/-- A section under a comment that names it. -/
def titled (title : String) (lines : Lines) : Lines :=
  ("/* " ++ title ++ " */") :: lines

/-- A section with a blank line behind it, left out if it is empty. -/
def optional (title : String) (lines : Lines) : Lines :=
  if lines.isEmpty then [] else titled title lines ++ [""]

/-- The function that runs a program. -/
def mainFunction (modules : List ModuleId) : Lines :=
  let call (name : Name) := name.text ++ "();"
  block "int main(void)"
    (["ark_rt_init();"] ++ modules.map (fun m => call (.moduleStart m)) ++
      modules.reverse.map (fun m => call (.moduleEnd m)) ++ ["ark_rt_fini();", "return 0;"])

def enumLine (case : Name × Int) : String :=
  "#define " ++ case.1.text ++ " " ++ intLiteral case.2

/-- A program as lines, given the definitions of its types and the functions that belong to them. -/
def Sections.lines (s : Sections) (definitions helpers : Lines) : Lines :=
  ["/* Generated by ark. Do not edit. */", "#include \"ark_runtime.h\"", ""] ++
    titled "types" definitions ++
    optional "procedure environments" (s.environments.toList.map Environment.line) ++
    optional "enums" (s.enumCases.toList.map enumLine) ++
    titled "prototypes" (s.prototypes.toList.map fun sig => sig.text ++ ";") ++ [""] ++
    titled "helpers" helpers ++
    titled "globals" (s.globals.toList.map Global.line) ++ [""] ++
    s.functions.toList.flatMap Function.lines ++
    mainFunction s.modules.toList

/-- The files of a program with their names, in the order in which a C compiler takes them. -/
def files (program : Lines) : List (String × Lines) :=
  [("ark_runtime.h", Support.header), ("ark_runtime.c", Support.source), ("program.c", program)]

end C

/-- The C of a program, given its units in the order of initialization. -/
def lowerProgram (units : List CheckedUnit) : Except LowerFault C.Lines := do
  if units.isEmpty then throw .noUnits
  let table := ArtifactTable.ofUnits units
  let state ← lowerUnits table {} units
  let types := state.types.order.toList
  return state.sections.lines (← table.definitions types) (← table.helpers types)

end ArkLang
