import ArkLang.Build.Compile

/-!
# Projects

Programs in a tree of files are built under the settings of the manifest that governs their entry.
-/

namespace ArkLang

/-- An absolute path without idle dots and doubled slashes. Steps up stay, because they depend on
what lies below, and so does a slash at the end. -/
def Path.tidied (p : Path) : Path :=
  let steps := p.components.filterMap fun
    | .name name => some name
    | .up => some ".."
    | _ => none
  let slash := if p.endsInSlash && !steps.isEmpty then "/" else ""
  ⟨"/" ++ "/".intercalate steps ++ slash⟩

namespace Project

def settings (t : FileTree) (entry : Path) : Except (List Diagnostic) Settings :=
  match Manifest.governing t entry.tidied with
  | .ok manifest => .ok manifest.settings
  | .error fault => .error [.unplaced entry.text (.manifest fault)]

def check (t : FileTree) (entry : Path) : Except (List Diagnostic) (List CheckedUnit) := do
  ArkLang.check t.sources (← settings t entry) entry.tidied

def compile (t : FileTree) (entry : Path) : Except (List Diagnostic) Compiled := do
  ArkLang.compile t.sources (← settings t entry) entry.tidied

/-! ### What a build leaves behind -/

/-- Writes files into a directory, in order. -/
def writeFiles (dir : Path) : FileTree → List (String × C.Lines) → Except FileFault FileTree
  | t, [] => .ok t
  | t, (name, lines) :: rest => do
    writeFiles dir (← t.write (dir.join ⟨name⟩) lines.text) rest

/-- Writes the files of a program into a directory. The answer holds their paths. -/
def writeProgram (t : FileTree) (dir : Path) (code : C.Lines) :
    Except FileFault (FileTree × List Path) := do
  let files := C.files code
  let written ← writeFiles dir (← t.makeDirectories dir) files
  return (written, files.map fun file => dir.join ⟨file.1⟩)

/-- Writes a report. The directory it goes to is made first. -/
def writeReport (t : FileTree) (path : Path) (report : Report) : Except FileFault FileTree := do
  let ready ← match path.parent? with
    | some dir => t.makeDirectories dir
    | none => .ok t
  ready.write path report.text

end Project

end ArkLang
