import ArkLang.Files.Tree
import ArkLang.Toml.Reader
import ArkLang.Tree.Dialect

/-!
# Manifests

A manifest is a settings file with one table, which names the project, the dialect of its units and
the directory where bare imports are looked up. It governs the units in its directory and below.
-/

namespace ArkLang

/-! ### The table of a project -/

/-- The settings as they are written. -/
structure ProjectTable where
  name : Option String := none
  dialect : Option String := none
  searchRoot : Option String := none
  deriving DecidableEq, Repr, Inhabited

namespace ProjectTable

/-- Gives a setting its text, which it can have once. -/
def set? (t : ProjectTable) (setting text : String) : Option ProjectTable :=
  match setting, t with
  | "name", { name := none, .. } => some { t with name := text }
  | "dialect", { dialect := none, .. } => some { t with dialect := text }
  | "search_root", { searchRoot := none, .. } => some { t with searchRoot := text }
  | _, _ => none

/-- The settings in a table between braces. -/
def ofPairs? : ProjectTable → List (Toml.Key × Toml.Value) → Option ProjectTable
  | t, [] => some t
  | t, ([setting], .text text) :: rest => do ofPairs? (← t.set? setting text) rest
  | _, _ => none

/-- The settings in a list, by their places. What follows the last place is not looked at. -/
def ofItems? : ProjectTable → List String → List Toml.Value → Option ProjectTable
  | t, setting :: settings, .text text :: rest => do
    ofItems? (← t.set? setting text) settings rest
  | _, _ :: _, _ :: _ => none
  | t, _, _ => some t

def ofValue? : Toml.Value → Option ProjectTable
  | .table pairs => ofPairs? {} pairs
  | .array items => ofItems? {} ["name", "dialect", "search_root"] items
  | _ => none

/-- How the table of a project was opened. -/
inductive Opened where
  /-- Not yet. -/
  | no
  /-- By keys that lead into it. -/
  | byKeys
  /-- By its header, under which the entries stand. -/
  | byHeader
  /-- By a value. -/
  | byValue
  deriving DecidableEq, Repr, Inhabited

/-- Reads entries in order. The table can be opened in one way only, and there is no other. -/
def ofEntriesFrom? : Opened → ProjectTable → List Toml.Entry → Option ProjectTable
  | _, t, [] => some t
  | .no, _, .pair ["project"] value :: rest => do ofEntriesFrom? .byValue (← ofValue? value) rest
  | .no, t, .pair ["project", setting] (.text text) :: rest
  | .byKeys, t, .pair ["project", setting] (.text text) :: rest => do
    ofEntriesFrom? .byKeys (← t.set? setting text) rest
  | .no, t, .header ["project"] :: rest => ofEntriesFrom? .byHeader t rest
  | .byHeader, t, .pair [setting] (.text text) :: rest => do
    ofEntriesFrom? .byHeader (← t.set? setting text) rest
  | _, _, _ => none

/-- The table of a settings file, empty if it has none. -/
def ofEntries? (entries : List Toml.Entry) : Option ProjectTable :=
  ofEntriesFrom? .no {} entries

end ProjectTable

/-! ### Manifests -/

/-- Why a manifest gives no settings. -/
inductive ManifestFault where
  | noDirectory
  | unreadable (path : Path) (fault : FileFault)
  | malformed (path : Path)
  | unknownDialect (path : Path) (dialect : Dialect.Unknown)
  deriving DecidableEq, Repr

def ManifestFault.message : ManifestFault → String
  | noDirectory => "manifest has no parent directory"
  | unreadable path fault => "failed to read " ++ path.text ++ ": " ++ fault.message
  | malformed path => "failed to parse " ++ path.text
  | unknownDialect path dialect => path.text ++ ": " ++ dialect.message

/-- The settings of a project. -/
structure Manifest where
  /-- The manifest itself, if there is one. -/
  path : Option Path
  projectRoot : Path
  name : Option String
  dialect : Dialect
  /-- Where bare imports are looked up. -/
  searchRoot : Path
  deriving DecidableEq, Repr

namespace Manifest

def fileName : Path := ⟨"ark.toml"⟩

/-- The settings without a manifest. -/
def default (projectRoot : Path) : Manifest :=
  ⟨none, projectRoot, none, .inferred, projectRoot⟩

def dialectOf (path : Path) : Option String → Except ManifestFault Dialect
  | none => .ok .inferred
  | some name =>
    match Dialect.ofText name with
    | .ok dialect => .ok dialect
    | .error unknown => .error (.unknownDialect path unknown)

/-- The settings that a manifest gives. Paths in it start at its directory. -/
def ofText (text : String) (path : Path) : Except ManifestFault Manifest :=
  match path.parent?, (Toml.entries? text).bind ProjectTable.ofEntries? with
  | none, _ => .error .noDirectory
  | some _, none => .error (.malformed path)
  | some root, some table => do
    let dialect ← dialectOf path table.dialect
    let searchRoot := match table.searchRoot with
      | some p => root.join ⟨p⟩
      | none => root
    return ⟨some path, root, table.name, dialect, searchRoot⟩

/-! ### Finding manifests -/

/-- The manifest in a directory or in one above it, with a bound on their number. -/
def findWithin? (t : FileTree) : Nat → Path → Option Path
  | bound, dir =>
    let candidate := dir.join fileName
    if t.isFile candidate then some candidate
    else match bound, dir.parent? with
      | n + 1, some parent => findWithin? t n parent
      | _, _ => none

/-- The directory of a path, which is the path itself unless it leads to a file. -/
def directoryOf (t : FileTree) (p : Path) : Option Path :=
  if t.isFile p then p.parent? else some p

/-- The manifest that governs a path. -/
def find? (t : FileTree) (p : Path) : Option Path := do
  let dir ← directoryOf t p
  findWithin? t dir.text.length dir

def governing (t : FileTree) (p : Path) : Except ManifestFault Manifest :=
  let root := (directoryOf t p).getD ⟨"."⟩
  match find? t root with
  | none => .ok (default root)
  | some path =>
    match t.read path with
    | .ok text => ofText text path
    | .error fault => .error (.unreadable path fault)

end Manifest

end ArkLang
