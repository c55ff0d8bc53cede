import ArkLang.Path.Normal

/-!
# Trees of files

A tree holds files under absolute paths. The directories above a file exist with it. A path is
followed step by step: every step leaves a directory that must exist, also one that goes up or
nowhere, and nothing lies below a file. Names and paths are of limited length.
-/

namespace ArkLang

/-- What a tree holds under a path. -/
inductive FileEntry where
  /-- A file with its text; none if its bytes are no text. -/
  | file (text : Option String)
  | directory
  deriving DecidableEq, Repr, Inhabited

/-- Why a file cannot be read or written. -/
inductive FileFault where
  | notFound | notDirectory | isDirectory | alreadyExists | tooLong | holdsNull | notText
  deriving DecidableEq, Repr, Inhabited

def FileFault.message : FileFault → String
  | notFound => "No such file or directory (os error 2)"
  | notDirectory => "Not a directory (os error 20)"
  | isDirectory => "Is a directory (os error 21)"
  | alreadyExists => "File exists (os error 17)"
  | tooLong => "File name too long (os error 36)"
  | holdsNull => "file name contained an unexpected NUL byte"
  | notText => "stream did not contain valid UTF-8"

/-! ### Paths that can be followed -/

/-- The number of bytes that a name can have. -/
def nameLimit : Nat := 255

/-- The number of bytes that a path can have. -/
def pathLimit : Nat := 4095

namespace Path

/-- The steps that are taken along an absolute path. A dot is a step as well, since it asks for a
directory. -/
def walk (p : Path) : List Component :=
  (p.text.toList.splitOn '/').filterMap fun s => if s = ['.'] then some .here else step? s

/-- Whether a path ends in a slash, which asks for a directory. -/
def endsInSlash (p : Path) : Bool :=
  p.text.toList.getLast? = some '/'

/-- Refuses a path that cannot be followed in any tree. -/
def permit (p : Path) : Except FileFault Unit :=
  if p.text.toList.contains '\x00' then .error .holdsNull
  else if pathLimit < p.text.utf8ByteSize then .error .tooLong
  else .ok ()

end Path

/-! ### Trees -/

/-- Files and directories under the names that lead to them from the root. The last entry of a path
counts. -/
structure FileTree where
  entries : List (List String × FileEntry) := []
  deriving DecidableEq, Repr, Inhabited

namespace FileTree

def insert (t : FileTree) (names : List String) (entry : FileEntry) : FileTree :=
  ⟨(names, entry) :: t.entries⟩

def holdsFile (t : FileTree) (names : List String) : Bool :=
  match t.entries.lookup names with
  | some (.file _) => true
  | _ => false

/-- Whether names lead to a file or directory. -/
def holds (t : FileTree) (names : List String) : Bool :=
  names.isEmpty || t.entries.any fun (key, _) => names.isPrefixOf key

/-- The names that lead to what lies above, from the top. -/
def above (names : List String) : List (List String) :=
  (List.range names.length).map names.take

/-- Why names lead nowhere, which the first missing one decides. -/
def absence (t : FileTree) (names : List String) : FileFault :=
  match (above names ++ [names]).find? fun front => !t.holds front with
  | some front => if front.getLast?.any (nameLimit < ·.utf8ByteSize) then .tooLong else .notFound
  | none => .notFound

def entry (t : FileTree) (names : List String) : Except FileFault FileEntry :=
  if (above names).any t.holdsFile then .error .notDirectory
  else match t.entries.lookup names with
    | some e => .ok e
    | none => if t.holds names then .ok .directory else .error (t.absence names)

def directory (t : FileTree) (names : List String) : Except FileFault Unit := do
  match ← t.entry names with
  | .directory => return ()
  | .file _ => throw .notDirectory

/-- Takes steps, each from a directory. -/
def follow (t : FileTree) : List String → List Path.Component → Except FileFault (List String)
  | names, [] => .ok names
  | names, step :: rest => do
    t.directory names
    match step with
    | .root | .here => t.follow names rest
    | .up => t.follow names.dropLast rest
    | .name name => t.follow (names ++ [name]) rest

/-- The names at the end of an absolute path. The last one may be missing. -/
def reach (t : FileTree) (p : Path) : Except FileFault (List String) := do
  p.permit
  t.follow [] p.walk

/-- The names that an absolute path leads to. A slash at the end asks for a directory. -/
def locate (t : FileTree) (p : Path) : Except FileFault (List String) := do
  let names ← t.reach p
  if p.endsInSlash then t.directory names
  return names

def isFile (t : FileTree) (p : Path) : Bool :=
  match t.locate p >>= t.entry with
  | .ok (.file _) => true
  | _ => false

def isDirectory (t : FileTree) (p : Path) : Bool :=
  match t.locate p >>= t.entry with
  | .ok .directory => true
  | _ => false

/-- The text that names lead to. -/
def readAt (t : FileTree) (names : List String) : Except FileFault String := do
  match ← t.entry names with
  | .file (some text) => return text
  | .file none => throw .notText
  | .directory => throw .isDirectory

def read (t : FileTree) (p : Path) : Except FileFault String := do
  t.readAt (← t.locate p)

/-- A tree with a new text in a file. The directory of the file must exist. A slash at the end names
a directory, whether it exists or not. -/
def write (t : FileTree) (p : Path) (text : String) : Except FileFault FileTree := do
  let names ← t.reach p
  if p.endsInSlash then throw .isDirectory
  match t.entry names with
  | .ok .directory => throw .isDirectory
  | .ok (.file _) | .error .notFound => return t.insert names (.file (some text))
  | .error fault => throw fault

def makeDirectory (t : FileTree) (p : Path) : Except FileFault FileTree := do
  let names ← t.reach p
  match t.entry names with
  | .ok _ => throw .alreadyExists
  | .error .notFound => return t.insert names .directory
  | .error fault => throw fault

/-- Makes a directory and those above it, with a bound on their number. -/
def makeDirectoriesWithin (t : FileTree) : Nat → Path → Except FileFault FileTree
  | bound, p =>
    if p.text = "" then .ok t
    else match t.makeDirectory p with
      | .ok made => .ok made
      | .error .notFound =>
        match bound, p.parent? with
        | n + 1, some parent => do
          let made ← t.makeDirectoriesWithin n parent
          match made.makeDirectory p with
          | .ok all => .ok all
          | .error e => if made.isDirectory p then .ok made else .error e
        | _, _ => .error .notFound
      | .error e => if t.isDirectory p then .ok t else .error e

/-- Makes a directory and those above it, unless they exist. -/
def makeDirectories (t : FileTree) (p : Path) : Except FileFault FileTree :=
  t.makeDirectoriesWithin p.components.length p

end FileTree

end ArkLang
