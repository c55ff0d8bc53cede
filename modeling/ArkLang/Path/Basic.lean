/-!
# Paths

A path is a text whose segments are divided by slashes. Operations keep the text of the parts they
do not touch: doubled slashes and dots in the middle stay as they were written.
-/

namespace ArkLang

/-- A path as it is written. -/
structure Path where
  text : String
  deriving DecidableEq, Repr, Inhabited

namespace Path

/-- A step that a path takes. -/
inductive Component where
  /-- To the root. -/
  | root
  /-- To where the path is already, as a dot at the start of a relative path says. -/
  | here
  /-- To the directory above. -/
  | up
  /-- To what has a name in the current directory. -/
  | name (name : String)
  deriving DecidableEq, Repr, Inhabited

/-- The characters between two slashes. -/
abbrev Segment := List Char

def empty : Path :=
  ⟨""⟩

/-- Whether a path starts at the root. -/
def isAbsolute (p : Path) : Bool :=
  p.text.toList.head? = some '/'

/-- Whether a segment takes no step. -/
def isIdle (s : Segment) : Bool :=
  s = [] || s = ['.']

def step? (s : Segment) : Option Component :=
  if isIdle s then none
  else if s = ['.', '.'] then some .up
  else some (.name (String.ofList s))

/-- Divides a path into the slash or dot it starts with and the segments behind it. -/
def divide (p : Path) : Segment × List Segment :=
  match p.text.toList with
  | '/' :: rest => (['/'], rest.splitOn '/')
  | ['.'] => (['.'], [])
  | '.' :: '/' :: rest => (['.'], [] :: rest.splitOn '/')
  | cs => ([], cs.splitOn '/')

def assemble (start : Segment) (segments : List Segment) : Path :=
  ⟨String.ofList (start ++ ['/'].intercalate segments)⟩

def startStep? (start : Segment) : Option Component :=
  if start = ['/'] then some .root else if start = ['.'] then some .here else none

def components (p : Path) : List Component :=
  let (start, segments) := p.divide
  (startStep? start).toList ++ segments.filterMap step?

/-- Segments without the idle ones at the end. -/
def trimEnd (segments : List Segment) : List Segment :=
  (segments.reverse.dropWhile isIdle).reverse

/-! ### Below and above -/

/-- A path below another one. An absolute path takes its place. -/
def join (p q : Path) : Path :=
  if q.isAbsolute || p.text = "" then q
  else if p.text.toList.getLast? = some '/' then ⟨p.text ++ q.text⟩
  else ⟨p.text ++ "/" ++ q.text⟩

/-- The path above, which is a path without its last step. -/
def parent? (p : Path) : Option Path :=
  let (start, segments) := p.divide
  match trimEnd segments with
  | [] => if start = ['.'] then some empty else none
  | s :: rest => some (assemble start (trimEnd (s :: rest).dropLast))

/-! ### File names -/

/-- The last segment of a path, if it is a name, with the start and the segments before it. -/
def fileName? (p : Path) : Option (Segment × List Segment × Segment) :=
  let (start, segments) := p.divide
  let trimmed := trimEnd segments
  match trimmed.getLast? with
  | some name => if name = ['.', '.'] then none else some (start, trimmed.dropLast, name)
  | none => none

/-- A file name before and behind its last dot. A dot at the start divides nothing. -/
def divideName (name : Segment) : Segment × Option Segment :=
  let ending := (name.reverse.takeWhile (· ≠ '.')).reverse
  let stem := name.take (name.length - ending.length - 1)
  if stem = [] then (name, none) else (stem, some ending)

/-- A path with another extension, if it ends in a name. The empty extension takes away the dot as
well. -/
def setExtension (p : Path) (extension : String) : Path :=
  match p.fileName? with
  | none => p
  | some (start, before, name) =>
    let stem := (divideName name).1
    let ending := if extension = "" then [] else '.' :: extension.toList
    assemble start (before ++ [stem ++ ending])

/-- A path without its extension. The letters go before the dot does, so that a path of two dots may
be left; it ends in no name and is left as it is. -/
def withoutExtension (p : Path) : Path :=
  match p.fileName? with
  | none => p
  | some (_, _, name) =>
    let ending := (divideName name).2.getD []
    let cs := p.text.toList
    setExtension ⟨String.ofList (cs.take (cs.length - ending.length))⟩ ""

/-! ### Seen from above -/

/-- Segments behind a number of steps, without idle ones at the start. -/
def dropSteps : Nat → List Segment → List Segment
  | 0, segments => segments.dropWhile isIdle
  | n + 1, segments => dropSteps n ((segments.dropWhile isIdle).drop 1)

/-- What is left of a path behind another one, if it starts with the steps of that one. -/
def stripPrefix? (p above : Path) : Option Path :=
  let (start, segments) := p.divide
  let steps := above.components
  if steps.isPrefixOf p.components then
    let rest := trimEnd segments
    if steps.isEmpty then some (assemble start rest)
    else some (assemble [] (dropSteps (steps.length - start.length) rest))
  else
    none

end Path

end ArkLang
