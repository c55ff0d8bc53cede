import ArkLang.Path.Basic
import ArkLang.Tree.Basic

/-!
# Normal paths

A normal path has no idle dots and goes up, if at all, before it goes down. Whether the directories
exist plays no part. Units are loaded and told apart by their normal paths.
-/

namespace ArkLang

/-- Where a normal path starts. -/
inductive Anchor where
  | root
  /-- A number of levels above the working directory. -/
  | above (levels : Nat)
  deriving DecidableEq, Repr, Inhabited

/-- A path in normal form. -/
structure NormalPath where
  anchor : Anchor
  /-- The names on the way down. -/
  names : List String
  deriving DecidableEq, Repr, Inhabited

namespace NormalPath

/-- The working directory. -/
def here : NormalPath :=
  ⟨.above 0, []⟩

/-- Takes a step. Above the root there is only the root. -/
def step (p : NormalPath) : Path.Component → NormalPath
  | .root => ⟨.root, []⟩
  | .here => p
  | .up =>
    match p.names, p.anchor with
    | [], .root => p
    | [], .above levels => ⟨.above (levels + 1), []⟩
    | names, anchor => ⟨anchor, names.dropLast⟩
  | .name name => ⟨p.anchor, p.names ++ [name]⟩

def text (p : NormalPath) : String :=
  match p.anchor with
  | .root => "/" ++ "/".intercalate p.names
  | .above levels => "/".intercalate (List.replicate levels ".." ++ p.names)

def path (p : NormalPath) : Path :=
  ⟨p.text⟩

end NormalPath

def Path.normalize (p : Path) : NormalPath :=
  p.components.foldl NormalPath.step .here

def sourceExtension : String := "ark"

/-- Where an import of a unit points: a bare name starts at the search root, every other path at the
directory of the unit. -/
def importPath (importer : Path) (i : Import) (searchRoot : Path) : NormalPath :=
  let base := if i.isRooted then searchRoot else importer.parent?.getD .empty
  ((base.join ⟨i.path⟩).setExtension sourceExtension).normalize

/-- A path as seen from the search root, if it lies below it. -/
def fromRoot (p searchRoot : Path) : Path :=
  (p.stripPrefix? searchRoot.normalize.path).getD p

/-- The name of the module at a path. A step up has a name of its own. -/
def moduleName (p searchRoot : Path) : String :=
  let steps := (fromRoot p.normalize.path searchRoot).withoutExtension.components
  "/".intercalate (steps.filterMap fun
    | .name name => some name
    | .up => some "up"
    | _ => none)

/-- How a unit is named in messages. -/
def unitLabel (p searchRoot : Path) : String :=
  (fromRoot p searchRoot).text

end ArkLang
