import ArkLang.C.Tree
import ArkLang.Lowering.Fault

/-!
# Types in C

Scalars have C types of their own, and an enumeration is an integer. Every record, array, list and
procedure type is defined once in the program, behind the definitions of what it holds by value. The
name of an array, list or procedure type spells the type out.
-/

namespace ArkLang

/-- The artifacts of all units of a program; a later one takes the place of an earlier one of the
same module and name. -/
structure ArtifactTable where
  /-- The artifacts, the last one first. -/
  artifacts : List ArtifactInfo := []
  deriving Repr, Inhabited

namespace ArtifactTable

def ofUnits (units : List CheckedUnit) : ArtifactTable :=
  ⟨(units.flatMap fun u => u.interface.artifacts.values).reverse⟩

variable (table : ArtifactTable)

def get? (ref : ArtifactRef) : Option ArtifactInfo :=
  table.artifacts.find? fun a => a.module = ref.module && a.name = ref.name

/-- The artifact of a reference, which every reference should have. -/
def find (ref : ArtifactRef) : Except LowerFault ArtifactInfo :=
  match table.get? ref with
  | some a => .ok a
  | none => .error (.missingArtifact ref)

def isEnum (ref : ArtifactRef) : Bool :=
  (table.get? ref).any (·.kind == .enumeration)

/-- Whether values of a type can be stored as constants. -/
def isScalar : Ty → Bool
  | .int | .float | .string | .bool => true
  | .artifact ref => table.isEnum ref
  | _ => false

/-! ### Names of types -/

mutual

/-- A type inside the name of another one. -/
def typeTag : Ty → Except LowerFault String
  | .int => .ok "i"
  | .float => .ok "f"
  | .string => .ok "s"
  | .bool => .ok "b"
  | .void => .ok "v"
  | .unknown => .error .unknownType
  | .artifact ref =>
    if table.isEnum ref then .ok "i"
    else .ok ("R" ++ C.modulePart ref.module ++ "_" ++ C.segment ref.name)
  | .array elem size => do
    return "A" ++ toString size ++ (← typeTag elem)
  | .list elem => do
    return "L" ++ (← typeTag elem)
  | .proc params ret => do
    let tags ← typeTags params
    return "P" ++ toString params.length ++ String.join tags ++ "_" ++ (← typeTag ret)
termination_by structural t => t

/-- Types inside the name of another one. -/
def typeTags : List Ty → Except LowerFault (List String)
  | [] => .ok []
  | t :: ts => do
    let tag ← typeTag t
    return tag :: (← typeTags ts)
termination_by structural ts => ts

end

def typeName : Ty → Except LowerFault C.TypeName
  | .int => .ok "int64_t"
  | .float => .ok "double"
  | .string => .ok "ark_str"
  | .bool => .ok "bool"
  | .void => .ok "void"
  | .unknown => .error .unknownType
  | .artifact ref =>
    if table.isEnum ref then .ok "int64_t" else .ok (C.artifactName ref).text
  | t@(.array _ _) | t@(.list _) | t@(.proc _ _) => do
    return "ark_t_" ++ (← table.typeTag t)

/-- The value of a variable that is declared without one, given the name of its type. -/
def defaultValue (name : C.TypeName) : Ty → Except LowerFault C.Expr
  | .int => .ok (.int 0)
  | .float => .ok (.float .zero)
  | .string => .ok (.string "")
  | .bool => .ok (.bool false)
  | .artifact ref =>
    if table.isEnum ref then do
      let a ← table.find ref
      return .int ((a.cases.head?.map Prod.snd).getD 0)
    else
      .ok (.call (.defaultRecord name) [])
  | .array _ _ => .ok (.call (.helper name "default") [])
  | .list _ => .ok (.call (.helper name "empty") [])
  | .proc _ _ => .ok (.compound name [.null, .null])
  | .void | .unknown => .error .unknownType

end ArtifactTable

/-! ### The order of definitions -/

/-- The types to be defined. -/
structure TypeOrder where
  /-- The types that were met. -/
  seen : List Ty := []
  /-- The types with all they need, each behind what it holds. -/
  order : Array Ty := #[]
  deriving Repr, Inhabited

abbrev Register := StateT TypeOrder (Except LowerFault)

namespace ArtifactTable

variable (table : ArtifactTable)

/-- Adds a type behind what it needs, unless it was met before. -/
def visit (type : Ty) (needs : Register Unit) : Register Unit := do
  unless (← get).seen.contains type do
    modify fun s => { s with seen := type :: s.seen }
    needs
    modify fun s => { s with order := s.order.push type }

mutual

/-- Adds a type with all it needs; `expand` adds what a record holds. -/
def registerWith (expand : ArtifactRef → Register Unit) : Ty → Register Unit
  | .int | .float | .string | .bool | .void => return ()
  | .unknown => throw .unknownType
  | .artifact ref => do
    unless table.isEnum ref do
      visit (.artifact ref) (expand ref)
  | .array elem size => visit (.array elem size) (registerWith expand elem)
  | .list elem => visit (.list elem) (registerWith expand elem)
  | .proc params ret => visit (.proc params ret) do
    registerAll expand params
    registerWith expand ret
termination_by structural t => t

def registerAll (expand : ArtifactRef → Register Unit) : List Ty → Register Unit
  | [] => return ()
  | t :: ts => do
    registerWith expand t
    registerAll expand ts
termination_by structural ts => ts

end

/-- Adds what a record holds. Records that hold one another nest at most as deep as there are
artifacts, since each is added once. -/
def expandRecord : Nat → ArtifactRef → Register Unit
  | 0, _ => return ()
  | depth + 1, ref => do
    let a ← table.find ref
    table.registerAll (expandRecord depth) (a.props.map PropInfo.type)

/-- Adds a type with all it needs. -/
def register (type : Ty) : Register Unit :=
  table.registerWith (table.expandRecord (table.artifacts.length + 1)) type

end ArtifactTable

end ArkLang
