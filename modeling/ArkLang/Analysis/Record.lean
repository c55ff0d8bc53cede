import ArkLang.Analysis.State
import ArkLang.Graph.Reach

/-!
# Records hold no copies of themselves

Records are held by value, so a record cannot have a property of its own type, neither directly nor
through arrays and other records.
-/

namespace ArkLang

/-- The artifact that values of a type hold, themselves or as elements of an array. -/
def Ty.held? : Ty → Option ArtifactRef
  | .artifact ref => some ref
  | .array elem _ => held? elem
  | _ => none

namespace Analysis

variable (s : Analysis) (o : Outline)

/-- The artifacts that the properties of a record of the unit hold. -/
def holds (ref : ArtifactRef) : List ArtifactRef :=
  match o.localArtifact? ref with
  | some a =>
    if a.kind = .record then ((s.props.get? a.name).getD []).filterMap (·.type.held?) else []
  | none => []

/-- Whether values of a type hold a record, themselves or through other records of the unit. -/
def reachesRecord (type : Ty) (record : ArtifactRef) : Bool :=
  match type.held? with
  | some ref => (Reach.closure (s.holds o) (o.artifacts.length + 1) [ref]).contains record
  | none => false

/-- The error of a record that holds itself: the first property through which it does. -/
def containmentError? (a : LocalArtifact) : Option SemanticError :=
  if a.kind = .record then
    let props := (s.props.get? a.name).getD []
    (props.find? fun p => s.reachesRecord o p.type ⟨o.module, a.name⟩).map fun p =>
      let decl := a.decl.props.find? (·.name.value == p.name)
      ⟨.containsItself a.name p.name, (decl.map (·.name.span)).getD a.decl.name.span⟩
  else
    none

/-- The errors of records that hold themselves, in the order of declaration. -/
def containmentErrors : List SemanticError :=
  o.artifacts.filterMap (s.containmentError? o)

end Analysis

end ArkLang
