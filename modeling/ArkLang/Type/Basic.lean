/-!
# Types

The types of values. Arrays and lists hold elements of one type; procedures are values too. An
artifact is known by the module that declares it and its name there. `unknown` is the type of what
could not be typed because of an error reported elsewhere.
-/

namespace ArkLang

/-- The name of a module, the same in the whole program. -/
structure ModuleId where
  name : String
  deriving DecidableEq, Repr, Inhabited

/-- An artifact and the module that declares it. -/
structure ArtifactRef where
  module : ModuleId
  name : String
  deriving DecidableEq, Repr, Inhabited

/-- The types of values. -/
inductive Ty where
  | int | float | string | bool
  /-- What a procedure gives that returns no value. -/
  | void
  /-- What could not be typed. -/
  | unknown
  | artifact (ref : ArtifactRef)
  | array (elem : Ty) (size : Nat)
  | list (elem : Ty)
  | proc (params : List Ty) (ret : Ty)
  deriving Repr, Inhabited

namespace Ty

/-! ### Equality -/

mutual

/-- Whether two types are the same. -/
def same : Ty → Ty → Bool
  | int, int | float, float | string, string | bool, bool | void, void | unknown, unknown => true
  | artifact a, artifact b => a == b
  | array a m, array b n => m == n && same a b
  | list a, list b => same a b
  | proc ps r, proc qs s => sameAll ps qs && same r s
  | _, _ => false
termination_by structural t => t

def sameAll : List Ty → List Ty → Bool
  | [], [] => true
  | t :: ts, u :: us => same t u && sameAll ts us
  | _, _ => false
termination_by structural ts => ts

end

mutual

theorem same_refl : (t : Ty) → same t t = true
  | int | float | string | bool | void | unknown => rfl
  | artifact _ => by simp [same]
  | array a _ => by simp [same, same_refl a]
  | list a => by simp [same, same_refl a]
  | proc ps r => by simp [same, sameAll_refl ps, same_refl r]

theorem sameAll_refl : (ts : List Ty) → sameAll ts ts = true
  | [] => rfl
  | t :: ts => by simp [sameAll, same_refl t, sameAll_refl ts]

end

mutual

theorem eq_of_same : (t u : Ty) → same t u = true → t = u
  | int, u => by cases u <;> simp [same]
  | float, u => by cases u <;> simp [same]
  | string, u => by cases u <;> simp [same]
  | bool, u => by cases u <;> simp [same]
  | void, u => by cases u <;> simp [same]
  | unknown, u => by cases u <;> simp [same]
  | artifact a, u => by cases u <;> simp [same]
  | array a m, u => by
    cases u with
    | array b n =>
      intro h
      simp only [same, Bool.and_eq_true, beq_iff_eq] at h
      rw [h.1, eq_of_same a b h.2]
    | _ => simp [same]
  | list a, u => by
    cases u with
    | list b =>
      intro h
      rw [eq_of_same a b (by simpa [same] using h)]
    | _ => simp [same]
  | proc ps r, u => by
    cases u with
    | proc qs s =>
      intro h
      simp only [same, Bool.and_eq_true] at h
      rw [eq_of_sameAll ps qs h.1, eq_of_same r s h.2]
    | _ => simp [same]

theorem eq_of_sameAll : (ts us : List Ty) → sameAll ts us = true → ts = us
  | [], us => by cases us <;> simp [sameAll]
  | t :: ts, us => by
    cases us with
    | nil => simp [sameAll]
    | cons u us =>
      intro h
      simp only [sameAll, Bool.and_eq_true] at h
      rw [eq_of_same t u h.1, eq_of_sameAll ts us h.2]

end

theorem same_iff {t u : Ty} : same t u = true ↔ t = u :=
  ⟨eq_of_same t u, fun h => h ▸ same_refl t⟩

instance : DecidableEq Ty := fun t u => decidable_of_iff (same t u = true) same_iff

/-! ### Text -/

mutual

/-- A type as it is written in messages: an artifact by its bare name. -/
def text : Ty → String
  | int => "int"
  | float => "float"
  | string => "string"
  | bool => "bool"
  | void => "void"
  | unknown => "<unknown>"
  | artifact ref => ref.name
  | array elem size => "[" ++ text elem ++ "; " ++ toString size ++ "]"
  | list elem => "[" ++ text elem ++ "]"
  | proc params ret => "(" ++ ", ".intercalate (texts params) ++ ") -> " ++ text ret
termination_by structural t => t

/-- The types of a list, each as it is written in messages. -/
def texts : List Ty → List String
  | [] => []
  | t :: ts => text t :: texts ts
termination_by structural ts => ts

end

/-! ### Kinds of types -/

/-- Whether a type has numbers for values. -/
def isNumeric : Ty → Bool
  | int | float => true
  | _ => false

/-- Whether nothing is known of a type. -/
def isUnknown : Ty → Bool
  | unknown => true
  | _ => false

/-- Whether a type is a list type. -/
def isList : Ty → Bool
  | list _ => true
  | _ => false

/-- Whether values of a type own a list. -/
def containsList : Ty → Bool
  | list _ => true
  | array elem _ => containsList elem
  | _ => false

/-- The type of the elements of an array or list. -/
def elem? : Ty → Option Ty
  | array elem _ | list elem => some elem
  | _ => none

mutual

/-- Whether two types are the same where both are known: `unknown` agrees with every type. -/
def agrees : Ty → Ty → Bool
  | unknown, _ => true
  | _, unknown => true
  | int, int | float, float | string, string | bool, bool | void, void => true
  | artifact a, artifact b => a == b
  | array a m, array b n => m == n && agrees a b
  | list a, list b => agrees a b
  | proc ps r, proc qs s => agreesAll ps qs && agrees r s
  | _, _ => false
termination_by structural t => t

def agreesAll : List Ty → List Ty → Bool
  | [], [] => true
  | t :: ts, u :: us => agrees t u && agreesAll ts us
  | _, _ => false
termination_by structural ts => ts

end

end Ty

end ArkLang
