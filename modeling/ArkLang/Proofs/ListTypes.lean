import ArkLang.Proofs.Scope

/-!
# Where lists stand in types

A list owns its elements, an array holds them in place, and a value that holds lists in place could
not be released as a whole. So no array has elements that contain lists. Then a type contains a list
exactly if it is a list.
-/

namespace ArkLang

mutual

/-- No array inside a type has elements that contain lists. -/
def Ty.Tame : Ty → Prop
  | .array elem _ => elem.containsList = false ∧ elem.Tame
  | .list elem => elem.Tame
  | .proc params ret => Ty.AllTame params ∧ ret.Tame
  | .int | .float | .string | .bool | .void | .unknown | .artifact _ => True

def Ty.AllTame : List Ty → Prop
  | [] => True
  | t :: ts => t.Tame ∧ Ty.AllTame ts

end

theorem Ty.allTame_iff {ts : List Ty} : Ty.AllTame ts ↔ ∀ t ∈ ts, t.Tame := by
  induction ts with
  | nil => simp [AllTame]
  | cons t ts ih => simp [AllTame, ih]

/-- A tame type contains lists only as a list itself. -/
theorem Ty.Tame.containsList_eq {t : Ty} (h : t.Tame) : t.containsList = t.isList := by
  cases t with
  | array elem size => exact h.1
  | _ => rfl

/-- Only tame types occur, of all modules. -/
def Scope.tame : Scope where
  modules := Set.univ
  Allows := Ty.Tame
  Reports _ := True
  reports _ := trivial
  int := trivial
  float := trivial
  string := trivial
  bool := trivial
  void := trivial
  unknown := trivial
  artifact_iff := .rfl
  list_iff := .rfl
  proc_iff := and_congr_left' Ty.allTame_iff
  of_array h := h.2
  to_array _ h noList := ⟨noList, h⟩

end ArkLang
