import ArkLang.Lowering.Program
import ArkLang.Proofs.CoherentUnits

/-!
# Storage and temporary values

The analysis follows an expression down to its root, so that the fields and elements of a temporary
value are temporary too. The lowering takes every field for storage, whatever it is a field of. The
two agree on all expressions but the fields of temporary values and the elements behind such fields.
-/

namespace ArkLang

namespace Findings

variable (f : Findings)

/-- Whether a member is a field of the value in front of it. -/
def isField (node : Node) : Bool :=
  match f.resolutions.get? node.id with
  | some (.field _) => true
  | _ => false

/-- Whether fields and elements are taken, if at all, from a value that has no storage. -/
def isTemporary : Expr → Bool
  | .ident .. | .selfProp .. => false
  | .member node base _ => f.isField node && isTemporary base
  | .index _ base _ => isTemporary base
  | _ => true

/-- Whether an expression is a field of a temporary value, or an element behind such a field. -/
def isFieldOfTemporary : Expr → Bool
  | .member node base _ => f.isField node && f.isTemporary base
  | .index _ base _ => isFieldOfTemporary base
  | _ => false

end Findings

theorem Analysis.root_place_eq_temporary (s : Analysis) (o : Outline) (c : Context) (e : Expr) :
    (s.place o c e).root = .temporary ↔ s.isTemporary e = true := by
  fun_induction Analysis.place s o c e with
  | case6 node base name field found outer mutable ih =>
    have isField : s.isField node = true := by rw [Findings.isField, found]
    simpa [Findings.isTemporary, isField] using ih
  | case7 node base name module path found =>
    have isField : s.isField node = false := by rw [Findings.isField, found]
    simp [Findings.isTemporary, isField]
  | case8 node base name noField noGlobal => simp_all [Findings.isTemporary, Findings.isField]
  | case9 node base place ih => exact ih
  | _ => simp_all [Findings.isTemporary]

theorem isPlace_temporary (u : CheckedUnit) (e : Expr) :
    isPlace u e = true ∧ u.isTemporary e = true ↔ u.isFieldOfTemporary e = true := by
  fun_induction isPlace u e with
  | _ => simp_all [Findings.isTemporary, Findings.isFieldOfTemporary, Findings.isField]

variable {module : ModuleId} {r : Resolver} {p : Program} {u : CheckedUnit}

/-- In an accepted unit, what the lowering takes for storage is temporary to the analysis exactly if
it is a field of a temporary value or an element behind such a field. -/
theorem storage_of_temporary (accepted : analyze module r p = .ok u) (c : Context) (e : Expr) :
    let o := Outline.ofProgram module r p
    isPlace u e = true ∧ ((Analysis.run o p).place o c e).root = .temporary ↔
      u.isFieldOfTemporary e = true := by
  intro o
  obtain ⟨rfl, -⟩ := eq_unit_of_analyze accepted
  rw [Analysis.root_place_eq_temporary]
  exact isPlace_temporary _ e

/-- The length of an array in a record that a procedure returns. -/
def lengthOfReturned : String :=
  "R :: \x7b\n a: [int; 3] = [1, 2, 3]\n\x7d\n" ++
    "mk(): R \x7b\n print(\"made\")\n return R()\n\x7d\nprint(len(mk().a))\n"

/-- The array whose length is taken there. -/
def returnedArray : Expr :=
  .member ⟨16, default⟩ (.call ⟨15, default⟩ (.ident ⟨14, default⟩ "mk") []) ⟨"a", default⟩

theorem storage_of_temporary_returned : ∃ p u, parseProgram .inferred lengthOfReturned = .ok p ∧
    analyze ⟨"main"⟩ .silent p = .ok u ∧
    let o := Outline.ofProgram ⟨"main"⟩ .silent p
    isPlace u returnedArray = true ∧
      ((Analysis.run o p).place o {} returnedArray).root = .temporary := by
  obtain ⟨p, u, parsed, accepted, -, field⟩ := exists_of_unitOfText lengthOfReturned
    (fun u => u.isFieldOfTemporary returnedArray) (by decide +kernel)
  exact ⟨p, u, parsed, accepted, (storage_of_temporary accepted {} returnedArray).mpr field⟩

/-- The array is temporary, but taken for storage: the C program does not call the procedure. -/
theorem returned_array_not_evaluated : ∃ p u, parseProgram .inferred lengthOfReturned = .ok p ∧
    analyze ⟨"main"⟩ .silent p = .ok u ∧
    (∀ o, o = Outline.ofProgram ⟨"main"⟩ .silent p →
      ((Analysis.run o p).place o {} returnedArray).root = .temporary) ∧
    isPlace u returnedArray = true ∧
    (lowerProgram [u]).toOption.any (·.contains "  ark_print_int(INT64_C(3));") = true := by
  obtain ⟨p, u, parsed, accepted, -, facts⟩ := exists_of_unitOfText lengthOfReturned
    (fun u => u.isTemporary returnedArray && (isPlace u returnedArray &&
      (lowerProgram [u]).toOption.any (·.contains "  ark_print_int(INT64_C(3));")))
        (by decide +kernel)
  simp only [Bool.and_eq_true] at facts
  obtain ⟨temporary, place, line⟩ := facts
  refine ⟨p, u, parsed, accepted, ?_, place, line⟩
  rintro o rfl
  obtain ⟨rfl, -⟩ := eq_unit_of_analyze accepted
  exact (Analysis.root_place_eq_temporary _ _ _ _).mpr temporary

end ArkLang
