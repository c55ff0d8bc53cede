import ArkLang.Proofs.ProgramNames

/-!
# Where types are defined

A definition in C can hold values of such types only that are defined before it. The order of types
puts a type behind what it needs, unless that leads back to it. No type is held by itself, so the
way back goes through a type that holds nothing and only refers to what it needs: a procedure type
can mention the record that it is a property of. A record on that way may then stand before one
whose values it holds.
-/

namespace ArkLang

open Relation

namespace ArtifactTable

variable {table : ArtifactTable} {t u : Ty}

theorem mem_needs_of_mem_held (mem : u ∈ table.held t) : u ∈ table.needs t := by
  cases t with
  | array elem size => exact mem
  | artifact ref =>
    obtain ⟨a, found, record, q, hq, rfl⟩ := mem_held_artifact.mp mem
    have plain : table.isEnum ref = false := by simp [isEnum, found, record]
    simpa [needs, plain, found] using ⟨q, hq, rfl⟩
  | _ => cases mem

theorem mem_held_of_mem_needs (some : table.held t ≠ []) (mem : u ∈ table.needs t) :
    u ∈ table.held t := by
  cases t with
  | array elem size => exact mem
  | artifact ref =>
    obtain ⟨v, hv⟩ := List.exists_mem_of_ne_nil _ some
    obtain ⟨a, found, record, -⟩ := mem_held_artifact.mp hv
    have plain : table.isEnum ref = false := by simp [isEnum, found, record]
    refine mem_held_artifact.mpr ⟨a, found, record, ?_⟩
    simpa [needs, plain, found] using mem
  | _ => exact absurd rfl some

theorem leads_cases (path : table.Leads u t) :
    ReflTransGen (fun t u => u ∈ table.held t) u t ∨
      ∃ p, table.Leads u p ∧ table.held p = [] ∧ table.Leads p t := by
  induction path with
  | refl => exact .inl .refl
  | @tail b c path step ih =>
    by_cases none : table.held b = []
    · exact .inr ⟨b, path, none, .single step⟩
    · rcases ih with holds | ⟨p, first, nothing, rest⟩
      · exact .inl (holds.tail (mem_held_of_mem_needs none step))
      · exact .inr ⟨p, first, nothing, rest.tail step⟩

end ArtifactTable

/-- In an accepted program whose units belong to different modules, a type is defined behind the
types whose values it holds. Only a type that leads back to it may be defined later, and the way
back goes through a type that holds nothing, as procedure types do. -/
theorem held_before_of_lowerUnits {sources : Sources} {settings : Settings} {entry : Path}
    {units : List CheckedUnit} {state : LowerState}
    (accepted : check sources settings entry = .ok units)
    (modules : (units.map CheckedUnit.module).Nodup)
    (lowered : lowerUnits (.ofUnits units) {} units = .ok state) {before after : List Ty} {t u : Ty}
    (order : state.types.order.toList = before ++ t :: after)
    (holds : u ∈ (ArtifactTable.ofUnits units).held t)
    (defined : (ArtifactTable.ofUnits units).isDefined u = true) :
    let table := ArtifactTable.ofUnits units
    u ∈ before ∨ u ∈ after ∧ ∃ p, table.Leads u p ∧ table.held p = [] ∧ table.Leads p t := by
  intro table
  have separate : Separate units := ⟨accepted_of_check accepted, modules⟩
  have registered := (parts_lowerUnits (fun u hu => separate.fits hu) lowered).2
  have grounded := table.not_transGen_held (not_transGen_embeds_of_check accepted modules)
  rcases registered.behind order (ArtifactTable.mem_needs_of_mem_held holds) defined
    with earlier | ⟨listed, leads⟩
  · exact .inl earlier
  · have other : u ≠ t := by
      rintro rfl
      exact grounded u (.single holds)
    rw [order, List.mem_append, List.mem_cons] at listed
    refine listed.imp_right fun later => ⟨later.resolve_left other, ?_⟩
    exact (ArtifactTable.leads_cases leads).resolve_left fun back =>
      grounded t (.head' holds back)

def nestedRecords : Sources :=
  .ofFiles [(⟨"main.ark"⟩, .text ("B :: \x7b\n    n: int = 1\n\x7d\n" ++
    "A :: \x7b\n    bs: [B; 2] = [B(), B()]\n\x7d\nx: A = A()\n"))]

/-- The array is defined before the record that holds it. -/
theorem held_before_of_nestedRecords : ∃ units state, ∃ t u : Ty, ∃ before,
    check nestedRecords {} ⟨"main.ark"⟩ = .ok units ∧ (units.map CheckedUnit.module).Nodup ∧
      lowerUnits (.ofUnits units) {} units = .ok state ∧
      state.types.order.toList = before ++ [t] ∧ u ∈ (ArtifactTable.ofUnits units).held t ∧
      (ArtifactTable.ofUnits units).isDefined u = true ∧ u ∈ before := by
  let a : Ty := .artifact ⟨⟨"main"⟩, "A"⟩
  let b : Ty := .artifact ⟨⟨"main"⟩, "B"⟩
  obtain ⟨units, -, state, accepted, modules, -, -, lowered, types⟩ :=
    exists_of_computed nestedRecords {} ⟨"main.ark"⟩
      (fun table types => types = [b, .array b 2] ++ a :: [] ∧ .array b 2 ∈ table.held a)
      (by decide +kernel)
  obtain ⟨order, holds⟩ := of_decide_eq_true types
  have defined : (ArtifactTable.ofUnits units).isDefined (.array b 2) = true := rfl
  refine ⟨units, state, a, .array b 2, [b, .array b 2], accepted, modules, lowered, order, holds,
    defined, ?_⟩
  refine (held_before_of_lowerUnits accepted modules lowered order holds defined).resolve_right ?_
  exact fun later => List.not_mem_nil later.1

/-- A record with a procedure that takes a record with the first one. -/
def callback : Sources :=
  .ofFiles [(⟨"main.ark"⟩, .text ("A :: \x7b\n    p: (B) -> int = f\n\x7d\n" ++
    "B :: \x7b\n    a: A = A()\n\x7d\nx: A = A()\nf(b: B): int \x7b\n    return 1\n\x7d\n"))]

/-- The second record holds the first one, but is defined before it: the procedure type leads from
the first one to the second one and back. -/
theorem held_after_of_callback : ∃ units state, ∃ t u : Ty, ∃ before after,
    check callback { dialect := .strict } ⟨"main.ark"⟩ = .ok units ∧
      (units.map CheckedUnit.module).Nodup ∧
      lowerUnits (.ofUnits units) {} units = .ok state ∧
      state.types.order.toList = before ++ t :: after ∧ u ∈ (ArtifactTable.ofUnits units).held t ∧
      (ArtifactTable.ofUnits units).isDefined u = true ∧ u ∉ before := by
  let a : Ty := .artifact ⟨⟨"main"⟩, "A"⟩
  let b : Ty := .artifact ⟨⟨"main"⟩, "B"⟩
  obtain ⟨units, -, state, accepted, modules, -, -, lowered, types⟩ :=
    exists_of_computed callback { dialect := .strict } ⟨"main.ark"⟩
      (fun table types => types = [b, .proc [b] .int, a] ∧ a ∈ table.held b ∧
        table.isDefined a = true)
      (by decide +kernel)
  obtain ⟨order, holds, defined⟩ := of_decide_eq_true types
  exact ⟨units, state, b, a, [], _, accepted, modules, lowered, order, holds, defined,
    List.not_mem_nil⟩

end ArkLang
