import ArkLang.Proofs.Dependence
import ArkLang.Proofs.Levels

/-!
# Analysis in stages

The units of a program are analyzed stage by stage, and the interfaces of a stage are published
before the next one begins. If every unit stands behind the units it imports, each import is
answered with the interface of the unit it leads to, whatever the stages are: the levels of the
graph, or the units one at a time in some order.
-/

namespace ArkLang

open List
open Relation

namespace UnitGraph

variable {g : UnitGraph} {stages : List (List Nat)} {j k u v : Nat}

def Clean (g : UnitGraph) (u : Nat) : Prop :=
  ∃ unit, g.units[u]? = some unit ∧ unit.diagnostics.isEmpty = true

/-- A unit stands in the stage of a number. -/
def StandsAt (stages : List (List Nat)) (k u : Nat) : Prop :=
  ∃ stage, stages[k]? = some stage ∧ u ∈ stage

/-- Every unit without errors stands in one stage, behind those that it imports. Circular imports do
not count. -/
structure Staged (g : UnitGraph) (stages : List (List Nat)) : Prop where
  unique : ∀ {j k u}, StandsAt stages j u → StandsAt stages k u → j = k
  covers : ∀ {u}, g.Clean u → ∃ k, StandsAt stages k u
  earlier : ∀ {k u v}, StandsAt stages k u → v ∈ g.below u → g.Clean v →
    ∃ j < k, StandsAt stages j v

/-- The interfaces that are published before the stage of a number. -/
def publishedBefore (g : UnitGraph) (stages : List (List Nat)) (k : Nat) : Published :=
  (g.outcomesFrom {} (stages.take k)).foldl publish {}

/-! ### Outcomes -/

theorem outcome?_eq_some {published : Published} {found : Nat × Outcome} :
    g.outcome? published u = some found ↔
      ∃ unit, g.units[u]? = some unit ∧ unit.diagnostics.isEmpty = true ∧
        found = (u, analyze unit.module (g.resolver published unit.module) unit.program) := by
  unfold outcome? guard
  cases g.units[u]? with
  | none => simp
  | some unit =>
    rw [Option.bind_eq_bind, Option.bind_some]
    by_cases clean : unit.diagnostics.isEmpty = true
    · rw [if_pos clean]
      simp only [Option.bind_eq_bind, Option.bind_some, Option.pure_def, Option.some.injEq,
        exists_eq_left', clean, true_and]
      exact eq_comm
    · rw [if_neg clean]
      simp only [Option.bind_eq_bind, Option.some.injEq, exists_eq_left', clean, false_and,
        Bool.false_eq_true, iff_false]
      exact Option.some_ne_none found ∘ Eq.symm

theorem standsAt_take : StandsAt (stages.take k) j u ↔ j < k ∧ StandsAt stages j u := by
  unfold StandsAt
  rw [getElem?_take]
  split
  · next h => simp [h]
  · next h => simp [h]

theorem mem_outcomesFrom {published : Published} {found : Nat × Outcome} :
    found ∈ g.outcomesFrom published stages ↔ ∃ k u, StandsAt stages k u ∧
      g.outcome? ((g.outcomesFrom published (stages.take k)).foldl publish published) u =
        some found := by
  induction stages generalizing published with
  | nil => simp [outcomesFrom, StandsAt]
  | cons stage rest ih =>
    simp only [outcomesFrom, mem_append, mem_filterMap, ih]
    constructor
    · rintro (⟨u, hu, hfound⟩ | ⟨k, u, ⟨level, hlevel, hu⟩, hfound⟩)
      · exact ⟨0, u, ⟨stage, rfl, hu⟩, hfound⟩
      · refine ⟨k + 1, u, ⟨level, hlevel, hu⟩, ?_⟩
        rwa [take_succ_cons, outcomesFrom, foldl_append]
    · rintro ⟨_ | k, u, ⟨level, hlevel, hu⟩, hfound⟩
      · obtain rfl : stage = level := by simpa using hlevel
        exact .inl ⟨u, hu, hfound⟩
      · rw [take_succ_cons, outcomesFrom, foldl_append] at hfound
        exact .inr ⟨k, u, ⟨level, hlevel, hu⟩, hfound⟩

private theorem lookup_eq_some_of_mem {α β : Type} [BEq α] [LawfulBEq α] {key : α} {value : β}
    {entries : List (α × β)} (mem : (key, value) ∈ entries)
    (same : ∀ other, (key, other) ∈ entries → other = value) : entries.lookup key = some value := by
  induction entries with
  | nil => simp at mem
  | cons entry rest ih =>
    obtain ⟨k, v⟩ := entry
    by_cases hk : key = k
    · subst hk
      simp [same v mem_cons_self]
    · have mem : (key, value) ∈ rest := by simpa [hk] using mem
      simp only [lookup_cons, beq_eq_false_iff_ne.2 hk]
      exact ih mem fun other h => same other (mem_cons_of_mem _ h)

section Staged

variable (staged : g.Staged stages)

include staged

/-- A unit is analyzed with what earlier stages published. -/
theorem lookup_outcomesFrom {unit : LinkedUnit} (hat : StandsAt stages k u)
    (hu : g.units[u]? = some unit) (clean : unit.diagnostics.isEmpty = true) :
    (g.outcomesFrom {} stages).lookup u = some (analyze unit.module
      (g.resolver (g.publishedBefore stages k) unit.module) unit.program) := by
  refine lookup_eq_some_of_mem ?_ fun other mem => ?_
  · exact mem_outcomesFrom.mpr ⟨k, u, hat, outcome?_eq_some.mpr ⟨unit, hu, clean, rfl⟩⟩
  · obtain ⟨j, v, hat', found⟩ := mem_outcomesFrom.mp mem
    obtain ⟨unit', hv, -, same⟩ := outcome?_eq_some.mp found
    obtain ⟨rfl, rfl⟩ := Prod.mk.inj same
    obtain rfl := staged.unique hat hat'
    obtain rfl : unit = unit' := by simpa [hu] using hv
    rfl

omit staged in
theorem lookup_outcomesFrom_of_not_clean (h : ¬ g.Clean u) :
    (g.outcomesFrom {} stages).lookup u = none := by
  rw [lookup_eq_none_iff]
  intro found mem
  obtain ⟨k, v, -, hfound⟩ := mem_outcomesFrom.mp mem
  obtain ⟨unit, hv, clean, rfl⟩ := outcome?_eq_some.mp hfound
  simp only [bne_iff_ne, ne_eq]
  rintro rfl
  exact h ⟨unit, hv, clean⟩

/-! ### Published interfaces -/

omit staged in
theorem get?_foldl_publish {published : Published} {entries : List (Nat × Outcome)} {name : String}
    {interface : Interface} (h : (entries.foldl publish published).get? name = some interface) :
    published.get? name = some interface ∨ ∃ u checked, (u, .ok checked) ∈ entries ∧
      checked.module.name = name ∧ checked.interface = interface := by
  induction entries generalizing published with
  | nil => exact .inl h
  | cons entry rest ih =>
    rcases ih h with found | ⟨u, checked, mem, hname⟩
    · obtain ⟨u, _ | checked⟩ := entry
      · exact .inl found
      · rw [publish, NameTable.get?_insert] at found
        split at found
        · next same =>
          cases found
          exact .inr ⟨u, checked, mem_cons_self, same.symm, rfl⟩
        · exact .inl found
    · exact .inr ⟨u, checked, mem_cons_of_mem _ mem, hname⟩

omit staged in
theorem exists_get?_foldl_publish {published : Published} {entries : List (Nat × Outcome)}
    {name : String} (h : (∃ interface, published.get? name = some interface) ∨
      ∃ u checked, (u, .ok checked) ∈ entries ∧ checked.module.name = name) :
    ∃ interface, (entries.foldl publish published).get? name = some interface := by
  induction entries generalizing published with
  | nil => simpa using h
  | cons entry rest ih =>
    refine ih ?_
    rcases h with ⟨interface, found⟩ | ⟨u, checked, mem, hname⟩
    · obtain ⟨u, _ | checked⟩ := entry
      · exact .inl ⟨interface, found⟩
      · by_cases same : name = checked.module.name
        · exact .inl ⟨checked.interface, by rw [publish, NameTable.get?_insert, if_pos same]⟩
        · exact .inl ⟨interface, by rw [publish, NameTable.get?_insert, if_neg same, found]⟩
    · rcases List.mem_cons.mp mem with rfl | mem
      · exact .inl ⟨checked.interface, by rw [publish, NameTable.get?_insert, if_pos hname.symm]⟩
      · exact .inr ⟨u, checked, mem, hname⟩

theorem mem_outcomesFrom_take {outcome : Outcome} :
    (u, outcome) ∈ g.outcomesFrom {} (stages.take k) ↔
      (∃ j < k, StandsAt stages j u) ∧ (g.outcomesFrom {} stages).lookup u = some outcome := by
  have before {j : Nat} (hj : j < k) :
      (g.outcomesFrom {} ((stages.take k).take j)).foldl publish {} =
        g.publishedBefore stages j := by
    rw [take_take, Nat.min_eq_left hj.le, publishedBefore]
  constructor
  · intro mem
    obtain ⟨j, v, hat, found⟩ := mem_outcomesFrom.mp mem
    obtain ⟨hj, hat⟩ := standsAt_take.mp hat
    rw [before hj] at found
    obtain ⟨unit, hv, clean, same⟩ := outcome?_eq_some.mp found
    obtain ⟨rfl, rfl⟩ := Prod.mk.inj same
    exact ⟨⟨j, hj, hat⟩, lookup_outcomesFrom staged hat hv clean⟩
  · rintro ⟨⟨j, hj, hat⟩, found⟩
    by_cases hclean : g.Clean u
    · obtain ⟨unit, hu, clean⟩ := hclean
      rw [lookup_outcomesFrom staged hat hu clean] at found
      cases found
      refine mem_outcomesFrom.mpr ⟨j, u, standsAt_take.mpr ⟨hj, hat⟩, ?_⟩
      rw [before hj]
      exact outcome?_eq_some.mpr ⟨unit, hu, clean, rfl⟩
    · rw [lookup_outcomesFrom_of_not_clean hclean] at found
      cases found

end Staged

/-! ### Answers to imports -/

/-- The units of a graph belong to different modules. -/
def DistinctModules (g : UnitGraph) : Prop :=
  (g.units.map fun unit => unit.module).Nodup

theorem DistinctModules.eq (distinct : g.DistinctModules) {unit unit' : LinkedUnit}
    (hu : g.units[u]? = some unit) (hv : g.units[v]? = some unit')
    (same : unit.module = unit'.module) : u = v := by
  obtain ⟨hu', -⟩ := List.getElem?_eq_some_iff.mp hu
  refine (getElem?_inj (by simpa using hu') distinct).mp ?_
  simp [hu, hv, same]

theorem position?_module (distinct : g.DistinctModules) {unit : LinkedUnit}
    (hu : g.units[u]? = some unit) : g.position? unit.module = some u := by
  have hlt := (List.getElem?_eq_some_iff.mp hu).1
  unfold position?
  cases found : (List.range g.units.length).reverse.find? fun u =>
      g.units[u]?.any (·.module = unit.module) with
  | none =>
    have := List.find?_eq_none.mp found u (by simpa using hlt)
    simp [hu] at this
  | some v =>
    have hv := find?_some found
    cases at_v : g.units[v]? with
    | none => simp [at_v] at hv
    | some unit' =>
      have same : unit'.module = unit.module := by simpa [at_v] using hv
      rw [distinct.eq at_v hu same]

/-- The interface of a unit that was checked without errors. -/
def interfaceOf (results : List (Nat × Outcome)) (u : Nat) : Option Interface :=
  match results.lookup u with
  | some (.ok checked) => some checked.interface
  | _ => none

theorem interfaceOf_eq_some {results : List (Nat × Outcome)} {interface : Interface} :
    interfaceOf results u = some interface ↔
      ∃ checked, results.lookup u = some (.ok checked) ∧ checked.interface = interface := by
  unfold interfaceOf
  split
  · next checked found => simp [found]
  · next none =>
    refine ⟨fun h => (nomatch h), ?_⟩
    rintro ⟨checked, found, -⟩
    exact absurd found (none checked)

/-- How an import of a unit is answered, given the results of all units. -/
def answer (g : UnitGraph) (results : List (Nat × Outcome)) (u : Nat) (i : Import)
    (edge : ImportEdge) : Except ImportFailure Interface :=
  match edge.target with
  | .error (.notFound _) => .error (.notFound i.path)
  | .error (.circular _) => .error (.circular i.path)
  | .error (.unreadable _ _) => .error .failed
  | .ok v =>
    if g.isCircular u v then .error (.circular i.path)
    else match interfaceOf results v with
      | some interface => .ok interface
      | none => .error .failed

section Answers

variable (staged : g.Staged stages) (distinct : g.DistinctModules)

include staged

variable {unit : LinkedUnit} {interface : Interface}

omit staged in
theorem clean_of_interfaceOf
    (h : interfaceOf (g.outcomesFrom {} stages) u = some interface) : g.Clean u := by
  obtain ⟨checked, found, -⟩ := interfaceOf_eq_some.mp h
  by_contra hclean
  rw [lookup_outcomesFrom_of_not_clean hclean] at found
  cases found

theorem module_of_lookup {checked : CheckedUnit}
    (hu : g.units[u]? = some unit)
    (found : (g.outcomesFrom {} stages).lookup u = some (.ok checked)) :
    checked.module = unit.module := by
  have hclean := clean_of_interfaceOf (interfaceOf_eq_some.mpr ⟨checked, found, rfl⟩)
  obtain ⟨k, hat⟩ := staged.covers hclean
  obtain ⟨unit', hu', clean⟩ := hclean
  obtain rfl : unit = unit' := by simpa [hu] using hu'
  rw [lookup_outcomesFrom staged hat hu clean] at found
  exact module_of_analyze (Option.some.inj found)

theorem exists_of_get?_publishedBefore {name : String}
    (h : (g.publishedBefore stages k).get? name = some interface) :
    ∃ u unit, (∃ j < k, StandsAt stages j u) ∧ g.units[u]? = some unit ∧
      unit.module.name = name ∧ interfaceOf (g.outcomesFrom {} stages) u = some interface := by
  rcases get?_foldl_publish h with found | ⟨u, checked, mem, hname, hinterface⟩
  · simp [NameTable.get?] at found
  · obtain ⟨hat, found⟩ := (mem_outcomesFrom_take staged).mp mem
    have known := interfaceOf_eq_some.mpr ⟨checked, found, hinterface⟩
    obtain ⟨unit, hu, -⟩ := clean_of_interfaceOf known
    have same := module_of_lookup staged hu found
    exact ⟨u, unit, hat, hu, same ▸ hname, known⟩

include distinct

theorem get?_publishedBefore
    (hu : g.units[u]? = some unit) :
    (g.publishedBefore stages k).get? unit.module.name = some interface ↔
      (∃ j < k, StandsAt stages j u) ∧
        interfaceOf (g.outcomesFrom {} stages) u = some interface := by
  have sound {interface : Interface}
      (h : (g.publishedBefore stages k).get? unit.module.name = some interface) :
      (∃ j < k, StandsAt stages j u) ∧
        interfaceOf (g.outcomesFrom {} stages) u = some interface := by
    obtain ⟨v, unit', hat, hv, hname, found⟩ := exists_of_get?_publishedBefore staged h
    have same : unit'.module = unit.module := by
      cases hm : unit'.module
      cases hm' : unit.module
      simpa [hm, hm'] using hname
    obtain rfl := distinct.eq hv hu same
    exact ⟨hat, found⟩
  refine ⟨sound, ?_⟩
  rintro ⟨hat, known⟩
  obtain ⟨checked, found, rfl⟩ := interfaceOf_eq_some.mp known
  have mem := (mem_outcomesFrom_take staged).mpr ⟨hat, found⟩
  have hname := congrArg ModuleId.name (module_of_lookup staged hu found)
  obtain ⟨interface, published⟩ : ∃ interface,
      (g.publishedBefore stages k).get? unit.module.name = some interface :=
    exists_get?_foldl_publish (.inr ⟨u, checked, mem, hname⟩)
  obtain ⟨-, known'⟩ := sound published
  rw [published, ← known', known]

theorem get?_publishedBefore_below (hat : StandsAt stages k u)
    (below : v ∈ g.below u) (hv : g.units[v]? = some unit) :
    (g.publishedBefore stages k).get? unit.module.name =
      interfaceOf (g.outcomesFrom {} stages) v := by
  refine Option.ext fun interface => ?_
  rw [get?_publishedBefore staged distinct hv]
  refine ⟨And.right, fun known => ⟨?_, known⟩⟩
  exact staged.earlier hat below (clean_of_interfaceOf known)

theorem get?_publishedBefore_self (hat : StandsAt stages k u)
    (hu : g.units[u]? = some unit) :
    (g.publishedBefore stages k).get? unit.module.name = none := by
  refine Option.eq_none_iff_forall_ne_some.mpr fun interface h => ?_
  obtain ⟨⟨j, hj, hat'⟩, -⟩ := (get?_publishedBefore staged distinct hu).mp h
  have := staged.unique hat hat'
  omega

/-- How imports are answered does not depend on the stage. -/
theorem resolve_published (closed : g.Closed) (hat : StandsAt stages k u)
    (hu : g.units[u]? = some unit) (i : Import) :
    g.resolve (g.publishedBefore stages k) unit.module i =
      match unit.imports.find? (·.span = i.span) with
      | some edge => g.answer (g.outcomesFrom {} stages) u i edge
      | none => .error .failed := by
  have edges : g.edge? unit.module i.span =
      (unit.imports.find? (·.span = i.span)).map fun edge => (u, edge) := by
    simp only [edge?, position?_module distinct hu, hu, Option.bind_eq_bind, Option.bind_some]
    cases unit.imports.find? (·.span = i.span) <;> rfl
  rw [resolve, edges]
  cases found : unit.imports.find? (·.span = i.span) with
  | none => rfl
  | some edge =>
    simp only [Option.map_some, answer]
    cases target : edge.target with
    | error fault => cases fault <;> rfl
    | ok v =>
      have step : g.Imports u v :=
        imports_iff.mpr ⟨unit, hu, edge, mem_of_find?_eq_some found, target⟩
      obtain ⟨unit', hv⟩ : ∃ unit', g.units[v]? = some unit' :=
        ⟨_, getElem?_eq_getElem (closed step)⟩
      simp only [hv, Option.bind_some]
      split
      · rfl
      · next noCircle =>
        have below : v ∈ g.below u := List.mem_filter.mpr ⟨step, by simpa using noCircle⟩
        have published := get?_publishedBefore_below staged distinct hat below hv
        cases known : interfaceOf (g.outcomesFrom {} stages) v <;> simp only [published, known]

end Answers

/-! ### Levels as stages -/

theorem standsAt_levels :
    StandsAt g.levels k u ↔ u < g.units.length ∧ k < g.units.length ∧ g.level u = k := by
  unfold StandsAt
  rw [getElem?_levels]
  split
  · next h => simp [h]
  · next h => simp [h]

/-- The levels of a graph are stages of it. -/
theorem staged_levels (closed : g.Closed) : g.Staged g.levels where
  unique hj hk := by
    rw [← (standsAt_levels.mp hj).2.2, ← (standsAt_levels.mp hk).2.2]
  covers := by
    rintro u ⟨unit, hu, -⟩
    have hlt := (List.getElem?_eq_some_iff.mp hu).1
    exact ⟨g.level u, standsAt_levels.mpr ⟨hlt, level_lt_length closed hlt, rfl⟩⟩
  earlier := by
    intro k u v hat below _
    obtain ⟨-, -, rfl⟩ := standsAt_levels.mp hat
    have hv := closed ((mem_below_iff closed).mp below).1
    exact ⟨g.level v, level_lt_of_mem_below closed below,
      standsAt_levels.mpr ⟨hv, level_lt_length closed hv, rfl⟩⟩

end UnitGraph

end ArkLang
