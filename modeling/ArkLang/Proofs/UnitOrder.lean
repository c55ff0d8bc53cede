import ArkLang.Proofs.Acceptance
import ArkLang.Proofs.ImportAnswers
import ArkLang.Proofs.Schedules

/-!
# The order of a checked program

The levels of a graph list every unit once, lower levels first. A program is accepted only if none
of its imports is circular, provided that its units belong to different modules: each circular one
is reported in the unit that it stands in. Then every import leads to a lower level, and the entry,
which reaches all units, stands alone in the highest one. So the checked units come behind those
that they import, and the entry comes last.

Units of one module can hide a circular import from each other.
-/

namespace ArkLang

open List
open Relation

namespace UnitGraph

variable {g : UnitGraph} {u v : Nat} {unit : LinkedUnit}

/-! ### Cycles of a program -/

/-- In the graph of a program, an import is circular exactly if the unit it leads to reaches the
unit it stands in, and two units share a component exactly if each reaches the other. -/
theorem isCircular_ofEntry (sources : Sources) (layout : Layout) (entry : SourceUnit) :
    let g := ofEntry sources layout entry
    (∀ u unit edge v, g.units[u]? = some unit → edge ∈ unit.imports → edge.target = .ok v →
      (g.isCircular u v = true ↔ ReflTransGen g.Imports v u)) ∧
    ∀ u v, u < g.units.length → v < g.units.length → (g.component u = g.component v ↔
      ReflTransGen g.Imports u v ∧ ReflTransGen g.Imports v u) := by
  intro g
  have closed : g.Closed := closed_ofEntry entry
  constructor
  · intro u unit edge v hu mem leads
    exact isCircular_iff closed (imports_iff.mpr ⟨unit, hu, edge, mem, leads⟩)
  · intro u v hu _
    exact component_eq_iff closed hu

/-- Two units that import each other, and one that both import. -/
def ring : Sources :=
  .ofFiles [(⟨"a.ark"⟩, .text "Mod b\nMod c\n"), (⟨"b.ark"⟩, .text "Mod a\nMod c\n"),
    (⟨"c.ark"⟩, .text "x ::= 1\n")]

theorem isCircular_ofEntry_ring :
    let layout : Layout := ⟨.inferred, .empty⟩
    let g := ofEntry ring layout (.read layout (Path.normalize ⟨"a.ark"⟩) "Mod b\nMod c\n")
    g.isCircular 0 1 = true ∧ ReflTransGen g.Imports 1 0 ∧
      g.isCircular 1 2 = false ∧ ¬ ReflTransGen g.Imports 2 1 ∧ g.component 0 = g.component 1 := by
  intro layout g
  obtain ⟨marked, shared⟩ := isCircular_ofEntry ring layout
    (.read layout (Path.normalize ⟨"a.ark"⟩) "Mod b\nMod c\n")
  have cycle : g.isCircular 0 1 = true := by decide +kernel
  have straight : g.isCircular 1 2 = false := by decide +kernel
  have there : g.Imports 0 1 := by
    unfold Imports
    decide +kernel
  have onward : g.Imports 1 2 := by
    unfold Imports
    decide +kernel
  obtain ⟨unit, hu, edge, mem, leads⟩ := imports_iff.mp there
  obtain ⟨unit', hu', edge', mem', leads'⟩ := imports_iff.mp onward
  have back := (marked 0 unit edge 1 hu mem leads).mp cycle
  refine ⟨cycle, back, straight, fun steps => ?_, ?_⟩
  · rw [← marked 1 unit' edge' 2 hu' mem' leads', straight] at steps
    cases steps
  · exact (shared 0 1 there.lt_length onward.lt_length).mpr ⟨.single there, back⟩

/-! ### The order of levels -/

theorem level_of_mem_levels {k : Nat} {units : List Nat} (h : g.levels[k]? = some units)
    (mem : u ∈ units) : u < g.units.length ∧ g.level u = k := by
  rw [getElem?_levels] at h
  split at h
  · cases h
    simpa using mem
  · cases h

theorem pairwise_levels : g.levels.flatten.Pairwise fun u v => g.level u ≤ g.level v := by
  rw [pairwise_flatten]
  constructor
  · intro units mem
    obtain ⟨k, hk⟩ := getElem?_of_mem mem
    refine pairwise_of_forall_mem_list fun u hu v hv => ?_
    rw [(level_of_mem_levels hk hu).2, (level_of_mem_levels hk hv).2]
  · rw [pairwise_iff_getElem]
    intro j k hj hk less u hu v hv
    rw [(level_of_mem_levels (getElem?_eq_getElem hj) hu).2,
      (level_of_mem_levels (getElem?_eq_getElem hk) hv).2]
    exact less.le

theorem perm_levels (closed : g.Closed) : g.levels.flatten.Perm (List.range g.units.length) := by
  rw [perm_ext_iff_of_nodup _ nodup_range]
  · intro u
    rw [mem_flatten, mem_range]
    constructor
    · rintro ⟨units, mem, hu⟩
      obtain ⟨k, hk⟩ := getElem?_of_mem mem
      exact (level_of_mem_levels hk hu).1
    · intro hu
      obtain ⟨units, hk, mem⟩ := standsAt_levels.mpr ⟨hu, level_lt_length closed hu, rfl⟩
      exact ⟨units, mem_of_getElem? hk, mem⟩
  · rw [nodup_flatten]
    constructor
    · intro units mem
      rw [levels] at mem
      obtain ⟨k, -, rfl⟩ := List.mem_map.mp mem
      exact List.nodup_range.filter _
    · rw [pairwise_iff_getElem]
      intro j k hj hk less u hu hu'
      have first := (level_of_mem_levels (getElem?_eq_getElem hj) hu).2
      have second := (level_of_mem_levels (getElem?_eq_getElem hk) hu').2
      omega

theorem mem_levels (closed : g.Closed) : u ∈ g.levels.flatten ↔ u < g.units.length := by
  rw [(perm_levels closed).mem_iff, mem_range]

theorem idxOf_levels_lt (closed : g.Closed) (hu : u < g.units.length) (hv : v < g.units.length)
    (less : g.level v < g.level u) : g.levels.flatten.idxOf v < g.levels.flatten.idxOf u := by
  have hu := idxOf_lt_length_of_mem ((mem_levels closed).mpr hu)
  have hv := idxOf_lt_length_of_mem ((mem_levels closed).mpr hv)
  by_contra! later
  rcases later.eq_or_lt with same | before
  · rw [idxOf_inj (List.idxOf_lt_length_iff.mp hu)] at same
    exact less.ne (congrArg g.level same.symm)
  · have := List.pairwise_iff_getElem.mp (pairwise_levels (g := g)) _ _ hu hv before
    simp only [getElem_idxOf] at this
    omega

theorem getLast?_levels (closed : g.Closed)
    (falls : ∀ u v, g.Imports u v → g.level v < g.level u) (hu : u < g.units.length)
    (reaches : ∀ v < g.units.length, ReflTransGen g.Imports u v) :
    g.levels.flatten.getLast? = some u := by
  have below (v : Nat) (steps : ReflTransGen g.Imports u v) : v = u ∨ g.level v < g.level u := by
    induction steps with
    | refl => exact .inl rfl
    | tail _ step ih =>
      have := falls _ _ step
      rcases ih with rfl | less
      · exact .inr this
      · exact .inr (this.trans less)
  have mem : u ∈ g.levels.flatten := (mem_levels closed).mpr hu
  obtain ⟨before, last, split⟩ := eq_nil_or_concat' g.levels.flatten |>.resolve_left
    (ne_nil_of_mem mem)
  have hlast : last < g.units.length := (mem_levels closed).mp (by simp [split])
  rcases below last (reaches last hlast) with rfl | less
  · simp [split]
  · -- a unit above the last one would have to stand before it
    have sorted := pairwise_levels (g := g)
    rw [split, pairwise_append] at sorted
    rw [split, mem_append, mem_singleton] at mem
    rcases mem with mem | rfl
    · have := sorted.2.2 u mem last (mem_singleton_self _)
      omega
    · omega

/-! ### Accepted programs -/

theorem error_of_analyze {module : ModuleId} {resolver : Resolver} {p : Program}
    {errors : List SemanticError} (h : analyze module resolver p = .error errors) :
    errors ≠ [] := by
  unfold analyze at h
  dsimp only at h
  split at h
  · cases h
  · next some =>
    cases h
    intro none
    have length := congrArg List.length none
    rw [sortErrors, length_mergeSort] at length
    exact some (by simpa using length)

theorem unitDiagnostics_of_checked {units : List CheckedUnit} (accepted : g.checked = .ok units)
    (hu : u < g.units.length) : g.unitDiagnostics g.outcomes u = [] := by
  unfold checked at accepted
  dsimp only at accepted
  split at accepted
  · next none =>
    rw [List.isEmpty_iff, diagnostics, flatMap_eq_nil_iff] at none
    exact none u (List.mem_range.mpr hu)
  · cases accepted

def IsChecked (g : UnitGraph) (u : Nat) (found : CheckedUnit) : Prop :=
  ∃ unit, g.units[u]? = some unit ∧ g.outcomes.lookup u = some (.ok found) ∧
    found.module = unit.module ∧ found.program = unit.program

theorem program_of_analyze {module : ModuleId} {resolver : Resolver} {p : Program}
    {found : CheckedUnit} (h : analyze module resolver p = .ok found) : found.program = p := by
  unfold analyze at h
  dsimp only at h
  split at h
  · cases h
    rfl
  · cases h

theorem map_fst_outcomesFrom {published : Published} {stages : List (List Nat)}
    (clean : ∀ stage ∈ stages, ∀ u ∈ stage, g.Clean u) :
    (g.outcomesFrom published stages).map Prod.fst = stages.flatten := by
  have analyzed (published : Published) (stage : List Nat) (clean : ∀ u ∈ stage, g.Clean u) :
      (stage.filterMap (g.outcome? published)).map Prod.fst = stage := by
    induction stage with
    | nil => rfl
    | cons u rest ih =>
      obtain ⟨unit, hu, free⟩ := clean u mem_cons_self
      rw [filterMap_cons_some (outcome?_eq_some.mpr ⟨unit, hu, free, rfl⟩), map_cons,
        ih fun v hv => clean v (mem_cons_of_mem _ hv)]
  induction stages generalizing published with
  | nil => rfl
  | cons stage rest ih =>
    rw [outcomesFrom, map_append, analyzed published stage (clean stage mem_cons_self),
      ih fun stage hstage => clean stage (mem_cons_of_mem _ hstage), flatten_cons]

theorem forall₂_filterMap_toOption {R : Nat → CheckedUnit → Prop} {results : List (Nat × Outcome)}
    (h : ∀ result ∈ results, ∃ found, result.2 = .ok found ∧ R result.1 found) :
    List.Forall₂ R (results.map Prod.fst) (results.filterMap (·.2.toOption)) := by
  induction results with
  | nil => exact .nil
  | cons result rest ih =>
    obtain ⟨found, ok, related⟩ := h result mem_cons_self
    rw [filterMap_cons_some (b := found) (by rw [ok]; rfl)]
    exact .cons related (ih fun result mem => h result (mem_cons_of_mem _ mem))

section Accepted

variable (closed : g.Closed) {units : List CheckedUnit} (accepted : g.checked = .ok units)

include accepted

theorem clean_of_checked (hu : g.units[u]? = some unit) : unit.diagnostics.isEmpty = true := by
  have none := unitDiagnostics_of_checked accepted (List.getElem?_eq_some_iff.mp hu).1
  simp only [unitDiagnostics, hu, append_eq_nil_iff] at none
  exact List.isEmpty_iff.mpr none.1

include closed

theorem lookup_of_checked (hu : g.units[u]? = some unit) :
    ∃ found, g.outcomes.lookup u = some (.ok found) ∧
      analyze unit.module (g.resolver (g.publishedBefore g.levels (g.level u)) unit.module)
        unit.program = .ok found := by
  have hlt := (List.getElem?_eq_some_iff.mp hu).1
  have hat : StandsAt g.levels (g.level u) u :=
    standsAt_levels.mpr ⟨hlt, level_lt_length closed hlt, rfl⟩
  have result := lookup_outcomesFrom (staged_levels closed) hat hu (clean_of_checked accepted hu)
  have none := unitDiagnostics_of_checked accepted hlt
  simp only [unitDiagnostics, hu, append_eq_nil_iff, map_eq_nil_iff, outcomes,
    semanticErrors, result] at none
  rw [outcomes, result]
  cases outcome : analyze unit.module
      (g.resolver (g.publishedBefore g.levels (g.level u)) unit.module) unit.program with
  | ok found => exact ⟨found, rfl, rfl⟩
  | error errors =>
    rw [outcome] at none
    exact absurd none.2 (error_of_analyze outcome)

/-- No import of an accepted program is circular, if its units belong to different modules:
otherwise it would have been answered with a fault, and the fault reported. -/
theorem level_lt_of_checked {sources : Sources} {layout : Layout}
    (reflects : g.Reflects sources layout) (distinct : g.DistinctModules) (step : g.Imports u v) :
    g.level v < g.level u := by
  obtain ⟨unit, hu, edge, mem, leads⟩ := imports_iff.mp step
  obtain ⟨i, hi, leadsTo⟩ := exists_of_mem_right (reflects.edges hu) mem
  obtain ⟨edge', -, found, leadsTo'⟩ := reflects.find?_import hu hi
  have same : edge'.target = .ok v := by
    cases hload : sources.load (importPath unit.path.path i layout.searchRoot) with
    | error fault =>
      rw [leadsTo.fault fault hload] at leads
      cases leads
    | ok text =>
      obtain ⟨w, target, hw, at_w, path⟩ := leadsTo.unit text hload
      obtain ⟨w', target', hw', at_w', path'⟩ := leadsTo'.unit text hload
      obtain rfl : w = v := by simpa [hw] using leads
      rw [hw', reflects.unique at_w' at_w (path'.trans path.symm)]
  have hlt := (List.getElem?_eq_some_iff.mp hu).1
  have hat : StandsAt g.levels (g.level u) u :=
    standsAt_levels.mpr ⟨hlt, level_lt_length closed hlt, rfl⟩
  obtain ⟨checked, -, accepts⟩ := lookup_of_checked closed accepted hu
  have noCircle := (resolve_of_analyze accepts hi i.path).2
  have answered := resolve_published (staged_levels closed) distinct closed hat hu i
  simp only [found, answer, same] at answered
  refine level_lt_of_mem_below closed (List.mem_filter.mpr ⟨step, ?_⟩)
  cases circular : g.isCircular u v with
  | false => rfl
  | true =>
    rw [circular, if_pos rfl] at answered
    exact absurd answered noCircle

theorem forall₂_of_checked : List.Forall₂ g.IsChecked g.levels.flatten units := by
  have clean (stage : List Nat) (hstage : stage ∈ g.levels) (u : Nat) (hu : u ∈ stage) :
      g.Clean u := by
    have hlt := (mem_levels closed).mp (List.mem_flatten.mpr ⟨stage, hstage, hu⟩)
    exact ⟨_, getElem?_eq_getElem hlt,
      clean_of_checked accepted (getElem?_eq_getElem hlt)⟩
  have results : units = g.outcomes.filterMap (·.2.toOption) := by
    unfold checked at accepted
    dsimp only at accepted
    split at accepted
    · exact (Except.ok.inj accepted).symm
    · cases accepted
  rw [results, ← map_fst_outcomesFrom clean, ← outcomes]
  refine forall₂_filterMap_toOption fun result mem => ?_
  obtain ⟨k, u, hat, hfound⟩ := mem_outcomesFrom.mp mem
  obtain ⟨unit, hu, -, rfl⟩ := outcome?_eq_some.mp hfound
  obtain ⟨-, -, rfl⟩ := standsAt_levels.mp hat
  obtain ⟨found, lookup, analyzed⟩ := lookup_of_checked closed accepted hu
  exact ⟨found, analyzed, unit, hu, lookup, module_of_analyze analyzed, program_of_analyze analyzed⟩

end Accepted

end UnitGraph

open UnitGraph in
/-- The levels of a program list every unit once, and an import that is not circular leads to a
lower level. If the units belong to different modules and the program is accepted, the checked units
are those of all units, each behind the units that it imports, and the entry is the last one. -/
theorem check_order {sources : Sources} {settings : Settings} {entry : Path} {text : String}
    (loaded : sources.load entry.normalize = .ok text) :
    let layout := settings.layout entry
    let g := ofEntry sources layout (.read layout entry.normalize text)
    g.levels.flatten.Perm (List.range g.units.length) ∧
    (∀ u v, g.Imports u v → g.isCircular u v = false →
      ∃ j k, StandsAt g.levels j v ∧ StandsAt g.levels k u ∧ j < k) ∧
    (g.DistinctModules → ∀ units, check sources settings entry = .ok units →
      ∃ order : List Nat, order.Perm (List.range g.units.length) ∧
        List.Forall₂ g.IsChecked order units ∧
        (∀ u v, g.Imports u v → order.idxOf v < order.idxOf u) ∧ order.getLast? = some 0) := by
  intro layout g
  have closed : g.Closed := closed_ofEntry _
  have stands {u : Nat} (hu : u < g.units.length) : StandsAt g.levels (g.level u) u :=
    standsAt_levels.mpr ⟨hu, level_lt_length closed hu, rfl⟩
  refine ⟨perm_levels closed, fun u v step straight => ?_, fun distinct units accepted => ?_⟩
  · have below : v ∈ g.below u := List.mem_filter.mpr ⟨step, by simp [straight]⟩
    exact ⟨g.level v, g.level u, stands (closed step), stands step.lt_length,
      level_lt_of_mem_below closed below⟩
  · have accepted : g.checked = .ok units := by
      simpa only [check, loaded] using accepted
    have falls (u v : Nat) (step : g.Imports u v) : g.level v < g.level u :=
      level_lt_of_checked closed accepted (reflects_ofEntry loaded) distinct step
    obtain ⟨unit, at_zero, -⟩ := getElem?_ofEntry_zero sources layout
      (.read layout entry.normalize text)
    have first : 0 < g.units.length := (List.getElem?_eq_some_iff.mp at_zero).1
    refine ⟨g.levels.flatten, perm_levels closed, forall₂_of_checked closed accepted,
      fun u v step => ?_, ?_⟩
    · exact idxOf_levels_lt closed step.lt_length (closed step) (falls u v step)
    · exact getLast?_levels closed falls first fun v hv => reaches_ofEntry loaded hv

open UnitGraph in
theorem check_order_diamond :
    let settings : Settings := {}
    let layout := settings.layout ⟨"a.ark"⟩
    let g := ofEntry diamond layout
      (.read layout (Path.normalize ⟨"a.ark"⟩) "Mod b\nMod c\nprint(b.x + c.y)\n")
    g.DistinctModules ∧ g.units.length = 4 ∧ ∃ units, check diamond settings ⟨"a.ark"⟩ = .ok units ∧
      ∃ order : List Nat, order.Perm (List.range g.units.length) ∧
        List.Forall₂ g.IsChecked order units ∧
        (∀ u v, g.Imports u v → order.idxOf v < order.idxOf u) ∧ order.getLast? = some 0 := by
  intro settings layout g
  have distinct : g.DistinctModules := by
    unfold DistinctModules
    decide +kernel
  have accepted : (check diamond settings ⟨"a.ark"⟩).isOk = true := by decide +kernel
  cases outcome : check diamond settings ⟨"a.ark"⟩ with
  | error diagnostics =>
    rw [outcome] at accepted
    cases accepted
  | ok units =>
    refine ⟨distinct, by decide +kernel, units, rfl, ?_⟩
    have loaded : diamond.load (Path.normalize ⟨"a.ark"⟩) =
        .ok "Mod b\nMod c\nprint(b.x + c.y)\n" := rfl
    exact (check_order loaded).2.2 distinct units outcome

/-- A unit that imports itself stands above the search root. The unit below it that belongs to the
same module has an import at the same place, which is looked up instead. -/
def hiddenCycle : Sources :=
  .ofFiles [(⟨"main.ark"⟩, .text "Mod \"../x\"\nMod helper\nprint(1)\n"),
    (⟨"../x.ark"⟩, .text "Mod \"x\"\na ::= 1\n"), (⟨"helper.ark"⟩, .text "Mod up/x\n"),
    (⟨"up/x.ark"⟩, .text "Mod \"y\"\n"), (⟨"up/y.ark"⟩, .text "b ::= 2\n")]

open UnitGraph in
/-- The program is accepted, although one of its units imports itself: no order of its units puts
every unit behind those that it imports. -/
theorem check_order_shared :
    let settings : Settings := {}
    let layout := settings.layout ⟨"main.ark"⟩
    let g := ofEntry hiddenCycle layout
      (.read layout (Path.normalize ⟨"main.ark"⟩) "Mod \"../x\"\nMod helper\nprint(1)\n")
    (check hiddenCycle settings ⟨"main.ark"⟩).isOk = true ∧
      ∀ order : List Nat, ¬ ∀ u v, g.Imports u v → order.idxOf v < order.idxOf u := by
  intro settings layout g
  have cycle : g.Imports 1 1 := by
    unfold Imports
    decide +kernel
  exact ⟨by decide +kernel, fun order behind => Nat.lt_irrefl _ (behind 1 1 cycle)⟩

end ArkLang
