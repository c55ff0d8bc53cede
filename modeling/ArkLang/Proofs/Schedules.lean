import ArkLang.Proofs.Discovery
import ArkLang.Proofs.Stages

/-!
# Schedules

The result of a unit does not depend on the stages in which a program is analyzed, nor on the rest
of the program: only on the units below it. Two graphs are compared along a relation under which
units look the same and have imports that lead to related units again.
-/

namespace ArkLang

open List
open Relation
open Scoped (Within)

namespace UnitGraph

variable {g g' : UnitGraph} {R : Nat → Nat → Prop} {u v w : Nat}

/-! ### Mirrored units -/

/-- Imports of two units that lead to the same fault or to related units. -/
inductive SameEdge (g g' : UnitGraph) (R : Nat → Nat → Prop) (u v : Nat) :
    ImportEdge → ImportEdge → Prop
  | fault (span : Span) (fault : LoadFault) :
    SameEdge g g' R u v ⟨span, .error fault⟩ ⟨span, .error fault⟩
  | unit (span : Span) {w w' : Nat} (related : R w w')
    (circular : g.isCircular u w = g'.isCircular v w') :
    SameEdge g g' R u v ⟨span, .ok w⟩ ⟨span, .ok w'⟩

/-- Related units look the same, and their imports lead to the same faults or to related units. -/
def Mirrors (g g' : UnitGraph) (R : Nat → Nat → Prop) : Prop :=
  ∀ {u v}, R u v → ∃ unit unit', g.units[u]? = some unit ∧ g'.units[v]? = some unit' ∧
    unit.toSourceUnit = unit'.toSourceUnit ∧
    List.Forall₂ (SameEdge g g' R u v) unit.imports unit'.imports

section Edges

variable {edges edges' : List ImportEdge} (same : List.Forall₂ (SameEdge g g' R u v) edges edges')

include same

theorem filterMap_diagnostic?_eq (label : String) (index : LineIndex) :
    edges.filterMap (·.diagnostic? label index) = edges'.filterMap (·.diagnostic? label index) := by
  induction same with
  | nil => rfl
  | cons edge _ ih =>
    cases edge with
    | fault => rw [filterMap_cons, filterMap_cons, ih]
    | unit => simpa [ImportEdge.diagnostic?] using ih

theorem find?_sameEdge (span : Span) :
    Option.Rel (SameEdge g g' R u v) (edges.find? (·.span = span))
      (edges'.find? (·.span = span)) := by
  induction same with
  | nil => exact .none
  | cons edge _ ih =>
    rw [find?_cons, find?_cons]
    cases edge with
    | fault at_span _ =>
      by_cases h : at_span = span
      · simpa [h] using SameEdge.fault span _
      · simpa [h] using ih
    | unit at_span related circular =>
      by_cases h : at_span = span
      · simpa [h] using SameEdge.unit span related circular
      · simpa [h] using ih

end Edges

theorem diagnostics_eq_of_mirrored {unit unit' : LinkedUnit}
    (source : unit.toSourceUnit = unit'.toSourceUnit)
    (same : List.Forall₂ (SameEdge g g' R u v) unit.imports unit'.imports) :
    unit.diagnostics = unit'.diagnostics := by
  rw [LinkedUnit.diagnostics, LinkedUnit.diagnostics, source, filterMap_diagnostic?_eq same]

theorem Mirrors.below (mirrors : g.Mirrors g' R) (related : R u v) (h : w ∈ g.below u) :
    ∃ w', R w w' ∧ w' ∈ g'.below v := by
  obtain ⟨unit, unit', hu, hv, -, same⟩ := mirrors related
  obtain ⟨step, noCircle⟩ := List.mem_filter.mp h
  obtain ⟨unit₀, hu₀, edge, mem, target⟩ := imports_iff.mp step
  obtain rfl : unit = unit₀ := by simpa [hu] using hu₀
  obtain ⟨edge', mem', counterpart⟩ := exists_of_mem_left same mem
  cases counterpart with
  | fault => cases target
  | unit span related circular =>
    cases target
    refine ⟨_, related, List.mem_filter.mpr ⟨?_, by rwa [← circular]⟩⟩
    exact imports_iff.mpr ⟨unit', hv, _, mem', rfl⟩

/-! ### What an interface may mention -/

/-- A unit imports another one that was checked without errors. Circular imports do not count. -/
def Uses (g : UnitGraph) (results : List (Nat × Outcome)) (u v : Nat) : Prop :=
  v ∈ g.below u ∧ (interfaceOf results v).isSome

/-- The modules of a unit and of the units that it uses, directly or through others. -/
def scope (g : UnitGraph) (results : List (Nat × Outcome)) (u : Nat) : Set ModuleId :=
  { m | ∃ v unit, ReflTransGen (g.Uses results) u v ∧ g.units[v]? = some unit ∧ unit.module = m }

theorem scope_subset {results : List (Nat × Outcome)} (h : ReflTransGen (g.Uses results) u v) :
    g.scope results v ⊆ g.scope results u := by
  rintro m ⟨w, unit, path, hw, rfl⟩
  exact ⟨w, unit, h.trans path, hw, rfl⟩

theorem level_lt_of_uses (closed : g.Closed) {results : List (Nat × Outcome)}
    (h : TransGen (g.Uses results) u v) : g.level v < g.level u := by
  induction h with
  | single step => exact level_lt_of_mem_below closed step.1
  | tail _ step ih => exact (level_lt_of_mem_below closed step.1).trans ih

theorem Staged.earlier_of_uses {stages : List (List Nat)} (staged : g.Staged stages) {k : Nat}
    (hat : StandsAt stages k u) (h : TransGen (g.Uses (g.outcomesFrom {} stages)) u v) :
    ∃ j < k, StandsAt stages j v := by
  have clean {v : Nat} (known : (interfaceOf (g.outcomesFrom {} stages) v).isSome) : g.Clean v := by
    obtain ⟨interface, found⟩ := Option.isSome_iff_exists.mp known
    exact clean_of_interfaceOf found
  induction h with
  | single step => exact staged.earlier hat step.1 (clean step.2)
  | tail _ step ih =>
    obtain ⟨j, hj, hat'⟩ := ih
    obtain ⟨i, hi, hat''⟩ := staged.earlier hat' step.1 (clean step.2)
    exact ⟨i, hi.trans hj, hat''⟩

/-! ### Related units have the same results -/

/-- Results that are the same in both graphs, with an interface within the scope of the unit. -/
def SameResult (g : UnitGraph) (results results' : List (Nat × Outcome)) (u v : Nat) : Prop :=
  results.lookup u = results'.lookup v ∧
    ∀ interface, interfaceOf results u = some interface → Within (g.scope results u) interface

theorem SameResult.interfaceOf_eq {results results' : List (Nat × Outcome)}
    (h : g.SameResult results results' u v) : interfaceOf results u = interfaceOf results' v := by
  rw [interfaceOf, interfaceOf, h.1]

section Mirrored

variable (closed : g.Closed) (mirrors : g.Mirrors g' R) (related : R u v)

include closed mirrors related

theorem Mirrors.uses {results results' : List (Nat × Outcome)}
    (same : ∀ {w w'}, g.level w < g.level u → R w w' → g.SameResult results results' w w')
    (h : TransGen (g.Uses results) u w) : ∃ w', R w w' ∧ TransGen (g'.Uses results') v w' := by
  have known {a a' : Nat} (used : TransGen (g.Uses results) u a) (counterpart : R a a')
      (h : (interfaceOf results a).isSome) : (interfaceOf results' a').isSome := by
    rwa [← (same (level_lt_of_uses closed used) counterpart).interfaceOf_eq]
  induction h with
  | single step =>
    obtain ⟨w', counterpart, below⟩ := mirrors.below related step.1
    exact ⟨w', counterpart, .single ⟨below, known (.single step) counterpart step.2⟩⟩
  | tail path step ih =>
    obtain ⟨a', related', path'⟩ := ih
    obtain ⟨w', counterpart, below⟩ := mirrors.below related' step.1
    exact ⟨w', counterpart, path'.tail ⟨below, known (path.tail step) counterpart step.2⟩⟩

omit mirrors related in
theorem answer_eq_of_sameEdge {results results' : List (Nat × Outcome)}
    (same : ∀ {w w'}, g.level w < g.level u → R w w' → g.SameResult results results' w w')
    {unit : LinkedUnit} (hu : g.units[u]? = some unit) {edge edge' : ImportEdge}
    (mem : edge ∈ unit.imports) (sameEdge : g.SameEdge g' R u v edge edge') (i : Import) :
    g'.answer results' v i edge' = g.answer results u i edge ∧
      Within (g.scope results u) (g.answer results u i edge) := by
  cases sameEdge with
  | fault span fault => cases fault <;> exact ⟨rfl, within_error.mpr trivial⟩
  | @unit span w w' related circular =>
    simp only [answer, ← circular]
    split
    · exact ⟨rfl, within_error.mpr trivial⟩
    · next noCircle =>
      have step : g.Imports u w := imports_iff.mpr ⟨unit, hu, _, mem, rfl⟩
      have below : w ∈ g.below u := List.mem_filter.mpr ⟨step, by simpa using noCircle⟩
      have result := same (level_lt_of_mem_below closed below) related
      rw [← result.interfaceOf_eq]
      cases known : interfaceOf results w with
      | none => exact ⟨rfl, within_error.mpr trivial⟩
      | some interface =>
        have used : g.Uses results u w := ⟨below, by rw [known]; rfl⟩
        have inside := Interface.within_mono (scope_subset (.single used)) (result.2 _ known)
        exact ⟨rfl, within_ok.mpr inside⟩

variable {stages stages' : List (List Nat)} {k k' : Nat}
variable (distinct : g.DistinctModules) (staged : g.Staged stages) (hat : StandsAt stages k u)
variable (closed' : g'.Closed) (distinct' : g'.DistinctModules) (staged' : g'.Staged stages')
variable (hat' : StandsAt stages' k' v)
variable (same : ∀ {w w'}, g.level w < g.level u → R w w' →
  g.SameResult (g.outcomesFrom {} stages) (g'.outcomesFrom {} stages') w w')

include distinct staged hat closed' distinct' staged' hat' same

omit mirrors related in
theorem resolve_eq_of_mirrored {unit unit' : LinkedUnit} (hu : g.units[u]? = some unit)
    (hv : g'.units[v]? = some unit')
    (edges : List.Forall₂ (SameEdge g g' R u v) unit.imports unit'.imports) (i : Import) :
    g'.resolve (g'.publishedBefore stages' k') unit'.module i =
        g.resolve (g.publishedBefore stages k) unit.module i ∧
      Within (g.scope (g.outcomesFrom {} stages) u)
        (g.resolve (g.publishedBefore stages k) unit.module i) := by
  rw [resolve_published staged distinct closed hat hu,
    resolve_published staged' distinct' closed' hat' hv]
  have found := find?_sameEdge edges i.span
  cases first : unit.imports.find? (·.span = i.span) with
  | none =>
    rw [first] at found
    generalize unit'.imports.find? (·.span = i.span) = second at found
    cases found
    exact ⟨rfl, within_error.mpr trivial⟩
  | some edge =>
    have mem := mem_of_find?_eq_some first
    rw [first] at found
    generalize unit'.imports.find? (·.span = i.span) = second at found
    cases found with
    | some sameEdge => exact answer_eq_of_sameEdge closed same hu mem sameEdge i

omit closed' in
theorem get?_eq_of_mirrored {unit unit' : LinkedUnit} (hu : g.units[u]? = some unit)
    (hv : g'.units[v]? = some unit') (module : unit.module = unit'.module) {m : ModuleId}
    (hm : m ∈ g.scope (g.outcomesFrom {} stages) u) :
    (g'.publishedBefore stages' k').get? m.name = (g.publishedBefore stages k).get? m.name ∧
      Within (g.scope (g.outcomesFrom {} stages) u) ((g.publishedBefore stages k).get? m.name) := by
  obtain ⟨w, target, path, hw, rfl⟩ := hm
  rcases reflTransGen_iff_eq_or_transGen.mp path with rfl | used
  · -- the unit itself is not published yet in either graph
    obtain rfl : unit = target := by simpa [hu] using hw
    rw [get?_publishedBefore_self staged distinct hat hu, module,
      get?_publishedBefore_self staged' distinct' hat' hv]
    exact ⟨rfl, within_none.mpr trivial⟩
  · -- a unit that is used has been published in both graphs
    obtain ⟨w', counterpart, used'⟩ := mirrors.uses closed related same used
    obtain ⟨target₀, target', hw₀, hw', source, -⟩ := mirrors counterpart
    obtain rfl : target = target₀ := by simpa [hw] using hw₀
    have result := same (level_lt_of_uses closed used) counterpart
    have here : (g.publishedBefore stages k).get? target.module.name =
        interfaceOf (g.outcomesFrom {} stages) w := by
      refine Option.ext fun interface => ?_
      rw [get?_publishedBefore staged distinct hw]
      exact and_iff_right (staged.earlier_of_uses hat used)
    have there : (g'.publishedBefore stages' k').get? target'.module.name =
        interfaceOf (g'.outcomesFrom {} stages') w' := by
      refine Option.ext fun interface => ?_
      rw [get?_publishedBefore staged' distinct' hw']
      exact and_iff_right (staged'.earlier_of_uses hat' used')
    have modules : target.module = target'.module := congrArg SourceUnit.module source
    rw [here, modules, there, result.interfaceOf_eq]
    refine ⟨rfl, fun interface known => ?_⟩
    rw [← result.interfaceOf_eq] at known
    exact Interface.within_mono (scope_subset path) (result.2 interface known)

end Mirrored

/-- Related units have the same results, in whatever stages the two programs are analyzed. -/
theorem Mirrors.sameResult {stages stages' : List (List Nat)} (mirrors : g.Mirrors g' R)
    (closed : g.Closed) (distinct : g.DistinctModules) (staged : g.Staged stages)
    (closed' : g'.Closed) (distinct' : g'.DistinctModules) (staged' : g'.Staged stages')
    (related : R u v) :
    g.SameResult (g.outcomesFrom {} stages) (g'.outcomesFrom {} stages') u v := by
  -- the level of the unit falls along its imports
  induction level : g.level u using Nat.strong_induction_on generalizing u v with
  | _ n ih =>
    subst level
    have same {w w' : Nat} (lower : g.level w < g.level u) (related : R w w') :
        g.SameResult (g.outcomesFrom {} stages) (g'.outcomesFrom {} stages') w w' :=
      ih _ lower related rfl
    obtain ⟨unit, unit', hu, hv, source, edges⟩ := mirrors related
    have diagnostics := diagnostics_eq_of_mirrored source edges
    have module : unit.module = unit'.module := congrArg SourceUnit.module source
    have program : unit.program = unit'.program := congrArg SourceUnit.program source
    by_cases hclean : unit.diagnostics.isEmpty = true
    · obtain ⟨k, hat⟩ := staged.covers ⟨unit, hu, hclean⟩
      have hclean' : unit'.diagnostics.isEmpty = true := diagnostics ▸ hclean
      obtain ⟨k', hat'⟩ := staged'.covers ⟨unit', hv, hclean'⟩
      have resolve := resolve_eq_of_mirrored closed distinct staged hat closed' distinct' staged'
        hat' same hu hv edges
      have view {m : ModuleId} := get?_eq_of_mirrored closed mirrors related distinct staged hat
        distinct' staged' hat' same hu hv module (m := m)
      have answers : Resolver.SameOn (g.scope (g.outcomesFrom {} stages) u) unit.program
          (g.resolver (g.publishedBefore stages k) unit.module)
          (g'.resolver (g'.publishedBefore stages' k') unit'.module) :=
        ⟨fun i _ => (resolve i).1, fun i _ => (resolve i).2, fun m hm => (view hm).1,
          fun m hm => (view hm).2⟩
      have own : unit.module ∈ g.scope (g.outcomesFrom {} stages) u := ⟨u, unit, .refl, hu, rfl⟩
      obtain ⟨equal, inside⟩ := analyze_congr own (fun _ => trivial) answers
      refine ⟨?_, fun interface known => ?_⟩
      · rw [lookup_outcomesFrom staged hat hu hclean, lookup_outcomesFrom staged' hat' hv hclean',
          ← module, ← program, ← equal, module]
      · obtain ⟨checked, found, rfl⟩ := interfaceOf_eq_some.mp known
        rw [lookup_outcomesFrom staged hat hu hclean] at found
        exact inside checked (Option.some.inj found)
    · have none : ¬ g.Clean u := by
        rintro ⟨unit₀, hu₀, clean⟩
        obtain rfl : unit = unit₀ := by simpa [hu] using hu₀
        exact hclean clean
      have none' : ¬ g'.Clean v := by
        rintro ⟨unit₀, hv₀, clean⟩
        obtain rfl : unit' = unit₀ := by simpa [hv] using hv₀
        exact hclean (diagnostics ▸ clean)
      refine ⟨?_, fun interface known => absurd (clean_of_interfaceOf known) none⟩
      rw [lookup_outcomesFrom_of_not_clean none, lookup_outcomesFrom_of_not_clean none']

theorem mirrors_self (closed : g.Closed) :
    g.Mirrors g fun v w => v = w ∧ v < g.units.length := by
  rintro v _ ⟨rfl, hv⟩
  have at_v := getElem?_eq_getElem hv
  refine ⟨_, _, at_v, at_v, rfl, List.forall₂_same.mpr fun edge mem => ?_⟩
  obtain ⟨span, target⟩ := edge
  cases target with
  | error fault => exact .fault span fault
  | ok w =>
    have step : g.Imports v w := imports_iff.mpr ⟨_, at_v, _, mem, rfl⟩
    exact .unit span ⟨rfl, closed step⟩ rfl

theorem within_scope {stages : List (List Nat)} (closed : g.Closed) (distinct : g.DistinctModules)
    (staged : g.Staged stages) {interface : Interface} (inside : u < g.units.length)
    (known : interfaceOf (g.outcomesFrom {} stages) u = some interface) :
    Within (g.scope (g.outcomesFrom {} stages) u) interface :=
  (Mirrors.sameResult (mirrors_self closed) closed distinct staged closed distinct staged
    ⟨rfl, inside⟩).2 interface known

theorem lookup_eq_of_staged {stages stages' : List (List Nat)} (closed : g.Closed)
    (distinct : g.DistinctModules) (staged : g.Staged stages)
    (staged' : g.Staged stages') (u : Nat) :
    (g.outcomesFrom {} stages).lookup u = (g.outcomesFrom {} stages').lookup u := by
  by_cases inside : u < g.units.length
  · exact (Mirrors.sameResult (mirrors_self closed) closed distinct staged closed distinct staged'
      ⟨rfl, inside⟩).1
  · have outside : ¬ g.Clean u := by
      rintro ⟨unit, hu, -⟩
      exact inside (List.getElem?_eq_some_iff.mp hu).1
    rw [lookup_outcomesFrom_of_not_clean outside, lookup_outcomesFrom_of_not_clean outside]

/-! ### One unit after the other -/

/-- The results of analyzing units one after the other; each interface is published at once. -/
def sequentialFrom (g : UnitGraph) : Published → List Nat → List (Nat × Outcome)
  | _, [] => []
  | published, u :: rest =>
    match g.outcome? published u with
    | some found => found :: g.sequentialFrom (publish published found) rest
    | none => g.sequentialFrom published rest

theorem sequentialFrom_eq (published : Published) (order : List Nat) :
    g.sequentialFrom published order = g.outcomesFrom published (order.map fun u => [u]) := by
  induction order generalizing published with
  | nil => rfl
  | cons u rest ih =>
    rw [sequentialFrom, map_cons, outcomesFrom]
    cases found : g.outcome? published u <;> simp [found, ih]

def cleanUnits (g : UnitGraph) : List Nat :=
  (List.range g.units.length).filter fun u => g.units[u]?.any (·.diagnostics.isEmpty)

@[simp]
theorem mem_cleanUnits : u ∈ g.cleanUnits ↔ g.Clean u := by
  have inside : (∃ unit, g.units[u]? = some unit) ↔ u < g.units.length := by
    simp [List.getElem?_eq_some_iff]
  simp only [cleanUnits, mem_filter, mem_range, Option.any_eq_true, Clean, ← inside]
  exact ⟨fun h => h.2, fun ⟨unit, hu, clean⟩ => ⟨⟨unit, hu⟩, unit, hu, clean⟩⟩

/-- An order of the units without errors in which no unit stands before one that it imports.
Circular imports do not count; a graph without cycles has none. -/
structure Schedule (g : UnitGraph) (order : List Nat) : Prop where
  perm : order.Perm g.cleanUnits
  behind : order.Pairwise fun u v => v ∉ g.below u

namespace Schedule

variable {order : List Nat} (schedule : g.Schedule order)

include schedule

theorem nodup : order.Nodup :=
  schedule.perm.nodup_iff.mpr (List.nodup_range.filter _)

theorem mem_iff : u ∈ order ↔ g.Clean u :=
  schedule.perm.mem_iff.trans mem_cleanUnits

theorem staged (closed : g.Closed) : g.Staged (order.map fun u => [u]) := by
  have standsAt {k u : Nat} : StandsAt (order.map fun u => [u]) k u ↔ order[k]? = some u := by
    cases h : order[k]? <;> simp [StandsAt, h, eq_comm]
  refine ⟨fun hj hk => ?_, fun clean => ?_, fun hat below clean => ?_⟩
  · rw [standsAt] at hj hk
    have inside := (List.getElem?_eq_some_iff.mp hj).1
    exact (getElem?_inj inside schedule.nodup).mp (hj.trans hk.symm)
  · obtain ⟨k, hk⟩ := getElem?_of_mem (schedule.mem_iff.mpr clean)
    exact ⟨k, standsAt.mpr hk⟩
  · rename_i k u v
    rw [standsAt] at hat
    obtain ⟨j, hj⟩ := getElem?_of_mem (schedule.mem_iff.mpr clean)
    refine ⟨j, ?_, standsAt.mpr hj⟩
    rcases Nat.lt_trichotomy j k with before | rfl | after
    · exact before
    · -- no unit is below itself
      obtain rfl : u = v := by simpa [hat] using hj
      exact absurd (level_lt_of_mem_below closed below) (Nat.lt_irrefl _)
    · obtain ⟨hk, rfl⟩ := List.getElem?_eq_some_iff.mp hat
      obtain ⟨inside, rfl⟩ := List.getElem?_eq_some_iff.mp hj
      exact absurd below (List.pairwise_iff_getElem.mp schedule.behind k j hk inside after)

end Schedule

/-- Analyzing the units of a program one after the other, each behind those that it imports, gives
every unit what analyzing level after level gives it. -/
theorem lookup_sequentialFrom {sources : Sources} {layout : Layout} {entry : SourceUnit}
    {order : List Nat} (distinct : (ofEntry sources layout entry).DistinctModules)
    (schedule : (ofEntry sources layout entry).Schedule order) (u : Nat) :
    ((ofEntry sources layout entry).sequentialFrom {} order).lookup u =
      (ofEntry sources layout entry).outcomes.lookup u := by
  have closed : (ofEntry sources layout entry).Closed := closed_ofEntry entry
  rw [sequentialFrom_eq]
  exact lookup_eq_of_staged closed distinct (schedule.staged closed) (staged_levels closed) u

/-- A unit with two imports that share a third one. -/
def diamond : Sources :=
  .ofFiles [(⟨"a.ark"⟩, .text "Mod b\nMod c\nprint(b.x + c.y)\n"),
    (⟨"b.ark"⟩, .text "Mod d\nx ::= d.z\n"),
    (⟨"c.ark"⟩, .text "Mod d\ny ::= d.z\n"),
    (⟨"d.ark"⟩, .text "z ::= 1\n")]

/-- The two imports of the first unit may be analyzed in either order. -/
theorem lookup_sequentialFrom_diamond :
    let entry := SourceUnit.read ⟨.inferred, .empty⟩ (Path.normalize ⟨"a.ark"⟩)
      "Mod b\nMod c\nprint(b.x + c.y)\n"
    let g := ofEntry diamond ⟨.inferred, .empty⟩ entry
    g.DistinctModules ∧ g.Schedule [3, 2, 1, 0] ∧
      (g.sequentialFrom {} [3, 2, 1, 0]).lookup 0 = g.outcomes.lookup 0 := by
  intro entry g
  have distinct : g.DistinctModules := by
    unfold DistinctModules
    decide +kernel
  have schedule : g.Schedule [3, 2, 1, 0] := ⟨by decide +kernel, by decide +kernel⟩
  exact ⟨distinct, schedule, lookup_sequentialFrom distinct schedule 0⟩

end UnitGraph

end ArkLang
