import ArkLang.Build.Check
import ArkLang.Proofs.Components

/-!
# Cycles and levels of import graphs

Two units have the same component exactly if each reaches the other, so an import is called circular
exactly if it lies on a cycle. The imports that are left lead to earlier components. The levels are
found in the order of components, so that each of these imports leads to a unit of a lower level.
-/

namespace ArkLang

open List
open Relation

namespace UnitGraph

variable {g : UnitGraph} {u v w : Nat}

def Imports (g : UnitGraph) (u v : Nat) : Prop :=
  v ∈ g.successors u

/-- Every import that leads to a unit leads to one of the graph. -/
def Closed (g : UnitGraph) : Prop :=
  ∀ {u v}, g.Imports u v → v < g.units.length

theorem imports_iff : g.Imports u v ↔
    ∃ unit, g.units[u]? = some unit ∧ ∃ edge ∈ unit.imports, edge.target = .ok v := by
  have target_iff (t : Except LoadFault Nat) : t.toOption = some v ↔ t = .ok v := by
    cases t <;> simp [Except.toOption]
  rw [Imports, successors]
  cases g.units[u]? with
  | none => simp
  | some unit => simp [target_iff]

theorem Imports.lt_length (h : g.Imports u v) : u < g.units.length := by
  obtain ⟨unit, hu, -⟩ := imports_iff.mp h
  exact (List.getElem?_eq_some_iff.mp hu).1

/-! ### Cycles -/

section Cycles

variable (closed : g.Closed)

include closed

theorem perm_components : g.components.flatten.Perm (List.range g.units.length) :=
  ComponentSearch.perm_components closed

theorem nodup_components : g.components.flatten.Nodup :=
  (perm_components closed).nodup_iff.mpr nodup_range

theorem mem_components (hu : u < g.units.length) : ∃ c ∈ g.components, u ∈ c := by
  rw [← mem_flatten]
  exact (perm_components closed).mem_iff.mpr (List.mem_range.mpr hu)

/-- A component consists of units that reach each other. -/
theorem component_eq_iff (hu : u < g.units.length) : g.component u = g.component v ↔
    ReflTransGen g.Imports u v ∧ ReflTransGen g.Imports v u := by
  constructor
  · intro same
    have hlt : g.component u < g.components.length :=
      List.findIdx_lt_length.mpr (by simpa using mem_components closed hu)
    have first : (g.components.get ⟨g.component u, hlt⟩).contains u = true :=
      findIdx_getElem (w := hlt)
    have second : (g.components.get ⟨g.component u, hlt⟩).contains v = true := by
      have : g.component v < g.components.length := same ▸ hlt
      have found : (g.components.get ⟨g.component v, this⟩).contains v = true :=
        findIdx_getElem (w := this)
      simpa only [same] using found
    rw [contains_iff_mem] at first second
    exact (ComponentSearch.mem_component_iff closed (get_mem _ _) first).mp second
  · rintro ⟨steps, back⟩
    -- every component that holds one of the units holds the other one too
    have same {u v : Nat} (steps : ReflTransGen g.Imports u v) (back : ReflTransGen g.Imports v u) :
        g.component v ≤ g.component u := by
      refine findIdx_le_findIdx fun c hc hu => ?_
      rw [contains_iff_mem] at hu ⊢
      exact (ComponentSearch.mem_component_iff closed hc hu).mpr ⟨steps, back⟩
    exact (same back steps).antisymm (same steps back)

/-- An import is circular if it lies on a cycle. -/
theorem isCircular_iff (h : g.Imports u v) :
    g.isCircular u v = true ↔ ReflTransGen g.Imports v u := by
  rw [isCircular, beq_iff_eq, component_eq_iff closed h.lt_length]
  exact and_iff_right (.single h)

theorem mem_below_iff :
    v ∈ g.below u ↔ g.Imports u v ∧ ¬ ReflTransGen g.Imports v u := by
  rw [below, mem_filter]
  refine and_congr_right fun h => ?_
  rw [← isCircular_iff closed h]
  simp

end Cycles

/-! ### Levels -/

def level (g : UnitGraph) (u : Nat) : Nat :=
  g.unitLevels.getD u 0

theorem length_foldl_raise {units levels : List Nat} :
    (units.foldl g.raise levels).length = levels.length := by
  induction units generalizing levels with
  | nil => rfl
  | cons u units ih => rw [foldl_cons, ih, raise, length_set]

theorem getD_foldl_raise {units levels : List Nat} (other : u ∉ units) :
    (units.foldl g.raise levels).getD u 0 = levels.getD u 0 := by
  induction units generalizing levels with
  | nil => rfl
  | cons v units ih =>
    rw [mem_cons, not_or] at other
    rw [foldl_cons, ih other.2, raise, getD_eq_getElem?_getD,
      getElem?_set_ne (Ne.symm other.1), getD_eq_getElem?_getD]

private theorem le_foldl_max {b x : Nat} {xs : List Nat} :
    x ≤ xs.foldl max b ↔ x ≤ b ∨ ∃ y ∈ xs, x ≤ y := by
  induction xs generalizing b with
  | nil => simp
  | cons y ys ih =>
    rw [foldl_cons, ih, le_max_iff]
    simp [or_assoc]

section Levels

variable (closed : g.Closed)

include closed

theorem exists_split (hu : u < g.units.length) : ∃ before after,
    g.components.flatten = before ++ u :: after ∧ g.below u ⊆ before := by
  obtain ⟨c, hc, mem⟩ := mem_components closed hu
  obtain ⟨earlier, later, split⟩ := append_of_mem hc
  obtain ⟨left, right, rfl⟩ := append_of_mem mem
  refine ⟨earlier.flatten ++ left, right ++ later.flatten, by simp [split], fun v hv => ?_⟩
  obtain ⟨step, noReturn⟩ := (mem_below_iff closed).mp hv
  refine mem_append_left _ ?_
  refine (ComponentSearch.components_ordered closed split mem step).resolve_left fun inside => ?_
  exact noReturn ((ComponentSearch.mem_component_iff closed hc mem).mp inside).2

/-- A unit stands one level above those it imports. -/
theorem level_eq (hu : u < g.units.length) :
    g.level u = ((g.below u).map fun v => g.level v + 1).foldl max 0 := by
  obtain ⟨before, after, split, below⟩ := exists_split closed hu
  have nodup := nodup_components closed
  rw [split, nodup_append, nodup_cons] at nodup
  obtain ⟨-, ⟨last, -⟩, apart⟩ := nodup
  have level (v : Nat) : g.level v = ((u :: after).foldl g.raise
      (before.foldl g.raise (List.replicate g.units.length 0))).getD v 0 := by
    rw [UnitGraph.level, unitLevels, split, foldl_append]
  have settled (v : Nat) (hv : v ∈ g.below u) : g.level v =
      (before.foldl g.raise (List.replicate g.units.length 0)).getD v 0 := by
    rw [level, getD_foldl_raise fun h => apart v (below hv) v h rfl]
  rw [level, foldl_cons, getD_foldl_raise last, raise, getD_eq_getElem?_getD,
    getElem?_set_self (by simpa [length_foldl_raise] using hu), Option.getD_some]
  congr 1
  exact map_congr_left fun v hv => by rw [settled v hv]

/-- Imports outside of cycles lead to lower levels. -/
theorem level_lt_of_mem_below (h : v ∈ g.below u) : g.level v < g.level u := by
  have hu := ((mem_below_iff closed).mp h).1.lt_length
  rw [level_eq closed hu, ← Nat.succ_le_iff, le_foldl_max]
  exact .inr ⟨_, List.mem_map.mpr ⟨v, h, rfl⟩, le_rfl⟩

theorem idxOf_lt_of_mem_below (h : v ∈ g.below u) :
    g.components.flatten.idxOf v < g.components.flatten.idxOf u := by
  obtain ⟨before, after, split, below⟩ :=
    exists_split closed ((mem_below_iff closed).mp h).1.lt_length
  have nodup := nodup_components closed
  rw [split, nodup_append] at nodup
  have first : u ∉ before := fun hu => nodup.2.2 u hu u mem_cons_self rfl
  rw [split, idxOf_append_of_mem (below h), idxOf_append_of_notMem first,
    idxOf_cons_self, Nat.add_zero]
  exact idxOf_lt_length_of_mem (below h)

theorem level_le_idxOf (hu : u < g.units.length) : g.level u ≤ g.components.flatten.idxOf u := by
  induction at_u : g.components.flatten.idxOf u using Nat.strong_induction_on generalizing u with
  | _ k ih =>
    subst at_u
    by_contra! higher
    rw [← Nat.succ_le_iff, level_eq closed hu, le_foldl_max] at higher
    rcases higher with h | ⟨_, mem, h⟩
    · omega
    · obtain ⟨v, hv, rfl⟩ := List.mem_map.mp mem
      have before := idxOf_lt_of_mem_below closed hv
      have := ih _ before (closed ((mem_below_iff closed).mp hv).1) rfl
      omega

theorem level_lt_length (hu : u < g.units.length) : g.level u < g.units.length := by
  have all := perm_components closed
  have mem : u ∈ g.components.flatten := all.mem_iff.mpr (List.mem_range.mpr hu)
  have inside := idxOf_lt_length_of_mem mem
  rw [all.length_eq, length_range] at inside
  exact (level_le_idxOf closed hu).trans_lt inside

end Levels

theorem getElem?_levels (k : Nat) : g.levels[k]? =
    if k < g.units.length then some ((List.range g.units.length).filter fun u => g.level u = k)
    else none := by
  rw [levels]
  split
  · next h => simp [getElem?_range h, level]
  · next h => simp [h]

end UnitGraph

end ArkLang
