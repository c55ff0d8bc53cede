import Mathlib.Data.List.Nodup
import Mathlib.Data.List.Perm.Subperm
import Mathlib.Logic.Relation
import ArkLang.Graph.Reach

/-!
# Reachability is found round by round

The search of a graph finds exactly what can be reached, if its bound on the number of rounds is
greater than the number of nodes with successors.
-/

namespace ArkLang

open Relation

namespace Reach

variable {α : Type} [DecidableEq α] {next : α → List α} {found : List α}

/-- Adds a node behind the others unless it is among them. -/
private def addNew (seen : List α) (x : α) : List α :=
  if x ∈ seen then seen else seen ++ [x]

private theorem mem_foldl_addNew {x : α} {new : List α} :
    x ∈ new.foldl addNew found ↔ x ∈ found ∨ x ∈ new := by
  induction new generalizing found with
  | nil => simp
  | cons y new ih =>
    rw [List.foldl_cons, ih, addNew]
    by_cases h : y ∈ found
    · grind
    · grind

private theorem foldl_addNew_eq_append (found new : List α) :
    ∃ more, new.foldl addNew found = found ++ more := by
  induction new generalizing found with
  | nil => exact ⟨[], by simp⟩
  | cons y new ih =>
    obtain ⟨more, h⟩ := ih (addNew found y)
    by_cases hy : y ∈ found
    · exact ⟨more, by simpa [addNew, hy] using h⟩
    · exact ⟨y :: more, by simpa [addNew, hy] using h⟩

theorem mem_round {x : α} : x ∈ round next found ↔ x ∈ found ∨ ∃ y ∈ found, x ∈ next y := by
  rw [round, ← List.mem_flatMap]
  exact mem_foldl_addNew

theorem round_eq_of_length_eq (h : (round next found).length = found.length) :
    round next found = found := by
  obtain ⟨more, hmore⟩ : ∃ more, round next found = found ++ more := foldl_addNew_eq_append _ _
  rw [hmore] at h ⊢
  simpa using h

theorem closure_eq_of_closed (closed : ∀ x ∈ found, next x ⊆ found) (n : Nat) :
    closure next n found = found := by
  have same (new : List α) (inside : new ⊆ found) : new.foldl addNew found = found := by
    induction new with
    | nil => rfl
    | cons x new ih =>
      obtain ⟨hx, rest⟩ := List.cons_subset.mp inside
      rw [List.foldl_cons, addNew, if_pos hx, ih rest]
  have round : round next found = found := same _ fun y hy => by
    obtain ⟨x, hx, step⟩ := List.mem_flatMap.mp hy
    exact closed x hx step
  cases n with
  | zero => rfl
  | succ n => rw [closure, round, if_pos rfl]

theorem reachable_of_mem_closure {n : Nat} {x : α} (h : x ∈ closure next n found) :
    ∃ y ∈ found, ReflTransGen (fun a b => b ∈ next a) y x := by
  induction n generalizing found with
  | zero => exact ⟨x, h, .refl⟩
  | succ n ih =>
    rw [closure] at h
    split at h
    · exact ⟨x, h, .refl⟩
    · obtain ⟨y, hy, path⟩ := ih h
      rcases mem_round.mp hy with hy | ⟨z, hz, step⟩
      · exact ⟨y, hy, path⟩
      · exact ⟨z, hz, path.head step⟩

theorem subset_closure (n : Nat) : found ⊆ closure next n found := by
  induction n generalizing found with
  | zero => exact fun _ h => h
  | succ n ih =>
    rw [closure]
    split
    · exact fun _ h => h
    · exact fun x hx => ih (mem_round.mpr (.inl hx))

/-- Every round but the last two finds a new node with successors, so more rounds than there are
such nodes find everything. -/
theorem closed_closure_of_leaves {n : Nat} {inner : List α} (leaves : ∀ x ∉ inner, next x = [])
    (enough : (inner.filter (· ∉ found)).length < n) :
    ∀ x ∈ closure next n found, next x ⊆ closure next n found := by
  induction n generalizing found with
  | zero => cases enough
  | succ n ih =>
    rw [closure]
    split
    · next same =>
      intro x hx y hy
      have : y ∈ round next found := mem_round.mpr (.inr ⟨x, hx, hy⟩)
      rwa [round_eq_of_length_eq same] at this
    · by_cases inside : ∀ x ∈ inner, x ∈ round next found → x ∈ found
      · -- only nodes without successors were found, so that another round finds nothing
        have closed : ∀ x ∈ round next found, next x ⊆ round next found := by
          intro x hx y hy
          by_cases leaf : x ∈ inner
          · exact mem_round.mpr (.inr ⟨x, inside x leaf hx, hy⟩)
          · rw [leaves x leaf] at hy
            cases hy
        rwa [closure_eq_of_closed closed]
      · push Not at inside
        obtain ⟨x, hx, found', new⟩ := inside
        refine ih (Nat.lt_of_lt_of_le ?_ (Nat.le_of_lt_succ enough))
        have fewer : inner.filter (· ∉ round next found) =
            (inner.filter (· ∉ found)).filter (· ∉ round next found) := by
          rw [List.filter_filter]
          refine List.filter_congr fun y _ => ?_
          have known : y ∈ round next found ↔ _ := mem_round
          grind
        rw [fewer]
        exact List.length_filter_lt_length_iff_exists.mpr
          ⟨x, List.mem_filter.mpr ⟨hx, by simpa using new⟩, by simpa using found'⟩

theorem mem_closure_of_leaves {n : Nat} {inner : List α} (leaves : ∀ x ∉ inner, next x = [])
    (enough : inner.length < n) {x y : α} (path : ReflTransGen (fun a b => b ∈ next a) x y) :
    y ∈ closure next n [x] := by
  have closed : ∀ z ∈ closure next n [x], next z ⊆ closure next n [x] :=
    closed_closure_of_leaves leaves (Nat.lt_of_le_of_lt (List.length_filter_le _ _) enough)
  induction path with
  | refl => exact subset_closure _ (List.mem_singleton.mpr rfl)
  | tail _ step ih => exact closed _ ih step

end Reach

end ArkLang
