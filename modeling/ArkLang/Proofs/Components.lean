import Mathlib.Data.List.Nodup
import Mathlib.Data.List.Perm.Subperm
import Mathlib.Logic.Relation
import Mathlib.Order.MinMax
import ArkLang.Graph.Component

/-!
# The search for components is correct

While the search is inside some nodes, every node on the stack leads back to one of them, and a node
on the stack leads to all that stand above it. So a node from which no lower number is reached is
connected with exactly those above it, and its component is complete. Every edge of a complete
component stays inside or leads to one that was completed before.
-/

namespace ArkLang

open List
open Relation

abbrev Connected (next : Nat → List Nat) : Nat → Nat → Prop :=
  ReflTransGen fun u v => v ∈ next u

namespace ComponentSearch

variable {next : Nat → List Nat} {size : Nat} {path : List Nat} {s s' s'' : ComponentSearch}
  {u v w low : Nat}

/-! ### Numbers -/

def entered (s : ComponentSearch) : List Nat :=
  s.numbers.map Prod.fst

def number (s : ComponentSearch) (u : Nat) : Nat :=
  (s.number? u).getD 0

theorem number?_enter : (s.enter u).number? v =
    if v = u then some s.numbers.length else s.number? v := by
  rw [number?, enter, lookup_cons]
  by_cases h : v = u
  · simp [h]
  · rw [beq_eq_false_iff_ne.mpr h, if_neg h]
    rfl

@[simp] theorem entered_enter : (s.enter u).entered = u :: s.entered := rfl

@[simp] theorem stack_enter : (s.enter u).stack = u :: s.stack := rfl

@[simp] theorem complete_enter : (s.enter u).complete = s.complete := rfl

@[simp] theorem length_enter : (s.enter u).numbers.length = s.numbers.length + 1 := rfl

@[simp] theorem length_entered : s.entered.length = s.numbers.length := by
  simp [entered]

theorem mem_entered_iff : v ∈ s.entered ↔ ∃ i, s.number? v = some i := by
  rw [entered, number?]
  induction s.numbers with
  | nil => simp
  | cons entry rest ih =>
    rw [map_cons, mem_cons, lookup_cons, ih]
    by_cases h : v = entry.1
    · simp [h]
    · rw [beq_eq_false_iff_ne.mpr h]
      simp [h]

theorem number?_of_mem (h : v ∈ s.entered) : s.number? v = some (s.number v) := by
  obtain ⟨i, hi⟩ := mem_entered_iff.mp h
  rw [number, hi, Option.getD_some]

theorem number?_eq_none_iff : s.number? v = none ↔ v ∉ s.entered := by
  rw [mem_entered_iff, ← Option.isSome_iff_exists, Option.not_isSome_iff_eq_none]

/-! ### What holds during the search -/

/-- What holds while the search is inside the nodes of a path: these are entered and not left. -/
structure Sound (next : Nat → List Nat) (size : Nat) (path : List Nat) (s : ComponentSearch) :
    Prop where
  inside : ∀ v ∈ s.entered, v < size
  bounded : ∀ v ∈ s.entered, s.number v < s.numbers.length
  nodup : s.entered.Nodup
  /-- Every node that was entered stands on the stack or belongs to a complete component. -/
  perm : (s.stack ++ s.complete.flatten).Perm s.entered
  falling : s.stack.Pairwise fun u v => s.number v < s.number u
  open_path : ∀ u ∈ path, u ∈ s.stack
  /-- The edges of a node that was left are followed. -/
  followed : ∀ u ∈ s.entered, u ∉ path → ∀ v ∈ next u, v ∈ s.entered
  up : ∀ u ∈ s.stack, ∀ v ∈ s.stack, s.number u ≤ s.number v → Connected next u v
  back : ∀ v ∈ s.stack, ∃ u ∈ path, s.number u ≤ s.number v ∧ Connected next v u
  component : ∀ c ∈ s.complete, ∀ u ∈ c, ∀ v, v ∈ c ↔ Connected next u v ∧ Connected next v u
  ordered : ∀ before c after, s.complete = before ++ c :: after →
    ∀ u ∈ c, ∀ v ∈ next u, v ∈ c ∨ v ∈ before.flatten

namespace Sound

variable (sound : Sound next size path s)

include sound

theorem mem_entered_of_stack (h : v ∈ s.stack) : v ∈ s.entered :=
  sound.perm.mem_iff.mp (mem_append_left _ h)

theorem not_mem_stack {c : List Nat} (hc : c ∈ s.complete) (h : v ∈ c) : v ∉ s.stack := by
  have nodup := sound.perm.nodup_iff.mpr sound.nodup
  intro hstack
  exact (List.nodup_append.mp nodup).2.2 v hstack v (List.mem_flatten.mpr ⟨c, hc, h⟩) rfl

theorem stack_or_complete (h : v ∈ s.entered) : v ∈ s.stack ∨ ∃ c ∈ s.complete, v ∈ c := by
  rw [← mem_flatten, ← mem_append]
  exact sound.perm.mem_iff.mpr h

theorem stack_eq_nil (h : path = []) : s.stack = [] := by
  refine List.eq_nil_iff_forall_not_mem.mpr fun v hv => ?_
  obtain ⟨u, hu, -⟩ := sound.back v hv
  simp [h] at hu

theorem complete_of_connected {c : List Nat} (hc : c ∈ s.complete) (h : u ∈ c)
    (steps : Connected next u v) : ∃ c ∈ s.complete, v ∈ c := by
  induction steps with
  | refl => exact ⟨c, hc, h⟩
  | tail _ step ih =>
    obtain ⟨d, hd, mem⟩ := ih
    obtain ⟨before, after, split⟩ := append_of_mem hd
    rcases sound.ordered before d after split _ mem _ step with same | earlier
    · exact ⟨d, hd, same⟩
    · obtain ⟨e, he, inside⟩ := List.mem_flatten.mp earlier
      exact ⟨e, split ▸ mem_append_left _ he, inside⟩

end Sound

/-- A later state of a search: numbers stay, and nothing is taken from the stack. -/
structure Grows (s s' : ComponentSearch) : Prop where
  keeps : ∀ v ∈ s.entered, s'.number? v = s.number? v
  longer : s.numbers.length ≤ s'.numbers.length
  stack : s.stack <:+ s'.stack

namespace Grows

theorem refl (s : ComponentSearch) : Grows s s :=
  ⟨fun _ _ => rfl, le_rfl, suffix_rfl⟩

variable (grows : Grows s s')

include grows

theorem mem_entered (h : v ∈ s.entered) : v ∈ s'.entered := by
  obtain ⟨i, hi⟩ := mem_entered_iff.mp h
  exact mem_entered_iff.mpr ⟨i, grows.keeps v h ▸ hi⟩

theorem number_eq (h : v ∈ s.entered) : s'.number v = s.number v := by
  rw [number, number, grows.keeps v h]

theorem trans (more : Grows s' s'') : Grows s s'' where
  keeps v h := (more.keeps v (grows.mem_entered h)).trans (grows.keeps v h)
  longer := grows.longer.trans more.longer
  stack := grows.stack.trans more.stack

end Grows

/-- What a visit of a new node has found when it leaves the node. -/
structure Visited (next : Nat → List Nat) (size : Nat) (path : List Nat) (s : ComponentSearch)
    (u low : Nat) (s' : ComponentSearch) : Prop where
  sound : Sound next size path s'
  grows : Grows s s'
  entered : u ∈ s'.entered
  low_le : low ≤ s.numbers.length
  reached : low = s.numbers.length ∨ ∃ w ∈ s'.stack, s'.number w = low ∧ Connected next u w
  /-- No edge from what is new on the stack leads to a number below the lowest one. -/
  lowest : ∀ x ∈ s'.stack, x ∉ s.stack → ∀ y ∈ next x, y ∈ s.stack → low ≤ s'.number y

/-- What a visit of a new node has found when it has followed some edges of the node. -/
structure Following (next : Nat → List Nat) (size : Nat) (path : List Nat) (s : ComponentSearch)
    (u : Nat) (done : List Nat) (low : Nat) (s' : ComponentSearch) : Prop where
  sound : Sound next size (u :: path) s'
  grows : Grows (s.enter u) s'
  entered : ∀ v ∈ done, v ∈ s'.entered
  low_le : low ≤ s.numbers.length
  reached : low = s.numbers.length ∨ ∃ w ∈ s'.stack, s'.number w = low ∧ Connected next u w
  lowest : ∀ x ∈ s'.stack, x ∉ (s.enter u).stack → ∀ y ∈ next x, y ∈ s.stack → low ≤ s'.number y
  own : ∀ v ∈ done, v ∈ s.stack → low ≤ s'.number v

/-! ### Entering a node -/

section Enter

variable (sound : Sound next size path s) (new : u ∉ s.entered)

include new

theorem number_enter_of_mem (h : v ∈ s.entered) : (s.enter u).number v = s.number v := by
  have other : v ≠ u := by
    rintro rfl
    exact new h
  rw [number, number, number?_enter, if_neg other]

omit new in
@[simp] theorem number_enter_self : (s.enter u).number u = s.numbers.length := by
  simp [number, number?_enter]

theorem Grows.enter : Grows s (s.enter u) where
  keeps v h := by
    have other : v ≠ u := by
      rintro rfl
      exact new h
    rw [number?_enter, if_neg other]
  longer := Nat.le_succ _
  stack := suffix_cons _ _

include sound

theorem Sound.enter (inside : u < size) (leads : ∀ p ∈ path, Connected next p u) :
    Sound next size (u :: path) (s.enter u) where
  inside v h := by
    rcases List.mem_cons.mp h with rfl | h
    · exact inside
    · exact sound.inside v h
  bounded v h := by
    rcases List.mem_cons.mp h with rfl | h
    · simp
    · rw [number_enter_of_mem new h, length_enter]
      exact Nat.lt_succ_of_lt (sound.bounded v h)
  nodup := List.nodup_cons.mpr ⟨new, sound.nodup⟩
  perm := sound.perm.cons u
  falling := by
    refine List.pairwise_cons.mpr ⟨fun v h => ?_, ?_⟩
    · have entered := sound.mem_entered_of_stack h
      rw [number_enter_of_mem new entered, number_enter_self]
      exact sound.bounded v entered
    · refine sound.falling.imp_of_mem fun hv hw lt => ?_
      rwa [number_enter_of_mem new (sound.mem_entered_of_stack hv),
        number_enter_of_mem new (sound.mem_entered_of_stack hw)]
  open_path v h := by
    rcases List.mem_cons.mp h with rfl | h
    · exact mem_cons_self
    · exact mem_cons_of_mem _ (sound.open_path v h)
  followed v h away w hw := by
    rw [mem_cons, not_or] at away
    rcases List.mem_cons.mp h with rfl | h
    · exact absurd rfl away.1
    · exact mem_cons_of_mem _ (sound.followed v h away.2 w hw)
  up v hv w hw le := by
    rcases List.mem_cons.mp hv with rfl | onStack
    · rcases List.mem_cons.mp hw with rfl | hw
      · exact .refl
      · -- nothing on the stack has a higher number than the new node
        have entered := sound.mem_entered_of_stack hw
        rw [number_enter_self, number_enter_of_mem new entered] at le
        exact absurd (sound.bounded w entered) (Nat.not_lt.mpr le)
    · rcases List.mem_cons.mp hw with rfl | hw
      · obtain ⟨p, hp, -, steps⟩ := sound.back v onStack
        exact steps.trans (leads p hp)
      · rw [number_enter_of_mem new (sound.mem_entered_of_stack onStack),
          number_enter_of_mem new (sound.mem_entered_of_stack hw)] at le
        exact sound.up v onStack w hw le
  back v hv := by
    rcases List.mem_cons.mp hv with rfl | hv
    · exact ⟨v, mem_cons_self, le_rfl, .refl⟩
    · obtain ⟨p, hp, le, steps⟩ := sound.back v hv
      have hstack := sound.open_path p hp
      refine ⟨p, mem_cons_of_mem _ hp, ?_, steps⟩
      rwa [number_enter_of_mem new (sound.mem_entered_of_stack hstack),
        number_enter_of_mem new (sound.mem_entered_of_stack hv)]
  component := sound.component
  ordered := sound.ordered

theorem Following.start (inside : u < size) (leads : ∀ p ∈ path, Connected next p u) :
    Following next size path s u [] s.numbers.length (s.enter u) where
  sound := sound.enter new inside leads
  grows := .refl _
  entered _ h := absurd h not_mem_nil
  low_le := le_rfl
  reached := .inl rfl
  lowest _ hx away := absurd hx away
  own _ h := absurd h not_mem_nil

end Enter

/-! ### Following edges -/

section Follow

variable {done : List Nat} (following : Following next size path s u done low s')

include following

theorem Following.mem_stack (h : v ∈ s.stack) : v ∈ s'.stack :=
  following.grows.stack.subset (mem_cons_of_mem _ h)

theorem Following.mem_entered (h : v ∈ s.entered) : v ∈ s'.entered :=
  following.grows.mem_entered (mem_cons_of_mem _ h)

theorem Following.visit (sound : Sound next size path s) {low' : Nat}
    (edge : v ∈ next u) (fresh : v ∉ s'.entered)
    (visited : Visited next size (u :: path) s' v low' s'') :
    Following next size path s u (done ++ [v]) (min low low') s'' where
  sound := visited.sound
  grows := following.grows.trans visited.grows
  entered w h := by
    rcases List.mem_append.mp h with h | h
    · exact visited.grows.mem_entered (following.entered w h)
    · rw [List.mem_singleton.mp h]
      exact visited.entered
  low_le := (min_le_left _ _).trans following.low_le
  reached := by
    rcases le_total low low' with le | le
    · rw [min_eq_left le]
      rcases following.reached with own | ⟨w, hw, number, steps⟩
      · exact .inl own
      · refine .inr ⟨w, visited.grows.stack.subset hw, ?_, steps⟩
        rw [visited.grows.number_eq (following.sound.mem_entered_of_stack hw), number]
    · rw [min_eq_right le]
      rcases visited.reached with own | ⟨w, hw, number, steps⟩
      · -- the node was left with its own number, which is higher than that of its parent
        have longer := following.grows.longer
        have := following.low_le
        rw [length_enter] at longer
        omega
      · exact .inr ⟨w, hw, number, steps.head edge⟩
  lowest x hx away y hy hstack := by
    have onStack := following.mem_stack hstack
    by_cases early : x ∈ s'.stack
    · refine (min_le_left _ _).trans ?_
      rw [visited.grows.number_eq (following.sound.mem_entered_of_stack onStack)]
      exact following.lowest x early away y hy hstack
    · exact (min_le_right _ _).trans (visited.lowest x hx early y hy onStack)
  own w h hstack := by
    rcases List.mem_append.mp h with h | h
    · refine (min_le_left _ _).trans ?_
      rw [visited.grows.number_eq (following.entered w h)]
      exact following.own w h hstack
    · rw [List.mem_singleton.mp h] at hstack
      exact absurd (following.mem_entered (sound.mem_entered_of_stack hstack)) fresh

theorem Following.onStack (edge : v ∈ next u) (hv : v ∈ s'.stack) :
    Following next size path s u (done ++ [v]) (min low (s'.number v)) s' where
  sound := following.sound
  grows := following.grows
  entered w h := by
    rcases List.mem_append.mp h with h | h
    · exact following.entered w h
    · rw [List.mem_singleton.mp h]
      exact following.sound.mem_entered_of_stack hv
  low_le := (min_le_left _ _).trans following.low_le
  reached := by
    rcases le_total low (s'.number v) with le | le
    · rw [min_eq_left le]
      exact following.reached
    · rw [min_eq_right le]
      exact .inr ⟨v, hv, rfl, .single edge⟩
  lowest x hx away y hy hstack := (min_le_left _ _).trans (following.lowest x hx away y hy hstack)
  own w h hstack := by
    rcases List.mem_append.mp h with h | h
    · exact (min_le_left _ _).trans (following.own w h hstack)
    · rw [List.mem_singleton.mp h]
      exact min_le_right _ _

theorem Following.complete (hv : v ∈ s'.entered) (away : v ∉ s'.stack) :
    Following next size path s u (done ++ [v]) low s' where
  sound := following.sound
  grows := following.grows
  entered w h := by
    rcases List.mem_append.mp h with h | h
    · exact following.entered w h
    · rwa [List.mem_singleton.mp h]
  low_le := following.low_le
  reached := following.reached
  lowest := following.lowest
  own w h hstack := by
    rcases List.mem_append.mp h with h | h
    · exact following.own w h hstack
    · rw [List.mem_singleton.mp h] at hstack
      exact absurd (following.mem_stack hstack) away

end Follow

/-! ### Leaving a node -/

theorem close_eq {above below : List Nat} (split : s.stack = above ++ u :: below)
    (other : ∀ x ∈ above, x ≠ u) :
    s.close u = { s with stack := below, complete := s.complete ++ [above ++ [u]] } := by
  have keep : ∀ x ∈ above, decide (x ≠ u) = true := by simpa using other
  rw [close, split, dropWhile_append_of_pos keep, takeWhile_append_of_pos keep]
  simp

section Leave

variable (sound : Sound next size path s) (new : u ∉ s.entered)
  (following : Following next size path s u (next u) low s')

include following

theorem Following.number_self : s'.number u = s.numbers.length := by
  rw [following.grows.number_eq mem_cons_self, number_enter_self]

theorem Following.mem_stack_self : u ∈ s'.stack :=
  following.grows.stack.subset mem_cons_self

theorem Following.number_of_stack (sound : Sound next size path s) (new : u ∉ s.entered)
    (h : v ∈ s.stack) : s'.number v = s.number v :=
  ((Grows.enter new).trans following.grows).number_eq (sound.mem_entered_of_stack h)

theorem Following.exists_above : ∃ above, s'.stack = above ++ u :: s.stack ∧
    ∀ x ∈ above, x ∉ u :: s.stack ∧ s'.number u < s'.number x := by
  obtain ⟨above, split⟩ := following.grows.stack
  rw [stack_enter] at split
  have falling := following.sound.falling
  rw [← split, pairwise_append] at falling
  refine ⟨above, split.symm, fun x hx => ⟨fun below => ?_, ?_⟩⟩
  · exact absurd (falling.2.2 x hx x below) (Nat.lt_irrefl _)
  · exact falling.2.2 x hx u mem_cons_self

theorem Following.edge_entered (sound : Sound next size path s) {x y : Nat} (hx : x ∈ s'.stack)
    (away : x ∉ s.stack) (edge : y ∈ next x) : y ∈ s'.entered := by
  by_cases self : x = u
  · exact following.entered y (self ▸ edge)
  · refine following.sound.followed x (following.sound.mem_entered_of_stack hx) ?_ y edge
    rw [mem_cons, not_or]
    exact ⟨self, fun onPath => away (sound.open_path x onPath)⟩

theorem Following.edge_lowest {x y : Nat} (hx : x ∈ s'.stack) (away : x ∉ s.stack)
    (edge : y ∈ next x) (hy : y ∈ s.stack) : low ≤ s'.number y := by
  by_cases self : x = u
  · exact following.own y (self ▸ edge) hy
  · refine following.lowest x hx ?_ y edge hy
    rw [stack_enter, mem_cons, not_or]
    exact ⟨self, away⟩

include sound new

/-- A node from which a lower number is reached stays on the stack. -/
theorem Following.leave_open (lower : low ≠ s.numbers.length) :
    Visited next size path s u low s' := by
  obtain ⟨w, hw, number, steps⟩ := following.reached.resolve_left lower
  have below : s'.number w < s'.number u := by
    have := following.low_le
    rw [following.number_self]
    omega
  refine ⟨?_, (Grows.enter new).trans following.grows,
    following.sound.mem_entered_of_stack following.mem_stack_self, following.low_le,
    following.reached, fun x hx away y edge hy => following.edge_lowest hx away edge hy⟩
  refine { following.sound with open_path := ?_, followed := ?_, back := ?_ }
  · exact fun p hp => following.mem_stack (sound.open_path p hp)
  · intro x hx away y edge
    by_cases self : x = u
    · exact following.entered y (self ▸ edge)
    · exact following.sound.followed x hx (by simp [self, away]) y edge
  · intro v hv
    obtain ⟨p, hp, le, leads⟩ := following.sound.back v hv
    rcases List.mem_cons.mp hp with rfl | hp
    · -- go on from the node that is left to the lower one, and from there back to the path
      obtain ⟨q, hq, le', leads'⟩ := following.sound.back w hw
      rcases List.mem_cons.mp hq with rfl | hq
      · exact absurd (le'.trans_lt below) (Nat.lt_irrefl _)
      · exact ⟨q, hq, by omega, (leads.trans steps).trans leads'⟩
    · exact ⟨p, hp, le, leads⟩

theorem Following.connected_self {x : Nat} (hx : x ∈ s'.stack) (away : x ∉ s.stack) :
    Connected next u x ∧ Connected next x u := by
  have self := following.mem_stack_self
  have le : s'.number u ≤ s'.number x := by
    obtain ⟨above, split, higher⟩ := following.exists_above
    rw [split, mem_append, mem_cons] at hx
    rcases hx with hx | rfl | hx
    · exact (higher x hx).2.le
    · exact le_rfl
    · exact absurd hx away
  refine ⟨following.sound.up u self x hx le, ?_⟩
  obtain ⟨p, hp, -, steps⟩ := following.sound.back x hx
  rcases List.mem_cons.mp hp with rfl | hp
  · exact steps
  · -- a node of the path is on the stack below the node that is left, so it leads to that node
    have onStack := sound.open_path p hp
    have lower : s'.number p ≤ s'.number u := by
      rw [following.number_of_stack sound new onStack, following.number_self]
      exact (sound.bounded p (sound.mem_entered_of_stack onStack)).le
    exact steps.trans (following.sound.up p (following.mem_stack onStack) u self lower)

theorem Following.stays (own : low = s.numbers.length) {x y : Nat} (hx : x ∈ s'.stack)
    (away : x ∉ s.stack) (steps : Connected next x y) :
    (y ∈ s'.stack ∧ y ∉ s.stack) ∨ ∃ c ∈ s'.complete, y ∈ c := by
  induction steps with
  | refl => exact .inl ⟨hx, away⟩
  | @tail y z _ edge ih =>
    rcases ih with ⟨hy, away'⟩ | ⟨c, hc, mem⟩
    · rcases following.sound.stack_or_complete
        (following.edge_entered sound hy away' edge) with h | h
      · refine .inl ⟨h, fun below => ?_⟩
        have lowest := following.edge_lowest hy away' edge below
        rw [following.number_of_stack sound new below, own] at lowest
        exact Nat.not_lt.mpr lowest (sound.bounded z (sound.mem_entered_of_stack below))
      · exact .inr h
    · exact .inr (following.sound.complete_of_connected hc mem (.single edge))

theorem Following.isComponent (own : low = s.numbers.length) {x : Nat} (hx : x ∈ s'.stack)
    (away : x ∉ s.stack) (y : Nat) :
    (y ∈ s'.stack ∧ y ∉ s.stack) ↔ Connected next x y ∧ Connected next y x := by
  obtain ⟨fromSelf, toSelf⟩ := following.connected_self sound new hx away
  constructor
  · rintro ⟨hy, away'⟩
    obtain ⟨fromSelf', toSelf'⟩ := following.connected_self sound new hy away'
    exact ⟨toSelf.trans fromSelf', toSelf'.trans fromSelf⟩
  · rintro ⟨steps, back⟩
    rcases following.stays sound new own hx away steps with h | ⟨c, hc, mem⟩
    · exact h
    · -- a complete component holds everything connected with it, so it would hold `x`
      have : x ∈ c := (following.sound.component c hc y mem x).mpr ⟨back, steps⟩
      exact absurd hx (following.sound.not_mem_stack hc this)

theorem Following.sound_close (own : low = s.numbers.length) {above : List Nat}
    (split : s'.stack = above ++ u :: s.stack)
    (mem_iff : ∀ x, x ∈ above ++ [u] ↔ x ∈ s'.stack ∧ x ∉ s.stack) :
    Sound next size path
      { s' with stack := s.stack, complete := s'.complete ++ [above ++ [u]] } where
  inside := following.sound.inside
  bounded := following.sound.bounded
  nodup := following.sound.nodup
  perm := by
    refine .trans ?_ following.sound.perm
    calc s.stack ++ (s'.complete ++ [above ++ [u]]).flatten
        = (s.stack ++ s'.complete.flatten) ++ (above ++ [u]) := by simp
      List.Perm _ ((above ++ [u]) ++ (s.stack ++ s'.complete.flatten)) := perm_append_comm
      _ = s'.stack ++ s'.complete.flatten := by simp [split]
  falling := by
    refine sound.falling.imp_of_mem fun hv hw lt => ?_
    rwa [← following.number_of_stack sound new hv, ← following.number_of_stack sound new hw] at lt
  open_path := sound.open_path
  followed x hx away y edge := by
    by_cases self : x = u
    · exact following.entered y (self ▸ edge)
    · exact following.sound.followed x hx (by simp [self, away]) y edge
  up v hv w hw le := by
    refine sound.up v hv w hw ?_
    rwa [← following.number_of_stack sound new hv, ← following.number_of_stack sound new hw]
  back v hv := by
    obtain ⟨p, hp, le, steps⟩ := sound.back v hv
    rw [← following.number_of_stack sound new hv,
      ← following.number_of_stack sound new (sound.open_path p hp)] at le
    exact ⟨p, hp, le, steps⟩
  component c hc x hx y := by
    rcases List.mem_append.mp hc with hc | hc
    · exact following.sound.component c hc x hx y
    · rw [List.mem_singleton.mp hc, mem_iff] at hx ⊢
      exact following.isComponent sound new own hx.1 hx.2 y
  ordered before c after cut x hx y edge := by
    -- the new component is the last one, and all others were ordered before
    rcases eq_nil_or_concat after with rfl | ⟨after', last, rfl⟩
    · obtain ⟨rfl, same⟩ := append_inj' cut rfl
      obtain rfl : above ++ [u] = c := by simpa using same
      rw [mem_iff] at hx ⊢
      refine (following.stays sound new own hx.1 hx.2 (.single edge)).imp_right fun h => ?_
      exact List.mem_flatten.mpr h
    · rw [concat_eq_append, ← cons_append, ← append_assoc] at cut
      exact following.sound.ordered before c after' (append_inj' cut rfl).1 x hx y edge

theorem Following.leave_closed (own : low = s.numbers.length) :
    Visited next size path s u low (s'.close u) := by
  have grows := (Grows.enter new).trans following.grows
  obtain ⟨above, split, higher⟩ := following.exists_above
  have other : ∀ x ∈ above, x ≠ u := by
    rintro x hx rfl
    exact (higher x hx).1 mem_cons_self
  have mem_iff (x : Nat) : x ∈ above ++ [u] ↔ x ∈ s'.stack ∧ x ∉ s.stack := by
    rw [split, mem_append, mem_append, mem_singleton, mem_cons]
    constructor
    · rintro (hx | rfl)
      · exact ⟨.inl hx, fun h => (higher x hx).1 (mem_cons_of_mem _ h)⟩
      · exact ⟨.inr (.inl rfl), fun h => new (sound.mem_entered_of_stack h)⟩
    · rintro ⟨hx | rfl | hx, away⟩
      · exact .inl hx
      · exact .inr rfl
      · exact absurd hx away
  rw [close_eq split other]
  exact ⟨following.sound_close sound new own split mem_iff,
    ⟨grows.keeps, grows.longer, suffix_rfl⟩,
    following.sound.mem_entered_of_stack following.mem_stack_self, following.low_le, .inl own,
    fun x hx away => absurd hx away⟩

end Leave

/-! ### Visits -/

/-- A way to visit nodes that finds what it should, as long as at most a number of nodes are new. -/
def VisitsWithin (next : Nat → List Nat) (size depth : Nat)
    (visit : Nat → ComponentSearch → Nat × ComponentSearch) : Prop :=
  ∀ {path : List Nat} {s : ComponentSearch} {u : Nat}, Sound next size path s → u ∉ s.entered →
    u < size → (∀ p ∈ path, Connected next p u) → size ≤ s.numbers.length + depth →
    Visited next size path s u (visit u s).1 (visit u s).2

section Visit

variable (closed : ∀ {u v}, v ∈ next u → v < size)

include closed

theorem Following.follow {depth : Nat} {visit : Nat → ComponentSearch → Nat × ComponentSearch}
    (visits : VisitsWithin next size depth visit) (sound : Sound next size path s)
    (leads : ∀ p ∈ path, Connected next p u) (enough : size ≤ s.numbers.length + (depth + 1))
    {done : List Nat} (following : Following next size path s u done low s') (edge : v ∈ next u) :
    Following next size path s u (done ++ [v]) (ComponentSearch.follow visit (low, s') v).1
      (ComponentSearch.follow visit (low, s') v).2 := by
  rw [ComponentSearch.follow]
  cases number : s'.number? v with
  | none =>
    have fresh := number?_eq_none_iff.mp number
    have longer := following.grows.longer
    rw [length_enter] at longer
    refine following.visit sound edge fresh
      (visits following.sound fresh (closed edge) ?_ (by omega))
    intro p hp
    rcases List.mem_cons.mp hp with rfl | hp
    · exact .single edge
    · exact (leads p hp).tail edge
  | some i =>
    have entered := mem_entered_iff.mpr ⟨i, number⟩
    obtain rfl : i = s'.number v := by simpa [number] using number?_of_mem entered
    by_cases onStack : v ∈ s'.stack
    · simpa [onStack] using following.onStack edge onStack
    · simpa [onStack] using following.complete entered onStack

theorem Following.foldl {depth : Nat} {visit : Nat → ComponentSearch → Nat × ComponentSearch}
    (visits : VisitsWithin next size depth visit) (sound : Sound next size path s)
    (leads : ∀ p ∈ path, Connected next p u) (enough : size ≤ s.numbers.length + (depth + 1))
    {done rest : List Nat} (edges : done ++ rest = next u)
    (following : Following next size path s u done low s') :
    Following next size path s u (next u) (rest.foldl (ComponentSearch.follow visit) (low, s')).1
      (rest.foldl (ComponentSearch.follow visit) (low, s')).2 := by
  induction rest generalizing done low s' with
  | nil =>
    rw [append_nil] at edges
    exact edges ▸ following
  | cons v rest ih =>
    refine ih (by simpa using edges) (following.follow closed visits sound leads enough ?_)
    rw [← edges]
    simp

omit closed in
theorem Sound.length_lt (sound : Sound next size path s) (new : u ∉ s.entered) (inside : u < size) :
    s.numbers.length < size := by
  have subset : u :: s.entered ⊆ List.range size := by
    intro v hv
    rw [mem_range]
    rcases List.mem_cons.mp hv with rfl | hv
    · exact inside
    · exact sound.inside v hv
  have most := (subperm_of_subset (List.nodup_cons.mpr ⟨new, sound.nodup⟩) subset).length_le
  rw [length_cons, length_range, length_entered] at most
  exact most

/-- A visit finds what it should: every level enters a node, so there are as many as nodes are
new. -/
theorem visit_spec (depth : Nat) : VisitsWithin next size depth (visit next depth) := by
  induction depth with
  | zero =>
    intro path s u sound new inside _ enough
    exact absurd (sound.length_lt new inside) (Nat.not_lt.mpr enough)
  | succ depth ih =>
    intro path s u sound new inside leads enough
    have following := (Following.start sound new inside leads).foldl closed ih sound leads enough
      (nil_append (next u))
    rw [visit]
    generalize (next u).foldl (ComponentSearch.follow (visit next depth))
      (s.numbers.length, s.enter u) = found at following
    obtain ⟨low, s'⟩ := found
    have number : s'.number? u = some s.numbers.length := by
      rw [number?_of_mem (following.sound.mem_entered_of_stack following.mem_stack_self),
        following.number_self]
    change Visited next size path s u low (s'.leave u low)
    rw [leave, number]
    by_cases own : low = s.numbers.length
    · rw [if_pos (congrArg some own.symm)]
      exact following.leave_closed sound new own
    · rw [if_neg (fun h => own (Option.some.inj h).symm)]
      exact following.leave_open sound new own

/-! ### All components -/

theorem ensure_spec (sound : Sound next size [] s) (inside : u < size) :
    Sound next size [] (ensure next size s u) ∧ Grows s (ensure next size s u) ∧
      u ∈ (ensure next size s u).entered := by
  rw [ensure]
  by_cases new : u ∈ s.entered
  · obtain ⟨i, number⟩ := mem_entered_iff.mp new
    simpa [number] using ⟨sound, Grows.refl s, new⟩
  · rw [number?_eq_none_iff.mpr new]
    have visited := visit_spec closed size sound new inside (by simp) (Nat.le_add_left _ _)
    exact ⟨visited.sound, visited.grows, visited.entered⟩

theorem foldl_ensure_spec {nodes : List Nat} (sound : Sound next size [] s)
    (inside : ∀ u ∈ nodes, u < size) :
    Sound next size [] (nodes.foldl (ensure next size) s) ∧
      Grows s (nodes.foldl (ensure next size) s) ∧
      nodes ⊆ (nodes.foldl (ensure next size) s).entered := by
  induction nodes generalizing s with
  | nil => exact ⟨sound, .refl s, nil_subset _⟩
  | cons u nodes ih =>
    obtain ⟨sound', grows, entered⟩ := ensure_spec closed sound (inside u mem_cons_self)
    obtain ⟨sound'', grows', all⟩ := ih sound' fun v hv => inside v (mem_cons_of_mem _ hv)
    refine ⟨sound'', grows.trans grows', List.cons_subset.mpr ⟨?_, all⟩⟩
    exact grows'.mem_entered entered

omit closed in
theorem Sound.empty : Sound next size [] {} := by
  constructor <;> simp [entered]

theorem perm_components : (components next size).flatten.Perm (List.range size) := by
  obtain ⟨sound, -, all⟩ := foldl_ensure_spec closed Sound.empty fun u hu => List.mem_range.mp hu
  have entered := sound.perm
  rw [sound.stack_eq_nil rfl, nil_append] at entered
  refine entered.trans ((perm_ext_iff_of_nodup sound.nodup nodup_range).mpr fun u => ?_)
  exact ⟨fun h => List.mem_range.mpr (sound.inside u h), fun h => all h⟩

theorem mem_component_iff {c : List Nat} (hc : c ∈ components next size) (hu : u ∈ c) :
    v ∈ c ↔ Connected next u v ∧ Connected next v u := by
  obtain ⟨sound, -⟩ := foldl_ensure_spec closed Sound.empty fun u hu => List.mem_range.mp hu
  exact sound.component c hc u hu v

theorem components_ordered {before after : List (List Nat)} {c : List Nat}
    (split : components next size = before ++ c :: after) (hu : u ∈ c) (edge : v ∈ next u) :
    v ∈ c ∨ v ∈ before.flatten := by
  obtain ⟨sound, -⟩ := foldl_ensure_spec closed Sound.empty fun u hu => List.mem_range.mp hu
  exact sound.ordered before c after split u hu v edge

end Visit

end ComponentSearch

end ArkLang
