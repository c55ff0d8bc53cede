import Mathlib.Data.List.Nodup
import Mathlib.Logic.Relation
import ArkLang.Lowering.Type

/-!
# The order of types

A type is met, then what it needs is added, then the type itself. A type that was met before is not
added again, so every type is defined once. It stands behind what it needs, unless the other type
was still waiting for what it needs itself: then the other one leads back.
-/

namespace ArkLang

open List
open Relation

namespace ArtifactTable

variable (table : ArtifactTable)

/-- Whether a type gets a definition of its own. -/
def isDefined : Ty → Bool
  | .artifact ref => !table.isEnum ref
  | .array _ _ | .list _ | .proc _ _ => true
  | _ => false

/-- The types that the definition of a type mentions. -/
def needs : Ty → List Ty
  | .artifact ref =>
    if table.isEnum ref then [] else ((table.get? ref).elim [] ArtifactInfo.props).map PropInfo.type
  | .array elem _ | .list elem => [elem]
  | .proc params ret => params ++ [ret]
  | _ => []

/-- A type is another one, or needs it, itself or through others. -/
def Leads : Ty → Ty → Prop :=
  ReflTransGen fun t u => u ∈ table.needs t

/-- The number of artifacts that were not met. -/
def unmet (s : TypeOrder) : Nat :=
  table.artifacts.countP fun a => !s.seen.contains (.artifact ⟨a.module, a.name⟩)

end ArtifactTable

namespace TypeOrder

variable {table : ArtifactTable} {s s₁ s' : TypeOrder}

/-- What an added type needs was met before, is added before it, or leads back to it. -/
def Follows (table : ArtifactTable) (met added : List Ty) : Prop :=
  ∀ before t after, added = before ++ t :: after → ∀ u ∈ table.needs t, table.isDefined u = true →
    u ∈ met ∨ u ∈ before ∨ u ∈ added ∧ table.Leads u t

/-- Given types with definitions were added, each once, that were not met before. No other type was
met. -/
structure Grows (table : ArtifactTable) (s : TypeOrder) (added : List Ty) (s' : TypeOrder) :
    Prop where
  order : s'.order.toList = s.order.toList ++ added
  once : added.Nodup
  defined : ∀ t ∈ added, table.isDefined t = true
  new : ∀ t ∈ added, t ∉ s.seen
  seen : ∀ t, t ∈ s'.seen ↔ t ∈ s.seen ∨ t ∈ added
  follows : Follows table s.seen added

theorem Grows.refl (s : TypeOrder) : s.Grows table [] s where
  order := by simp
  once := .nil
  defined := by simp
  new := by simp
  seen := by simp
  follows before t after split := by simp at split

theorem Grows.trans {added added' : List Ty} (h : s.Grows table added s₁)
    (h' : s₁.Grows table added' s') : s.Grows table (added ++ added') s' where
  order := by rw [h'.order, h.order, append_assoc]
  once := h.once.append h'.once fun t mem mem' => h'.new t mem' ((h.seen t).mpr (.inr mem))
  defined t mem := (List.mem_append.mp mem).elim (h.defined t) (h'.defined t)
  new t mem := by
    rcases List.mem_append.mp mem with mem | mem
    · exact h.new t mem
    · exact fun old => h'.new t mem ((h.seen t).mpr (.inl old))
  seen t := by rw [h'.seen, h.seen, mem_append, or_assoc]
  follows before t after split u need defined := by
    rcases List.append_eq_append_iff.mp split with ⟨more, rfl, rest⟩ | ⟨more, rfl, rest⟩
    · rcases h'.follows more t after rest u need defined with old | earlier | ⟨later, leads⟩
      · rcases (h.seen u).mp old with old | earlier
        · exact .inl old
        · exact .inr (.inl (mem_append_left _ earlier))
      · exact .inr (.inl (mem_append_right _ earlier))
      · exact .inr (.inr ⟨mem_append_right _ later, leads⟩)
    · cases more with
      | nil =>
        -- the type is the first of those that were added last
        rw [append_nil] at h ⊢
        rcases h'.follows [] t after rest.symm u need defined with old | none | ⟨later, leads⟩
        · exact ((h.seen u).mp old).imp_right .inl
        · cases none
        · exact .inr (.inr ⟨mem_append_right _ later, leads⟩)
      | cons x more =>
        obtain ⟨rfl, rfl⟩ := List.cons.inj rest
        rcases h.follows before t more rfl u need defined with old | earlier | ⟨later, leads⟩
        · exact .inl old
        · exact .inr (.inl earlier)
        · exact .inr (.inr ⟨mem_append_left _ later, leads⟩)

/-- An order to which types were added that were not met before. -/
def Extends (table : ArtifactTable) (s s' : TypeOrder) : Prop :=
  ∃ added, s.Grows table added s'

namespace Extends

theorem refl (s : TypeOrder) : s.Extends table s :=
  ⟨[], .refl s⟩

theorem trans (h : s.Extends table s₁) (h' : s₁.Extends table s') : s.Extends table s' := by
  obtain ⟨added, h⟩ := h
  obtain ⟨added', h'⟩ := h'
  exact ⟨added ++ added', h.trans h'⟩

theorem grows (h : Extends table {} s) : Grows table {} s.order.toList s := by
  obtain ⟨added, h⟩ := h
  have same : s.order.toList = added := h.order
  exact same ▸ h

/-- No type is defined twice. -/
theorem nodup (h : Extends table {} s) : s.order.toList.Nodup :=
  h.grows.once

/-- What a type needs stands before it or leads back to it. -/
theorem behind (h : Extends table {} s) {before after : List Ty} {t u : Ty}
    (split : s.order.toList = before ++ t :: after) (need : u ∈ table.needs t)
    (defined : table.isDefined u = true) :
    u ∈ before ∨ u ∈ s.order.toList ∧ table.Leads u t :=
  (h.grows.follows before t after split u need defined).resolve_left not_mem_nil

end Extends

/-- Given types were added, unless they had been met, and otherwise only what they need. -/
structure Visits (table : ArtifactTable) (roots : List Ty) (s s' : TypeOrder) : Prop where
  grows : s.Extends table s'
  met : ∀ u ∈ roots, table.isDefined u = true → u ∈ s'.seen
  below : ∀ t ∈ s'.seen, t ∈ s.seen ∨ ∃ u ∈ roots, table.Leads u t

theorem Visits.refl (s : TypeOrder) : s.Visits table [] s :=
  ⟨.refl s, by simp, fun _ mem => .inl mem⟩

theorem Extends.subset (h : s.Extends table s') : s.seen ⊆ s'.seen := by
  obtain ⟨added, h⟩ := h
  exact fun t mem => (h.seen t).mpr (.inl mem)

theorem Visits.append {roots roots' : List Ty} (h : s.Visits table roots s₁)
    (h' : s₁.Visits table roots' s') : s.Visits table (roots ++ roots') s' where
  grows := h.grows.trans h'.grows
  met u mem defined := by
    rcases List.mem_append.mp mem with mem | mem
    · exact h'.grows.subset (h.met u mem defined)
    · exact h'.met u mem defined
  below t mem := by
    rcases h'.below t mem with old | ⟨u, root, leads⟩
    · rcases h.below t old with old | ⟨u, root, leads⟩
      · exact .inl old
      · exact .inr ⟨u, mem_append_left _ root, leads⟩
    · exact .inr ⟨u, mem_append_right _ root, leads⟩

theorem Visits.push {t : Ty} (defined : table.isDefined t = true) (fresh : t ∉ s.seen)
    (h : { s with seen := t :: s.seen }.Visits table (table.needs t) s₁) :
    s.Visits table [t] { s₁ with order := s₁.order.push t } := by
  obtain ⟨⟨added, h⟩, met, below⟩ := h
  have leads {v : Ty} (mem : v ∈ s₁.seen) (new : v ∉ s.seen) : table.Leads t v := by
    rcases below v mem with old | ⟨u, need, leads⟩
    · obtain rfl := (List.mem_cons.mp old).resolve_right new
      exact .refl
    · exact leads.head need
  have fresh_added : t ∉ added := fun mem => h.new t mem mem_cons_self
  refine ⟨⟨added ++ [t], ?_, ?_, fun v mem => ?_, fun v mem => ?_, fun v => ?_, ?_⟩,
    fun u root _ => ?_, fun v mem => ?_⟩
  · simp [h.order]
  · exact h.once.append (nodup_singleton _) (List.disjoint_singleton.mpr fresh_added)
  · rcases List.mem_append.mp mem with mem | mem
    · exact h.defined v mem
    · exact List.mem_singleton.mp mem ▸ defined
  · rcases List.mem_append.mp mem with mem | mem
    · exact fun old => h.new v mem (mem_cons_of_mem _ old)
    · exact List.mem_singleton.mp mem ▸ fresh
  · rw [h.seen, mem_cons, mem_append, mem_singleton]
    tauto
  · intro before v after split u need known
    rcases eq_nil_or_concat' after with rfl | ⟨after, last, rfl⟩
    · -- the type itself: all that it needs was met
      obtain ⟨rfl, same⟩ := append_inj' split rfl
      obtain rfl := List.singleton_inj.mp same
      rcases (h.seen u).mp (met u need known) with old | earlier
      · rcases List.mem_cons.mp old with rfl | old
        · exact .inr (.inr ⟨mem_append_right _ (mem_singleton_self _), .refl⟩)
        · exact .inl old
      · exact .inr (.inl earlier)
    · -- a type below it, which may need the type itself
      rw [← cons_append, ← append_assoc] at split
      obtain ⟨same, -⟩ := append_inj' split rfl
      have mem : v ∈ added := by simp [same]
      rcases h.follows before v after same u need known with old | earlier | ⟨later, back⟩
      · rcases List.mem_cons.mp old with rfl | old
        · refine .inr (.inr ⟨mem_append_right _ (mem_singleton_self _), ?_⟩)
          exact leads ((h.seen v).mpr (.inr mem)) fun old =>
            h.new v mem (mem_cons_of_mem _ old)
        · exact .inl old
      · exact .inr (.inl earlier)
      · exact .inr (.inr ⟨mem_append_left _ later, back⟩)
  · obtain rfl := List.mem_singleton.mp root
    exact (h.seen u).mpr (.inl mem_cons_self)
  · by_cases old : v ∈ s.seen
    · exact .inl old
    · exact .inr ⟨t, mem_singleton_self _, leads mem old⟩

end TypeOrder

/-! ### Computations that add types -/

variable {α β : Type} {table : ArtifactTable} {depth : Nat} {roots roots' : List Ty}

/-- A computation that adds given types with all they need, if it succeeds from a state where at
most a given number of artifacts was not met. -/
def Registers (table : ArtifactTable) (depth : Nat) (roots : List Ty) (x : Register α) : Prop :=
  ∀ s a s', table.unmet s ≤ depth → x s = .ok (a, s') → s.Visits table roots s'

theorem exists_of_bind_eq_ok {x : Except LowerFault α} {f : α → Except LowerFault β}
    {b : β} (ok : (x >>= f) = .ok b) : ∃ a, x = .ok a ∧ f a = .ok b := by
  cases x with
  | error e => cases ok
  | ok a => exact ⟨a, rfl, ok⟩

theorem register_bind_eq_ok {x : Register α} {f : α → Register β} {s s' : TypeOrder} {b : β} :
    (x >>= f) s = .ok (b, s') ↔ ∃ a s₁, x s = .ok (a, s₁) ∧ f a s₁ = .ok (b, s') := by
  change (x s >>= fun y => f y.1 y.2) = _ ↔ _
  cases x s with
  | error e => simp [bind, Except.bind]
  | ok y =>
    obtain ⟨a, s₁⟩ := y
    simp [bind, Except.bind]

namespace ArtifactTable

theorem unmet_mono {s s' : TypeOrder} (h : s.seen ⊆ s'.seen) : table.unmet s' ≤ table.unmet s := by
  refine countP_mono_left fun a _ new => ?_
  simp only [Bool.not_eq_true', contains_eq_mem, decide_eq_false_iff_not] at new ⊢
  exact fun old => new (h old)

theorem unmet_lt {s : TypeOrder} {ref : ArtifactRef} {a : ArtifactInfo}
    (found : table.get? ref = some a) (fresh : .artifact ref ∉ s.seen) :
    table.unmet { s with seen := .artifact ref :: s.seen } < table.unmet s := by
  have here := find?_some found
  simp only [Bool.and_eq_true, decide_eq_true_eq] at here
  have own : ref = ⟨a.module, a.name⟩ := by rw [here.1, here.2]
  obtain ⟨before, after, split⟩ := append_of_mem (mem_of_find?_eq_some found)
  have others (as : List ArtifactInfo) : unmet ⟨as⟩ { s with seen := .artifact ref :: s.seen } ≤
      unmet ⟨as⟩ s := unmet_mono (subset_cons_self _ _)
  have first := others before
  have rest := others after
  simp only [unmet] at first rest ⊢
  rw [split, countP_append, countP_append,
    countP_cons_of_neg (by simp [own]), countP_cons_of_pos (by simpa [← own] using fresh)]
  omega

end ArtifactTable

theorem registers_pure (a : α) : Registers table depth [] (pure a) := by
  intro s b s' _ run
  cases run
  exact .refl s

theorem registers_throw (fault : LowerFault) :
    Registers table depth roots (throw fault : Register α) := by
  intro s a s' _ run
  cases run

theorem registers_bind {x : Register α} {f : α → Register β} (hx : Registers table depth roots x)
    (hf : ∀ a, Registers table depth roots' (f a)) :
    Registers table depth (roots ++ roots') (x >>= f) := by
  intro s b s' room run
  obtain ⟨a, s₁, first, second⟩ := register_bind_eq_ok.mp run
  have visited := hx s a s₁ room first
  have room' : table.unmet s₁ ≤ table.unmet s := ArtifactTable.unmet_mono visited.grows.subset
  exact visited.append (hf a s₁ b s' (Nat.le_trans room' room) second)

namespace ArtifactTable

theorem registers_of_not_isDefined {t : Ty} (plain : table.isDefined t = false) :
    Registers table depth [t] (pure ()) := by
  intro s a s' _ run
  cases run
  refine ⟨.refl s, fun u root defined => ?_, fun _ mem => .inl mem⟩
  rw [List.mem_singleton.mp root, plain] at defined
  cases defined

theorem registers_visit {t : Ty} {needs : Register Unit} (defined : table.isDefined t = true)
    (h : ∀ s a s', t ∉ s.seen → table.unmet s ≤ depth →
      needs { s with seen := t :: s.seen } = .ok (a, s') →
        { s with seen := t :: s.seen }.Visits table (table.needs t) s') :
    Registers table depth [t] (visit t needs) := by
  intro s u s' room run
  obtain ⟨s₀, s₁, got, run⟩ := register_bind_eq_ok.mp run
  cases got
  split at run
  · next old =>
    cases run
    refine ⟨.refl s, fun u root _ => ?_, fun v mem => .inl mem⟩
    rw [List.mem_singleton.mp root]
    simpa using old
  · next fresh =>
    have fresh : t ∉ s.seen := by simpa using fresh
    obtain ⟨⟨⟩, s₂, met, run⟩ := register_bind_eq_ok.mp run
    cases met
    obtain ⟨⟨⟩, s₃, needed, run⟩ := register_bind_eq_ok.mp run
    cases run
    exact .push defined fresh (h s () s₃ fresh room needed)

theorem registers_visit_of_registers {t : Ty} {needs : Register Unit}
    (defined : table.isDefined t = true) (h : Registers table depth (table.needs t) needs) :
    Registers table depth [t] (visit t needs) := by
  refine registers_visit defined fun s a s' _ room run => h _ a s' ?_ run
  exact Nat.le_trans (unmet_mono (subset_cons_self _ _)) room

/-- Records are expanded to all they need, if fewer than a given number of artifacts is left when
the record is a known one. -/
def Expands (table : ArtifactTable) (depth : Nat) (expand : ArtifactRef → Register Unit) : Prop :=
  ∀ ref s a s', table.isEnum ref = false →
    (∀ info, table.get? ref = some info → table.unmet s < depth) →
    expand ref s = .ok (a, s') → s.Visits table (table.needs (.artifact ref)) s'

mutual

/-- To register a type registers what it needs. -/
theorem registers_registerWith {expand : ArtifactRef → Register Unit}
    (h : Expands table depth expand) :
    (t : Ty) → Registers table depth [t] (table.registerWith expand t)
  | .int | .float | .string | .bool | .void => registers_of_not_isDefined rfl
  | .unknown => registers_throw _
  | .artifact ref => by
    unfold registerWith
    split
    · next enum => exact registers_of_not_isDefined (by simp [isDefined, enum])
    · next record =>
      refine registers_visit (by simp [isDefined, record]) fun s a s' fresh room run => ?_
      refine h ref _ a s' (by simpa using record) (fun info found => ?_) run
      exact Nat.lt_of_lt_of_le (unmet_lt found fresh) room
  | .array elem _ => registers_visit_of_registers rfl (registers_registerWith h elem)
  | .list elem => registers_visit_of_registers rfl (registers_registerWith h elem)
  | .proc params ret => registers_visit_of_registers rfl
    (registers_bind (registers_registerAll h params) fun _ => registers_registerWith h ret)

theorem registers_registerAll {expand : ArtifactRef → Register Unit}
    (h : Expands table depth expand) :
    (ts : List Ty) → Registers table depth ts (table.registerAll expand ts)
  | [] => registers_pure _
  | t :: ts => registers_bind (registers_registerWith h t) fun _ => registers_registerAll h ts

end

theorem expands_expandRecord (depth : Nat) : Expands table depth (table.expandRecord depth) := by
  induction depth with
  | zero =>
    intro ref s a s' record room run
    cases run
    have unknown : table.get? ref = none := by
      cases found : table.get? ref with
      | none => rfl
      | some info => exact absurd (room info found) (Nat.not_lt_zero _)
    have none : table.needs (.artifact ref) = [] := by simp [needs, unknown]
    exact none ▸ .refl s
  | succ depth ih =>
    intro ref s a s' record room run
    obtain ⟨info, s₁, found, run⟩ := register_bind_eq_ok.mp run
    cases known : table.get? ref with
    | none =>
      simp only [find, known] at found
      cases found
    | some info' =>
      simp only [find, known] at found
      cases found
      have props : table.needs (.artifact ref) = info.props.map PropInfo.type := by
        simp [needs, record, known]
      rw [props]
      exact registers_registerAll ih _ s a s' (Nat.le_of_lt_succ (room info known)) run

/-- A type is added behind all that it needs. -/
theorem extends_register {type : Ty} {s s' : TypeOrder} {u : Unit}
    (run : table.register type s = .ok (u, s')) : s.Extends table s' := by
  have room : table.unmet s ≤ table.artifacts.length + 1 :=
    Nat.le_trans countP_le_length (Nat.le_succ _)
  exact (registers_registerWith (expands_expandRecord _) type s u s' room run).grows

end ArtifactTable

end ArkLang
