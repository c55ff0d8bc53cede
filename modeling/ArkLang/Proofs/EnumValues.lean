import ArkLang.Proofs.Jumps

/-!
# Values of enumerations

A case of an enumeration has the value that is written behind it, or else one more than the case
before it, starting with zero. Values are integers of 64 bits: the greatest of them is followed by
the least.
-/

namespace ArkLang

/-- Integers of 64 bits. -/
def IsInt64 (value : Int) : Prop :=
  -2 ^ 63 ≤ value ∧ value < 2 ^ 63

instance (value : Int) : Decidable (IsInt64 value) :=
  inferInstanceAs (Decidable (_ ∧ _))

namespace Outline

theorem nextCaseValue_eq {value : Int} (h : IsInt64 value) :
    nextCaseValue value = if value = 2 ^ 63 - 1 then -2 ^ 63 else value + 1 := by
  have width : ((Nat.pow 2 64 : Nat) : Int) = 18446744073709551616 := by decide
  unfold IsInt64 at h
  rw [nextCaseValue, Int.bmod_def, width]
  split <;> split <;> omega

theorem isInt64_nextCaseValue (value : Int) : IsInt64 (nextCaseValue value) := by
  have width : ((Nat.pow 2 64 : Nat) : Int) = 18446744073709551616 := by decide
  rw [nextCaseValue, Int.bmod_def, width, IsInt64]
  split <;> omega

end Outline

namespace EnumCase

/-- Values under the names of cases: those that are written, and otherwise the ones that `next`
gives for the value of the case before, the first being zero. -/
structure Counts (next : Int → Int) (cs : List EnumCase) (values : List (String × Int)) : Prop where
  names : values.map Prod.fst = cs.map (·.name.value)
  written : ∀ (i : Nat) c x, cs[i]? = some c → values[i]? = some x →
    ∀ v, c.value = some v → x.2 = v.value
  first : ∀ c x, cs[0]? = some c → values[0]? = some x → c.value = none → x.2 = 0
  behind : ∀ (i : Nat) c x y, cs[i + 1]? = some c → values[i + 1]? = some x → values[i]? = some y →
    c.value = none → x.2 = next y.2

variable {cs : List EnumCase} {start : Int}

theorem valuesFrom_written {i : Nat} {c : EnumCase} {x : String × Int} (at_ : cs[i]? = some c)
    (given : (valuesFrom start cs)[i]? = some x) {v : Located Int} (written : c.value = some v) :
    x.2 = v.value := by
  induction cs generalizing start i with
  | nil => cases at_
  | cons first rest ih =>
    cases i with
    | zero =>
      cases at_
      cases given
      simp [written]
    | succ i => exact ih at_ given

theorem valuesFrom_first {c : EnumCase} {x : String × Int} (at_ : cs[0]? = some c)
    (given : (valuesFrom start cs)[0]? = some x) (unwritten : c.value = none) : x.2 = start := by
  cases cs with
  | nil => cases at_
  | cons first rest =>
    cases at_
    cases given
    simp [unwritten]

theorem valuesFrom_behind {i : Nat} {c : EnumCase} {x y : String × Int}
    (at_ : cs[i + 1]? = some c) (given : (valuesFrom start cs)[i + 1]? = some x)
    (before : (valuesFrom start cs)[i]? = some y) (unwritten : c.value = none) :
    x.2 = Outline.nextCaseValue y.2 := by
  induction cs generalizing start i with
  | nil => cases at_
  | cons first rest ih =>
    cases i with
    | zero =>
      cases before
      exact valuesFrom_first at_ given unwritten
    | succ i => exact ih at_ given before

theorem isInt64_of_mem_valuesFrom (first : IsInt64 start)
    (literals : ∀ c ∈ cs, ∀ v ∈ c.value, IsInt64 v.value) {x : String × Int}
    (mem : x ∈ valuesFrom start cs) : IsInt64 x.2 := by
  induction cs generalizing start with
  | nil => cases mem
  | cons c rest ih =>
    obtain ⟨here, others⟩ := List.forall_mem_cons.mp literals
    rcases List.mem_cons.mp mem with rfl | mem
    · cases written : c.value with
      | none => simpa [written] using first
      | some v => simpa [written] using here v written
    · exact ih (Outline.isInt64_nextCaseValue _) others mem

theorem counts_valuesFrom (literals : ∀ c ∈ cs, ∀ v ∈ c.value, IsInt64 v.value) :
    Counts (fun value => if value = 2 ^ 63 - 1 then -2 ^ 63 else value + 1) cs
      (valuesFrom 0 cs) where
  names := map_fst_valuesFrom 0 cs
  written _ _ _ at_ given _ written := valuesFrom_written at_ given written
  first _ _ at_ given unwritten := valuesFrom_first at_ given unwritten
  behind _ _ _ _ at_ given before unwritten := by
    have word := isInt64_of_mem_valuesFrom (by decide) literals (List.mem_of_getElem? before)
    rw [valuesFrom_behind at_ given before unwritten, Outline.nextCaseValue_eq word]

end EnumCase

theorem Stmt.mem_of_mem_artifacts {ss : List Stmt} {a : ArtifactDecl}
    (h : a ∈ ss.filterMap artifact?) : .artifact a ∈ ss := by
  obtain ⟨s, mem, found⟩ := List.mem_filterMap.mp h
  cases s <;> cases found
  exact mem

theorem exists_cases_of_analyze {module : ModuleId} {r : Resolver} {p : Program}
    {unit : CheckedUnit}
    (distinct : p.ids.Nodup) (accepted : analyze module r p = .ok unit) {a : ArtifactDecl}
    (mem : .artifact a ∈ p.stmts) :
    ∃ info, unit.artifacts.get? a.node.id = some info ∧
      info.cases = EnumCase.valuesFrom 0 a.cases := by
  obtain ⟨rfl, free⟩ := eq_unit_of_analyze accepted
  have lists := Outline.lists_of_run free
  generalize Outline.ofProgram module r p = o at free lists ⊢
  obtain ⟨b, hb, rfl, -⟩ := lists.find?_artifact distinct mem
  have listed : (b.decl, b.cases) ∈ o.artifacts.map fun a => (a.decl, a.cases) :=
    List.mem_map_of_mem hb
  rw [lists.artifacts] at listed
  obtain ⟨a, -, same⟩ := List.mem_map.mp listed
  obtain ⟨decl, values⟩ := Prod.mk.inj same
  refine ⟨(Analysis.run o p).artifactInfo o b, get?_ofList_of_mem ?_ (List.mem_map_of_mem hb),
    decl ▸ values.symm⟩
  have nodup := distinct.sublist (Stmt.artifactNode_sublist p.stmts)
  rw [← lists.artifactDecls, List.map_map] at nodup
  rwa [List.map_map]

/-- The cases of an enumeration have the values that are written behind them, and otherwise count up
from the case before, the first from zero. The greatest integer of 64 bits is followed by the least.
-/
theorem enum_values_count (module : ModuleId) (r : Resolver) (p : Program) (unit : CheckedUnit)
    (distinct : p.ids.Nodup) (accepted : analyze module r p = .ok unit) (a : ArtifactDecl)
    (mem : .artifact a ∈ p.stmts) (literals : ∀ c ∈ a.cases, ∀ v ∈ c.value, IsInt64 v.value) :
    ∃ info, unit.artifacts.get? a.node.id = some info ∧
      EnumCase.Counts (fun value => if value = 2 ^ 63 - 1 then -2 ^ 63 else value + 1) a.cases
        info.cases := by
  obtain ⟨info, found, cases'⟩ := exists_cases_of_analyze distinct accepted mem
  exact ⟨info, found, cases' ▸ EnumCase.counts_valuesFrom literals⟩

/-- Cases before and behind written values, one of them negative. -/
theorem enum_values_count_mixed : ∃ p unit a, parseProgram .inferred
    "E :: \x7b\n a\n b = -7\n c\n d = 9223372036854775806\n e\n\x7d" = .ok p ∧
      analyze ⟨"main"⟩ .silent p = .ok unit ∧ .artifact a ∈ p.stmts ∧ a.cases.length = 5 ∧
      ∃ info, unit.artifacts.get? a.node.id = some info ∧
        EnumCase.Counts (fun value => if value = 2 ^ 63 - 1 then -2 ^ 63 else value + 1) a.cases
          info.cases := by
  obtain ⟨p, unit, parsed, accepted, distinct, fits⟩ := exists_of_unitOfText
    "E :: \x7b\n a\n b = -7\n c\n d = 9223372036854775806\n e\n\x7d"
    (fun u => (u.program.stmts.filterMap Stmt.artifact?).any fun a => a.cases.length == 5 &&
      decide (∀ c ∈ a.cases, ∀ v ∈ c.value, IsInt64 v.value))
    (by decide +kernel)
  obtain rfl : unit.program = p := by rw [(eq_unit_of_analyze accepted).1]; rfl
  obtain ⟨a, listed, fit⟩ := List.any_eq_true.mp fits
  simp only [Bool.and_eq_true, beq_iff_eq, decide_eq_true_eq] at fit
  have mem := Stmt.mem_of_mem_artifacts listed
  exact ⟨_, unit, a, parsed, accepted, mem, fit.1,
    enum_values_count ⟨"main"⟩ .silent _ unit distinct accepted a mem fit.2⟩

/-- Behind the greatest integer no case is one more. -/
theorem not_counts_of_greatest : ∃ p unit a info, parseProgram .inferred
    "E :: \x7b\n a = 9223372036854775807\n b\n\x7d" = .ok p ∧
    analyze ⟨"main"⟩ .silent p = .ok unit ∧
      .artifact a ∈ p.stmts ∧ unit.artifacts.get? a.node.id = some info ∧
      ¬ EnumCase.Counts (· + 1) a.cases info.cases := by
  obtain ⟨p, unit, parsed, accepted, -, found⟩ := exists_of_unitOfText
    "E :: \x7b\n a = 9223372036854775807\n b\n\x7d"
    (fun u => (u.program.stmts.filterMap Stmt.artifact?).any fun a =>
      (a.cases[1]?.any (·.value.isNone)) && (u.artifacts.get? a.node.id).any fun info =>
        info.cases == [("a", 9223372036854775807), ("b", -9223372036854775808)])
    (by decide +kernel)
  obtain rfl : unit.program = p := by rw [(eq_unit_of_analyze accepted).1]; rfl
  obtain ⟨a, listed, wrapped⟩ := List.any_eq_true.mp found
  simp only [Bool.and_eq_true, Option.any_eq_true, beq_iff_eq, Option.isNone_iff_eq_none] at wrapped
  obtain ⟨⟨c, second, unwritten⟩, info, entry, values⟩ := wrapped
  have mem := Stmt.mem_of_mem_artifacts listed
  refine ⟨_, unit, a, info, parsed, accepted, mem, entry, fun counts => ?_⟩
  have next := counts.behind 0 c _ _ second (by rw [values]; rfl) (by rw [values]; rfl) unwritten
  revert next
  decide

end ArkLang
