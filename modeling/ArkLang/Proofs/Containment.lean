import ArkLang.Lowering.Type
import ArkLang.Proofs.CheckedPrograms
import ArkLang.Proofs.Reachability

/-!
# Records hold no copies of themselves

A unit is accepted only if none of its records holds itself through records of the unit. Records of
other modules belong to units below, and these hold no records of the unit. So in an accepted
program whose units belong to different modules no record holds itself, and no type is held by
itself.
-/

namespace ArkLang

open List
open Relation
open Scoped (Within)

/-! ### Records of a unit -/

theorem Outline.Lists.nodup_artifacts {o : Outline} {stmts : List Stmt} (h : o.Lists stmts stmts) :
    (o.artifacts.map LocalArtifact.name).Nodup := by
  have names : o.artifacts.map LocalArtifact.name =
      (stmts.filterMap Stmt.artifact?).map (·.name.value) := by
    have listed := congrArg (List.map fun x => x.1.name.value) h.artifacts
    rw [List.map_map, List.map_map] at listed
    exact listed
  have types (ss : List Stmt) : ((ss.filterMap Stmt.artifact?).map (·.name.value)).Sublist
      (ss.filterMap Stmt.typeName?) := by
    induction ss with
    | nil => exact .slnil
    | cons s rest ih =>
      cases s with
      | artifact decl => exact ih.cons_cons _
      | importUnit decl => exact ih.cons _
      | _ => exact ih
  rw [names]
  refine (List.Nodup.sublist ?_ h.nodup)
  rw [h.names]
  exact (types stmts).trans (sublist_append_left _ _)

namespace Analysis

variable {o : Outline} {p : Program} {s : Analysis}

theorem mem_holds_iff {ref held : ArtifactRef} : held ∈ s.holds o ref ↔
    ∃ a, o.localArtifact? ref = some a ∧ a.kind = .record ∧
      ∃ q ∈ (s.props.get? a.name).getD [], q.type.held? = some held := by
  unfold holds
  cases o.localArtifact? ref with
  | none => simp
  | some a =>
    by_cases record : a.kind = .record
    · simp [record, mem_filterMap]
    · simp [record]

theorem localArtifact?_eq_some {ref : ArtifactRef} {a : LocalArtifact}
    (h : o.localArtifact? ref = some a) : a ∈ o.artifacts ∧ ref = ⟨o.module, a.name⟩ := by
  unfold Outline.localArtifact? at h
  split at h
  · next own =>
    have name : a.name = ref.name := by simpa using find?_some h
    exact ⟨mem_of_find?_eq_some h, by rw [← own, name]⟩
  · cases h

theorem containmentErrors_run (free : (run o p).errors = #[]) :
    (run o p).containmentErrors o = [] := by
  set s := (runAt (Check.program p) o (ofOutline o)).2
  have settled : s.errors.toList ++ s.containmentErrors o <+: (run o p).errors.toList :=
    .trans (by simp) (errors_prefix_settleMutation (o := o)
      (s := { s with errors := s.errors ++ s.containmentErrors o }))
  rw [free, prefix_nil, append_eq_nil_iff] at settled
  obtain ⟨calls, errors, mutating, same⟩ := run_eq o p
  rw [same]
  exact settled.2

theorem not_transGen_holds (free : (run o p).errors = #[]) (ref : ArtifactRef) :
    ¬ TransGen (fun a b => b ∈ (run o p).holds o a) ref ref := by
  intro cycle
  obtain ⟨next, step, back⟩ := TransGen.head'_iff.mp cycle
  obtain ⟨a, isLocal, record, q, hq, held⟩ := mem_holds_iff.mp step
  obtain ⟨mem, rfl⟩ := localArtifact?_eq_some isLocal
  -- the search may go on for more rounds than there are records of the unit
  have leaves : ∀ x ∉ o.artifacts.map (fun a => (⟨o.module, a.name⟩ : ArtifactRef)),
      (run o p).holds o x = [] := by
    intro x outside
    refine List.eq_nil_iff_forall_not_mem.mpr fun y hy => outside ?_
    obtain ⟨b, found, -⟩ := mem_holds_iff.mp hy
    obtain ⟨hb, rfl⟩ := localArtifact?_eq_some found
    exact mem_map_of_mem hb
  have reached := Reach.mem_closure_of_leaves leaves
    (by simp : _ < o.artifacts.length + 1) back
  have reaches : (run o p).reachesRecord o q.type ⟨o.module, a.name⟩ = true := by
    simpa [reachesRecord, held] using reached
  have found : (((run o p).props.get? a.name).getD []).find?
      (fun q => (run o p).reachesRecord o q.type ⟨o.module, a.name⟩) ≠ none := by
    rw [Ne, find?_eq_none]
    exact fun none => none q hq reaches
  have reported : ∃ e, (run o p).containmentError? o a = some e := by
    obtain ⟨q', first⟩ := Option.ne_none_iff_exists'.mp found
    simp [containmentError?, record, first]
  obtain ⟨e, reported⟩ := reported
  have errors : e ∈ (run o p).containmentErrors o := List.mem_filterMap.mpr ⟨a, mem, reported⟩
  rw [containmentErrors_run free] at errors
  cases errors

theorem localArtifact?_of_mem (once : (o.artifacts.map LocalArtifact.name).Nodup)
    {a : LocalArtifact} (mem : a ∈ o.artifacts) : o.localArtifact? ⟨o.module, a.name⟩ = some a := by
  have here : o.localArtifact? ⟨o.module, a.name⟩ = o.artifacts.find? (·.name == a.name) :=
    if_pos rfl
  cases found : o.artifacts.find? (·.name == a.name) with
  | none => exact absurd (List.find?_eq_none.mp found a mem) (by simp)
  | some b =>
    have same : b.name = a.name := by simpa using find?_some found
    obtain rfl : b = a := inj_on_of_nodup_map once (mem_of_find?_eq_some found) mem same
    exact here.trans found

theorem get?_artifacts_interface (once : (o.artifacts.map LocalArtifact.name).Nodup)
    {a : LocalArtifact} (mem : a ∈ o.artifacts) :
    (s.interface o).artifacts.get? a.name = some (s.artifactInfo o a) := by
  have others (as : List LocalArtifact) (table : NameTable ArtifactInfo) (name : String)
      (other : name ∉ as.map LocalArtifact.name) :
      (as.foldl (fun table a => table.insert a.name (s.artifactInfo o a)) table).get? name =
        table.get? name := by
    induction as generalizing table with
    | nil => rfl
    | cons b rest ih =>
      rw [map_cons, mem_cons, not_or] at other
      rw [foldl_cons, ih _ other.2, NameTable.get?_insert, if_neg other.1]
  have all (as : List LocalArtifact) (table : NameTable ArtifactInfo)
      (once : (as.map LocalArtifact.name).Nodup) (mem : a ∈ as) :
      (as.foldl (fun table a => table.insert a.name (s.artifactInfo o a)) table).get? a.name =
        some (s.artifactInfo o a) := by
    induction as generalizing table with
    | nil => cases mem
    | cons b rest ih =>
      rw [map_cons, nodup_cons] at once
      rcases List.mem_cons.mp mem with rfl | mem
      · rw [foldl_cons, others _ _ _ once.1, NameTable.get?_insert, if_pos rfl]
      · exact ih _ once.2 mem
  exact all o.artifacts {} once mem

end Analysis

theorem grounded_of_analyze {module : ModuleId} {r : Resolver} {p : Program} {unit : CheckedUnit}
    (accepted : analyze module r p = .ok unit) : ∃ holds : ArtifactRef → List ArtifactRef,
      (∀ ref, ¬ TransGen (fun a b => b ∈ holds a) ref ref) ∧
      ∀ info ∈ unit.interface.artifacts.values, info.module = unit.module ∧
        unit.interface.artifacts.get? info.name = some info ∧ (info.kind = .record →
          ∀ q ∈ info.props, ∀ ref ∈ q.type.held?, ref ∈ holds ⟨unit.module, info.name⟩) := by
  obtain ⟨rfl, free⟩ := eq_unit_of_analyze accepted
  have once := (Outline.lists_of_run free).nodup_artifacts
  generalize Outline.ofProgram module r p = o at free once ⊢
  refine ⟨_, Analysis.not_transGen_holds free, fun info mem => ?_⟩
  obtain ⟨a, ha, rfl⟩ := Analysis.exists_of_mem_artifacts _ mem
  refine ⟨rfl, Analysis.get?_artifacts_interface once ha, ?_⟩
  intro record q hq ref held
  exact Analysis.mem_holds_iff.mpr
    ⟨a, Analysis.localArtifact?_of_mem once ha, record, q, hq, held⟩

/-! ### Records that are reported -/

/-- Values of a type contain values of an artifact: the type is the artifact, or that of an array
whose elements contain it. -/
inductive Ty.Contains : Ty → ArtifactRef → Prop
  | self (ref : ArtifactRef) : Contains (.artifact ref) ref
  | element {elem : Ty} {ref : ArtifactRef} (size : Nat) :
      Contains elem ref → Contains (.array elem size) ref

theorem Ty.held?_eq_some_iff {ref : ArtifactRef} {t : Ty} :
    t.held? = some ref ↔ t.Contains ref := by
  constructor
  · intro held
    fun_induction Ty.held? t with
    | case1 => exact Option.some.inj held ▸ .self _
    | case2 elem size ih => exact .element size (ih held)
    | case3 => cases held
  · intro contains
    induction contains with
    | self => rfl
    | element size _ ih => exact ih

namespace Analysis

/-- A record of the unit has a property whose values contain another record of the unit. -/
def Contains (s : Analysis) (o : Outline) (a b : LocalArtifact) : Prop :=
  (a ∈ o.artifacts ∧ a.kind = .record) ∧ (b ∈ o.artifacts ∧ b.kind = .record) ∧
    ∃ q ∈ (s.props.get? a.name).getD [], q.type.Contains ⟨o.module, b.name⟩

variable {o : Outline} {s : Analysis} {a b : LocalArtifact}

theorem mem_holds_of_contains (once : (o.artifacts.map LocalArtifact.name).Nodup)
    (h : s.Contains o a b) : (⟨o.module, b.name⟩ : ArtifactRef) ∈ s.holds o ⟨o.module, a.name⟩ := by
  obtain ⟨⟨mem, record⟩, -, q, hq, contains⟩ := h
  exact mem_holds_iff.mpr
    ⟨a, localArtifact?_of_mem once mem, record, q, hq, Ty.held?_eq_some_iff.mpr contains⟩

theorem transGen_contains_of_holds {ref : ArtifactRef} (ha : a ∈ o.artifacts ∧ a.kind = .record)
    {q : PropInfo} (hq : q ∈ (s.props.get? a.name).getD []) (contains : q.type.Contains ref)
    (path : ReflTransGen (fun x y => y ∈ s.holds o x) ref ⟨o.module, b.name⟩)
    (hb : b ∈ o.artifacts ∧ b.kind = .record) : TransGen (s.Contains o) a b := by
  induction path using ReflTransGen.head_induction_on generalizing a q with
  | refl => exact .single ⟨ha, hb, q, hq, contains⟩
  | head step _ ih =>
    obtain ⟨next, isLocal, record, q', hq', held⟩ := mem_holds_iff.mp step
    obtain ⟨mem, rfl⟩ := localArtifact?_eq_some isLocal
    exact .head ⟨ha, ⟨mem, record⟩, q, hq, contains⟩
      (ih ⟨mem, record⟩ hq' (Ty.held?_eq_some_iff.mp held))

theorem transGen_contains_of_error {e : SemanticError} (mem : e ∈ s.containmentErrors o) :
    ∃ a prop, e.fault = .containsItself a.name prop ∧ TransGen (s.Contains o) a a := by
  obtain ⟨a, ha, reported⟩ := List.mem_filterMap.mp mem
  unfold containmentError? at reported
  split at reported
  · next record =>
    obtain ⟨q, found, rfl⟩ := Option.map_eq_some_iff.mp reported
    have reaches := find?_some found
    unfold reachesRecord at reaches
    split at reaches
    · next ref held =>
      obtain ⟨start, first, path⟩ := Reach.reachable_of_mem_closure (by simpa using reaches)
      obtain rfl := List.mem_singleton.mp first
      exact ⟨a, q.name, rfl, transGen_contains_of_holds ⟨ha, record⟩
        (mem_of_find?_eq_some found) (Ty.held?_eq_some_iff.mp held) path ⟨ha, record⟩⟩
    · cases reaches
  · cases reported

end Analysis

/-- Everything may be mentioned, and only some of the records that contain themselves reported. -/
def Scope.reporting (records : List SemanticError) : Scope :=
  { Scope.all with
    Reports := fun e => e.fault.IsContainment → e ∈ records
    reports := fun other contained => absurd contained other }

theorem mem_containmentErrors_of_run {module : ModuleId} {r : Resolver} {p : Program}
    {e : SemanticError} (mem : e ∈ (Analysis.run (.ofProgram module r p) p).errors)
    (contained : e.fault.IsContainment) :
    e ∈ (Analysis.run (.ofProgram module r p) p).containmentErrors
      (.ofProgram module r p) := by
  set o := Outline.ofProgram module r p with outline
  set records := (runAt (Check.program p) o (.ofOutline o)).2.containmentErrors o with found
  have every (i : Interface) : Within (.reporting records) i := Scoped.within_all i
  have answers (i : Import) : Within (.reporting records) (r.resolve i) := by
    cases r.resolve i with
    | ok interface => exact every interface
    | error _ => trivial
  have imports : Resolver.SameOn (.reporting records) p r r :=
    ⟨fun _ _ => rfl, fun i _ => answers i, fun _ _ => rfl, fun m _ i _ => every i⟩
  have here : module ∈ (Scope.reporting records).modules := trivial
  have within := (Analysis.run_reaching (Outline.ofProgram_reaching here imports).2 p
    fun e mem _ => mem).2
  obtain ⟨calls, errors, mutating, same⟩ := Analysis.run_eq o p
  have listed : (Analysis.run o p).containmentErrors o = records := by
    rw [same]
    rfl
  rw [listed]
  exact within.reported e mem contained

/-- Records are finite. No record of an accepted unit contains itself through records of the unit.
In any unit, a record that is reported to contain itself does so. -/
theorem containment_exact (module : ModuleId) (r : Resolver) (p : Program) :
    (∀ unit, analyze module r p = .ok unit → ∀ a, ¬ TransGen
      ((Analysis.run (.ofProgram module r p) p).Contains (.ofProgram module r p)) a a) ∧
    ∀ errors, analyze module r p = .error errors → ∀ e ∈ errors, ∀ record prop,
      e.fault = .containsItself record prop → ∃ a, a.name = record ∧ TransGen
        ((Analysis.run (.ofProgram module r p) p).Contains (.ofProgram module r p)) a a := by
  refine ⟨fun unit accepted a cycle => ?_, fun errors rejected e mem record prop fault => ?_⟩
  · obtain ⟨-, free⟩ := eq_unit_of_analyze accepted
    have once := (Outline.lists_of_run free).nodup_artifacts
    generalize Outline.ofProgram module r p = o at free once cycle
    exact Analysis.not_transGen_holds free ⟨o.module, a.name⟩ (cycle.lift
      (fun a => (⟨o.module, a.name⟩ : ArtifactRef)) fun _ _ => Analysis.mem_holds_of_contains once)
  · unfold analyze at rejected
    dsimp only at rejected
    split at rejected
    · cases rejected
    · cases rejected
      have mem : e ∈ (Analysis.run (.ofProgram module r p) p).errors :=
        Array.mem_toList_iff.mp (List.mem_mergeSort.mp mem)
      obtain ⟨a, prop', fault', path⟩ := Analysis.transGen_contains_of_error
        (mem_containmentErrors_of_run mem ⟨record, prop, fault⟩)
      obtain ⟨same, -⟩ := SemanticFault.containsItself.inj (fault'.symm.trans fault)
      exact ⟨a, same, path⟩

/-- Two records that contain each other in arrays. -/
theorem containment_exact_arrays : ∃ p errors a, parseProgram .inferred
    "Tree :: { forks: [Fork; 2] }\nFork :: { ends: [Tree; 3] }" = .ok p ∧
      analyze ⟨"main"⟩ .silent p = .error errors ∧ a.name = "Fork" ∧ TransGen
        ((Analysis.run (.ofProgram ⟨"main"⟩ .silent p) p).Contains (.ofProgram ⟨"main"⟩ .silent p))
          a a := by
  let ofFork : SemanticFault → Bool
    | .containsItself record _ => record == "Fork"
    | _ => false
  have reported : ((parseProgram .inferred
      "Tree :: { forks: [Fork; 2] }\nFork :: { ends: [Tree; 3] }").toOption.any fun p =>
        (Analysis.run (.ofProgram ⟨"main"⟩ .silent p) p).errors.toList.any
          fun e => ofFork e.fault) = true := by
    decide +kernel
  cases parsed : parseProgram .inferred
      "Tree :: { forks: [Fork; 2] }\nFork :: { ends: [Tree; 3] }" with
  | error _ => simp [parsed, Except.toOption] at reported
  | ok p =>
    rw [parsed] at reported
    obtain ⟨e, mem, fault⟩ := List.any_eq_true.mp reported
    have rejected : analyze ⟨"main"⟩ .silent p = .error
        (sortErrors (Analysis.run (.ofProgram ⟨"main"⟩ .silent p) p).errors.toList) := by
      refine if_neg fun none => ?_
      rw [Array.isEmpty_iff.mp none] at mem
      cases mem
    cases found : e.fault with
    | containsItself record prop =>
      obtain rfl : record = "Fork" := by simpa [ofFork, found] using fault
      obtain ⟨a, name, cycle⟩ := (containment_exact _ _ _).2 _ rejected e
        (List.mem_mergeSort.mpr mem) "Fork" prop found
      exact ⟨p, _, a, rfl, rejected, name, cycle⟩
    | _ => simp [ofFork, found] at fault

/-! ### Records of a program -/

theorem Ty.module_mem_of_held? {M : Set ModuleId} {ref : ArtifactRef} :
    {t : Ty} → t.Within M → ref ∈ t.held? → ref.module ∈ M
  | .artifact _, inside, rfl => inside
  | .array elem _, inside, held => module_mem_of_held? (t := elem) inside held

namespace ArtifactTable

/-- A record has a property whose values hold an artifact. -/
def Embeds (table : ArtifactTable) (ref held : ArtifactRef) : Prop :=
  ∃ a, table.get? ref = some a ∧ a.kind = .record ∧ ∃ q ∈ a.props, held ∈ q.type.held?

theorem exists_unit_of_get? {units : List CheckedUnit} {ref : ArtifactRef} {info : ArtifactInfo}
    (found : (ofUnits units).get? ref = some info) :
    ∃ u ∈ units, info ∈ u.interface.artifacts.values ∧ ref = ⟨info.module, info.name⟩ := by
  obtain ⟨u, hu, mem⟩ := List.mem_flatMap.mp
    (List.mem_reverse.mp (mem_of_find?_eq_some found))
  have here := find?_some found
  simp only [Bool.and_eq_true, decide_eq_true_eq] at here
  exact ⟨u, hu, mem, by rw [here.1, here.2]⟩

end ArtifactTable

namespace UnitGraph

variable {g : UnitGraph} {units : List CheckedUnit} {u : CheckedUnit}

def moduleLevel (g : UnitGraph) (module : ModuleId) : Nat :=
  (g.position? module).elim 0 g.level

section Checked

variable (closed : g.Closed) (accepted : g.checked = .ok units)

include closed accepted

theorem exists_of_mem_checked (mem : u ∈ units) : ∃ k unit, g.units[k]? = some unit ∧
    g.outcomes.lookup k = some (.ok u) ∧ u.module = unit.module ∧
      ∃ resolver, analyze unit.module resolver unit.program = .ok u := by
  obtain ⟨k, -, unit, at_k, result, module, -⟩ :=
    exists_of_mem_right (forall₂_of_checked closed accepted) mem
  obtain ⟨found, result', analyzed⟩ := lookup_of_checked closed accepted at_k
  obtain rfl : found = u := by simpa [result] using result'.symm
  exact ⟨k, unit, at_k, result, module, _, analyzed⟩

theorem distinctModules_of_checked (modules : (units.map CheckedUnit.module).Nodup) :
    g.DistinctModules := by
  have same {order : List Nat} {us : List CheckedUnit} (h : List.Forall₂ g.IsChecked order us) :
      us.map (some ∘ CheckedUnit.module) =
        order.map fun k => g.units[k]?.map (fun unit => unit.module) := by
    induction h with
    | nil => rfl
    | cons first _ ih =>
      obtain ⟨unit, at_k, -, module, -⟩ := first
      rw [map_cons, map_cons, ih, at_k]
      simp [module]
  have once : (g.levels.flatten.map fun k => g.units[k]?.map (fun unit => unit.module)).Nodup := by
    rw [← same (forall₂_of_checked closed accepted), ← List.map_map]
    exact modules.map (Option.some_injective _)
  rw [((perm_levels closed).map _).nodup_iff] at once
  have listed : (List.range g.units.length).map (fun k => g.units[k]?.map fun unit => unit.module) =
      (g.units.map fun unit => unit.module).map some := by
    refine ext_getElem (by simp) fun k hk hk' => ?_
    simp only [length_map, length_range] at hk
    simp [hk]
  rw [listed] at once
  exact once.of_map _

variable (modules : (units.map CheckedUnit.module).Nodup)

include modules

theorem moduleLevel_of_embeds {ref held : ArtifactRef}
    (embeds : (ArtifactTable.ofUnits units).Embeds ref held) :
    held.module = ref.module ∨ g.moduleLevel held.module < g.moduleLevel ref.module := by
  have distinct := distinctModules_of_checked closed accepted modules
  obtain ⟨info, found, -, q, hq, held⟩ := embeds
  obtain ⟨u, hu, mem, rfl⟩ := ArtifactTable.exists_unit_of_get? found
  obtain ⟨k, unit, at_k, result, module, resolver, analyzed⟩ :=
    exists_of_mem_checked closed accepted hu
  obtain ⟨holds, -, known⟩ := grounded_of_analyze analyzed
  obtain ⟨own, published, -⟩ := known info mem
  have inside := within_scope closed distinct (staged_levels closed)
    (List.getElem?_eq_some_iff.mp at_k).1 (interfaceOf_eq_some.mpr ⟨u, result, rfl⟩)
  have within : q.type.Within _ := (inside.2.2.2 _ _ published).1 q hq
  obtain ⟨v, below, path, at_v, same⟩ := Ty.module_mem_of_held? within held
  have level {w : Nat} {unit : LinkedUnit} (at_w : g.units[w]? = some unit) :
      g.moduleLevel unit.module = g.level w := by
    rw [moduleLevel, position?_module distinct at_w]
    rfl
  rcases reflTransGen_iff_eq_or_transGen.mp path with rfl | used
  · obtain rfl : unit = below := by simpa [at_k] using at_v
    exact .inl (by rw [← same, own, module])
  · refine .inr ?_
    rw [← same, own, module, level at_v, level at_k]
    exact level_lt_of_uses closed used

theorem not_transGen_embeds (ref : ArtifactRef) :
    ¬ TransGen (ArtifactTable.ofUnits units).Embeds ref ref := by
  -- levels never rise along the way, so that all of it stays in one module
  have stays {held : ArtifactRef} (path : TransGen (ArtifactTable.ofUnits units).Embeds ref held) :
      g.moduleLevel held.module < g.moduleLevel ref.module ∨ held.module = ref.module ∧
        TransGen (fun a b => (ArtifactTable.ofUnits units).Embeds a b ∧ a.module = ref.module)
          ref held := by
    induction path with
    | single step =>
      rcases moduleLevel_of_embeds closed accepted modules step with same | lower
      · exact .inr ⟨same, .single ⟨step, rfl⟩⟩
      · exact .inl lower
    | tail _ step ih =>
      rcases moduleLevel_of_embeds closed accepted modules step with same | lower
      · rcases ih with before | ⟨own, path⟩
        · exact .inl (same ▸ before)
        · exact .inr ⟨same.trans own, path.tail ⟨step, own⟩⟩
      · rcases ih with before | ⟨own, -⟩
        · exact .inl (lower.trans before)
        · exact .inl (own ▸ lower)
  intro cycle
  obtain ⟨-, path⟩ := (stays cycle).resolve_left (lt_irrefl _)
  obtain ⟨-, ⟨info, found, -⟩, -⟩ := TransGen.head'_iff.mp cycle
  obtain ⟨u, hu, mem, rfl⟩ := ArtifactTable.exists_unit_of_get? found
  obtain ⟨k, unit, -, -, -, resolver, analyzed⟩ := exists_of_mem_checked closed accepted hu
  obtain ⟨holds, acyclic, known⟩ := grounded_of_analyze analyzed
  refine acyclic _ (TransGen.mono ?_ _ _ path)
  rintro a b ⟨⟨info', found', record, q, hq, held⟩, own⟩
  obtain ⟨u', hu', mem', rfl⟩ := ArtifactTable.exists_unit_of_get? found'
  obtain ⟨_, _, -, -, -, _, analyzed'⟩ := exists_of_mem_checked closed accepted hu'
  obtain ⟨_, -, known'⟩ := grounded_of_analyze analyzed'
  obtain rfl : u' = u := by
    refine inj_on_of_nodup_map modules hu' hu ?_
    rw [← (known' info' mem').1, ← (known info mem).1]
    exact own
  obtain ⟨module, -, held'⟩ := known info' mem'
  exact module ▸ held' record q hq b held

end Checked

end UnitGraph

theorem not_transGen_embeds_of_check {sources : Sources} {settings : Settings} {entry : Path}
    {units : List CheckedUnit} (accepted : check sources settings entry = .ok units)
    (modules : (units.map CheckedUnit.module).Nodup) (ref : ArtifactRef) :
    ¬ TransGen (ArtifactTable.ofUnits units).Embeds ref ref := by
  unfold check at accepted
  dsimp only at accepted
  split at accepted
  · cases accepted
  · exact UnitGraph.not_transGen_embeds (UnitGraph.closed_ofEntry _) accepted modules ref

/-! ### Types of a program -/

namespace ArtifactTable

variable {table : ArtifactTable} {t u : Ty}

/-- The types of the values that values of a type hold: the elements of an array, the properties of
a record. Lists and procedures refer to what they need. -/
def held (table : ArtifactTable) : Ty → List Ty
  | .array elem _ => [elem]
  | .artifact ref => (table.get? ref).elim [] fun a =>
    if a.kind = .record then a.props.map PropInfo.type else []
  | _ => []

theorem mem_held_artifact {ref : ArtifactRef} : u ∈ table.held (.artifact ref) ↔
    ∃ a, table.get? ref = some a ∧ a.kind = .record ∧ ∃ q ∈ a.props, q.type = u := by
  cases found : table.get? ref with
  | none => simp [held, found]
  | some a =>
    by_cases record : a.kind = .record
    · simp [held, found, record]
    · simp [held, found, record]

/-- An array and its elements hold the same artifact; a record embeds what its properties hold. -/
theorem held?_of_mem_held (mem : u ∈ table.held t) :
    (t.held? = u.held? ∧ sizeOf u < sizeOf t) ∨
      ∃ ref, t = .artifact ref ∧ ∀ inner ∈ u.held?, table.Embeds ref inner := by
  cases t with
  | array elem size =>
    obtain rfl := List.mem_singleton.mp mem
    exact .inl ⟨rfl, by simp; omega⟩
  | artifact ref =>
    obtain ⟨a, found, record, q, hq, rfl⟩ := mem_held_artifact.mp mem
    exact .inr ⟨ref, rfl, fun inner held => ⟨a, found, record, q, hq, held⟩⟩
  | _ => cases mem

theorem not_transGen_held (grounded : ∀ ref, ¬ TransGen table.Embeds ref ref) (t : Ty) :
    ¬ TransGen (fun t u => u ∈ table.held t) t t := by
  have along {u : Ty} (path : TransGen (fun t u => u ∈ table.held t) t u) :
      (t.held? = u.held? ∧ sizeOf u < sizeOf t) ∨
        ∃ ref ∈ t.held?, ∀ inner ∈ u.held?, TransGen table.Embeds ref inner := by
    induction path with
    | single step =>
      rcases held?_of_mem_held step with same | ⟨ref, rfl, embeds⟩
      · exact .inl same
      · exact .inr ⟨ref, rfl, fun inner held => .single (embeds inner held)⟩
    | tail _ step ih =>
      rcases held?_of_mem_held step with ⟨same, less⟩ | ⟨ref, rfl, embeds⟩
      · rw [← same]
        exact ih.imp_left fun before => ⟨before.1, less.trans before.2⟩
      · rcases ih with ⟨same, -⟩ | ⟨outer, hout, path⟩
        · exact .inr ⟨ref, same, fun inner held => .single (embeds inner held)⟩
        · exact .inr ⟨outer, hout, fun inner held => (path ref rfl).tail (embeds inner held)⟩
  intro cycle
  rcases along cycle with ⟨-, less⟩ | ⟨ref, held, embeds⟩
  · exact lt_irrefl _ less
  · exact grounded ref (embeds ref held)

end ArtifactTable

end ArkLang
