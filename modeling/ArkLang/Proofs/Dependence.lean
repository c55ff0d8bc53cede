import Mathlib.Data.List.Basic
import ArkLang.Proofs.Confinement

/-!
# What the analysis of a unit depends on

The check of a program is confined, so it asks for nothing but the interfaces of the modules that
the imports of the program mention. The analysis of a unit is therefore the same with two resolvers
that agree on these modules.
-/

namespace ArkLang

open Scoped (Within)

/-! ### Units -/

namespace Analysis

variable {S : Scope} {o : Outline} {view : ModuleId → Option Interface} {s : Analysis}

theorem ofOutline_within (inside : o.Inside S) : (ofOutline o).TablesWithin S where
  exprTypes := by simp [ofOutline]
  symbolTypes sym mem := by
    obtain ⟨i, hi, rfl⟩ := Array.mem_mapIdx.mp mem
    have declared := inside.globals o.globals[i] (Array.getElem_mem hi)
    change S.Allows (o.globals[i].declared.getD .unknown)
    cases found : o.globals[i].declared with
    | none => exact S.unknown
    | some t => exact declared t found
  procTypes p mem := by
    obtain ⟨i, hi, rfl⟩ := Array.mem_mapIdx.mp mem
    exact ⟨⟨within_nil.mpr trivial, S.unknown⟩, within_none.mpr trivial⟩
  propTypes name props found := by simp [ofOutline, NameTable.get?] at found
  receivers p mem := by simp [ofOutline] at mem
  reported := inside.errors

theorem isMutating_reaching (same : o.SameView S view) (mutating : List ProcId) {ref : ArtifactRef}
    (href : ref.module ∈ S.modules) (method : String) :
    isMutating (o.reaching view) mutating ref method = isMutating o mutating ref method := by
  rw [isMutating, isMutating, Outline.method?_reaching same href]

theorem mutatingRounds_reaching (same : o.SameView S view) (hs : s.TablesWithin S) (n : Nat)
    (mutating : List ProcId) :
    s.mutatingRounds (o.reaching view) n mutating = s.mutatingRounds o n mutating := by
  have round (mutating : List ProcId) : s.pending.toList.foldl (s.addCaller (o.reaching view))
      mutating = s.pending.toList.foldl (s.addCaller o) mutating := by
    refine List.foldl_ext _ _ _ fun before p mem => ?_
    have href := hs.receivers p (Array.mem_toList_iff.mp mem)
    simp only [addCaller, isMutating_reaching same before href]
  induction n generalizing mutating with
  | zero => rfl
  | succ n ih => rw [mutatingRounds, mutatingRounds, round, ih]

theorem settleMutation_reaching (same : o.SameView S view) (hs : s.TablesWithin S) :
    s.settleMutation (o.reaching view) = s.settleMutation o := by
  have methods : s.mutatingMethods (o.reaching view) = s.mutatingMethods o :=
    mutatingRounds_reaching same hs _ _
  have judged (mutating : List ProcId) : s.pending.toList.foldl
      (judge (o.reaching view) mutating) s = s.pending.toList.foldl (judge o mutating) s := by
    refine List.foldl_ext _ _ _ fun before p mem => ?_
    have href := hs.receivers p (Array.mem_toList_iff.mp mem)
    simp only [judge, isMutating_reaching same mutating href]
  rw [settleMutation, settleMutation, methods, judged]

theorem judge_within {mutating : List ProcId} (hs : s.TablesWithin S) (p : PendingReceiver) :
    (judge o mutating s p).TablesWithin S := by
  have marked (calls : NodeTable CallTarget) : { s with calls }.TablesWithin S :=
    { hs with }
  unfold judge
  dsimp only
  split
  · split
    · exact (marked _).note (S.reports (by simp))
    · exact marked _
  · exact marked _

theorem settleMutation_within (hs : s.TablesWithin S) : (s.settleMutation o).TablesWithin S := by
  have judged (mutating : List ProcId) (ps : List PendingReceiver) :
      (ps.foldl (judge o mutating) s).TablesWithin S := by
    induction ps generalizing s with
    | nil => exact hs
    | cons p rest ih => exact ih (judge_within hs p)
  have settled := judged (s.mutatingMethods o) s.pending.toList
  refine { settled with procTypes := fun p mem => ?_ }
  obtain ⟨q, hq, rfl⟩ := Array.mem_map.mp mem
  have hq := settled.procTypes q hq
  unfold markMethod
  split
  · exact hq
  · exact hq

theorem run_reaching (same : o.SameView S view) (p : Program)
    (contained : ∀ e ∈ (runAt (Check.program p) o (ofOutline o)).2.containmentErrors o,
      S.Reports e) :
    run (o.reaching view) p = run o p ∧ (run o p).TablesWithin S := by
  let B : Bounds := ⟨{ nodes := p.stmts.flatMap Stmt.topCode }, S, o, view, same⟩
  obtain ⟨-, equal, inside, -⟩ := Check.confined_program (B := B) (List.Subset.refl _) (ofOutline o)
    (by simp [B, ofOutline]) (ofOutline_within same.inside)
  have checked (o : Outline) : run o p =
      let checked := (runAt (Check.program p) o (ofOutline o)).2
      { checked with errors := checked.errors ++ checked.containmentErrors o }.settleMutation o :=
    rfl
  have start : ofOutline (o.reaching view) = ofOutline o := rfl
  have records (s : Analysis) : s.containmentErrors (o.reaching view) = s.containmentErrors o :=
    rfl
  set s := (runAt (Check.program p) o (ofOutline o)).2
  have noted : { s with errors := s.errors ++ s.containmentErrors o }.TablesWithin S := by
    refine { inside with reported := fun e mem => ?_ }
    rw [← Array.mem_toList_iff, Array.toList_appendList, List.mem_append] at mem
    exact mem.elim (fun mem => inside.reported e (Array.mem_toList_iff.mp mem)) (contained e)
  rw [checked, checked, start, equal]
  dsimp only
  rw [records, settleMutation_reaching same noted]
  exact ⟨rfl, settleMutation_within noted⟩

/-! ### Interfaces -/

theorem artifactInfo_within (hs : s.TablesWithin S) (a : LocalArtifact) :
    Within S (s.artifactInfo o a) := by
  refine ⟨fun p mem => ?_, fun m mem => ?_⟩
  · cases known : s.props.get? a.name with
    | none => simp [artifactInfo, known] at mem
    | some props => exact hs.propTypes _ props known p (by simpa [artifactInfo, known] using mem)
  · obtain ⟨⟨name, id⟩, -, rfl⟩ := List.mem_map.mp mem
    have entry := within_getD (i := id) hs.procTypes ProcEntry.within_default
    exact ProcInfo.sig_within entry.1

theorem interface_within (hs : s.TablesWithin S) (hm : o.module ∈ S.modules) :
    Within S (s.interface o) := by
  refine ⟨hm, ?_, ?_, ?_⟩
  · refine List.foldlRecOn _ _ NameTable.empty_within fun table ht sym mem => ?_
    split
    · exact NameTable.insert_within ht (hs.symbolTypes sym (Array.mem_toList_iff.mp mem)) _
    · exact ht
  · refine List.foldlRecOn _ _ NameTable.empty_within fun table ht p mem => ?_
    split
    · have sig := ProcInfo.sig_within (hs.procTypes p (Array.mem_toList_iff.mp mem)).1
      exact NameTable.insert_within ht sig _
    · exact ht
  · refine List.foldlRecOn _ _ NameTable.empty_within fun table ht a _ => ?_
    exact NameTable.insert_within ht (artifactInfo_within hs a) _

end Analysis

/-- An analysis depends only on how its imports are answered and on what is known of the modules
that these answers mention; and its own interface mentions no others. -/
theorem analyze_congr {S : Scope} {module : ModuleId} {resolver resolver' : Resolver}
    {p : Program} (hm : module ∈ S.modules) (all : ∀ e, S.Reports e)
    (h : Resolver.SameOn S p resolver resolver') :
    analyze module resolver' p = analyze module resolver p ∧
      ∀ unit, analyze module resolver p = .ok unit → Within S unit.interface := by
  obtain ⟨outline, same⟩ := Outline.ofProgram_reaching hm h
  obtain ⟨run, inside⟩ := Analysis.run_reaching same p fun e _ => all e
  constructor
  · unfold analyze
    dsimp only
    rw [outline, run]
    rfl
  · intro unit accepted
    unfold analyze at accepted
    dsimp only at accepted
    split at accepted
    · cases accepted
      exact Analysis.interface_within inside same.inside.module
    · cases accepted

/-! ### The module of a unit -/

namespace Outline

variable {o : Outline}

theorem bind_module (name : Ident) (binding : Binding) :
    (o.bind name binding).module = o.module := by
  unfold bind
  split <;> rfl

theorem addImport_module (resolver : Resolver) (decl : Import) :
    (o.addImport resolver decl).module = o.module := by
  unfold addImport
  split <;> rw [bind_module] <;> rfl

theorem addMember_module (artifact : ArtifactDecl) (m : Members) (member : Member) :
    (m.add artifact member).outline.module = m.outline.module := by
  cases member <;>
  · unfold Members.add
    dsimp only
    split <;> rfl

theorem addArtifact_module (position : Nat) (decl : ArtifactDecl) :
    (o.addArtifact position decl).module = o.module := by
  have members (ms : List Member) (m : Members) :
      (ms.foldl (Members.add decl) m).outline.module = m.outline.module :=
    List.foldlRecOn (motive := fun m' => m'.outline.module = m.outline.module) ms _ rfl
      fun m' h member _ => (addMember_module decl m' member).trans h
  unfold addArtifact
  dsimp only
  split
  · exact bind_module _ _
  · exact (members _ _).trans (bind_module _ _)

theorem addGlobal_module (position : Nat) (decl : VarDecl) :
    (o.addGlobal position decl).module = o.module := by
  unfold addGlobal
  dsimp only
  split <;> rw [bind_module]

theorem ofProgram_module (module : ModuleId) (resolver : Resolver) (p : Program) :
    (ofProgram module resolver p).module = module := by
  have types (stmts : List Stmt) (position : Nat) (o : Outline) :
      (o.addTypes resolver position stmts).module = o.module := by
    induction stmts generalizing position o with
    | nil => rfl
    | cons stmt rest ih =>
      cases stmt with
      | importUnit decl => exact (ih _ _).trans (addImport_module resolver decl)
      | artifact decl => exact (ih _ _).trans (addArtifact_module position decl)
      | _ => exact ih _ _
  have values (stmts : List Stmt) (position : Nat) (o : Outline) :
      (o.addValues position stmts).module = o.module := by
    induction stmts generalizing position o with
    | nil => rfl
    | cons stmt rest ih =>
      cases stmt with
      | proc decl => exact (ih _ _).trans (bind_module _ _)
      | var decl => exact (ih _ _).trans (addGlobal_module position decl)
      | _ => exact ih _ _
  exact (values _ _ _).trans (types _ _ _)

end Outline

theorem module_of_analyze {module : ModuleId} {resolver : Resolver} {p : Program}
    {unit : CheckedUnit} (h : analyze module resolver p = .ok unit) : unit.module = module := by
  unfold analyze at h
  dsimp only at h
  split at h
  · cases h
    exact Outline.ofProgram_module module resolver p
  · cases h

end ArkLang
