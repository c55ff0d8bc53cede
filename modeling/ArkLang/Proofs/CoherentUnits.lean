import ArkLang.Proofs.Acceptance
import ArkLang.Proofs.CoherentStmts
import ArkLang.Proofs.Dependence
import ArkLang.Proofs.ListTypes

/-!
# Tables of whole units

The tables of a unit are aligned before the first check and hence after the last one. What follows
the checks marks the methods that change their receivers, with their calls. The types in the tables
are tame, since checks are confined to the scope of tame types.

The types that imports bring along come from interfaces. An interface of an accepted unit is tame if
the interfaces are that the unit imports, so all interfaces of accepted units are.
-/

namespace ArkLang

open List
open Scoped (Within)

variable {o : Outline} {sites : NodeId → Site} {s : Analysis}

/-- All types that a resolver answers with are tame. -/
structure Resolver.TypesTame (r : Resolver) : Prop where
  resolve : ∀ i interface, r.resolve i = .ok interface → Within .tame interface
  reached : ∀ m, Within .tame (r.interface? m)

/-! ### Collecting declarations -/

namespace Outline

/-- An outline under construction. -/
structure Built (o : Outline) (sites : NodeId → Site) : Prop extends o.Sited sites where
  symbols : ∀ entry ∈ o.names, ∀ id, entry.2 = .symbol id → id < o.globals.size
  taken : ∀ a ∈ o.artifacts, (o.names.lookup a.name).isSome = true
  outermost : ∀ p ∈ o.procs, ∀ parent, p.kind ≠ .nested parent

namespace Built

variable (ho : o.Built sites)

include ho

theorem report (fault : SemanticFault) (span : Span) : (o.report fault span).Built sites :=
  { ho with }

theorem bind (name : Ident) {b : Binding} (symbol : ∀ id, b = .symbol id → id < o.globals.size) :
    (o.bind name b).Built sites := by
  unfold Outline.bind
  split
  · exact ho.report _ _
  · refine { ho with
      symbols := List.forall_mem_append.mpr ⟨ho.symbols, by simpa using symbol⟩
      taken := fun a mem => ?_ }
    have old := ho.taken a mem
    rw [lookup_append, Option.isSome_or, old, Bool.true_or]

theorem addImport (r : Resolver) (decl : Import) : (o.addImport r decl).Built sites := by
  unfold Outline.addImport
  split
  · next interface _ =>
    have known : Outline.Built { o with imported := interface :: o.imported } sites := { ho with }
    exact known.bind decl.name (by simp)
  · exact (ho.report _ _).bind _ (by simp)
  · exact (ho.report _ _).bind _ (by simp)
  · exact ho.bind _ (by simp)

theorem addProc {proc : LocalProc} (here : Placed sites (proc.decl.sites none))
    (kind : ∀ parent, proc.kind ≠ .nested parent) : (o.addProc proc).Built sites := by
  refine { ho with
    procSites := fun p mem => ?_
    outermost := Array.forall_mem_push.mpr ⟨kind, ho.outermost⟩ }
  rcases Array.mem_push.mp mem with old | rfl
  · exact ho.procSites p old
  · cases decl : p.decl
    rw [decl, ProcDecl.sites] at here
    obtain ⟨head, ofBody⟩ := placed_append.mp here
    exact ⟨(placed_cons.mp head).2, ofBody⟩

theorem addTopLevel {decl : ProcDecl} (here : Placed sites (decl.sites none)) :
    (o.addTopLevel decl).Built sites := by
  have added : (o.addProc ⟨decl, [decl.name.value], .topLevel, none⟩).Built sites :=
    ho.addProc here (by simp)
  exact added.bind _ (by simp)

theorem addGlobal (position : Nat) {decl : VarDecl} (here : Placed sites (decl.sites none)) :
    (o.addGlobal position decl).Built sites := by
  have value := (placed_cons.mp here).2
  have added {o : Outline} (ho : o.Built sites) (declared : Option Ty) :
      (Outline.bind { o with globals := o.globals.push ⟨decl, position, declared⟩ } decl.name
        (.symbol o.globals.size)).Built sites := by
    have pushed : Outline.Built
        { o with globals := o.globals.push ⟨decl, position, declared⟩ } sites := by
      refine { ho with globalSites := ?_, symbols := ?_ }
      · exact Array.forall_mem_push.mpr ⟨value, ho.globalSites⟩
      · intro entry mem id symbol
        rw [Array.size_push]
        exact Nat.lt_succ_of_lt (ho.symbols entry mem id symbol)
    exact pushed.bind _ (by simp)
  unfold Outline.addGlobal
  dsimp only
  split
  · exact added ho _
  · exact added ho _
  · next e _ =>
    have noted : Outline.Built { o with errors := o.errors.push e } sites := { ho with }
    exact added noted _

end Built

theorem Built.addMembers (artifact : ArtifactDecl) {members : List Member} {m : Members}
    (hm : m.outline.Built sites) (here : Placed sites (members.flatMap Member.sites)) :
    let o := (members.foldl (Members.add artifact) m).outline
    o.Built sites ∧ o.names = m.outline.names ∧ o.artifacts = m.outline.artifacts := by
  induction members generalizing m with
  | nil => exact ⟨hm, rfl, rfl⟩
  | cons member rest ih =>
    obtain ⟨first, others⟩ := placed_append.mp here
    have step : (m.add artifact member).outline.Built sites ∧
        (m.add artifact member).outline.names = m.outline.names ∧
          (m.add artifact member).outline.artifacts = m.outline.artifacts := by
      cases member with
      | proc decl =>
        unfold Members.add
        dsimp only
        split
        · exact ⟨hm.report _ _, rfl, rfl⟩
        · refine ⟨hm.addProc first fun parent => ?_, rfl, rfl⟩
          cases artifact.kind <;> simp [memberRole]
      | _ decl =>
        unfold Members.add
        dsimp only
        split
        · exact ⟨hm.report _ _, rfl, rfl⟩
        · exact ⟨hm, rfl, rfl⟩
    obtain ⟨built, names, artifacts⟩ := ih step.1 others
    exact ⟨built, names.trans step.2.1, artifacts.trans step.2.2⟩

theorem Built.addArtifact (ho : o.Built sites) (position : Nat) {decl : ArtifactDecl}
    (here : Placed sites (decl.members.flatMap Member.sites)) :
    (o.addArtifact position decl).Built sites := by
  have named := ho.bind decl.name (b := .artifact ⟨o.module, decl.name.value⟩) (by simp)
  unfold Outline.addArtifact
  dsimp only
  split
  · exact named
  · next free =>
    let start : Members := ⟨o.bind decl.name (.artifact ⟨o.module, decl.name.value⟩), [], [], [], 0⟩
    obtain ⟨built, names, artifacts⟩ := Built.addMembers decl (m := start) named here
    set m := decl.members.foldl (Members.add decl) start
    have bound : start.outline = { o with
        names := o.names ++ [(decl.name.value, .artifact ⟨o.module, decl.name.value⟩)] } :=
      if_neg free
    rw [bound] at names artifacts
    -- The name was free, so no artifact had it.
    have other (a : LocalArtifact) (mem : a ∈ o.artifacts) : a.name ≠ decl.name.value :=
      fun same => free (same ▸ ho.taken a mem)
    refine { built with artifactNames := ?_, propSites := ?_, taken := ?_ }
    · rw [artifacts]
      intro a ha b hb same
      rcases List.mem_append.mp ha with ha | ha <;> rcases List.mem_append.mp hb with hb | hb
      · exact ho.artifactNames a ha b hb same
      · rw [List.mem_singleton.mp hb] at same
        exact absurd same (other a ha)
      · rw [List.mem_singleton.mp ha] at same
        exact absurd same.symm (other b hb)
      · rw [List.mem_singleton.mp ha, List.mem_singleton.mp hb]
    · refine List.forall_mem_append.mpr ⟨built.propSites, List.forall_mem_singleton.mpr ?_⟩
      intro prop mem
      obtain ⟨member, hmember, found⟩ := List.mem_filterMap.mp mem
      cases member with
      | prop decl =>
        cases found
        have all : Placed sites (prop.sites none) :=
          fun x hx => here x (List.mem_flatMap.mpr ⟨_, hmember, hx⟩)
        exact (placed_cons.mp all).2
      | _ => cases found
    · refine List.forall_mem_append.mpr ⟨built.taken, List.forall_mem_singleton.mpr ?_⟩
      change (m.outline.names.lookup decl.name.value).isSome = true
      rw [names, lookup_append, Option.isSome_or, lookup_cons_self, Option.isSome_some,
        Bool.or_true]

theorem Built.addTypes (r : Resolver) {stmts : List Stmt}
    (here : Placed sites (stmts.flatMap Stmt.topSites)) (ho : o.Built sites) (position : Nat) :
    (o.addTypes r position stmts).Built sites := by
  induction stmts generalizing o position with
  | nil => exact ho
  | cons stmt rest ih =>
    obtain ⟨first, others⟩ := placed_append.mp here
    cases stmt with
    | importUnit decl => exact ih others (ho.addImport r decl) _
    | artifact decl => exact ih others (ho.addArtifact position first) _
    | _ => exact ih others ho _

theorem Built.addValues {stmts : List Stmt} (here : Placed sites (stmts.flatMap Stmt.topSites))
    (ho : o.Built sites) (position : Nat) : (o.addValues position stmts).Built sites := by
  induction stmts generalizing o position with
  | nil => exact ho
  | cons stmt rest ih =>
    obtain ⟨first, others⟩ := placed_append.mp here
    cases stmt with
    | proc decl => exact ih others (ho.addTopLevel first) _
    | var decl => exact ih others (ho.addGlobal position first) _
    | _ => exact ih others ho _

variable {module : ModuleId} {r : Resolver} {p : Program}

theorem built_ofProgram (distinct : p.ids.Nodup) :
    (ofProgram module r p).Built p.siteOf := by
  have here : Placed p.siteOf (p.stmts.flatMap Stmt.topSites) :=
    fun x mem => p.siteOf_eq distinct mem
  have empty : Built { module, reached := r.interface? } p.siteOf :=
    { symbols := by simp, taken := by simp, artifactNames := by simp, globalSites := by simp,
      procSites := by simp, propSites := by simp, outermost := by simp }
  exact (empty.addTypes r here 0).addValues here 0

theorem proper_ofProgram (distinct : p.ids.Nodup) : (ofProgram module r p).Proper p.siteOf :=
  have built := built_ofProgram distinct
  { built with
    symbols := fun _ id found => built.symbols _ (mem_of_lookup_eq_some found) id rfl
    distinct := nodup_ids_ofProgram distinct }

end Outline

/-! ### Before the first check -/

theorem mem_of_get?_ofList {α : Type} {entries : List (NodeId × α)} {n : NodeId} {x : α}
    (found : (Std.TreeMap.ofList entries : NodeTable α).get? n = some x) : (n, x) ∈ entries := by
  have inserted (entries : List (NodeId × α)) (table : NodeTable α)
      (found : (table.insertMany entries).get? n = some x) :
      (n, x) ∈ entries ∨ table.get? n = some x := by
    induction entries generalizing table with
    | nil => exact .inr found
    | cons entry rest ih =>
      rw [Std.TreeMap.insertMany_cons] at found
      rcases ih (table.insert entry.1 entry.2) found with mem | old
      · exact .inl (mem_cons_of_mem _ mem)
      · rw [get?_insertNode] at old
        split at old
        · next here =>
          cases old
          exact .inl (here ▸ mem_cons_self)
        · exact .inr old
  rw [Std.TreeMap.ofList_eq_insertMany_empty] at found
  rcases inserted entries ∅ found with mem | absurd
  · exact mem
  · simp at absurd

theorem get?_ofList_of_mem {α : Type} {entries : List (NodeId × α)} {n : NodeId} {x : α}
    (distinct : (entries.map Prod.fst).Nodup) (mem : (n, x) ∈ entries) :
    (Std.TreeMap.ofList entries : NodeTable α).get? n = some x := by
  refine Std.TreeMap.getElem?_ofList_of_mem Std.ReflCmp.compare_self ?_ mem
  refine (List.pairwise_map.mp distinct).imp fun {a b} apart same => apart ?_
  exact Std.LawfulEqCmp.eq_of_compare same

/-- A kind in which methods are marked as such that change their receiver or not. -/
def ProcKind.marked (mutating : Bool) : ProcKind → ProcKind
  | .method ref _ => .method ref mutating
  | kind => kind

namespace Analysis

/-- The first tables of a unit fit together. -/
theorem aligned_ofOutline (ho : o.Built sites) (distinct : o.nodes.Nodup) :
    (ofOutline o).Aligned o sites := by
  -- Symbols and procedures are numbered as the outline lists them.
  have symbols {i : Nat} {sym : SymbolInfo} (found : (ofOutline o).symbols[i]? = some sym) :
      ∃ g, o.globals[i]? = some g ∧ sym = globalSymbol i g := by
    rw [ofOutline, Array.getElem?_mapIdx] at found
    obtain ⟨g, here, rfl⟩ := Option.map_eq_some_iff.mp found
    exact ⟨g, here, rfl⟩
  have procs {i : Nat} {p : ProcEntry} (found : (ofOutline o).procs[i]? = some p) :
      ∃ proc, o.procs[i]? = some proc ∧ p = procEntry i proc := by
    rw [ofOutline, Array.getElem?_mapIdx] at found
    obtain ⟨proc, here, rfl⟩ := Option.map_eq_some_iff.mp found
    exact ⟨proc, here, rfl⟩
  have proc {p : ProcEntry} (mem : p ∈ (ofOutline o).procs) :
      ∃ i proc, o.procs[i]? = some proc ∧ p = procEntry i proc := by
    obtain ⟨i, found⟩ := Array.getElem?_of_mem mem
    exact ⟨i, procs found⟩
  have declares {n : NodeId} {i : SymbolId} (found : (ofOutline o).declSymbols.get? n = some i) :
      ∃ g, o.globals[i]? = some g ∧ g.decl.node.id = n := by
    have mem := Array.mem_toList_iff.mp (mem_of_get?_ofList found)
    obtain ⟨j, hj, same⟩ := Array.mem_mapIdx.mp mem
    cases same
    exact ⟨_, Array.getElem?_eq_getElem hj, rfl⟩
  have declNodes : ((o.procs.mapIdx fun id p => (p.decl.node.id, id)).toList.map
    Prod.fst).Nodup := by
    have nodes : (o.procs.mapIdx fun id p => (p.decl.node.id, id)).toList.map Prod.fst =
        o.procNodes := by
      rw [Outline.procNodes, Array.toList_mapIdx]
      exact ext_getElem? fun i => by simp [Function.comp_def]
    rw [nodes]
    exact distinct.of_append_left
  exact
    { records := fun _ a _ _ p mem => by simp [ofOutline, NameTable.get?] at mem
      symbolIds := fun i sym found => by
        obtain ⟨g, -, rfl⟩ := symbols found
        rfl
      globalsFirst := by simp [ofOutline]
      isGlobal_iff := fun i sym found => by
        obtain ⟨g, here, rfl⟩ := symbols found
        exact iff_of_true rfl (Array.getElem?_eq_some_iff.mp here).1
      globalKind := fun i sym found _ => by
        obtain ⟨g, -, rfl⟩ := symbols found
        rfl
      declared := fun n i found => by
        obtain ⟨g, here, -⟩ := declares found
        refine ⟨globalSymbol i g, ?_, fun _ => rfl⟩
        rw [ofOutline, Array.getElem?_mapIdx, here]
        rfl
      declaredOnce := fun n m i hn hm => by
        obtain ⟨g, here, rfl⟩ := declares hn
        obtain ⟨g', here', rfl⟩ := declares hm
        rw [Option.some.inj (here.symm.trans here')]
      outlineProcs := fun i proc here => by
        refine ⟨procEntry i proc, ?_, rfl⟩
        rw [ofOutline, Array.getElem?_mapIdx, here]
        rfl
      procIds := fun i p found => by
        obtain ⟨proc, -, rfl⟩ := procs found
        rfl
      params := fun i p found => by
        obtain ⟨proc, -, rfl⟩ := procs found
        exact ⟨nodup_nil, fun q mem => by cases mem⟩
      nested := fun p mem nested => by
        obtain ⟨i, proc, here, rfl⟩ := proc mem
        have outermost := ho.outermost proc (Array.mem_of_getElem? here)
        cases kind : proc.kind with
        | nested parent => exact absurd kind (outermost parent)
        | _ => simp [procEntry, ProcInfo.isNested, kind] at nested
      procDecl := fun i p found => by
        obtain ⟨proc, here, rfl⟩ := procs found
        refine get?_ofList_of_mem declNodes (Array.mem_toList_iff.mpr ?_)
        obtain ⟨hi, rfl⟩ := Array.getElem?_eq_some_iff.mp here
        exact Array.mem_mapIdx.mpr ⟨i, hi, rfl⟩
      procDecls := fun n i found => by
        have mem := Array.mem_toList_iff.mp (mem_of_get?_ofList found)
        obtain ⟨j, hj, same⟩ := Array.mem_mapIdx.mp mem
        cases same
        refine ⟨procEntry i o.procs[i], ?_, rfl⟩
        rw [ofOutline, Array.getElem?_mapIdx, Array.getElem?_eq_getElem hj]
        rfl
      unmade := fun i _ n mem p hp => by
        obtain ⟨j, proc, here, rfl⟩ := proc hp
        rintro rfl
        have declared : proc.decl.node.id ∈ o.procNodes :=
          List.mem_map.mpr ⟨proc, Array.mem_toList_iff.mpr (Array.mem_of_getElem? here), rfl⟩
        exact distinct.disjoint declared (Outline.mem_ids_of_mem_code mem)
      capturesNodup := fun p mem => by
        obtain ⟨i, proc, -, rfl⟩ := proc mem
        exact nodup_nil
      captures := fun p mem id captured => by
        obtain ⟨i, proc, -, rfl⟩ := proc mem
        cases captured
      resolved := by simp [ofOutline]
      called := by simp [ofOutline]
      begun := by simp [ofOutline]
      jumps := by simp [ofOutline] }

/-! ### After the last check -/

theorem Aligned.notes (hs : s.Aligned o sites) (errors : List SemanticError) :
    Analysis.Aligned o sites { s with errors := s.errors ++ errors } := by
  have before (none : s.errors ++ errors = #[]) : s.errors = #[] := by
    have none := congrArg Array.toList none
    rw [Array.toList_appendList, append_eq_nil_iff] at none
    exact Array.toList_eq_nil_iff.mp none.1
  exact { hs with
    records := fun none => hs.records (before none)
    jumps := fun none => hs.jumps (before none) }

theorem Aligned.judge (hs : s.Aligned o sites) (mutating : List ProcId) (p : PendingReceiver) :
    (judge o mutating s p).Aligned o sites := by
  have marked (mutates : Bool) :
      Analysis.Aligned o sites { s with calls := markCall s.calls p.call.id mutates } := by
    unfold markCall
    split
    · exact hs.setCall (by simp)
    · exact hs
  unfold Analysis.judge
  dsimp only
  split
  · split
    · exact (marked _).note _
    · exact marked _
  · exact marked _

theorem markMethod_eq (mutating : List ProcId) (p : ProcEntry) : markMethod mutating p =
    { p with info.kind := p.info.kind.marked (mutating.contains p.info.id) } := by
  rcases p with ⟨⟨_, _, _, _, _, _, kind, _, _⟩, _, _, _⟩
  cases kind <;> rfl

theorem Aligned.markMethods (hs : s.Aligned o sites) (mutating : List ProcId) :
    Analysis.Aligned o sites { s with procs := s.procs.map (markMethod mutating) } := by
  have kept : s.Keeps { s with procs := s.procs.map (markMethod mutating) } := by
    refine ⟨fun {_ sym} found => ⟨sym.type, found⟩, fun {_ p} found => ⟨markMethod mutating p, ?_⟩⟩
    refine ⟨by rw [Array.getElem?_map, found, Option.map_some], ?_⟩
    rw [markMethod_eq]
    refine ⟨rfl, ?_, rfl, List.Subset.refl _⟩
    cases kind : p.info.kind <;> simp [ProcInfo.isNested, ProcKind.marked, kind]
  refine hs.mapProcs (f := fun _ => markMethod mutating) (fun _ => Array.getElem?_map) kept
    (fun _ p => ?_) (fun i p found => ?_) (fun _ p nodup => ?_) fun _ p _ id captured => .inl ?_
  all_goals simp only [markMethod_eq] at *
  · exact hs.params i p found
  · exact nodup
  · exact captured

theorem Aligned.settleMutation (hs : s.Aligned o sites) :
    (s.settleMutation o).Aligned o sites := by
  have judged (mutating : List ProcId) (ps : List PendingReceiver) :
      (ps.foldl (Analysis.judge o mutating) s).Aligned o sites :=
    List.foldlRecOn _ _ hs fun t ht p _ => ht.judge mutating p
  exact (judged _ _).markMethods _

variable {module : ModuleId} {r : Resolver} {p : Program}

theorem leaves_ofProgram (distinct : p.ids.Nodup) {o : Outline} (eq : o = .ofProgram module r p) :
    Leaves o p.siteOf (p.stmts.flatMap Stmt.topCode) (ofOutline o) (Check.program p)
      fun u s => ∀ st ∈ p.stmts, Check.TopChecked o st u s := by
  subst eq
  set o := Outline.ofProgram module r p
  have ho : o.Proper p.siteOf := Outline.proper_ofProgram distinct
  have nodes : o.nodes.Nodup := Outline.nodup_nodes_ofProgram distinct
  have start := aligned_ofOutline (Outline.built_ofProgram distinct) nodes
  -- Module-level code belongs to no item, and no procedure of the outline is declared in it.
  have fresh : (ofOutline o).Fresh o (p.stmts.flatMap Stmt.topCode) := by
    intro n mem
    have outside : n ∉ o.nodes := fun inside =>
      Outline.not_mem_topCode_of_mem_nodes distinct inside mem
    constructor
    · intro q hq
      obtain ⟨i, hi, rfl⟩ := Array.mem_mapIdx.mp hq
      rintro rfl
      exact outside (mem_append_left _
        (List.mem_map.mpr ⟨_, Array.mem_toList_iff.mpr (Array.getElem_mem hi), rfl⟩))
    · exact fun i _ inside =>
        outside (mem_append_right _ (Outline.mem_ids_of_mem_code inside))
  have ready : Check.Ready o p.siteOf (ofOutline o) (p.stmts.flatMap Stmt.topCode) p.sites :=
    ⟨fun x mem => p.siteOf_eq distinct mem, Outline.nodup_topCode distinct, fresh⟩
  exact Check.leaves_program ho start ready

theorem aligned_run (distinct : p.ids.Nodup) :
    (run (.ofProgram module r p) p).Aligned (.ofProgram module r p) p.siteOf :=
  ((leaves_ofProgram distinct rfl).aligned.notes _).settleMutation

/-- Tables that fit together, and whose types are tame. -/
structure Coherent (o : Outline) (sites : NodeId → Site) (s : Analysis) : Prop
    extends s.TablesWithin .tame, s.Aligned o sites

theorem coherent_run (distinct : p.ids.Nodup) (hr : r.TypesTame) :
    (run (.ofProgram module r p) p).Coherent (.ofProgram module r p) p.siteOf := by
  have answered (i : Import) : Within .tame (r.resolve i) := by
    cases found : r.resolve i with
    | ok interface => exact hr.resolve i interface found
    | error _ => trivial
  have imports : Resolver.SameOn .tame p r r :=
    ⟨fun _ _ => rfl, fun i _ => answered i, fun _ _ => rfl, fun m _ => hr.reached m⟩
  have here : module ∈ Scope.tame.modules := trivial
  have same := (Outline.ofProgram_reaching here imports).2
  have tame := (run_reaching same p fun _ _ => trivial).2
  exact { toTablesWithin := tame, toAligned := aligned_run distinct }

end Analysis

/-- The interface of an accepted unit, whose imports are answered by such interfaces. The nodes of
the unit are distinct, as those of parsed programs are. -/
inductive Interface.Accepted : Interface → Prop
  | intro {module : ModuleId} {r : Resolver} {p : Program} {unit : CheckedUnit}
      (resolve : ∀ i interface, r.resolve i = .ok interface → Interface.Accepted interface)
      (reached : ∀ m interface, r.interface? m = some interface → Interface.Accepted interface)
      (distinct : p.ids.Nodup) (accepted : analyze module r p = .ok unit) :
      Interface.Accepted unit.interface

/-- Imports are answered by interfaces of accepted units. -/
structure Resolver.Accepted (r : Resolver) : Prop where
  resolve : ∀ i interface, r.resolve i = .ok interface → interface.Accepted
  reached : ∀ m interface, r.interface? m = some interface → interface.Accepted

section Accepted

variable {module : ModuleId} {r : Resolver} {p : Program} {unit : CheckedUnit}

theorem eq_unit_of_analyze (accepted : analyze module r p = .ok unit) :
    let o := Outline.ofProgram module r p
    unit = (Analysis.run o p).unit o p ∧ (Analysis.run o p).errors = #[] := by
  unfold analyze at accepted
  dsimp only at accepted
  split at accepted
  · next free =>
    cases accepted
    exact ⟨rfl, by simpa using free⟩
  · cases accepted

/-- The types in the interface of an accepted unit are tame, by induction along imports. -/
theorem Interface.Accepted.tame {interface : Interface} (h : interface.Accepted) :
    Within .tame interface := by
  induction h with
  | intro resolve reached distinct accepted ihResolve ihReached =>
    obtain ⟨rfl, -⟩ := eq_unit_of_analyze accepted
    have tame : Resolver.TypesTame _ :=
      ⟨fun i interface found => ihResolve i interface found,
        fun m interface found => ihReached m interface found⟩
    exact Analysis.interface_within (Analysis.coherent_run distinct tame).toTablesWithin trivial

theorem Resolver.Accepted.tame (h : r.Accepted) : r.TypesTame :=
  ⟨fun i interface found => (h.resolve i interface found).tame,
    fun m interface found => (h.reached m interface found).tame⟩

theorem coherent_of_analyze (distinct : p.ids.Nodup) (hr : r.Accepted)
    (accepted : analyze module r p = .ok unit) :
    ∃ (o : Outline) (s : Analysis), unit = s.unit o p ∧ s.Coherent o p.siteOf ∧ s.errors = #[] := by
  obtain ⟨rfl, free⟩ := eq_unit_of_analyze accepted
  exact ⟨_, _, rfl, Analysis.coherent_run distinct hr.tame, free⟩

/-! ### Texts without imports -/

/-- Answers no imports. -/
def Resolver.silent : Resolver :=
  ⟨fun _ => .error .failed, fun _ => none⟩

theorem Resolver.accepted_silent : Resolver.silent.Accepted :=
  ⟨fun _ _ found => (by cases found), fun _ _ found => (by cases found)⟩

/-- The unit of a text without imports, if it is accepted. -/
def unitOfText (text : String) : Option CheckedUnit := do
  let p ← (parseProgram .inferred text).toOption
  (analyze ⟨"main"⟩ .silent p).toOption

theorem exists_of_unitOfText (text : String) (P : CheckedUnit → Bool)
    (h : (unitOfText text).any P = true) : ∃ p unit, parseProgram .inferred text = .ok p ∧
      analyze ⟨"main"⟩ .silent p = .ok unit ∧ p.ids.Nodup ∧ P unit = true := by
  have ok {ε α : Type} {x : Except ε α} {a : α} (h : x.toOption = some a) : x = .ok a := by
    cases x with
    | error e => cases h
    | ok b =>
      cases h
      rfl
  obtain ⟨unit, found, holds⟩ : ∃ unit, unitOfText text = some unit ∧ P unit = true := by
    cases found : unitOfText text with
    | none => simp [found] at h
    | some unit => exact ⟨unit, rfl, by simpa [found] using h⟩
  obtain ⟨p, parsed, accepted⟩ := Option.bind_eq_some_iff.mp found
  obtain ⟨-, n, numbered⟩ := parseProgram_builds (ok parsed)
  exact ⟨p, unit, ok parsed, ok accepted, numbered ▸ nodup_range, holds⟩

end Accepted

end ArkLang
