import ArkLang.Proofs.Jumps
import ArkLang.Proofs.LoweredCode

/-!
# Lowered units

A unit is lowered declaration by declaration, and then its module-level code. The functions of its
procedures and of its module-level code are sound; so are those that records and defaults bring
along.
-/

namespace ArkLang

open List
open C (Covered Point)
open C.Expr (ReadsOnly)

theorem Stmt.placed_of_top {sites : NodeId → Site} {ss : List Stmt}
    (h : Placed sites (ss.flatMap Stmt.topSites)) : Placed sites (Stmt.sitesAll none ss) := by
  induction ss with
  | nil => exact h
  | cons st rest ih =>
    obtain ⟨first, others⟩ := placed_append.mp h
    refine placed_append.mpr ⟨?_, ih others⟩
    cases st with
    -- As a statement an artifact only has the values of its properties, which its members have as
    -- well.
    | artifact decl =>
      refine Site.placed_mark.mpr fun n mem => ?_
      obtain ⟨prop, hprop, here⟩ := List.mem_flatMap.mp mem
      obtain ⟨member, hmember, found⟩ := List.mem_filterMap.mp hprop
      cases member with
      | prop decl =>
        cases found
        have all : Placed sites (prop.sites none) :=
          fun x hx => first x (List.mem_flatMap.mpr ⟨_, hmember, hx⟩)
        exact Site.placed_mark.mp (placed_cons.mp all).2 n here
      | _ => cases found
    | _ => exact first

theorem Member.ids_sublist_idsAll {member : Member} {members : List Member}
    (mem : member ∈ members) : member.ids.Sublist (Member.idsAll members) := by
  induction members with
  | nil => cases mem
  | cons first rest ih =>
    rw [Member.idsAll]
    rcases List.mem_cons.mp mem with rfl | later
    · exact sublist_append_left _ _
    · exact (ih later).trans (sublist_append_right _ _)

namespace Lower

variable {o : Outline} {sites : NodeId → Site} {t : Analysis} {p : Program} {c : LowerContext}
variable {before : C.Sections} {s : LowerState}

/-! ### Storage and records -/

theorem emits_storage {decl : VarDecl}
    (reach : Reachable c {} [] decl.valueIds) (name : C.Name) (type : Ty) (mutable : Bool) :
    Emits c before s (storage decl name type mutable) fun _ _ => True := by
  refine (yields_cType _).then fun typeName s₁ _ _ => ?_
  refine (yields_isStoredConstant _ _ _).then fun isConst s₂ _ _ => ?_
  split
  · next e _ found =>
    rw [VarDecl.valueIds, found] at reach
    refine (yields_exprValue reach).then fun init s₃ _ silent => ?_
    have silent : ∀ e ∈ some init, e.accesses = [] := by simpa using silent.accesses_eq_nil
    exact (emits_addGlobal silent).bind fun _ s₄ _ _ => emits_pure trivial
  · exact (emits_addGlobal (by simp)).bind fun _ s₃ _ _ => emits_pure trivial

variable {entries : List (PropInfo × VarDecl)}

theorem emits_namespaceStorage (ref : ArtifactRef)
    (reach : ∀ x ∈ entries, Reachable c {} [] x.2.valueIds) :
    Emits c before s (namespaceStorage ref entries) fun _ _ => True := by
  induction entries generalizing s with
  | nil => exact emits_pure trivial
  | cons entry rest ih =>
    obtain ⟨first, others⟩ := List.forall_mem_cons.mp reach
    refine (emits_storage first _ _ _).bind fun _ s₁ _ _ => ?_
    exact (ih others).bind fun _ s₂ _ _ => emits_pure trivial

theorem yields_fieldParams (props : List PropInfo) :
    Yields c (fieldParams props) fun _ => True := by
  induction props with
  | nil => exact yields_pure trivial
  | cons prop rest ih =>
    exact yields_bind (yields_cType _) fun _ _ => yields_bind ih fun _ _ => yields_pure trivial

theorem yields_fieldDefaults
    (reach : ∀ x ∈ entries, Reachable c {} [] x.2.valueIds) :
    Yields c (fieldDefaults entries) fun defaults => ∀ e ∈ defaults, e.accesses = [] := by
  induction entries with
  | nil => exact yields_pure (by simp)
  | cons entry rest ih =>
    obtain ⟨first, others⟩ := List.forall_mem_cons.mp reach
    refine yields_bind (yields_initialValue first _) fun e he => ?_
    refine yields_bind (ih others) fun es hes => yields_pure ?_
    exact List.forall_mem_cons.mpr ⟨he.accesses_eq_nil, hes⟩

theorem emits_addShortConstructors
    (ref : ArtifactRef) (record : C.TypeName) (fields : List C.Param) {defaults : List C.Expr}
    (silent : ∀ e ∈ defaults, e.accesses = []) (keeps : List Nat) :
    Emits c before s (addShortConstructors ref record fields defaults keeps) fun _ _ => True := by
  induction keeps generalizing s with
  | nil => exact emits_pure trivial
  | cons keep rest ih =>
    have added : Emits c before s (do
        let full := C.Name.constructor record
        let kept := fields.take keep
        let args := kept.map (fun f => C.Expr.ident f.name) ++ defaults.drop keep
        addFunction ⟨record, .omitting full (fields.length - keep), kept⟩
          [.ret (some (.call full args))]
        addShortConstructors ref record fields defaults rest) fun _ _ => True := by
      refine (emits_addFunction (.helper rfl ?_)).bind fun _ s₁ _ _ => ih
      have args : C.Expr.accessesAll ((fields.take keep).map (fun f => C.Expr.ident f.name) ++
          defaults.drop keep) = [] := by
        refine C.Expr.accessesAll_eq_nil.mpr (List.forall_mem_append.mpr ⟨fun e mem => ?_, ?_⟩)
        · obtain ⟨f, -, rfl⟩ := List.mem_map.mp mem
          rfl
        · exact fun e mem => silent e (mem_of_mem_drop mem)
      simp only [C.Stmt.accessesAll, C.Stmt.accesses, C.Expr.accesses, args, append_nil]
    unfold addShortConstructors
    split
    · exact .of_yields (yields_throw _)
    · exact added

theorem yields_artifact (ref : ArtifactRef) : Yields c (artifact ref) fun _ => True :=
  yields_bind yields_table fun t _ => yields_lift (t.inside_find ref) fun _ _ => trivial

theorem emits_record (ref : ArtifactRef)
    (reach : ∀ x ∈ entries, Reachable c {} [] x.2.valueIds) :
    Emits c before s (record ref entries) fun _ _ => True := by
  refine (yields_artifact ref).then fun info s₁ _ _ => ?_
  refine (yields_cType _).then fun name s₂ _ _ => ?_
  refine (yields_fieldParams _).then fun fields s₃ _ _ => ?_
  refine (yields_fieldDefaults reach).then fun defaults s₄ _ silent => ?_
  have set (fields : List C.Param) :
      C.Stmt.accessesAll (fields.map fun f => C.Stmt.setField f.name) = [] := by
    induction fields with
    | nil => rfl
    | cons f rest ih => simp [C.Stmt.accessesAll, C.Stmt.accesses, ih]
  refine (emits_addFunction (.helper rfl ?_)).bind fun _ s₅ _ _ => ?_
  · simp [C.Stmt.accessesAll_append, C.Stmt.accessesAll, C.Stmt.accesses, C.Expr.accesses, set]
  · refine (emits_addShortConstructors ref _ fields silent _).bind fun _ s₆ _ _ => ?_
    refine emits_addFunction (.helper rfl ?_)
    simp [C.Stmt.accessesAll, C.Stmt.accesses, C.Expr.accesses,
      C.Expr.accessesAll_eq_nil.mpr silent]

/-! ### Declarations -/

section Declarations

variable (ht : t.Coherent o sites) (hu : c.unit = t.unit o p)

include ht hu

theorem reachable_top {ids : List NodeId} (here : ∀ n ∈ ids, sites n = {}) :
    Reachable c {} [] ids :=
  reachable_of_standsIn (a := {}) ht hu (by rfl) here

theorem emits_procDecl {decl : ProcDecl}
    (placed : Placed sites (decl.sites none)) (distinct : decl.ids.Nodup) (jumps : decl.JumpsIn)
    {id : ProcId} {q : ProcEntry} (found : t.procs[id]? = some q)
    (declares : q.info.decl = decl.node.id) :
    Emits c before s (procDecl decl q.info) fun _ _ => True := by
  obtain ⟨node, name, params, ret, ⟨span, code⟩⟩ := decl
  have jumps : Stmt.AllJumpIn false true code := jumps
  obtain ⟨head, ofBody⟩ := placed_append.mp placed
  obtain ⟨-, ofParams⟩ := placed_cons.mp head
  have defaults : ∀ n ∈ Param.idsAll params,
      sites n = { proc := some q.info.decl, isDefault := true } :=
    declares ▸ Param.placed_sitesAll.mp ofParams
  refine (emits_procedure ht hu found defaults fun inner s₁ home unowned outer =>
    (emits_stmts ht hu code ⟨?_, ofBody, ?_, unowned⟩ (outer ▸ jumps)).weaken
      fun _ _ lowered => lowered.1).weaken fun _ _ _ => trivial
  · rw [home]
    exact ⟨q, found, by rw [declares]⟩
  · exact (List.nodup_cons.mp distinct).2.of_append_right

theorem emits_artifactProcs
    {decls : List ProcDecl}
    (h : ∀ decl ∈ decls, Placed sites (decl.sites none) ∧ decl.ids.Nodup ∧ decl.JumpsIn) :
    Emits c before s (artifactProcs decls) fun _ _ => True := by
  induction decls generalizing s with
  | nil => exact emits_pure trivial
  | cons decl rest ih =>
    obtain ⟨⟨placed, distinct, jumps⟩, others⟩ := List.forall_mem_cons.mp h
    refine (yields_procOf ht hu decl.node.id).then fun info s₁ _ hinfo => ?_
    obtain ⟨id, q, found, declares, rfl⟩ := hinfo
    exact (emits_procDecl ht hu placed distinct jumps found declares).bind fun _ s₂ _ _ => ih others

theorem emits_artifactDecl {decl : ArtifactDecl}
    (placed : Placed sites (decl.members.flatMap Member.sites)) (distinct : decl.ids.Nodup)
    (jumps : ∀ d ∈ decl.procs, d.JumpsIn) :
    Emits c before s (artifactDecl decl) fun _ _ => True := by
  have placedMember (member : Member) (mem : member ∈ decl.members) :
      Placed sites member.sites :=
    fun x hx => placed x (List.mem_flatMap.mpr ⟨member, mem, hx⟩)
  have props (infos : List PropInfo) (x : PropInfo × VarDecl) (mem : x ∈ infos.zip decl.props) :
      Reachable c {} [] x.2.valueIds := by
    obtain ⟨member, hmember, found⟩ := List.mem_filterMap.mp (of_mem_zip mem).2
    cases member with
    | prop decl =>
      cases found
      exact reachable_top ht hu (Site.placed_mark.mp (placed_cons.mp (placedMember _ hmember)).2)
    | _ => cases found
  have members : (Member.idsAll decl.members).Nodup := by
    cases decl
    exact (List.nodup_cons.mp distinct).2
  have procs (proc : ProcDecl) (mem : proc ∈ decl.procs) :
      Placed sites (proc.sites none) ∧ proc.ids.Nodup ∧ proc.JumpsIn := by
    have jumps := jumps proc mem
    obtain ⟨member, hmember, found⟩ := List.mem_filterMap.mp mem
    cases member with
    | proc decl =>
      cases found
      exact ⟨placedMember _ hmember,
        (Member.ids_sublist_idsAll hmember).nodup members, jumps⟩
    | _ => cases found
  refine yields_unit.then fun u s₁ _ _ => ?_
  refine (yields_artifact _).then fun info s₂ _ _ => ?_
  have rest (s₃ : LowerState)
      (owned : List Owned) :
      Emits c before s₃ (do artifactProcs decl.procs; pure owned) fun _ _ => True :=
    (emits_artifactProcs ht hu procs).bind fun _ s₄ _ _ => emits_pure trivial
  cases decl.kind with
  | enumeration =>
    exact (emits_addTo rfl rfl (List.Subset.refl _)).bind fun _ s₃ _ _ => rest s₃ _
  | namespaced =>
    exact (emits_namespaceStorage _ (props _)).bind fun _ s₃ _ _ => rest s₃ _
  | record =>
    exact (emits_record _ (props _)).bind fun _ s₃ _ _ => rest s₃ _

theorem emits_decl {st : Stmt}
    (placed : Placed sites st.topSites) (distinct : st.ids.Nodup) (jumps : st.JumpsIn false false)
    (members : ∀ a, st = .artifact a → ∀ d ∈ a.procs, d.JumpsIn) :
    Emits c before s (decl st) fun _ _ => True := by
  cases st with
  | artifact a => exact emits_artifactDecl ht hu placed distinct (members a rfl)
  | proc decl =>
    refine (yields_procOf ht hu decl.node.id).then fun info s₁ _ hinfo => ?_
    obtain ⟨id, q, found, declares, rfl⟩ := hinfo
    split
    · exact (emits_procDecl ht hu placed distinct jumps found declares).bind
        fun _ s₂ _ _ => emits_pure trivial
    · exact emits_pure trivial
  | var v =>
    refine (yields_symbolOf _).then fun sym s₁ _ _ => ?_
    refine (yields_globalName _).then fun name s₂ _ _ => ?_
    exact emits_storage
      (reachable_top ht hu (Site.placed_mark.mp (placed_cons.mp placed).2)) _ _ _
  | _ => exact emits_pure trivial

theorem emits_decls {ss : List Stmt}
    (placed : Placed sites (ss.flatMap Stmt.topSites)) (distinct : (Stmt.idsAll ss).Nodup)
    (jumps : Stmt.AllJumpIn false false ss)
    (members : ∀ a, .artifact a ∈ ss → ∀ d ∈ a.procs, d.JumpsIn) :
    Emits c before s (decls ss) fun _ _ => True := by
  induction ss generalizing s with
  | nil => exact emits_pure trivial
  | cons st rest ih =>
    obtain ⟨first, others⟩ := placed_append.mp placed
    refine (emits_decl ht hu first distinct.of_append_left jumps.1 fun a same =>
      members a (same ▸ mem_cons_self)).bind fun _ s₁ _ _ => ?_
    exact (ih others distinct.of_append_right jumps.2 fun a mem =>
      members a (mem_cons_of_mem _ mem)).bind fun _ s₂ _ _ => emits_pure trivial

/-! ### Module-level code -/

omit ht hu in
theorem functionSound_start {code releases : List C.Stmt} {a : Activation} {jumps : Bool}
    {nodes : List NodeId} {envs : List C.Environment}
    (lowered : Lowered c.unit sites nodes jumps {} code a envs)
    (releasing : C.Releasing releases (a.ownedByBlocks.map Owned.name)) :
    FunctionSound c.unit envs ⟨.action (.moduleStart c.unit.module), code ++ releases⟩ := by
  have params : a.params = [] := lowered.params
  have lists : listsOf a = a.ownedByBlocks.map Owned.name := by
    rw [listsOf, Activation.ownedByFunction, params, append_nil]
  refine ⟨.inr (.inr ⟨rfl, ?_⟩), fun x access => ?_⟩
  · rw [C.Function.Releases, C.Stmt.releasesTo_append]
    refine lowered.releases false _ fun jumped' _ => ?_
    rw [C.Stmt.releasesTo_releases releasing, nil_append, ← lists]
    have ends := endsFunction_of_released lowered.distinct jumped'
    rwa [params] at ends
  · have silent : C.Stmt.accessesAll releases = [] :=
      C.Stmt.accessesAll_eq_nil.mpr (accesses_of_releasing releasing)
    rw [C.Stmt.accessesAll_append, silent, append_nil] at access
    rcases lowered.covered x access with ⟨-, own⟩ | ⟨other, proc, hproc, env, known, isFor,
      captured, opened⟩
    -- The function has no environment of its own.
    · cases own
    · refine ⟨proc, hproc, env, known, isFor, captured, ?_, fun same => absurd same other⟩
      rw [C.Stmt.openedAll_append]
      exact mem_append_left _ opened

theorem emits_module (placed : Placed sites p.sites)
    (distinct : p.ids.Nodup) (jumps : p.JumpsIn) :
    Emits c before s Lower.module fun _ _ => True := by
  have program : c.unit.program = p := by
    rw [hu]
    rfl
  refine yields_unit.then fun u s₁ _ hunit => ?_
  rw [hunit, program]
  refine (emits_decls ht hu placed distinct jumps.1 jumps.2).bind fun owned s₂ _ _ => ?_
  -- Module-level code is lowered as a function of its own, which has no parameters and captures
  -- nothing.
  refine Emits.bind (Q := fun start envs =>
      FunctionSound c.unit envs ⟨.action (.moduleStart c.unit.module), start⟩)
    (emits_inFunction fun s₃ same => ?_) fun start s₃ _ hstart => ?_
  · have nothing : Unowned c.unit sites {} (Stmt.idsAll p.stmts) :=
      ⟨nodup_nil, fun _ _ _ _ _ _ => not_mem_nil⟩
    refine (emits_stmts ht hu p.stmts (a := {}) (d := none)
      ⟨rfl, Stmt.placed_of_top placed, distinct, nothing⟩ jumps.1).bind fun r s₄ _ lowered => ?_
    refine (yields_releaseAll _).then fun releases s₅ same₅ releasing => ?_
    exact emits_pure (functionSound_start (same₅ ▸ lowered.1) releasing)
  refine (yields_releaseAll _).then fun finish s₄ same₄ releasing => ?_
  have silent := C.Stmt.accessesAll_eq_nil.mpr (accesses_of_releasing releasing)
  refine (emits_addFunction (same₄ ▸ hstart)).bind fun _ s₅ _ _ => ?_
  refine (emits_addFunction (.helper rfl silent)).bind fun _ s₆ _ _ => ?_
  exact (emits_addTo rfl rfl (List.Subset.refl _)).weaken fun _ _ _ => trivial

end Declarations

end Lower

/-- What an accepted unit adds to a program, whatever has been added before. -/
theorem emits_of_analyze {module : ModuleId} {r : Resolver} {p : Program} {unit : CheckedUnit}
    (distinct : p.ids.Nodup) (imports : r.Accepted) (accepted : analyze module r p = .ok unit)
    (table : ArtifactTable) (state : LowerState) :
    Lower.Emits { unit, table } state.sections state Lower.module fun _ _ => True := by
  have jumps := jumpsIn_of_analyze distinct accepted
  obtain ⟨o, t, rfl, coherent, -⟩ := coherent_of_analyze distinct imports accepted
  have placed : Placed p.siteOf p.sites := fun x mem => p.siteOf_eq distinct mem
  exact Lower.emits_module (c := { unit := t.unit o p, table }) coherent rfl placed distinct jumps

theorem sectionsSound_module {module : ModuleId} {r : Resolver} {p : Program} {unit : CheckedUnit}
    (distinct : p.ids.Nodup) (imports : r.Accepted) (accepted : analyze module r p = .ok unit)
    {table : ArtifactTable} {state next : LowerState}
    (lowered : Lower.module { unit, table } state = .ok ((), next)) :
    SectionsSound unit state.sections next.sections :=
  ((emits_of_analyze distinct imports accepted table state).gives (.refl _ _) _ _ lowered).1

/-- The unit of a text with what it adds to a program, if it is accepted and can be lowered. -/
def loweredText (text : String) : Option (CheckedUnit × C.Sections) := do
  let unit ← unitOfText text
  let (_, next) ← (Lower.module { unit, table := .ofUnits [unit] } {}).toOption
  return (unit, next.sections)

theorem exists_of_loweredText (text : String) (P : CheckedUnit → C.Sections → Bool)
    (h : (loweredText text).any (fun x => P x.1 x.2) = true) : ∃ p unit next,
      parseProgram .inferred text = .ok p ∧ analyze ⟨"main"⟩ .silent p = .ok unit ∧ p.ids.Nodup ∧
      Lower.module { unit, table := .ofUnits [unit] } {} = .ok ((), next) ∧
      P unit next.sections = true := by
  have succeeds : (unitOfText text).any (fun unit =>
      (Lower.module { unit, table := .ofUnits [unit] } {}).toOption.any (P unit ·.2.sections)) := by
    rw [loweredText] at h
    cases found : unitOfText text with
    | none => simp [found] at h
    | some unit =>
      cases run : Lower.module { unit, table := .ofUnits [unit] } {} with
      | error e => simp [found, run, Except.toOption] at h
      | ok x => simpa [found, run, Except.toOption] using h
  obtain ⟨p, unit, parsed, accepted, distinct, holds⟩ := exists_of_unitOfText text _ succeeds
  cases run : Lower.module { unit, table := .ofUnits [unit] } {} with
  | error e => simp [run, Except.toOption] at holds
  | ok x =>
    rw [run] at holds
    exact ⟨p, unit, x.2, parsed, accepted, distinct, run, holds⟩

/-- Every exit of a lowered procedure, and of lowered module-level code, releases exactly the lists
that are live there. -/
theorem lists_released (module : ModuleId) (r : Resolver) (p : Program) (unit : CheckedUnit)
    (distinct : p.ids.Nodup) (imports : r.Accepted) (accepted : analyze module r p = .ok unit)
    (table : ArtifactTable) (state next : LowerState)
    (lowered : Lower.module { unit, table } state = .ok ((), next)) :
    ∀ f ∈ next.sections.functions, f ∈ state.sections.functions ∨ f.sig.name.isHelper = true ∨
      (∃ proc ∈ unit.procs, f.sig.name = unit.functionName proc ∧
        f.Releases unit (unit.listParams proc) (decide (proc.ret = .void))) ∨
      f.sig.name = .moduleStart unit.module ∧ f.Releases unit [] true :=
  fun f mem => ((sectionsSound_module distinct imports accepted lowered).functions f mem).imp_right
    (·.releases)

/-- A procedure that leaves a loop and returns behind it. -/
theorem lists_released_loop : ∃ p unit next, parseProgram .inferred "f(xs: [int]): int {
      while true {
        ys: [int] = [1]
        break
      }
      return len(xs)
    }" = .ok p ∧ analyze ⟨"main"⟩ .silent p = .ok unit ∧
    Lower.module { unit, table := .ofUnits [unit] } {} = .ok ((), next) ∧
    (∃ f ∈ next.sections.functions, f.sig.name = .member ⟨"main"⟩ ["f"]) ∧
    ∀ f ∈ next.sections.functions, f.sig.name.isHelper = true ∨
      (∃ proc ∈ unit.procs, f.sig.name = unit.functionName proc ∧
        f.Releases unit (unit.listParams proc) (decide (proc.ret = .void))) ∨
      f.sig.name = .moduleStart unit.module ∧ f.Releases unit [] true := by
  obtain ⟨p, unit, next, parsed, accepted, distinct, lowered, names⟩ := exists_of_loweredText
    "f(xs: [int]): int {
      while true {
        ys: [int] = [1]
        break
      }
      return len(xs)
    }" (fun _ sections => decide (∃ f ∈ sections.functions, f.sig.name = .member ⟨"main"⟩ ["f"]))
    (by decide +kernel)
  refine ⟨p, unit, next, parsed, accepted, lowered, of_decide_eq_true names, fun f mem => ?_⟩
  have released := lists_released ⟨"main"⟩ .silent p unit distinct Resolver.accepted_silent accepted
    (.ofUnits [unit]) {} next lowered f mem
  exact released.resolve_left (by simp)

/-- In an accepted program every `break` and `skip` stands in a loop of its own procedure and every
`return` in a procedure, so lowering never meets a jump with no loop around it. -/
theorem jumps_enclosed (module : ModuleId) (r : Resolver) (p : Program) (unit : CheckedUnit)
    (distinct : p.ids.Nodup) (imports : r.Accepted) (accepted : analyze module r p = .ok unit) :
    p.JumpsIn ∧ ∀ table state, Lower.module { unit, table } state ≠ .error .jumpOutsideLoop :=
  ⟨jumpsIn_of_analyze distinct accepted,
    fun table state => (emits_of_analyze distinct imports accepted table state).inside (.refl _ _)⟩

/-- Jumps in a nested procedure, in a method and in module-level code. -/
theorem jumps_enclosed_nested : ∃ p unit, parseProgram .inferred "R :: {
      n := 0
      next() {
        while true {
          .n > 3 { break }
          .n = .n + 1
        }
        return .n
      }
    }
    f() {
      i, 0..3 {
        g() { return 1 }
        { i == 1 { skip } }
      }
    }
    while true { break }" = .ok p ∧ analyze ⟨"main"⟩ .silent p = .ok unit ∧ p.JumpsIn ∧
    ∀ table state, Lower.module { unit, table } state ≠ .error .jumpOutsideLoop := by
  obtain ⟨p, unit, parsed, accepted, distinct, -⟩ := exists_of_unitOfText "R :: {
      n := 0
      next() {
        while true {
          .n > 3 { break }
          .n = .n + 1
        }
        return .n
      }
    }
    f() {
      i, 0..3 {
        g() { return 1 }
        { i == 1 { skip } }
      }
    }
    while true { break }" (fun _ => true) (by decide +kernel)
  exact ⟨p, unit, parsed, accepted, jumps_enclosed ⟨"main"⟩ .silent p unit distinct
    Resolver.accepted_silent accepted⟩

end ArkLang
