import ArkLang.Proofs.LoweredUnits

/-!
# Closed captures

A procedure in a block captures what its code, and the code of procedures inside it, takes from the
code around it. A symbol that is used deep inside is handed in through all procedures on the way:
from the use outwards, each of them captures the symbol, up to the one whose frame holds it. So a
symbol that lowered code reads from an environment is a field of that environment.
-/

namespace ArkLang

namespace CheckedUnit

/-- A node reads a symbol, or calls the procedure that it stands for. -/
def UsesAt (u : CheckedUnit) (n : NodeId) (id : SymbolId) : Prop :=
  u.resolutions.get? n = some (.var id) ∨
    ∃ proc supplied total, u.calls.get? n = some (.nestedProc id proc supplied total)

/-- A node stands in the code of a procedure, and not in that of one inside it. -/
def StandsIn (u : CheckedUnit) (n : NodeId) (proc : ProcInfo) : Prop :=
  (u.program.siteOf n).proc = some proc.decl

/-- The code of a procedure finds a symbol in its own frame: the frame holds the symbol, or the
symbol is that of the procedure itself. -/
def HasOwn (proc : ProcInfo) (sym : SymbolInfo) : Prop :=
  sym.owner = some proc.id ∨ sym.kind = .nestedProc proc.id

/-- A node is in a procedure, or in one inside it, and no procedure on the way out to it finds the
symbol in its own frame. -/
inductive HandedTo (u : CheckedUnit) (sym : SymbolInfo) (n : NodeId) : ProcInfo → Prop
  | here {proc : ProcInfo} (mem : proc ∈ u.procs) (stands : u.StandsIn n proc)
    (foreign : ¬HasOwn proc sym) : HandedTo u sym n proc
  | around {inner outer : ProcInfo} (inside : HandedTo u sym n inner) (mem : outer ∈ u.procs)
    (stands : u.StandsIn inner.decl outer) (foreign : ¬HasOwn outer sym) : HandedTo u sym n outer

end CheckedUnit

namespace Analysis

open CheckedUnit (UsesAt HasOwn HandedTo)

variable {o : Outline} {t : Analysis} {p : Program} (ht : t.Coherent o p.siteOf)

theorem mem_procs_unit {proc : ProcInfo} :
    proc ∈ (t.unit o p).procs ↔ ∃ q ∈ t.procs, q.info = proc :=
  Array.mem_map

include ht

theorem Coherent.captured_of_finds {sym : SymbolInfo} {site : Site} {proc : Option ProcId}
    (stands : t.StandsIn site proc) (finds : t.Finds sym proc) {q : ProcEntry} (mem : q ∈ t.procs)
    (here : site.proc = some q.info.decl) :
    HasOwn q.info sym ∨ sym.id ∈ q.info.captures := by
  obtain ⟨i, found⟩ := Array.mem_iff_getElem?.mp mem
  have same : proc = some i := Lower.standsIn_unique ht stands ⟨q, found, here⟩
  subst same
  have number := ht.procIds i q found
  rcases finds with owned | itself | ⟨q', found', captured⟩
  · exact .inl (.inl (by rw [owned, number]))
  · exact .inl (.inr (by rw [itself, number]))
  · rw [found] at found'
    cases found'
    exact .inr captured

theorem Coherent.captured_of_handedTo {n : NodeId} {id : SymbolId}
    (use : (t.unit o p).UsesAt n id) {sym : SymbolInfo} (found : t.symbols[id]? = some sym)
    (isLocal : sym.isGlobal = false) {proc : ProcInfo} (handed : (t.unit o p).HandedTo sym n proc) :
    id ∈ proc.captures := by
  have number := ht.symbolIds id sym found
  have uses : t.Uses (p.siteOf n) id := by
    rcases use with read | ⟨callee, supplied, total, called⟩
    · exact ht.resolved n id read
    · exact ht.called n id callee supplied total called
  -- From the use outwards: what a procedure captures, the code around it can get at.
  induction handed with
  | here mem stands foreign =>
    obtain ⟨q, hq, rfl⟩ := mem_procs_unit.mp mem
    obtain ⟨sym', found', use⟩ := uses
    rw [found] at found'
    cases found'
    obtain ⟨around, inCode, finds, -⟩ := use isLocal
    exact number ▸ (ht.captured_of_finds inCode finds hq stands).resolve_left foreign
  | around inside mem stands foreign ih =>
    obtain ⟨q, hq, rfl⟩ := mem_procs_unit.mp mem
    obtain ⟨inner, hinner, rfl⟩ : ∃ q ∈ t.procs, q.info = _ := by
      cases inside with
      | here mem => exact mem_procs_unit.mp mem
      | around _ mem => exact mem_procs_unit.mp mem
    obtain ⟨sym', found', -, -, nested, finds⟩ := ht.captures inner hinner id ih
    rw [found] at found'
    cases found'
    exact number ▸
      (ht.captured_of_finds (ht.nested inner hinner nested) finds hq stands).resolve_left foreign

theorem Coherent.source_of_capture {q : ProcEntry} (mem : q ∈ t.procs) {id : SymbolId}
    (captured : id ∈ q.info.captures) : q.info.isNested = true ∧
      ∃ sym, t.symbols[id]? = some sym ∧ sym.isGlobal = false ∧
        ((p.siteOf q.info.decl).proc = none ∧ sym.owner = none ∨
          ∃ outer ∈ (t.unit o p).procs, (t.unit o p).StandsIn q.info.decl outer ∧
            (HasOwn outer sym ∨ id ∈ outer.captures)) := by
  obtain ⟨sym, found, isLocal, -, nested, finds⟩ := ht.captures q mem id captured
  refine ⟨nested, sym, found, isLocal, ?_⟩
  have stands := ht.nested q mem nested
  cases around : q.info.nestedIn with
  | none =>
    rw [around] at stands finds
    exact .inl ⟨stands, finds⟩
  | some i =>
    rw [around] at stands finds
    have ⟨outer, houter, here⟩ := stands
    have memOuter := Array.mem_of_getElem? houter
    refine .inr ⟨outer.info, mem_procs_unit.mpr ⟨outer, memOuter, rfl⟩, here, ?_⟩
    exact ht.symbolIds id sym found ▸ ht.captured_of_finds stands finds memOuter here

end Analysis

/-- Captures are complete and come from the code around a procedure, procedures outside of blocks
have none, and what lowered code reads from an environment is there. -/
theorem captures_closed (module : ModuleId) (r : Resolver) (p : Program) (unit : CheckedUnit)
    (distinct : p.ids.Nodup) (imports : r.Accepted) (accepted : analyze module r p = .ok unit) :
    (∀ n id sym, unit.UsesAt n id → unit.symbols[id]? = some sym → sym.isGlobal = false →
      ∀ proc, unit.HandedTo sym n proc → proc.captures.count id = 1) ∧
    (∀ proc ∈ unit.procs, ∀ id ∈ proc.captures, ∃ sym, unit.symbols[id]? = some sym ∧
      sym.isGlobal = false ∧ ((unit.program.siteOf proc.decl).proc = none ∧ sym.owner = none ∨
        ∃ outer ∈ unit.procs, unit.StandsIn proc.decl outer ∧
          (CheckedUnit.HasOwn outer sym ∨ id ∈ outer.captures))) ∧
    (∀ proc ∈ unit.procs, proc.isNested = false → proc.captures = []) ∧
    ∀ table state next, Lower.module { unit, table } state = .ok ((), next) →
      (∀ g ∈ next.sections.globals, g ∈ state.sections.globals ∨ ∀ e ∈ g.value, e.accesses = []) ∧
      ∀ f ∈ next.sections.functions, f ∈ state.sections.functions ∨
        ∀ x ∈ C.Stmt.accessesAll f.body, ∃ proc ∈ unit.procs, ∃ env ∈ next.sections.environments,
          env.IsFor unit proc ∧ x.2 ∈ env.fields.map Prod.snd ∧
            (x.1, env.name) ∈ C.Stmt.openedAll f.body ∧
            (x.1 = .env → f.sig.name = unit.functionName proc) := by
  obtain ⟨o, t, rfl, ht, -⟩ := coherent_of_analyze distinct imports accepted
  refine ⟨fun n id sym use found isLocal proc handed => ?_, fun proc mem id captured => ?_,
    fun proc mem outside => ?_, fun table state next lowered => ?_⟩
  · have captured := ht.captured_of_handedTo use found isLocal handed
    have nodup : proc.captures.Nodup := by
      cases handed with
      | here mem | around _ mem =>
        obtain ⟨q, hq, rfl⟩ := Analysis.mem_procs_unit.mp mem
        exact ht.capturesNodup q hq
    exact List.count_eq_one_of_mem nodup captured
  · obtain ⟨q, hq, rfl⟩ := Analysis.mem_procs_unit.mp mem
    exact (ht.source_of_capture hq captured).2
  · obtain ⟨q, hq, rfl⟩ := Analysis.mem_procs_unit.mp mem
    refine List.eq_nil_iff_forall_not_mem.mpr fun id captured => ?_
    rw [(ht.source_of_capture hq captured).1] at outside
    cases outside
  · have sound := sectionsSound_module distinct imports accepted lowered
    refine ⟨sound.globals, fun f mem => (sound.functions f mem).imp_right fun h x access => ?_⟩
    obtain ⟨proc, hproc, env, known, isFor, captured, opened, own⟩ := h.accesses x access
    exact ⟨proc, hproc, env, Array.mem_toList_iff.mp known, isFor, isFor.fields ▸ captured,
      opened, own⟩

/-- A number that is handed through `g`, whose code does not use it, to `h`. -/
theorem captures_closed_handed : ∃ p unit next, parseProgram .inferred "f() {
      n := 1
      g() {
        h() { return n }
        return h()
      }
      return g()
    }" = .ok p ∧ analyze ⟨"main"⟩ .silent p = .ok unit ∧
    Lower.module { unit, table := .ofUnits [unit] } {} = .ok ((), next) ∧
    (∃ n sym g, unit.UsesAt n 0 ∧ unit.symbols[0]? = some sym ∧ unit.procs[1]? = some g ∧
      unit.HandedTo sym n g ∧ g.captures.count 0 = 1) ∧
    (∃ f ∈ next.sections.functions, (.env, 0) ∈ C.Stmt.accessesAll f.body) ∧
    ∀ f ∈ next.sections.functions, ∀ x ∈ C.Stmt.accessesAll f.body,
      ∃ env ∈ next.sections.environments, x.2 ∈ env.fields.map Prod.snd := by
  obtain ⟨p, unit, next, parsed, accepted, distinct, lowered, facts⟩ := exists_of_loweredText
    "f() {
      n := 1
      g() {
        h() { return n }
        return h()
      }
      return g()
    }" (fun unit sections => decide (unit.resolutions.get? 5 = some (.var 0) ∧
      unit.symbols[0]?.any (fun sym => !sym.isGlobal && sym.owner = some 0 && sym.kind = .var) ∧
      unit.procs[1]?.any (fun g => g.id = 1 ∧ (unit.program.siteOf 4).proc = some g.decl) ∧
      unit.procs[2]?.any (fun h =>
        h.id = 2 ∧ h.decl = 4 ∧ (unit.program.siteOf 5).proc = some h.decl) ∧
      ∃ f ∈ sections.functions, (.env, 0) ∈ C.Stmt.accessesAll f.body)) (by decide +kernel)
  obtain ⟨read, hsym, hg, hh, accessed⟩ := of_decide_eq_true facts
  obtain ⟨sym, found, hsym⟩ := (Option.any_eq_true _ _).mp hsym
  obtain ⟨g, foundg, hg⟩ := (Option.any_eq_true _ _).mp hg
  obtain ⟨h, foundh, hh⟩ := (Option.any_eq_true _ _).mp hh
  simp only [Bool.and_eq_true, Bool.not_eq_true', decide_eq_true_eq] at hsym hg hh
  obtain ⟨⟨isLocal, owner⟩, kind⟩ := hsym
  obtain ⟨numberg, around⟩ := hg
  obtain ⟨numberh, declh, inside⟩ := hh
  have closed := captures_closed ⟨"main"⟩ .silent p unit distinct Resolver.accepted_silent accepted
  have handed : unit.HandedTo sym 5 g := by
    refine .around (.here (Array.mem_of_getElem? foundh) inside ?_) (Array.mem_of_getElem? foundg)
      (declh ▸ around) ?_
    · simp [CheckedUnit.HasOwn, owner, kind, numberh]
    · simp [CheckedUnit.HasOwn, owner, kind, numberg]
  refine ⟨p, unit, next, parsed, accepted, lowered, ⟨5, sym, g, .inl read, found, foundg, handed,
    closed.1 5 0 sym (.inl read) found isLocal g handed⟩, accessed, fun f mem x access => ?_⟩
  have there := ((closed.2.2.2 _ _ _ lowered).2 f mem).resolve_left (by simp)
  obtain ⟨-, -, env, known, -, field, -⟩ := there x access
  exact ⟨env, known, field⟩

end ArkLang
