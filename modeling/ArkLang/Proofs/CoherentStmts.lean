import ArkLang.Proofs.CoherentChecks

/-!
# Statements keep the tables aligned

Statements declare symbols and procedures. A new symbol belongs to the procedure that the code
stands in, so the context behind its declaration still describes where code stands. A procedure is
declared once by its node, since no node belongs to two statements or items.
-/

namespace ArkLang

open List
open Scoped (within_all)
open Analysis

variable {o : Outline} {sites : NodeId → Site} {s s' : Analysis}

/-! ### Contexts -/

namespace Context

variable {c : Context} {site : Site}

theorem procs_bind (name : String) (id : SymbolId) : (c.bind name id).procs = c.procs := by
  unfold bind
  split <;> rfl

theorem inLoop_bind (name : String) (id : SymbolId) : (c.bind name id).inLoop = c.inLoop := by
  unfold bind
  split <;> rfl

theorem reachedBy_of_owner {sym : SymbolInfo} {procs : List ProcId} (h : sym.owner = procs.head?) :
    s.ReachedBy sym procs := by
  cases procs with
  | nil => exact h
  | cons id outer => exact .inl h

theorem Fits.bind (fits : c.Fits site s) {id : SymbolId} {sym : SymbolInfo}
    (found : s.symbols[id]? = some sym) (isLocal : sym.isGlobal = false)
    (owner : sym.owner = c.proc) (name : String) : (c.bind name id).Fits site s := by
  have new : ∃ sym, s.symbols[id]? = some sym ∧ sym.isGlobal = false ∧ s.ReachedBy sym c.procs ∧
      (site.isDefault = true → sym.owner = c.proc) :=
    ⟨sym, found, isLocal, reachedBy_of_owner owner, fun _ => owner⟩
  refine ⟨?_, fun frame mem x hx => ?_⟩
  · rw [Context.proc, procs_bind]
    exact fits.proc
  · rw [Context.proc, procs_bind]
    unfold Context.bind at mem
    split at mem
    · next first outer frames =>
      rcases List.mem_cons.mp mem with rfl | mem
      · rcases List.mem_append.mp hx with hx | hx
        · exact fits.frames first (by simp [frames]) x hx
        · rw [List.mem_singleton.mp hx]
          exact new
      · exact fits.frames frame (by simp [frames, mem]) x hx
    · rw [List.mem_singleton.mp mem] at hx
      rw [List.mem_singleton.mp hx]
      exact new

theorem Fits.enter (fits : c.Fits site s) (inLoop : Bool) : (c.enter inLoop).Fits site s := by
  refine ⟨fits.proc, fun frame mem x hx => ?_⟩
  rcases List.mem_cons.mp mem with rfl | mem
  · cases hx
  · exact fits.frames frame mem x hx

theorem fits_module (noFrames : c.frames = []) (noProcs : c.procs = []) : c.Fits {} s := by
  refine ⟨?_, fun frame mem => ?_⟩
  · rw [Context.proc, noProcs]
    rfl
  · rw [noFrames] at mem
    cases mem

end Context

namespace Check

/-! ### New entries -/

section Declarations

variable {α : Type} {nodes : List NodeId} {Q : α → Analysis → Prop}

/-- A local symbol of a procedure was just added, and no node declares it yet. -/
def Added (s : Analysis) (owner : Option ProcId) (kind : SymbolKind) (id : SymbolId) : Prop :=
  (∃ sym, s.symbols[id]? = some sym ∧ sym.kind = kind ∧ sym.isGlobal = false ∧
    sym.owner = owner) ∧ ∀ n, s.declSymbols.get? n ≠ some id

theorem leaves_attempt {x : Check α} (h : Leaves o sites nodes s x Q) :
    Leaves o sites nodes s (attempt x) fun r s' => ∀ a, r = .ok a → Q a s' := by
  refine leaves_tryCatch ?_ fun e s₁ hs₁ _ => leaves_pure hs₁ (by simp)
  rw [← bind_pure_comp]
  have mapped : Leaves o sites (nodes ++ []) s (x >>= fun a => pure (Except.ok a))
      fun (r : Except SemanticError α) s' => ∀ a, r = .ok a → Q a s' := by
    refine h.bind fun a s₁ hs₁ _ _ q => leaves_pure hs₁ ?_
    rintro _ ⟨⟩
    exact q
  exact mapped.mono (by simp) fun _ _ h => h

theorem leaves_newSymbol (hs : s.Aligned o sites) (c : Context) (name : Ident) (kind : SymbolKind)
    (type : Ty) {mutable : Bool} (isVar : mutable = true → kind = .var) :
    Leaves o sites [] s (newSymbol c name kind type mutable)
      fun id s' => Added s' c.proc kind id ∧ s.symbols.size ≤ id := by
  let sym : SymbolInfo :=
    { id := s.symbols.size, name := name.value, kind, type, mutable, isGlobal := false,
      owner := c.proc, depth := c.frames.length, span := name.span }
  have grows : s.Grows { s with symbols := s.symbols.push sym } :=
    (Change.newSymbol (o := o) (K := {}) s rfl rfl isVar).grows
  have pushed : Leaves o sites [] s
      (modify fun s => { s with symbols := s.symbols.push sym } : Check Unit)
      fun _ t => Added t c.proc kind s.symbols.size := by
    refine leaves_modify (hs.newSymbol rfl rfl grows) grows (fun others fresh _ => fresh)
      ⟨⟨sym, by simp, rfl, rfl, rfl⟩, fun n declares => ?_⟩
    obtain ⟨other, found, -⟩ := hs.declared n _ declares
    simp at found
  exact leaves_get (pushed.andThen fun _ s₁ hs₁ _ _ h => leaves_pure hs₁ ⟨h, Nat.le_refl _⟩)

theorem leaves_declare (hs : s.Aligned o sites) {c : Context} {site : Site} (fits : c.Fits site s)
    (name : Ident) (kind : SymbolKind) (type : Ty) {mutable : Bool}
    (isVar : mutable = true → kind = .var) :
    Leaves o sites [] s (declare c name kind type mutable) fun x s' =>
      Added s' c.proc kind x.1 ∧ x.2.Fits site s' ∧ x.2.procs = c.procs ∧
        s.symbols.size ≤ x.1 ∧ x.2.inLoop = c.inLoop := by
  unfold declare
  dsimp only
  split
  · exact (leaves_throw (Q := fun _ _ => False) hs _).andThen fun _ _ _ _ _ h => h.elim
  · refine (leaves_newSymbol hs c name kind type isVar).andThen fun id s₁ hs₁ later _ h => ?_
    obtain ⟨sym, found, -, isLocal, owner⟩ := h.1.1
    exact leaves_pure hs₁ ⟨h.1, (fits.grows later).bind found isLocal owner _,
      Context.procs_bind _ _, h.2, Context.inLoop_bind _ _⟩

theorem leaves_setDeclSymbol (hs : s.Aligned o sites) {owner : Option ProcId} {kind : SymbolKind}
    {symbol : SymbolId} (added : Added s owner kind symbol) {id : NodeId}
    (isVar : (sites id).isVar = true → kind = .var) :
    Leaves o sites [] s (setDeclSymbol id symbol) fun _ _ => True := by
  obtain ⟨⟨sym, found, rfl, -⟩, new⟩ := added
  have grows : s.Grows { s with declSymbols := s.declSymbols.insert id symbol } :=
    (Change.declSymbol (o := o) (K := { nodes := [id] }) s symbol mem_cons_self).grows
  exact leaves_modify (hs.setDeclSymbol found isVar new) grows (fun _ fresh _ => fresh) trivial

theorem leaves_setSymbolType (hs : s.Aligned o sites) {id : SymbolId} {type : Ty}
    (free : ∀ sym, s.symbols[id]? = some sym → sym.isGlobal = true ∨ type.containsList = false) :
    Leaves o sites [] s (setSymbolType id type) fun _ _ => True := by
  have grows : s.Grows { s with symbols := s.symbols.modify id fun x => { x with type } } :=
    (Change.symbolType (o := o) (K := {}) s id type).grows
  exact leaves_modify (hs.setSymbolType free grows) grows (fun _ fresh _ => fresh) trivial

theorem leaves_newProc (hs : s.Aligned o sites) {c : Context} {site : Site} (fits : c.Fits site s)
    (decl : ProcDecl) (here : (sites decl.node.id).proc = site.proc)
    (fresh : s.Fresh o [decl.node.id]) :
    Leaves o sites [decl.node.id] s (newProc c decl) fun id s' => o.procs[id]? = none ∧
      .body id ∉ s'.started ∧ ∃ p, s'.procs[id]? = some p ∧ p.info.decl = decl.node.id ∧
        p.info.isNested = true ∧ p.info.nestedIn = c.proc := by
  let entry : ProcEntry :=
    { info :=
        { id := s.procs.size, name := decl.name.value, path := [decl.name.value],
          decl := decl.node.id, params := [], ret := .unknown, kind := .nested c.proc,
          captures := [], nestedIn := c.proc }
      hasDeclaredRet := decl.ret.isSome }
  have grows : s.Grows { s with
      procs := s.procs.push entry
      procDecls := s.procDecls.insert entry.info.decl s.procs.size } :=
    (Change.newProc (o := o) (K := { nodes := [decl.node.id] }) s mem_cons_self rfl rfl).grows
  have stands : s.StandsIn (sites decl.node.id) c.proc := by
    have around := fits.proc
    cases proc : c.proc with
    | none =>
      rw [proc] at around
      exact here.trans around
    | some id =>
      rw [proc] at around
      obtain ⟨p, found, same⟩ := around
      exact ⟨p, found, here.trans same⟩
  -- The procedures of the outline came first, so a new one is none of them.
  have outside : o.procs[s.procs.size]? = none := by
    cases found : o.procs[s.procs.size]? with
    | none => rfl
    | some proc =>
      obtain ⟨p, absurd, -⟩ := hs.outlineProcs _ proc found
      simp at absurd
  have pushed : Leaves o sites [decl.node.id] s
      (modify fun s => { s with
        procs := s.procs.push entry
        procDecls := s.procDecls.insert decl.node.id entry.info.id } : Check Unit)
      fun _ t => .body s.procs.size ∉ t.started ∧ ∃ p, t.procs[s.procs.size]? = some p ∧
        p.info.decl = decl.node.id ∧ p.info.isNested = true ∧ p.info.nestedIn = c.proc := by
    refine leaves_modify (hs.newProc rfl rfl rfl stands fresh grows) grows
      (fun others others' apart n mem => ?_)
      ⟨fun begun => Nat.lt_irrefl _ (hs.begun _ begun), entry, by simp, rfl, rfl, rfl⟩
    obtain ⟨unmade, items⟩ := others' n mem
    refine ⟨fun p hp => ?_, items⟩
    rcases Array.mem_push.mp hp with hp | rfl
    · exact unmade p hp
    · rintro rfl
      exact apart mem mem_cons_self
  have whole : Leaves o sites ([decl.node.id] ++ []) s (newProc c decl) fun id s' =>
      o.procs[id]? = none ∧ .body id ∉ s'.started ∧ ∃ p, s'.procs[id]? = some p ∧
        p.info.decl = decl.node.id ∧ p.info.isNested = true ∧ p.info.nestedIn = c.proc :=
    leaves_get (pushed.bind fun _ s₁ hs₁ _ _ h => leaves_pure hs₁ ⟨outside, h⟩)
  exact whole.mono (by simp) fun _ _ h => h

/-- An item is checked once, and its nodes are its own. The body of a procedure in a block is begun
where the procedure is declared. -/
theorem leaves_once (distinct : o.ids.Nodup) (hs : s.Aligned o sites) {i : Item}
    {check : Check Unit} {J : Prop} (fresh : s.Fresh o nodes) {nodes' : List NodeId}
    (sub : nodes ⊆ nodes') (known : ∀ id, i = .body id → ∃ p, s.procs[id]? = some p ∧
      (o.procs[id]? = none → p.info.decl ∈ nodes'))
    (h : (s.begin i).Aligned o sites → s.Grows (s.begin i) →
      (s.begin i).Fresh o (o.code i ++ nodes) →
        Leaves o sites (o.code i ++ nodes) (s.begin i) check (Cleanly J))
    (jumps : J → ∀ (id : Nat) proc, o.procs[id]? = some proc → i = .body id → proc.decl.JumpsIn) :
    Leaves o sites nodes' s (once i check) fun _ s' =>
      i ∈ s'.started ∧ (s'.errors = #[] → i ∉ s.started → J) := by
  by_cases begun : i ∈ s.started
  · refine (leaves_pure (a := ()) hs ⟨begun, fun _ new => absurd begun new⟩).of_runAt_eq ?_
    change runAt (if !s.started.contains i then _ else pure ()) o s = _
    rw [if_neg (by simpa using begun)]
  · have run : runAt (once i check) o s =
        runAt (check >>= fun _ => modify fun s => s.finish i) o (s.begin i) := by
      change runAt (if !s.started.contains i then _ else pure ()) o s = _
      rw [if_pos (by simpa using begun)]
      rfl
    have stays (others : List NodeId) (fresh : s.Fresh o others) : (s.begin i).Fresh o others :=
      fresh.of_decls (fun q mem => ⟨q, mem, rfl⟩) (subset_cons_self _ _)
    -- The nodes of the item are fresh when it begins: they belong to no other item.
    have own : (s.begin i).Fresh o (o.code i) := by
      refine fun n mem => ⟨hs.unmade i begun n mem, fun j untouched mem' => ?_⟩
      obtain rfl := Outline.eq_of_mem_code distinct mem mem'
      exact untouched mem_cons_self
    have both : (s.begin i).Fresh o (o.code i ++ nodes) := by
      intro n mem
      rcases List.mem_append.mp mem with mem | mem
      · exact own n mem
      · exact stays nodes fresh n mem
    have grows : s.Grows (s.begin i) := .begin s i
    have numbered (id : ProcId) (body : i = .body id) : id < s.procs.size := by
      obtain ⟨p, found, -⟩ := known id body
      exact (Array.getElem?_eq_some_iff.mp found).1
    have finished : Leaves o sites ((o.code i ++ nodes) ++ []) (s.begin i)
        (check >>= fun _ => modify fun s => s.finish i) (Cleanly J) :=
      (h (hs.begin numbered) grows both).bind fun _ s₁ hs₁ _ _ clean =>
        leaves_modify (hs₁.finish fun none => jumps (clean none)) (.finish s₁ i)
          (fun _ fresh _ => fresh) clean
    refine ⟨?_, ?_, ?_, ?_, fun a given => ⟨?_, fun none _ => ?_⟩⟩ <;> rw [run] at *
    · exact finished.aligned
    · exact grows.trans finished.grows
    · intro others fresh apart
      refine finished.fresh others (stays others fresh) fun n mem mem' => ?_
      rw [append_nil] at mem'
      rcases List.mem_append.mp mem' with mem' | mem'
      · exact (fresh n mem).2 i begun mem'
      · exact apart mem (sub mem')
    -- What was declared before is no node of the item.
    · intro id p found outside other open_
      have old := finished.opens id p found outside (fun mem => ?_) open_
      · refine (List.mem_cons.mp old).resolve_left fun same => other ?_
        obtain ⟨q, found', own⟩ := known id same.symm
        cases found.symm.trans found'
        exact own outside
      · rw [append_nil] at mem
        exact (List.mem_append.mp mem).elim
          (fun mem => hs.unmade i begun _ mem p (Array.mem_of_getElem? found) rfl)
          fun mem => other (sub mem)
    · exact finished.grows.started mem_cons_self
    · exact finished.value a given none

end Declarations

/-! ### Code that is still to be checked -/

/-- Nodes of code that is still to be checked: they stand where their sites say, they are distinct,
and they are fresh. -/
structure Ready (o : Outline) (sites : NodeId → Site) (s : Analysis) (ids : List NodeId)
    (marked : List (NodeId × Site)) : Prop where
  placed : Placed sites marked
  distinct : ids.Nodup
  fresh : s.Fresh o ids

section Ready

variable {ids ids' : List NodeId} {marked marked' : List (NodeId × Site)}

theorem Ready.left (h : Ready o sites s (ids ++ ids') (marked ++ marked')) :
    Ready o sites s ids marked :=
  ⟨(placed_append.mp h.placed).1, h.distinct.of_append_left,
    h.fresh.mono (subset_append_left _ _)⟩

theorem Ready.right (h : Ready o sites s (ids ++ ids') (marked ++ marked'))
    (kept : ∀ others, s.Fresh o others → others.Disjoint ids → s'.Fresh o others) :
    Ready o sites s' ids' marked' :=
  ⟨(placed_append.mp h.placed).2, h.distinct.of_append_right,
    kept _ (h.fresh.mono (subset_append_right _ _))
      fun _ mem mem' => h.distinct.disjoint mem' mem⟩

theorem Ready.here {site : Site} (h : Ready o sites s ids (site.mark ids)) :
    ∀ n ∈ ids, sites n = site :=
  Site.placed_mark.mp h.placed

end Ready

/-! ### Parameters and bodies -/

section Procedures

variable {need : Item → Check Unit}

theorem leaves_declareParam (hs : s.Aligned o sites) {c : Context} {site : Site}
    (fits : c.Fits site s) (name : Ident) (type : Ty) :
    Leaves o sites [] s (declareParam c name type) fun x s' =>
      Added s' c.proc .param x.1 ∧ x.2.Fits site s' ∧ x.2.procs = c.procs ∧
        s.symbols.size ≤ x.1 := by
  have declared : Leaves o sites [] s (declare c name .param type false) _ :=
    leaves_declare hs fits name .param type (by simp)
  refine (leaves_attempt declared).andThen fun outcome s₁ hs₁ later _ h => ?_
  cases outcome with
  | ok x =>
    obtain ⟨added, inner, procs, new, -⟩ := h x rfl
    exact leaves_pure hs₁ ⟨added, inner, procs, new⟩
  -- A parameter whose name is taken gets a symbol that no name stands for.
  | error e =>
    refine (sound_note (P := .any) _ s₁ hs₁ trivial).andThen fun _ s₂ hs₂ later₂ _ _ => ?_
    have added : Leaves o sites [] s₂ (newSymbol c name .param type false) _ :=
      leaves_newSymbol hs₂ c name .param type (by simp)
    refine added.andThen fun id s₃ hs₃ later₃ _ h => leaves_pure hs₃ ⟨h.1, ?_, rfl, ?_⟩
    · exact fits.grows ((later.trans later₂).trans later₃)
    · exact Nat.le_trans (later.trans later₂).size_symbols h.2

theorem leaves_paramInfos (ho : o.Proper sites) (hneed : ∀ i, Sound o sites .any (need i))
    {id : ProcId} {d : NodeId} {params : List Param} {c : Context} (hs : s.Aligned o sites)
    (fits : c.Fits { proc := some d, isDefault := true } s) (owner : c.proc = some id)
    (here : ∀ n ∈ Param.idsAll params, sites n = { proc := some d, isDefault := true }) :
    Leaves o sites [] s (paramInfos need c params) fun infos s' =>
      s'.HasParams id infos ∧ ∀ q ∈ infos, s.symbols.size ≤ q.symbol := by
  induction params generalizing c s with
  | nil =>
    refine leaves_pure hs ⟨⟨nodup_nil, ?_⟩, ?_⟩
    · exact fun q mem => by cases mem
    · exact fun q mem => by cases mem
  | cons param rest ih =>
    have first : ∀ n ∈ param.ids, sites n = { proc := some d, isDefault := true } :=
      fun n mem => here n (mem_append_left _ mem)
    have typed : (c.law { proc := some d, isDefault := true } o sites).Holds
        (orNote (paramType need c param) .unknown) :=
      holds_orNote (holds_paramType (sound_supports ho hneed)
        fun n mem => first n (mem_cons_of_mem _ mem)) trivial
    refine (typed s hs fits).andThen fun type s₁ hs₁ later₁ _ _ => ?_
    refine (leaves_declareParam hs₁ (fits.grows later₁) param.name type).andThen
      fun x s₂ hs₂ later₂ _ hx => ?_
    obtain ⟨symbol, inner⟩ := x
    obtain ⟨added, fits₂, procs, new⟩ := hx
    have isVar : (sites param.node.id).isVar = true → SymbolKind.param = .var := by
      rw [first _ mem_cons_self]
      intro absurd
      cases absurd
    refine (leaves_setDeclSymbol hs₂ added isVar).andThen fun _ s₃ hs₃ later₃ _ _ => ?_
    have others := ih hs₃ (fits₂.grows later₃) (by rw [Context.proc, procs]; exact owner)
      fun n mem => here n (mem_append_right _ mem)
    refine others.andThen fun infos s₄ hs₄ later₄ _ hinfos => leaves_pure hs₄ ?_
    obtain ⟨⟨nodup, owned⟩, later⟩ := hinfos
    obtain ⟨sym, found, kind, isLocal, own⟩ := added.1
    obtain ⟨type₄, found₄⟩ := (later₃.trans later₄).symbols _ sym found
    have before : symbol < s₃.symbols.size := by
      obtain ⟨type₃, found₃⟩ := later₃.symbols _ sym found
      exact (Array.getElem?_eq_some_iff.mp found₃).1
    refine ⟨⟨?_, ?_⟩, ?_⟩
    -- Symbols are numbered in order, and those of the other parameters come behind this one.
    · refine List.nodup_cons.mpr ⟨fun mem => ?_, nodup⟩
      obtain ⟨q, hq, same⟩ := List.mem_map.mp mem
      have same : q.symbol = symbol := same
      have behind : s₃.symbols.size ≤ symbol := same ▸ later q hq
      exact Nat.not_le.mpr before behind
    · intro q mem
      rcases List.mem_cons.mp mem with rfl | mem
      · exact ⟨_, found₄, kind, isLocal, own.trans owner⟩
      · exact owned q mem
    · intro q mem
      rcases List.mem_cons.mp mem with rfl | mem
      · exact Nat.le_trans later₁.size_symbols new
      · exact Nat.le_trans (((later₁.trans later₂).trans later₃).size_symbols) (later q mem)

theorem leaves_signature (ho : o.Proper sites) (hneed : ∀ i, Sound o sites .any (need i))
    (hs : s.Aligned o sites) {id : ProcId} {p : ProcEntry} (found : s.procs[id]? = some p)
    {decl : ProcDecl} (declares : p.info.decl = decl.node.id)
    (here : Placed sites (Param.sitesAll decl.node.id decl.params)) :
    Leaves o sites [] s (signature need id decl) fun _ _ => True := by
  have fits : ({ frames := [[]], procs := [id] } : Context).Fits
      { proc := some decl.node.id, isDefault := true } s := by
    refine ⟨⟨p, found, by rw [declares]⟩, fun frame mem x hx => ?_⟩
    rw [List.mem_singleton.mp mem] at hx
    cases hx
  have placed : ∀ n ∈ Param.idsAll decl.params,
      sites n = { proc := some decl.node.id, isDefault := true } :=
    Param.placed_sitesAll.mp here
  refine (leaves_paramInfos ho hneed hs fits rfl placed).andThen
    fun params s₁ hs₁ _ _ h => leaves_read ?_
  obtain ⟨owned, -⟩ := h
  cases decl.ret with
  | none =>
    exact leaves_updateProc hs₁ (fun p => ⟨rfl, prefix_rfl, rfl, fun h => h⟩) (fun _ => rfl)
      fun _ _ => owned
  | some type =>
    have written : (Fact.any.law o sites {}).Holds (orNote (ofExcept (o.typeOf type)) .unknown) :=
      holds_orNote (holds_ofExcept (within_all _)) trivial
    refine (written s₁ hs₁ trivial).andThen fun ret s₂ hs₂ later _ _ => ?_
    exact leaves_updateProc hs₂ (fun p => ⟨rfl, prefix_rfl, rfl, fun h => h⟩) (fun _ => rfl)
      fun _ _ => owned.keeps later.keeps

theorem leaves_body (hs : s.Aligned o sites) {nodes : List NodeId} {outer : Context}
    (self : Option SelfContext) {id : ProcId} {p : ProcEntry} (found : s.procs[id]? = some p)
    (around : ∀ frame ∈ outer.frames, ∀ x ∈ frame, ∃ sym, s.symbols[x.2]? = some sym ∧
      sym.isGlobal = false ∧ s.ReachedBy sym (id :: outer.procs))
    {code : Context → Check Unit} {J : Prop}
    (hcode : ∀ c : Context, c.Fits { proc := some p.info.decl } s → c.inLoop = false →
      Leaves o sites nodes s (code c) (Cleanly J)) :
    Leaves o sites nodes s (body outer self id code) (Cleanly J) := by
  let c : Context :=
    { frames := [] :: p.info.params.map (fun p => (p.name, p.symbol)) :: outer.frames,
      procs := id :: outer.procs, self }
  have entry : s.procs.getD id default = p := by
    rw [Array.getD_eq_getD_getElem?, found, Option.getD_some]
  have run : runAt (body outer self id code) o s = runAt (do
      code c
      updateProc id fun p =>
        let ret := p.ret.getD .void
        { p with ret := some ret, info.ret := ret }) o s := by
    change runAt (do
      code { frames := [] :: (s.procs.getD id default).info.params.map
              (fun p => (p.name, p.symbol)) :: outer.frames,
             procs := id :: outer.procs, self }
      updateProc id _) o s = _
    rw [entry]
  have fits : c.Fits { proc := some p.info.decl } s := by
    refine ⟨⟨p, found, rfl⟩, fun frame mem x hx => ?_⟩
    rcases List.mem_cons.mp mem with rfl | mem
    · cases hx
    rcases List.mem_cons.mp mem with rfl | mem
    · obtain ⟨q, hq, rfl⟩ := List.mem_map.mp hx
      obtain ⟨sym, at_, -, isLocal, owner⟩ := (hs.params id p found).2 q hq
      exact ⟨sym, at_, isLocal, .inl owner, fun absurd => by cases absurd⟩
    · obtain ⟨sym, at_, isLocal, reached⟩ := around frame mem x hx
      exact ⟨sym, at_, isLocal, reached, fun absurd => by cases absurd⟩
  have settled : Sound o sites .any (updateProc id fun p =>
      let ret := p.ret.getD .void
      { p with ret := some ret, info.ret := ret }) :=
    sound_updateProc id (fun p => ⟨rfl, prefix_rfl, rfl, fun h => h⟩) (fun _ => rfl)
      fun _ => rfl
  have whole : Leaves o sites (nodes ++ []) s (do
      code c
      updateProc id fun p =>
        let ret := p.ret.getD .void
        { p with ret := some ret, info.ret := ret }) (Cleanly J) :=
    (hcode c fits rfl).bind fun _ s₁ hs₁ _ _ clean =>
      (settled s₁ hs₁ trivial).clean clean
  exact (whole.mono (by simp) fun _ _ h => h).of_runAt_eq run

end Procedures

/-! ### Statements -/

section Blocks

variable {need : Item → Check Unit} {c : Context} {d : Option NodeId}

theorem Leaves.last {α β : Type} {nodes : List NodeId} {Q : α → Analysis → Prop}
    {R : β → Analysis → Prop} {x : Check α} {f : α → Check β} (hx : Leaves o sites nodes s x Q)
    (hf : ∀ a s₁, s₁.Aligned o sites → s.Grows s₁ → Q a s₁ → Leaves o sites [] s₁ (f a) R) :
    Leaves o sites nodes s (x >>= f) R := by
  have whole : Leaves o sites (nodes ++ []) s (x >>= f) R :=
    hx.bind fun a s₁ hs₁ later _ q => hf a s₁ hs₁ later q
  rwa [append_nil] at whole

theorem Sound.part {α : Type} {P : Fact} {x : Check α} (h : Sound o sites P x)
    (hs : s.Aligned o sites) (hp : P.holds s) {nodes : List NodeId} :
    Leaves o sites nodes s x fun _ _ => True :=
  (h s hs hp).mono (nil_subset _) fun _ _ h => h

/-- The context behind a statement. Without errors, something is known of the statement. -/
structure Behind (c : Context) (d : Option NodeId) (J : Prop) (c' : Context) (s : Analysis) :
    Prop where
  fits : c'.Fits { proc := d } s
  inLoop : c'.inLoop = c.inLoop
  clean : s.errors = #[] → J

theorem Sound.whole {α : Type} [Scoped α] {x : Check α} {J : Prop}
    (h : (c.law { proc := d } o sites).Holds x) (hs : s.Aligned o sites)
    (fits : c.Fits { proc := d } s) (clean : (runAt x o s).2.errors = #[] → J)
    {nodes : List NodeId} : Leaves o sites nodes s (do
      let _ ← x
      return c) (Behind c d J) := by
  have first : Leaves o sites [] s x (Cleanly J) := { h s hs fits with value := fun _ _ => clean }
  exact first.andThen fun _ _ hs₁ later _ clean => leaves_pure hs₁ ⟨fits.grows later, rfl, clean⟩

theorem Sound.closing {α : Type} [Scoped α] {x : Check α} {J : Prop}
    (h : (c.law { proc := d } o sites).Holds x) (hs : s.Aligned o sites)
    (fits : c.Fits { proc := d } s) (clean : s.errors = #[] → J) {nodes : List NodeId} :
    Leaves o sites nodes s (do
      let _ ← x
      return c) (Behind c d J) :=
  Sound.whole h hs fits fun none => clean ((h s hs fits).grows.noErrors none)

theorem errors_note (e : SemanticError) : (runAt (note e) o s).2.errors ≠ #[] := by
  change s.errors.push e ≠ #[]
  simp

theorem inLoop_of_jumpStmt {jump : Jump} {span : Span}
    (none : (runAt (orNote (jumpStmt c jump span) ()) o s).2.errors = #[]) : c.inLoop = true := by
  by_contra outside
  rw [jumpStmt, if_neg (by simpa using outside)] at none
  have none : s.errors.push _ = #[] := none
  simp at none

theorem isSome_of_returnStmt {span : Span} {value : Option Expr} (fits : c.Fits { proc := d } s)
    (none : (runAt (orNote (returnStmt need c span value) ()) o s).2.errors = #[]) :
    d.isSome = true := by
  cases proc : c.proc with
  | none =>
    rw [returnStmt, proc] at none
    have none : s.errors.push _ = #[] := none
    simp at none
  | some id =>
    have stands := fits.proc
    rw [proc] at stands
    obtain ⟨p, -, site⟩ := stands
    have site : d = some p.info.decl := site
    rw [site, Option.isSome_some]

theorem leaves_localVar (ho : o.Proper sites) (hneed : ∀ i, Sound o sites .any (need i))
    (hs : s.Aligned o sites) (fits : c.Fits { proc := d } s) {decl : VarDecl}
    (here : Placed sites (decl.sites d)) {nodes : List NodeId} :
    Leaves o sites nodes s (localVar need c decl) (Behind c d True) := by
  obtain ⟨-, inside⟩ := placed_cons.mp here
  have typed : (c.law { proc := d } o sites).Holds (attempt (declType need c decl none)) :=
    holds_attempt (holds_declType (sound_supports ho hneed) (Site.placed_mark.mp inside)
      (within_all _))
  refine (typed s hs fits).andThen fun outcome s₁ hs₁ later₁ _ _ => ?_
  refine (leaves_attempt (leaves_declare hs₁ (fits.grows later₁) decl.name .var _
    fun _ => rfl)).andThen fun declared s₂ hs₂ later₂ _ hdeclared => ?_
  cases declared with
  | error e =>
    exact Sound.closing (sound_note e) hs₂ ((fits.grows later₁).grows later₂) fun _ => trivial
  | ok declared =>
    obtain ⟨added, inner, -, -, loop⟩ := hdeclared declared rfl
    refine (leaves_setDeclSymbol hs₂ added fun _ => rfl).andThen fun _ s₃ hs₃ later₃ _ _ => ?_
    refine (sound_noteOutcome (P := .any) outcome s₃ hs₃ trivial).andThen
      fun _ s₄ hs₄ later₄ _ _ => leaves_pure hs₄
        ⟨(inner.grows later₃).grows later₄, loop, fun _ => trivial⟩

mutual

/-- A statement that is ready declares each of its procedures once. -/
theorem leaves_stmt (ho : o.Proper sites) (hneed : ∀ i, Sound o sites .any (need i)) :
    (st : Stmt) → {d : Option NodeId} → {c : Context} → {s : Analysis} → s.Aligned o sites →
    c.Fits { proc := d } s → Ready o sites s st.ids (st.sites d) →
      Leaves o sites st.ids s (stmt need c st) (Behind c d (st.JumpsIn c.inLoop d.isSome))
  | .importUnit _, _, _, _, hs, fits, _ | .artifact _, _, _, _, hs, fits, _ =>
    leaves_pure hs ⟨fits, rfl, fun _ => trivial⟩
  | .var decl, _, _, _, hs, fits, ready => leaves_localVar ho hneed hs fits ready.placed
  | .proc decl, _, _, _, hs, fits, ready => leaves_nestedProc ho hneed decl hs fits ready
  | .assign _ target value, d, c, s, hs, fits, ready => by
    have first := ready.left.here
    have second := Site.placed_mark.mp (placed_append.mp ready.placed).2
    exact Sound.whole (holds_orNote (holds_assignment (sound_supports ho hneed) first second)
      trivial) hs fits fun _ => trivial
  | .cond ⟨_, cond, body⟩, d, c, s, hs, fits, ready
  | .whileLoop ⟨_, cond, body⟩, d, c, s, hs, fits, ready => by
    have tested : (c.law { proc := d } o sites).Holds (attempt (condition need c cond)) :=
      holds_attempt (holds_condition (sound_supports ho hneed) ready.left.here)
    refine (Sound.part tested hs fits).bind fun outcome s₁ hs₁ later₁ kept _ => ?_
    refine Leaves.last (leaves_block ho hneed body hs₁ (fits.grows later₁) (ready.right kept))
      fun _ s₂ hs₂ later₂ clean => ?_
    exact Sound.closing (sound_noteOutcome outcome) hs₂ ((fits.grows later₁).grows later₂)
      (by simpa [Cleanly] using clean)
  | .chain _ arms (some body), d, c, s, hs, fits, ready => by
    refine (leaves_chainArms ho hneed arms hs fits ready.left).bind
      fun _ s₁ hs₁ later₁ kept clean₁ => ?_
    refine Leaves.last (leaves_block ho hneed body hs₁ (fits.grows later₁) (ready.right kept))
      fun _ s₂ hs₂ later₂ clean₂ => ?_
    refine leaves_pure hs₂ ⟨(fits.grows later₁).grows later₂, rfl, fun none => ?_⟩
    exact ⟨clean₁ (later₂.noErrors none), by simpa using clean₂ none⟩
  | .chain _ arms none, d, c, s, hs, fits, ready =>
    (leaves_chainArms ho hneed arms hs fits ready.left).bind fun _ _ hs₁ later _ clean =>
      leaves_pure hs₁ ⟨fits.grows later, rfl, fun none => ⟨clean none, trivial⟩⟩
  | .rangeLoop node var start stop body, d, c, s, hs, fits, ready => by
    obtain ⟨first, second⟩ := placed_append.mp (placed_append.mp ready.placed).1
    obtain ⟨here, first⟩ := placed_cons.mp first
    have ends : (c.law { proc := d } o sites).Holds (rangeEnds need c start stop) :=
      holds_rangeEnds (sound_supports ho hneed) (Site.placed_mark.mp first)
        (Site.placed_mark.mp second)
    have isVar : (sites node.id).isVar = true → SymbolKind.loopVar = .var := by
      rw [here]
      intro absurd
      cases absurd
    refine (Sound.part ends hs fits).bind fun outcome s₁ hs₁ later₁ kept₁ _ => ?_
    have declares : Leaves o sites [] s₁ (declare (c.enter true) var .loopVar .int false) _ :=
      leaves_declare hs₁ ((fits.grows later₁).enter true) var .loopVar .int (by simp)
    refine (leaves_attempt declares).andThen fun declared s₂ hs₂ later₂ kept₂ hdeclared => ?_
    have fits₂ := (fits.grows later₁).grows later₂
    cases declared with
    | error e => exact Sound.whole (sound_note e) hs₂ fits₂ fun none => absurd none (errors_note e)
    | ok declared =>
      obtain ⟨added, inner, -, -, loop⟩ := hdeclared declared rfl
      refine (leaves_setDeclSymbol hs₂ added isVar).andThen fun _ s₃ hs₃ later₃ kept₃ _ => ?_
      have later : ∀ others, s.Fresh o others → others.Disjoint _ → s₃.Fresh o others :=
        fun others fresh apart => kept₃ _ (kept₂ _ (kept₁ others fresh apart))
      refine Leaves.last (leaves_block ho hneed body hs₃ (inner.grows later₃) (ready.right later))
        fun _ s₄ hs₄ later₄ clean => ?_
      exact Sound.closing (sound_noteOutcome outcome) hs₄ ((fits₂.grows later₃).grows later₄)
        (by simpa [Cleanly, loop, Context.enter] using clean)
  | .breakLoop span, _, _, _, hs, fits, _ | .skipTurn span, _, _, _, hs, fits, _ =>
    Sound.whole (holds_orNote (holds_jumpStmt _ span) trivial) hs fits inLoop_of_jumpStmt
  | .ret span value, _, _, _, hs, fits, ready =>
    Sound.whole (holds_orNote (holds_returnStmt (sound_supports ho hneed) span ready.here) trivial)
      hs fits (isSome_of_returnStmt fits)
  | .block body, d, c, s, hs, fits, ready =>
    Leaves.last (leaves_block ho hneed body hs fits ready) fun _ _ hs₁ later clean =>
      leaves_pure hs₁ ⟨fits.grows later, rfl, by simpa [Cleanly] using clean⟩
  | .expr value, _, _, _, hs, fits, ready =>
    Sound.whole (holds_orNote (holds_exprType (sound_supports ho hneed) value ready.here
      (within_all _)) trivial) hs fits fun _ => trivial

theorem leaves_block (ho : o.Proper sites) (hneed : ∀ i, Sound o sites .any (need i)) :
    (b : Block) → {d : Option NodeId} → {c : Context} → {s : Analysis} → {inLoop : Bool} →
    s.Aligned o sites → c.Fits { proc := d } s → Ready o sites s b.ids (b.sites d) →
      Leaves o sites b.ids s (block need c inLoop b)
        (Cleanly (b.JumpsIn (c.inLoop || inLoop) d.isSome))
  | ⟨_, code⟩, _, _, _, inLoop, hs, fits, ready =>
    leaves_stmts ho hneed code hs (fits.enter inLoop) ready

theorem leaves_stmts (ho : o.Proper sites) (hneed : ∀ i, Sound o sites .any (need i)) :
    (ss : List Stmt) → {d : Option NodeId} → {c : Context} → {s : Analysis} →
    s.Aligned o sites → c.Fits { proc := d } s →
    Ready o sites s (Stmt.idsAll ss) (Stmt.sitesAll d ss) →
      Leaves o sites (Stmt.idsAll ss) s (stmts need c ss)
        (Cleanly (Stmt.AllJumpIn c.inLoop d.isSome ss))
  | [], _, _, _, hs, _, _ => leaves_pure hs fun _ => trivial
  | st :: rest, d, c, _, hs, fits, ready => by
    refine (leaves_stmt ho hneed st hs fits ready.left).bind fun c₁ s₁ hs₁ _ kept behind => ?_
    have others := leaves_stmts ho hneed rest hs₁ behind.fits (ready.right kept)
    refine { others with value := fun a given none =>
      ⟨behind.clean (others.grows.noErrors none), ?_⟩ }
    exact behind.inLoop ▸ others.value a given none

theorem leaves_chainArms (ho : o.Proper sites) (hneed : ∀ i, Sound o sites .any (need i)) :
    (arms : List Guarded) → {d : Option NodeId} → {c : Context} → {s : Analysis} →
    s.Aligned o sites → c.Fits { proc := d } s →
    Ready o sites s (Guarded.idsAll arms) (Guarded.sitesAll d arms) →
      Leaves o sites (Guarded.idsAll arms) s (chainArms need c arms)
        (Cleanly (Guarded.AllJumpIn c.inLoop d.isSome arms))
  | [], _, _, _, hs, _, _ => leaves_pure hs fun _ => trivial
  | ⟨_, cond, body⟩ :: rest, d, c, s, hs, fits, ready => by
    have tested : (c.law { proc := d } o sites).Holds (orNote (condition need c cond) ()) :=
      holds_orNote (holds_condition (sound_supports ho hneed) ready.left.left.here) trivial
    rw [Guarded.idsAll, append_assoc]
    refine (Sound.part tested hs fits).bind fun _ s₁ hs₁ later₁ kept₁ _ => ?_
    refine (leaves_block ho hneed body hs₁ (fits.grows later₁) (ready.left.right kept₁)).bind
      fun _ s₂ hs₂ later₂ kept₂ clean => ?_
    have others := leaves_chainArms ho hneed rest hs₂ ((fits.grows later₁).grows later₂)
      (ready.right fun others fresh apart => by
        obtain ⟨apart₁, apart₂⟩ := List.disjoint_append_right.mp apart
        exact kept₂ others (kept₁ others fresh apart₁) apart₂)
    refine { others with value := fun a given none => ⟨?_, others.value a given none⟩ }
    simpa using clean (others.grows.noErrors none)

theorem leaves_nestedProc (ho : o.Proper sites) (hneed : ∀ i, Sound o sites .any (need i)) :
    (decl : ProcDecl) → {d : Option NodeId} → {c : Context} → {s : Analysis} →
    s.Aligned o sites → c.Fits { proc := d } s → Ready o sites s decl.ids (decl.sites d) →
      Leaves o sites decl.ids s (nestedProc need c decl) (Behind c d decl.JumpsIn)
  | ⟨node, name, params, ret, ⟨span, code⟩⟩, d, c, s, hs, fits, ready => by
    obtain ⟨head, ofBody⟩ := placed_append.mp ready.placed
    obtain ⟨here, ofParams⟩ := placed_cons.mp head
    have isVar (id : ProcId) : (sites node.id).isVar = true → SymbolKind.nestedProc id = .var := by
      rw [here]
      intro absurd
      cases absurd
    have standing : (sites node.id).proc = d := by rw [here]
    have unmade : s.Fresh o [node.id] := ready.fresh.mono (by simp [ProcDecl.ids])
    have made := leaves_newProc hs fits ⟨node, name, params, ret, ⟨span, code⟩⟩ standing unmade
    -- Its body is begun nowhere else, whatever its parameters need.
    have sub : [node.id] ++ (node.id :: Stmt.idsAll code) ⊆
        ProcDecl.ids ⟨node, name, params, ret, ⟨span, code⟩⟩ := by
      intro n mem
      simp only [mem_append, mem_cons, not_mem_nil, or_false] at mem
      simp only [ProcDecl.ids, Block.ids, mem_cons, mem_append]
      tauto
    refine Leaves.mono (made.bind fun id s₁ hs₁ later₁ kept₁ hmade => ?_) sub fun _ _ h => h
    obtain ⟨outside, unbegun, p, found, declares, nested, around⟩ := hmade
    have named : Leaves o sites [] s₁ (declare c name (.nestedProc id) .unknown false) _ :=
      leaves_declare hs₁ (fits.grows later₁) name (.nestedProc id) .unknown (by simp)
    refine ((leaves_attempt named).unbegun found outside unbegun).andThen
      fun declared s₂ hs₂ later₂ kept₂ hdeclared => ?_
    obtain ⟨hdeclared, unbegun₂⟩ := hdeclared
    obtain ⟨p₂, found₂, declares₂, nested₂, around₂, -⟩ := later₂.proc found
    cases declared with
    | error e =>
      exact Sound.whole (sound_note e) hs₂ ((fits.grows later₁).grows later₂)
        fun none => absurd none (errors_note e)
    | ok declared =>
      obtain ⟨symbol, inner⟩ := declared
      obtain ⟨added, fits₂, procs, -, loop⟩ := hdeclared _ rfl
      refine ((leaves_setDeclSymbol hs₂ added (isVar id)).unbegun found₂ outside unbegun₂).andThen
        fun _ s₃ hs₃ later₃ kept₃ unbegun₃ => ?_
      obtain ⟨p₃, found₃, declares₃, nested₃, around₃, -⟩ := later₃.proc found₂
      have declaration₃ : p₃.info.decl = node.id := declares₃.trans (declares₂.trans declares)
      have signed : Leaves o sites [] s₃ (once (.signature id)
          (signature need id ⟨node, name, params, ret, ⟨span, code⟩⟩))
          fun _ s' => .signature id ∈ s'.started ∧
            (s'.errors = #[] → .signature id ∉ s₃.started → True) := by
        refine leaves_once ho.distinct hs₃ (fun n mem => by cases mem)
          (List.Subset.refl _) (by simp) (fun hb _ _ => ?_) (by simp)
        exact (leaves_signature ho hneed hb found₃ declaration₃ ofParams).mono
          (nil_subset _) fun _ _ _ _ => trivial
      refine (signed.unbegun found₃ outside unbegun₃.2).andThen
        fun _ s₄ hs₄ later₄ kept₄ unbegun₄ => ?_
      obtain ⟨p₄, found₄, declares₄, nested₄, around₄, -⟩ := later₄.proc found₃
      have declaration : p₄.info.decl = node.id := declares₄.trans declaration₃
      have ofCode : s₄.Fresh o (Stmt.idsAll code) := by
        refine kept₄ _ (kept₃ _ (kept₂ _ (kept₁ _ (ready.fresh.mono fun n mem => ?_) ?_)))
        · simp [ProcDecl.ids, Block.ids, mem]
        · intro n mem mem'
          rw [List.mem_singleton.mp mem'] at mem
          exact (List.nodup_cons.mp ready.distinct).1 (mem_append_right _ mem)
      have ran : Leaves o sites (node.id :: Stmt.idsAll code) s₄ (once (.body id)
          (body inner (lentSelf c.self) id fun c => stmts need c code))
          fun _ s' => .body id ∈ s'.started ∧
            (s'.errors = #[] → .body id ∉ s₄.started → Stmt.AllJumpIn false true code) := by
        refine leaves_once ho.distinct hs₄ ofCode (subset_cons_self _ _) (fun _ same => ?_)
          (fun hb grows both => ?_) fun _ _ proc here same => ?_
        · cases same
          exact ⟨p₄, found₄, fun _ => declaration ▸ mem_cons_self⟩
        · have inside := (fits₂.grows (later₃.trans later₄)).grows grows
          refine Leaves.mono (leaves_body hb _ found₄ (fun frame mem x hx => ?_)
            fun c' fits' outer => ?_) (subset_append_right _ _) fun _ _ h => h
          · obtain ⟨sym, at_, isLocal, reached, -⟩ := inside.frames frame mem x hx
            refine ⟨sym, at_, isLocal, .inr (.inr ⟨⟨p₄, found₄, ?_, ?_⟩, reached⟩)⟩
            · exact nested₄.trans (nested₃.trans (nested₂.trans nested))
            · rw [around₄, around₃, around₂, around, procs]
              rfl
          · rw [declaration] at fits'
            exact outer ▸ leaves_stmts ho hneed code hb fits' ⟨ofBody,
              ready.distinct.of_append_right, both.mono (subset_append_right _ _)⟩
        · cases same
          cases outside.symm.trans here
      refine Leaves.last ran fun _ s₅ hs₅ later₅ clean => ?_
      refine leaves_procEntry ((leaves_setSymbolType hs₅ fun _ _ => .inr rfl).andThen
        fun _ s₆ hs₆ later₆ _ _ => leaves_pure hs₆ ⟨?_, loop, fun none => ?_⟩)
      · exact (((fits₂.grows later₃).grows later₄).grows later₅).grows later₆
      · exact clean.2 (later₆.noErrors none) unbegun₄.2

end

end Blocks

/-! ### Items -/

/-- The procedures of an outline whose bodies are checked with a module-level statement. -/
inductive Bodies (o : Outline) : Stmt → ProcId → Prop
  | proc {id : ProcId} {proc : LocalProc} (found : o.procs[id]? = some proc) :
    Bodies o (.proc proc.decl) id
  | method {decl : ArtifactDecl} {a : LocalArtifact} {id : ProcId}
    (found : o.artifacts.find? (·.decl.node.id == decl.node.id) = some a)
    (mem : id ∈ a.methods.map Prod.snd) (inside : id < o.procs.size) :
    Bodies o (.artifact decl) id

section Items

variable {need : Item → Check Unit}
variable (ho : o.Proper sites) (hneed : ∀ i, Sound o sites .any (need i))

include ho hneed

theorem leaves_globalType (hs : s.Aligned o sites) {id : SymbolId} {global : LocalGlobal}
    (found : o.globals[id]? = some global) :
    Leaves o sites [] s (globalType need id global) fun _ _ => True := by
  have mem := Array.mem_of_getElem? found
  let c : Context := { position := some global.position }
  have typed : (c.law {} o sites).Holds
      (orNote (declType need c global.decl global.declared) .unknown) :=
    holds_orNote (holds_declType (sound_supports ho hneed)
      (Site.placed_mark.mp (ho.globalSites global mem)) (within_all _)) trivial
  refine (typed s hs (Context.fits_module rfl rfl)).andThen fun type s₁ hs₁ _ _ _ => ?_
  refine leaves_setSymbolType hs₁ fun sym at_ => .inl ?_
  exact (hs₁.isGlobal_iff id sym at_).mpr (Array.getElem?_eq_some_iff.mp found).1

theorem leaves_propTypes (hs : s.Aligned o sites) {c : Context} (fits : c.Fits {} s)
    {a : LocalArtifact} (mem : a ∈ o.artifacts) {decls : List VarDecl}
    (here : ∀ decl ∈ decls, Placed sites (Site.mark {} decl.valueIds)) :
    Leaves o sites [] s (propTypes need c a decls) fun _ _ => True := by
  induction decls generalizing s with
  | nil => exact leaves_pure hs trivial
  | cons decl rest ih =>
    have typed : (c.law {} o sites).Holds (orNote (declType need c decl none) .unknown) :=
      holds_orNote (holds_declType (sound_supports ho hneed)
        (Site.placed_mark.mp (here decl mem_cons_self)) (within_all _)) trivial
    have added {s : Analysis} (hs : s.Aligned o sites) (fits : c.Fits {} s) {type : Ty}
        (noList : s.errors = #[] → a.kind = .record → type.containsList = false) :
        Leaves o sites [] s (do
          addProp a.name ⟨decl.name.value, type, decl.mutable⟩
          propTypes need c a rest) fun _ _ => True := by
      have grows := (Change.prop (o := o) (K := { props := [a.name] }) s
        ⟨decl.name.value, type, decl.mutable⟩ mem_cons_self).grows
      have one : Leaves o sites [] s (addProp a.name ⟨decl.name.value, type, decl.mutable⟩)
          fun _ _ => True := by
        refine leaves_modify (hs.addProp fun none b hb same record => ?_) grows
          (fun _ fresh _ => fresh) trivial
        obtain rfl := ho.artifactNames b hb a mem same
        exact noList none record
      exact one.andThen fun _ s₁ hs₁ later _ _ =>
        ih hs₁ (fits.grows later) fun other hother => here other (mem_cons_of_mem _ hother)
    unfold propTypes
    refine (typed s hs fits).andThen fun type s₁ hs₁ later₁ _ _ => ?_
    have fits₁ := fits.grows later₁
    dsimp only
    split
    · let e : SemanticError := ⟨.listProperty a.name decl.name.value, decl.name.span⟩
      have noted : Leaves o sites [] s₁ (note e) fun _ t => t.errors ≠ #[] :=
        leaves_modify (hs₁.note e) (Change.error (o := o) (K := {}) s₁ e).grows
          (fun _ fresh _ => fresh) (by simp)
      exact noted.andThen fun _ s₂ hs₂ later₂ _ some =>
        added hs₂ (fits₁.grows later₂) fun none => absurd none some
    · next accepted =>
      refine added hs₁ fits₁ fun _ record => ?_
      simpa [record] using accepted

theorem leaves_artifactPropTypes (hs : s.Aligned o sites) {a : LocalArtifact}
    (mem : a ∈ o.artifacts) :
    Leaves o sites [] s (artifactPropTypes need a) fun _ _ => True := by
  refine leaves_read (leaves_propTypes ho hneed hs ?_ mem (ho.propSites a mem))
  cases a.kind <;> exact Context.fits_module rfl rfl

omit hneed in
theorem leaves_ownItem {i : Item} {check : Check Unit} {J : Prop} (hs : s.Aligned o sites)
    (known : ∀ id, i = .body id → id < o.procs.size)
    (h : ∀ s₁, s₁.Aligned o sites → s₁.Fresh o (o.code i) →
      Leaves o sites (o.code i) s₁ check (Cleanly J))
    (jumps : J → ∀ (id : Nat) proc, o.procs[id]? = some proc → i = .body id → proc.decl.JumpsIn) :
    Leaves o sites [] s (once i check) fun _ s' => i ∈ s'.started := by
  refine Leaves.mono (leaves_once ho.distinct hs (fun n mem => by cases mem)
    (List.Subset.refl _) (fun id same => ?_) (fun hb _ fresh => ?_) jumps)
    (List.Subset.refl _) fun _ _ h => h.1
  · have here := Array.getElem?_eq_getElem (known id same)
    obtain ⟨p, found, -⟩ := hs.outlineProcs id _ here
    exact ⟨p, found, fun outside => by simp [here] at outside⟩
  · rw [append_nil] at fresh ⊢
    exact h _ hb fresh

theorem leaves_signatureItem (hs : s.Aligned o sites) {id : ProcId} {proc : LocalProc}
    (found : o.procs[id]? = some proc) :
    Leaves o sites [] s (once (.signature id) (signature need id proc.decl)) fun _ _ => True := by
  refine (leaves_ownItem (J := True) ho hs (by simp) (fun s₁ hs₁ _ => ?_) (by simp)).mono
    (List.Subset.refl _) fun _ _ _ => trivial
  obtain ⟨p, at_, declares⟩ := hs₁.outlineProcs id proc found
  exact (leaves_signature ho hneed hs₁ at_ declares
    (ho.procSites proc (Array.mem_of_getElem? found)).1).mono (nil_subset _)
      fun _ _ _ _ => trivial

theorem leaves_bodyItem (hs : s.Aligned o sites) {id : ProcId} (inside : id < o.procs.size) :
    Leaves o sites [] s (item need (.body id)) fun _ s' => .body id ∈ s'.started := by
  have found := Array.getElem?_eq_getElem inside
  generalize o.procs[id] = proc at found
  refine leaves_read ?_
  rw [found]
  refine (leaves_signatureItem ho hneed hs found).andThen fun _ s₁ hs₁ _ _ _ =>
    leaves_ownItem (J := Stmt.AllJumpIn false true proc.decl.body.stmts) ho hs₁
      (fun _ same => ?_) (fun s₂ hs₂ fresh => ?_) fun jumps id' proc' found' same => ?_
  · cases same
    exact inside
  · obtain ⟨p, at_, declares⟩ := hs₂.outlineProcs id proc found
    have code : o.code (.body id) = Stmt.idsAll proc.decl.body.stmts := by
      cases body : proc.decl.body
      simp [Outline.code, found, body, Block.ids]
    rw [code] at fresh ⊢
    refine leaves_body hs₂ _ at_ (fun frame mem => by cases mem) fun c fits outer => ?_
    rw [declares] at fits
    refine outer ▸ leaves_stmts ho hneed _ hs₂ fits ⟨?_, ?_, fresh⟩
    · have placed := (ho.procSites proc (Array.mem_of_getElem? found)).2
      cases body : proc.decl.body
      rwa [body, Block.sites] at placed
    · have ofProcs := (List.nodup_append'.mp (List.nodup_append'.mp ho.distinct).1).2.1
      have ofProc := (List.nodup_flatMap.mp ofProcs).1 proc
        (Array.mem_toList_iff.mpr (Array.mem_of_getElem? found))
      have ofBody := (List.nodup_append'.mp ofProc).2.1
      cases body : proc.decl.body
      rwa [body, Block.ids] at ofBody
  · cases same
    cases found.symm.trans found'
    exact ProcDecl.jumpsIn_iff.mpr jumps

theorem sound_item (i : Item) : Sound o sites .any (item need i) := by
  intro s hs _
  have whole {i : Item} {check : Check Unit} (other : ∀ id, i ≠ .body id)
      (h : ∀ s₁, s₁.Aligned o sites → Leaves o sites [] s₁ check fun _ _ => True) :
      Leaves o sites [] s (once i check) fun _ _ => True :=
    (leaves_ownItem (J := True) ho hs (fun id same => absurd same (other id))
      (fun s₁ hs₁ _ => (h s₁ hs₁).mono (nil_subset _) fun _ _ _ _ => trivial)
      fun _ id _ _ same => absurd same (other id)).mono (List.Subset.refl _) fun _ _ _ => trivial
  cases i with
  | global id =>
    refine leaves_read ?_
    split
    · next global found => exact whole (by simp) fun s₁ hs₁ => leaves_globalType ho hneed hs₁ found
    · exact leaves_pure hs trivial
  | signature id =>
    refine leaves_read ?_
    split
    · next proc found => exact leaves_signatureItem ho hneed hs found
    · exact leaves_pure hs trivial
  | body id =>
    by_cases inside : id < o.procs.size
    · exact (leaves_bodyItem ho hneed hs inside).mono (List.Subset.refl _) fun _ _ _ => trivial
    · refine leaves_read ?_
      rw [Array.getElem?_eq_none (Nat.le_of_not_lt inside)]
      exact leaves_pure hs trivial
  | props name =>
    refine leaves_read ?_
    split
    · next a found =>
      exact whole (by simp) fun s₁ hs₁ =>
        leaves_artifactPropTypes ho hneed hs₁ (mem_of_find?_eq_some found)
    · exact leaves_pure hs trivial

omit hneed in
theorem sound_demand (depth : Nat) (i : Item) : Sound o sites .any (demand depth i) := by
  induction depth generalizing i with
  | zero => exact sound_pure ()
  | succ depth ih => exact sound_item ho ih i

omit hneed in
theorem leaves_demandBody {depth : Nat} (deep : o.procs.size ≤ depth) (hs : s.Aligned o sites)
    (id : ProcId) : Leaves o sites [] s (demand depth (.body id))
      fun _ s' => id < o.procs.size → .body id ∈ s'.started := by
  by_cases inside : id < o.procs.size
  · have deep : 0 < depth := Nat.lt_of_lt_of_le (Nat.zero_lt_of_lt inside) deep
    obtain ⟨depth, rfl⟩ := Nat.exists_eq_succ_of_ne_zero (Nat.ne_of_gt deep)
    exact (leaves_bodyItem ho (sound_demand ho depth) hs inside).mono (List.Subset.refl _)
      fun _ _ begun _ => begun
  · exact (sound_demand ho depth _ s hs trivial).mono (List.Subset.refl _)
      fun _ _ _ own => absurd own inside

variable (hbody : ∀ s : Analysis, s.Aligned o sites → ∀ id, Leaves o sites [] s (need (.body id))
  fun _ s' => id < o.procs.size → .body id ∈ s'.started)

include hbody

omit hneed ho in
theorem leaves_bodies (hs : s.Aligned o sites) (ids : List ProcId) :
    Leaves o sites [] s (items need (ids.map .body))
      fun _ s' => ∀ id ∈ ids, id < o.procs.size → .body id ∈ s'.started := by
  induction ids generalizing s with
  | nil => exact leaves_pure hs (by simp)
  | cons id rest ih =>
    refine (hbody s hs id).andThen fun _ s₁ hs₁ _ _ begun => ?_
    have later := ih hs₁
    refine { later with value := fun a given => List.forall_mem_cons.mpr ⟨fun own => ?_, ?_⟩ }
    · exact later.grows.started (begun own)
    · exact later.value a given

/-- What the check of a module-level statement makes sure of: without errors its jumps stand in what
they leave, and the bodies that it declares are begun. -/
def TopChecked (o : Outline) (st : Stmt) (_ : Unit) (s : Analysis) : Prop :=
  (s.errors = #[] → (∀ d, st ≠ .proc d) → st.JumpsIn false false) ∧
    ∀ id, Bodies o st id → .body id ∈ s.started

theorem leaves_topStmt (hs : s.Aligned o sites) (position : Nat) {st : Stmt}
    (ready : Ready o sites s st.topCode st.topSites) :
    Leaves o sites st.topCode s (topStmt need position st) (TopChecked o st) := by
  have other (st : Stmt) (noBodies : ∀ id, ¬ Bodies o st id)
      (ready : Ready o sites s st.ids (st.sites none)) : Leaves o sites st.ids s (do
        let _ ← stmt need { position := some position } st) (TopChecked o st) :=
    Leaves.last (leaves_stmt ho hneed st hs (Context.fits_module rfl rfl) ready)
      fun _ _ hs₁ _ behind => leaves_pure hs₁
        ⟨fun clean _ => behind.clean clean, fun id own => absurd own (noBodies id)⟩
  cases st with
  | importUnit _ => exact leaves_pure hs ⟨fun _ _ => trivial, by rintro _ ⟨⟩⟩
  | var decl =>
    refine leaves_get ?_
    split
    · exact (hneed _ s hs trivial).mono (nil_subset _)
        fun _ _ _ => ⟨fun _ _ => trivial, by rintro _ ⟨⟩⟩
    · exact leaves_pure hs ⟨fun _ _ => trivial, by rintro _ ⟨⟩⟩
  | proc decl =>
    have known {id : ProcId} (own : Bodies o (.proc decl) id) :
        id < o.procs.size ∧ s.procDecls.get? decl.node.id = some id := by
      cases own with
      | proc found =>
        obtain ⟨p, at_, declares⟩ := hs.outlineProcs id _ found
        exact ⟨(Array.getElem?_eq_some_iff.mp found).1, declares ▸ hs.procDecl id p at_⟩
    refine leaves_get ?_
    split
    · next id here =>
      refine (hbody s hs id).mono (nil_subset _) fun _ s' begun =>
        ⟨fun _ other => absurd rfl (other decl), fun id' own => ?_⟩
      cases here.symm.trans (known own).2
      exact begun (known own).1
    · next missing =>
      refine leaves_pure hs ⟨fun _ other => absurd rfl (other decl), fun id own => ?_⟩
      exact absurd (known own).2 (missing id)
  | artifact decl =>
    refine leaves_read ?_
    split
    · next a found =>
      refine Leaves.andThen (hneed _ s hs trivial) fun _ s₁ hs₁ _ _ _ => ?_
      rw [show (a.methods.map fun x => Item.body x.2) = (a.methods.map Prod.snd).map .body by simp]
      refine (leaves_bodies hbody hs₁ _).mono (nil_subset _) fun _ _ begun =>
        ⟨fun _ _ => trivial, fun id own => ?_⟩
      cases own with
      | method here mem inside =>
        cases found.symm.trans here
        exact begun id mem inside
    · next missing =>
      refine leaves_pure hs ⟨fun _ _ => trivial, fun id own => ?_⟩
      cases own with
      | method here => exact absurd here (missing _)
  | _ => exact other _ (by rintro _ ⟨⟩) ready

theorem leaves_topStmts (hs : s.Aligned o sites) (position : Nat) {ss : List Stmt}
    (ready : Ready o sites s (ss.flatMap Stmt.topCode) (ss.flatMap Stmt.topSites)) :
    Leaves o sites (ss.flatMap Stmt.topCode) s (topStmts need position ss)
      fun u s' => ∀ st ∈ ss, TopChecked o st u s' := by
  induction ss generalizing position s with
  | nil => exact leaves_pure hs (by simp)
  | cons st rest ih =>
    refine (leaves_topStmt ho hneed hbody hs position ready.left).bind
      fun _ _ hs₁ _ kept checked => ?_
    have others := ih hs₁ (position + 1) (ready.right kept)
    refine { others with value := fun a given => List.forall_mem_cons.mpr ⟨?_, ?_⟩ }
    · exact ⟨fun none => checked.1 (others.grows.noErrors none),
        fun id own => others.grows.started (checked.2 id own)⟩
    · exact others.value a given

omit hbody in
omit hneed in
/-- The check of a program keeps its tables aligned. -/
theorem leaves_program (hs : s.Aligned o sites) {p : Program}
    (ready : Ready o sites s (p.stmts.flatMap Stmt.topCode) p.sites) :
    Leaves o sites (p.stmts.flatMap Stmt.topCode) s (program p)
      fun u s' => ∀ st ∈ p.stmts, TopChecked o st u s' :=
  leaves_read (leaves_topStmts ho (fun i => sound_demand ho _ i)
    (fun _ hs => leaves_demandBody ho (by unfold Outline.itemCount; omega) hs) hs 0 ready)

end Items

end Check

end ArkLang
