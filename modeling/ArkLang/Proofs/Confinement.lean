import ArkLang.Proofs.CheckLaws
import ArkLang.Proofs.Frames
import ArkLang.Proofs.Totality

/-!
# What checks keep to

A check goes along a trace that writes at its own nodes. If it starts from tables within a scope, it
stays within it, and it asks for nothing but the interfaces of the modules of the scope. Each check
is confined in this way because its parts are.
-/

namespace ArkLang

open Scoped (Within)

/-! ### Bounds -/

/-- What a check may speak of, and where it may write. There is another view of the modules, which
agrees with that of the outline on those of the scope. -/
structure Bounds extends Region where
  scope : Scope
  outline : Outline
  view : ModuleId → Option Interface
  same : outline.SameView scope view

/-- The same bounds with another region. -/
def Bounds.inside (B : Bounds) (K : Region) : Bounds :=
  { B with toRegion := K }

theorem Outline.sameView_reached (o : Outline) : o.SameView .all o.reached :=
  ⟨o.inside_all, fun _ _ => rfl⟩

/-- Bounds that allow to speak of everything. -/
def Outline.bounds (o : Outline) (K : Region) : Bounds :=
  ⟨K, .all, o, o.reached, o.sameView_reached⟩

/-! ### Tables within a scope -/

namespace Analysis.TablesWithin

variable {S : Scope} {s : Analysis} (hs : s.TablesWithin S)

include hs

theorem setType {type : Ty} (id : NodeId) (h : S.Allows type) :
    { s with exprTypes := s.exprTypes.insert id type }.TablesWithin S := by
  refine { hs with exprTypes := fun other t found => ?_ }
  simp only [Std.TreeMap.get?_eq_getElem?, Std.TreeMap.getElem?_insert] at found
  split at found
  · cases found
    exact h
  · exact hs.exprTypes other t found

theorem postpone {receiver : PendingReceiver} (h : receiver.artifact.module ∈ S.modules) :
    { s with pending := s.pending.push receiver }.TablesWithin S := by
  refine { hs with receivers := fun p mem => ?_ }
  rcases Array.mem_push.mp mem with mem | rfl
  · exact hs.receivers p mem
  · exact h

theorem note {e : SemanticError} (h : S.Reports e) :
    { s with errors := s.errors.push e }.TablesWithin S := by
  refine { hs with reported := fun e' mem => ?_ }
  rcases Array.mem_push.mp mem with mem | rfl
  · exact hs.reported e' mem
  · exact h

theorem modifyProc (id : ProcId) {f : ProcEntry → ProcEntry}
    (h : ∀ p, Within S p → Within S (f p)) :
    { s with procs := s.procs.modify id f }.TablesWithin S := by
  refine { hs with procTypes := fun p mem => ?_ }
  obtain ⟨i, found⟩ := Array.getElem?_of_mem mem
  rw [Array.getElem?_modify] at found
  split at found
  · obtain ⟨q, hq, rfl⟩ := Option.map_eq_some_iff.mp found
    exact h q (hs.procTypes q (Array.mem_of_getElem? hq))
  · exact hs.procTypes p (Array.mem_of_getElem? found)

end Analysis.TablesWithin

/-! ### Confined checks -/

/-- From some tables, a check goes along a trace, runs the same under the other view, and leaves
tables and a value within the scope. -/
structure ConfinedAt {α : Type} [Scoped α] (B : Bounds) (x : Check α) (s : Analysis) : Prop where
  trace : Trace B.outline B.toRegion s (runAt x B.outline s).2
  same : runAt x (B.outline.reaching B.view) s = runAt x B.outline s
  tables : (runAt x B.outline s).2.TablesWithin B.scope
  value : Within B.scope (runAt x B.outline s).1

/-- A check that keeps to bounds from all tables within the scope. -/
def Confined {α : Type} [Scoped α] (B : Bounds) (x : Check α) : Prop :=
  ∀ s, B.outline.procs.size ≤ s.procs.size → s.TablesWithin B.scope → ConfinedAt B x s

section Rules

variable {α β : Type} [Scoped α] [Scoped β] {B : Bounds} {s : Analysis}

theorem ConfinedAt.of_run {x : Check α} {r : Except SemanticError α × Analysis}
    (run : runAt x B.outline s = r) (other : runAt x (B.outline.reaching B.view) s = r)
    (trace : Trace B.outline B.toRegion s r.2) (tables : r.2.TablesWithin B.scope)
    (value : Within B.scope r.1) : ConfinedAt B x s := by
  subst run
  exact ⟨trace, other, tables, value⟩

theorem confined_pure {a : α} (h : Within B.scope a) : Confined B (pure a) :=
  fun s _ hs => ⟨.refl _ s, rfl, hs, within_ok.mpr h⟩

theorem confined_throw {e : SemanticError} (h : B.scope.Reports e) :
    Confined B (throw e : Check α) :=
  fun s _ hs => ⟨.refl _ s, rfl, hs, within_error.mpr h⟩

theorem confined_modify {f : Analysis → Analysis}
    (change : ∀ s : Analysis, s.Change B.outline B.toRegion (f s))
    (tables : ∀ s : Analysis, s.TablesWithin B.scope → (f s).TablesWithin B.scope) :
    Confined B (modify f : Check Unit) :=
  fun s _ hs => ⟨.single (change s), rfl, tables s hs, within_ok.mpr trivial⟩

theorem ConfinedAt.bind {x : Check α} {f : α → Check β} (hx : ConfinedAt B x s)
    (hf : ∀ a s₁, Gives x B.outline s a s₁ → Within B.scope a → s₁.TablesWithin B.scope →
      s.procs.size ≤ s₁.procs.size → ConfinedAt B (f a) s₁) : ConfinedAt B (x >>= f) s := by
  obtain ⟨trace, same, tables, value⟩ := hx
  rcases run : runAt x B.outline s with ⟨e | a, s₁⟩
  all_goals rw [run] at trace same tables value
  · exact .of_run (by rw [runAt_bind, run]) (by rw [runAt_bind, same]) trace tables
      (within_error.mpr (within_error.mp value))
  · have rest := hf a s₁ run (within_ok.mp value) tables trace.grows.size_procs
    refine .of_run (by rw [runAt_bind, run]) ?_ (trace.trans rest.trace) rest.tables rest.value
    rw [runAt_bind, same]
    exact rest.same

theorem confined_bind {x : Check α} {f : α → Check β} (hx : Confined B x)
    (hf : ∀ a, Within B.scope a → Confined B (f a)) : Confined B (x >>= f) :=
  fun s size hs => (hx s size hs).bind fun a s₁ _ ha hs₁ grown =>
    hf a ha s₁ (Nat.le_trans size grown) hs₁

theorem confined_read {f : Outline → Check β}
    (same : f (B.outline.reaching B.view) = f B.outline) (h : Confined B (f B.outline)) :
    Confined B (read >>= f) := by
  intro s size hs
  have run (o : Outline) : runAt (read >>= f) o s = runAt (f o) o s := rfl
  obtain ⟨trace, other, tables, value⟩ := h s size hs
  exact .of_run (run _) (by rw [run, same, other]) trace tables value

theorem confined_tryCatch {x : Check α} {handle : SemanticError → Check α} (hx : Confined B x)
    (hh : ∀ e, B.scope.Reports e → Confined B (handle e)) : Confined B (tryCatch x handle) := by
  intro s size hs
  obtain ⟨trace, same, tables, value⟩ := hx s size hs
  rcases run : runAt x B.outline s with ⟨e | a, s₁⟩
  all_goals rw [run] at trace same tables value
  · have rest := hh e (within_error.mp value) s₁ (Nat.le_trans size trace.grows.size_procs) tables
    refine .of_run (by rw [runAt_tryCatch, run]) ?_ (trace.trans rest.trace) rest.tables rest.value
    rw [runAt_tryCatch, same]
    exact rest.same
  · exact .of_run (by rw [runAt_tryCatch, run]) (by rw [runAt_tryCatch, same]) trace tables value

theorem Confined.trace {o : Outline} {K : Region} {x : Check α} (h : Confined (o.bounds K) x)
    (size : o.procs.size ≤ s.procs.size) : Trace o K s (runAt x o s).2 :=
  (h s size (Scoped.within_all s)).trace

end Rules

def Bounds.law (B : Bounds) : CheckLaw where
  scope := B.scope
  outline := B.outline
  view := B.view
  same := B.same
  nodes := { n | n ∈ B.nodes }
  Holds := Confined B
  pure := confined_pure
  throw := confined_throw
  bind := confined_bind
  tryCatch := confined_tryCatch
  get s _ hs := ⟨.refl _ s, rfl, hs, within_ok.mpr hs⟩
  read := confined_read
  note h := confined_modify (fun s => .error s _) fun _ hs => hs.note h
  setType mem h := confined_modify (fun s => .type s _ mem) fun _ hs => hs.setType _ h
  widen id := confined_modify (fun s => .widened s id) fun _ hs => { hs with }
  resolve mem _ := confined_modify (fun s => .resolution s _ mem) fun _ hs => { hs with }
  setCall mem plain :=
    confined_modify (fun s => .call s mem (CallTarget.isMethod_of_isPlain plain))
      fun _ hs => { hs with }
  callMethod supplied total how mem h known :=
    confined_modify (fun s => .method s supplied total how mem known)
      fun _ hs => { hs.postpone h with }
  updateProc id _ filled params _ h :=
    confined_modify (fun s => .proc s id filled params) fun _ hs => hs.modifyProc id h

namespace Check

/-! ### Declarations of symbols, and items -/

section Steps

variable {B : Bounds}

theorem confined_updateParams {id : ProcId} {f : ProcEntry → ProcEntry}
    (filled : ∀ p, ProcEntry.Filled p (f p)) (allowed : id ∈ B.params ∨ B.outline.procs.size ≤ id)
    (h : ∀ p, Within B.scope p → Within B.scope (f p)) : B.law.Holds (updateProc id f) :=
  confined_modify (fun s => .params s filled allowed) fun _ hs => hs.modifyProc id h

theorem confined_setDeclSymbol {id : NodeId} (mem : id ∈ B.nodes) (symbol : SymbolId) :
    B.law.Holds (setDeclSymbol id symbol) :=
  confined_modify (fun s => .declSymbol s symbol mem) fun _ hs => { hs with }

theorem confined_setSymbolType (id : SymbolId) {type : Ty} (h : B.scope.Allows type) :
    B.law.Holds (setSymbolType id type) := by
  refine confined_modify (fun s => .symbolType s id type) fun s hs =>
    { hs with symbolTypes := fun p mem => ?_ }
  obtain ⟨i, found⟩ := Array.getElem?_of_mem mem
  rw [Array.getElem?_modify] at found
  split at found
  · obtain ⟨q, hq, rfl⟩ := Option.map_eq_some_iff.mp found
    exact h
  · exact hs.symbolTypes p (Array.mem_of_getElem? found)

theorem confined_newSymbol (c : Context) (name : Ident) {kind : SymbolKind} {type : Ty}
    (h : B.scope.Allows type) {mutable : Bool} (isVar : mutable = true → kind = .var) :
    B.law.Holds (newSymbol c name kind type mutable) := by
  refine fun s _ hs => ⟨.single (.newSymbol s rfl rfl isVar), rfl, { hs with symbolTypes := ?_ },
    within_ok.mpr trivial⟩
  intro p mem
  rcases Array.mem_push.mp mem with mem | rfl
  · exact hs.symbolTypes p mem
  · exact h

theorem within_bind {S : Scope} {c : Context} (h : Within S c) (name : String)
    (symbol : SymbolId) : Within S (c.bind name symbol) := by
  unfold Context.bind
  split <;> exact h

theorem confined_declare {c : Context} (hc : Within B.scope c) (name : Ident) {kind : SymbolKind}
    {type : Ty} (h : B.scope.Allows type) {mutable : Bool} (isVar : mutable = true → kind = .var) :
    B.law.Holds (declare c name kind type mutable) := by
  refine holds_guard (by simp) (B.law.bind (confined_newSymbol c name h isVar) fun id _ => ?_)
  exact B.law.pure ⟨trivial, within_bind hc name.value id⟩

variable {check : Check Unit}

theorem runAt_once (i : Item) (total : Total check) (o : Outline)
    (s : Analysis) : (i ∈ s.started ∧ runAt (once i check) o s = (.ok (), s)) ∨
      (i ∉ s.started ∧ ∃ s₁, Gives check o (s.begin i) () s₁ ∧
        runAt (once i check) o s = (.ok (), s₁.finish i)) := by
  by_cases begun : i ∈ s.started
  · refine .inl ⟨begun, ?_⟩
    change runAt (if !s.started.contains i then _ else pure ()) o s = _
    rw [if_neg (by simpa using begun)]
    rfl
  · obtain ⟨⟨⟩, s₁, run⟩ := total o (s.begin i)
    refine .inr ⟨begun, s₁, run, ?_⟩
    have first : runAt (once i check) o s =
        runAt (check >>= fun _ => modify fun s => s.finish i) o (s.begin i) := by
      change runAt (if !s.started.contains i then _ else pure ()) o s = _
      rw [if_pos (by simpa using begun)]
      rfl
    rw [first, runAt_bind, run]
    rfl

theorem confinedAt_once {K : Region} {i : Item} (total : Total check)
    {s : Analysis} (hs : s.TablesWithin B.scope)
    (h : i ∉ s.started → ConfinedAt (B.inside K) check (s.begin i))
    (traced : ∀ s₁, i ∉ s.started → Gives check B.outline (s.begin i) () s₁ →
      Trace B.outline K (s.begin i) s₁ → Trace B.outline B.toRegion s (s₁.finish i)) :
    ConfinedAt B (once i check) s := by
  rcases runAt_once i total B.outline s with ⟨begun, run⟩ | ⟨new, s₁, gives, run⟩
  · refine .of_run run ?_ (.refl _ s) hs (within_ok.mpr trivial)
    rcases runAt_once i total (B.outline.reaching B.view) s with ⟨-, other⟩ | ⟨new, -⟩
    · exact other
    · exact absurd begun new
  · obtain ⟨trace, same, tables, -⟩ := h new
    have gives : runAt check B.outline (s.begin i) = (.ok (), s₁) := gives
    simp only [Bounds.inside, gives] at trace same tables
    refine .of_run run ?_ (traced s₁ new gives trace) { tables with } (within_ok.mpr trivial)
    rcases runAt_once i total (B.outline.reaching B.view) s with ⟨begun, -⟩ | ⟨-, s₂, gives', other⟩
    · exact absurd begun new
    · obtain rfl : s₂ = s₁ := congrArg Prod.snd (gives'.symm.trans same)
      exact other

theorem confined_once {i : Item} (nested : B.outline.IsNested i)
    (total : Total check) (h : B.law.Holds check) : B.law.Holds (once i check) := by
  intro s size hs
  refine confinedAt_once (K := B.toRegion) total hs (fun _ => h (s.begin i) size { hs with }) ?_
  intro s₁ _ _ inner
  have begun : i ∈ s₁.started := inner.grows.started List.mem_cons_self
  exact .change (.started s nested) (inner.trans (.single (.finished s₁ nested begun)))

end Steps

/-! ### Symbols -/

section Symbols

variable {B : Bounds} {need : Item → Check Unit}

theorem confined_capture (sym : SymbolInfo) (span : Span) (procs : List ProcId) :
    B.law.Holds (capture sym span procs) := by
  induction procs with
  | nil => exact B.law.pure trivial
  | cons proc outer ih =>
    have noted : B.law.Holds (updateProc proc fun p =>
        { p with info.captures := p.info.captures ++ [sym.id] }) :=
      confined_modify (fun s => .proc s proc (fun p => ⟨rfl, List.prefix_append _ _, rfl, id⟩)
        fun _ => rfl) fun _ hs => hs.modifyProc proc fun _ hp => hp
    unfold capture
    grind

variable (hneed : ∀ i, B.law.Holds (need i))

include hneed

theorem confined_useSymbol (c : Context) (id : SymbolId) (span : Span) :
    B.law.Holds (useSymbol need c id span) := by
  unfold useSymbol
  refine B.law.bind (holds_symbol id) fun sym _ => ?_
  split
  · refine B.law.read rfl ?_
    grind
  · exact B.law.bind (confined_capture sym span c.procs) fun _ _ =>
      B.law.bind (holds_symbol id) fun _ hsym => B.law.pure hsym

theorem confined_nestedCall {args : Arguments} (hargs : Arguments.Hold B.law args)
    {node callee : Node} (mem : node.id ∈ B.nodes) (mem' : callee.id ∈ B.nodes) (c : Context)
    (sym : SymbolInfo) (proc : ProcId) :
    B.law.Holds (nestedCall need c node callee sym proc args) := by
  have resolved : B.law.Holds (resolve callee.id (.var sym.id)) :=
    confined_modify (fun s => .resolution s _ mem') fun _ hs => { hs with }
  have called (supplied total : Nat) :
      B.law.Holds (setCall node.id (.nestedProc sym.id proc supplied total)) :=
    confined_modify (fun s => .call s mem rfl) fun _ hs => { hs with }
  refine B.law.bind (confined_capture sym callee.span c.procs) fun _ _ => ?_
  refine B.law.bind (holds_localSig hneed proc node.span) fun sig hsig => ?_
  refine B.law.bind (holds_bindArguments hargs sym.name hsig) fun _ _ => ?_
  refine B.law.bind resolved fun _ _ => ?_
  refine B.law.bind (B.law.setType mem' (ProcSig.type_within hsig)) fun _ _ => ?_
  exact B.law.bind (called _ _) fun _ _ => B.law.pure hsig.2

theorem supports {c : Context} (hc : Within B.scope c) : Supports B.law need c where
  items := hneed
  context := hc
  used {_ id} _ node mem := by
    have resolved : B.law.Holds (resolve node.id (.var id)) :=
      confined_modify (fun s => .resolution s _ mem) fun _ hs => { hs with }
    exact B.law.bind (confined_useSymbol hneed c id node.span) fun type ht =>
      B.law.bind resolved fun _ _ => B.law.pure ht
  called _ _ _ _ _ _ mem mem' hargs hvalue h := by
    refine B.law.bind (holds_symbol _) fun sym _ => ?_
    rcases h sym with same | ⟨proc, -, same⟩
    · rw [same]
      exact hvalue
    · rw [same]
      exact confined_nestedCall hneed hargs mem mem' c sym proc

end Symbols

/-! ### Declarations -/

section Decls

variable {B : Bounds} {need : Item → Check Unit}

theorem confined_declareParam {c : Context} (hc : Within B.scope c) (name : Ident) {type : Ty}
    (h : B.scope.Allows type) : B.law.Holds (declareParam c name type) := by
  refine B.law.bind (holds_attempt (confined_declare hc name h (by simp))) ?_
  intro outcome houtcome
  cases outcome with
  | ok declared => exact B.law.pure (within_ok.mp houtcome)
  | error e =>
    refine B.law.bind (B.law.note (B.scope.reports (by simp))) fun _ _ => ?_
    exact B.law.bind (confined_newSymbol c name h (by simp)) fun _ _ =>
      B.law.pure ⟨trivial, hc⟩

theorem confined_newProc_bind {α : Type} [Scoped α] {decl : ProcDecl}
    (mem : decl.node.id ∈ B.nodes) (c : Context) {f : ProcId → Check α}
    (hf : ∀ id, B.outline.procs.size ≤ id → B.law.Holds (f id)) :
    B.law.Holds (newProc c decl >>= f) := by
  intro s size hs
  have first : ConfinedAt B (newProc c decl) s := by
    let entry : ProcEntry :=
      { info :=
          { id := s.procs.size, name := decl.name.value, path := [decl.name.value]
            decl := decl.node.id, params := [], ret := .unknown, kind := .nested c.proc
            captures := [], nestedIn := c.proc }
        hasDeclaredRet := decl.ret.isSome }
    have change := @Analysis.Change.newProc B.outline B.toRegion s entry mem rfl rfl
    refine ⟨.single change, rfl, { hs with procTypes := fun p mem => ?_ }, within_ok.mpr trivial⟩
    rcases Array.mem_push.mp mem with mem | rfl
    · exact hs.procTypes p mem
    · exact ⟨⟨within_nil.mpr trivial, B.scope.unknown⟩, within_none.mpr trivial⟩
  refine first.bind fun id s₁ run _ hs₁ grown => ?_
  obtain rfl : s.procs.size = id := congrArg (fun r => r.1.toOption.getD 0) run
  exact hf _ size s₁ (Nat.le_trans size grown) hs₁

theorem lentSelf_within {M : Set ModuleId} {self : Option SelfContext} (h : Within M self) :
    Within M (lentSelf self) := by
  unfold lentSelf
  split
  · exact h
  · exact within_none.mpr trivial

theorem confined_body (outer : Context) {self : Option SelfContext} (hself : Within B.scope self)
    (id : ProcId) {code : Context → Check Unit}
    (hcode : ∀ c, Within B.scope c → B.law.Holds (code c)) :
    B.law.Holds (body outer self id code) := by
  have context : B.law.Holds (bodyContext outer self id) :=
    B.law.bind (holds_procEntry id) fun _ _ => B.law.pure hself
  refine B.law.bind context fun c hc => B.law.bind (hcode c hc) fun _ _ => ?_
  refine B.law.updateProc id (fun p => ⟨rfl, List.prefix_rfl, rfl, fun h => h⟩) (fun p => rfl)
    (fun p => rfl) fun p hp => ?_
  have ret : B.scope.Allows (p.ret.getD .void) := by
    cases found : p.ret with
    | none => exact B.scope.void
    | some t => exact hp.2 t found
  exact ⟨⟨hp.1.1, ret⟩, within_some.mpr ret⟩

variable (hneed : ∀ i, B.law.Holds (need i)) {c : Context} (hc : Within B.scope c)

include hneed

section Slots

include hc

theorem confined_paramInfos {params : List Param} (own : Param.idsAll params ⊆ B.nodes) :
    B.law.Holds (paramInfos need c params) := by
  induction params generalizing c with
  | nil => exact B.law.pure (within_nil.mpr trivial)
  | cons param rest ih =>
    obtain ⟨ofFirst, ofOthers⟩ := List.append_subset.mp own
    obtain ⟨mem, ofDefault⟩ := List.cons_subset.mp ofFirst
    refine B.law.bind (holds_orNote (holds_paramType (supports hneed hc) ofDefault)
      B.scope.unknown) ?_
    intro type htype
    refine B.law.bind (confined_declareParam hc param.name htype) fun declared hdeclared => ?_
    refine B.law.bind (confined_setDeclSymbol mem _) fun _ _ => ?_
    refine B.law.bind (ih hdeclared.2 ofOthers) fun infos hinfos => ?_
    exact B.law.pure (within_cons.mpr ⟨htype, hinfos⟩)

end Slots

theorem confined_signature {id : ProcId} (allowed : id ∈ B.params ∨ B.outline.procs.size ≤ id)
    {decl : ProcDecl} (own : Param.idsAll decl.params ⊆ B.nodes) :
    B.law.Holds (signature need id decl) := by
  refine B.law.bind (confined_paramInfos hneed (within_none.mpr trivial) own) ?_
  intro params hparams
  cases decl.ret with
  | none =>
    refine confined_read rfl (confined_updateParams (fun p => ?_) allowed fun p hp => ?_)
    · exact ⟨rfl, List.prefix_rfl, rfl, fun h => h⟩
    · exact ⟨⟨hparams, hp.1.2⟩, hp.2⟩
  | some type =>
    refine confined_read ?_ ?_
    · simp only [Outline.typeOf_reaching B.same]
    · have written := Outline.typeOf_within B.same.inside type
      refine B.law.bind (holds_orNote (holds_ofExcept written) B.scope.unknown) fun ret hret => ?_
      refine confined_updateParams (fun p => ?_) allowed fun p _ => ?_
      · exact ⟨rfl, List.prefix_rfl, rfl, fun h => h⟩
      · exact ⟨⟨hparams, hret⟩, within_some.mpr hret⟩

end Decls

/-! ### Statements -/

section Stmts

variable {B : Bounds} {need : Item → Check Unit}
variable (hneed : ∀ i, B.law.Holds (need i)) {c : Context} (hc : Within B.scope c)

include hneed hc

theorem confined_localVar {decl : VarDecl} (own : decl.ids ⊆ B.nodes) :
    B.law.Holds (localVar need c decl) := by
  obtain ⟨mem, ofValue⟩ := List.cons_subset.mp own
  have typed := holds_attempt (holds_declType (supports hneed hc) ofValue (within_none.mpr trivial))
  refine B.law.bind typed fun outcome houtcome => ?_
  have htype : B.scope.Allows (outcome.toOption.getD .unknown) := by
    cases outcome with
    | ok t => exact within_ok.mp houtcome
    | error e => exact B.scope.unknown
  refine B.law.bind (holds_attempt (confined_declare hc decl.name htype fun _ => rfl)) ?_
  intro declared hdeclared
  cases declared with
  | error e => exact B.law.bind (B.law.note hdeclared) fun _ _ => B.law.pure hc
  | ok declared =>
    refine B.law.bind (confined_setDeclSymbol mem _) fun _ _ => ?_
    exact B.law.bind (holds_noteOutcome houtcome) fun _ _ =>
      B.law.pure (within_ok.mp hdeclared).2

end Stmts

section Blocks

variable {B : Bounds} {need : Item → Check Unit}

mutual

/-- Statements write at their own nodes. -/
theorem confined_stmt (hneed : ∀ i, B.law.Holds (need i)) {c : Context} (hc : Within B.scope c) :
    (s : Stmt) → s.ids ⊆ B.nodes → B.law.Holds (stmt need c s)
  | .importUnit _, _ | .artifact _, _ => B.law.pure hc
  | .var decl, own => confined_localVar hneed hc own
  | .proc decl, own => confined_nestedProc hneed hc decl own
  | .assign _ target value, own => by
    obtain ⟨ofTarget, ofValue⟩ := List.append_subset.mp own
    exact B.law.bind (holds_orNote (holds_assignment (supports hneed hc) ofTarget ofValue) trivial)
      fun _ _ => B.law.pure hc
  | .cond ⟨_, cond, body⟩, own | .whileLoop ⟨_, cond, body⟩, own => by
    obtain ⟨ofCond, ofBody⟩ := List.append_subset.mp own
    exact B.law.bind (holds_attempt (holds_condition (supports hneed hc) ofCond)) fun _ houtcome =>
      B.law.bind (confined_block hneed hc _ body ofBody) fun _ _ =>
        B.law.bind (holds_noteOutcome houtcome) fun _ _ => B.law.pure hc
  | .chain _ arms (some body), own => by
    obtain ⟨ofArms, ofBody⟩ := List.append_subset.mp own
    exact B.law.bind (confined_chainArms hneed hc arms ofArms) fun _ _ =>
      B.law.bind (confined_block hneed hc _ body ofBody) fun _ _ => B.law.pure hc
  | .chain _ arms none, own => by
    obtain ⟨ofArms, -⟩ := List.append_subset.mp own
    exact B.law.bind (confined_chainArms hneed hc arms ofArms) fun _ _ => B.law.pure hc
  | .rangeLoop node var start stop body, own => by
    obtain ⟨ofEnds, ofBody⟩ := List.append_subset.mp own
    obtain ⟨mem, ofEnds⟩ := List.cons_subset.mp ofEnds
    obtain ⟨ofStart, ofStop⟩ := List.append_subset.mp ofEnds
    refine B.law.bind (holds_rangeEnds (supports hneed hc) ofStart ofStop) fun _ houtcome => ?_
    have entered : Within B.scope (c.enter true) := hc
    refine B.law.bind (holds_attempt (confined_declare entered var B.scope.int (by simp))) ?_
    intro declared hdeclared
    cases declared with
    | error e => exact B.law.bind (B.law.note hdeclared) fun _ _ => B.law.pure hc
    | ok declared =>
      refine B.law.bind (confined_setDeclSymbol mem _) fun _ _ => ?_
      refine B.law.bind (confined_block hneed (within_ok.mp hdeclared).2 false body ofBody) ?_
      exact fun _ _ => B.law.bind (holds_noteOutcome houtcome) fun _ _ => B.law.pure hc
  | .breakLoop span, _ | .skipTurn span, _ =>
    B.law.bind (holds_orNote (holds_jumpStmt _ span) trivial) fun _ _ => B.law.pure hc
  | .ret span value, own =>
    B.law.bind (holds_orNote (holds_returnStmt (supports hneed hc) span own) trivial)
      fun _ _ => B.law.pure hc
  | .block body, own =>
    B.law.bind (confined_block hneed hc _ body own) fun _ _ => B.law.pure hc
  | .expr value, own =>
    B.law.bind (holds_orNote
      (holds_exprType (supports hneed hc) value own (within_none.mpr trivial)) B.scope.unknown)
      fun _ _ => B.law.pure hc

theorem confined_block (hneed : ∀ i, B.law.Holds (need i)) {c : Context} (hc : Within B.scope c)
    (inLoop : Bool) : (b : Block) → b.ids ⊆ B.nodes → B.law.Holds (block need c inLoop b)
  | ⟨_, code⟩, own => confined_stmts hneed (c := c.enter inLoop) hc code own

theorem confined_stmts (hneed : ∀ i, B.law.Holds (need i)) {c : Context} (hc : Within B.scope c) :
    (ss : List Stmt) → Stmt.idsAll ss ⊆ B.nodes → B.law.Holds (stmts need c ss)
  | [], _ => B.law.pure trivial
  | s :: rest, own => by
    obtain ⟨ofFirst, ofOthers⟩ := List.append_subset.mp own
    exact B.law.bind (confined_stmt hneed hc s ofFirst) fun _ hinner =>
      confined_stmts hneed hinner rest ofOthers

theorem confined_chainArms (hneed : ∀ i, B.law.Holds (need i)) {c : Context}
    (hc : Within B.scope c) :
    (arms : List Guarded) → Guarded.idsAll arms ⊆ B.nodes → B.law.Holds (chainArms need c arms)
  | [], _ => B.law.pure trivial
  | ⟨_, cond, body⟩ :: rest, own => by
    obtain ⟨ofArm, ofOthers⟩ := List.append_subset.mp own
    obtain ⟨ofCond, ofBody⟩ := List.append_subset.mp ofArm
    exact B.law.bind (holds_orNote (holds_condition (supports hneed hc) ofCond) trivial) fun _ _ =>
      B.law.bind (confined_block hneed hc false body ofBody) fun _ _ =>
        confined_chainArms hneed hc rest ofOthers

theorem confined_nestedProc (hneed : ∀ i, B.law.Holds (need i)) {c : Context}
    (hc : Within B.scope c) :
    (decl : ProcDecl) → decl.ids ⊆ B.nodes → B.law.Holds (nestedProc need c decl)
  | ⟨node, name, params, ret, ⟨span, code⟩⟩, own => by
    obtain ⟨ofHead, ofBody⟩ := List.append_subset.mp own
    obtain ⟨mem, ofParams⟩ := List.cons_subset.mp ofHead
    refine confined_newProc_bind mem c fun id new => ?_
    refine B.law.bind (holds_attempt (confined_declare hc name B.scope.unknown (by simp)))
      fun declared hdeclared => ?_
    cases declared with
    | error e => exact B.law.bind (B.law.note hdeclared) fun _ _ => B.law.pure hc
    | ok declared =>
      have code (c : Context) (hc : Within B.scope c) := confined_stmts hneed hc code ofBody
      refine B.law.bind (confined_setDeclSymbol mem _) fun _ _ => ?_
      refine B.law.bind (confined_once (i := .signature id) new (total_signature id _)
        (confined_signature hneed (.inr new) ofParams)) fun _ _ => ?_
      refine B.law.bind (confined_once (i := .body id) new
        (total_body _ id fun c => total_stmts c _)
        (confined_body declared.2 (lentSelf_within hc) id code)) fun _ _ => ?_
      refine B.law.bind (holds_procEntry id) fun entry hentry => ?_
      have type := ProcSig.type_within (ProcInfo.sig_within hentry.1)
      exact B.law.bind (confined_setSymbolType _ type) fun _ _ =>
        B.law.pure (within_ok.mp hdeclared).2

end

end Blocks

/-! ### Items -/

section Items

variable {B : Bounds} {need : Item → Check Unit}

theorem confined_addProp {artifact : String} (mem : artifact ∈ B.props) {prop : PropInfo}
    (h : Within B.scope prop) : B.law.Holds (addProp artifact prop) := by
  refine confined_modify (fun s => .prop s prop mem) fun s hs => { hs with propTypes := ?_ }
  intro name props found
  rw [NameTable.get?_insert] at found
  split at found
  · cases found
    intro p mem
    rcases List.mem_append.mp mem with mem | mem
    · cases known : s.props.get? artifact with
      | none => simp [known] at mem
      | some before => exact hs.propTypes artifact before known p (by simpa [known] using mem)
    · rw [List.mem_singleton.mp mem]
      exact h
  · exact hs.propTypes name props found

section

variable (hneed : ∀ i, B.law.Holds (need i))

include hneed

theorem confined_globalType (id : SymbolId) {global : LocalGlobal}
    (h : Within B.scope global.declared) (own : global.decl.valueIds ⊆ B.nodes) :
    B.law.Holds (globalType need id global) := by
  have context : Within B.scope ({ position := some global.position } : Context) :=
    within_none.mpr trivial
  have typed := holds_declType (supports hneed context) own h
  exact B.law.bind (holds_orNote typed B.scope.unknown) fun type ht => confined_setSymbolType id ht

theorem confined_propTypes {c : Context} (hc : Within B.scope c) {a : LocalArtifact}
    (mem : a.name ∈ B.props) {decls : List VarDecl}
    (own : decls.flatMap VarDecl.valueIds ⊆ B.nodes) : B.law.Holds (propTypes need c a decls) := by
  induction decls with
  | nil => exact B.law.pure trivial
  | cons decl rest ih =>
    obtain ⟨ofFirst, ofOthers⟩ := List.append_subset.mp own
    have others := ih ofOthers
    have typed := holds_declType (supports hneed hc) ofFirst (within_none.mpr trivial)
    refine B.law.bind (holds_orNote typed B.scope.unknown) fun type ht => ?_
    have added : B.law.Holds (addProp a.name ⟨decl.name.value, type, decl.mutable⟩) :=
      confined_addProp mem ht
    grind

theorem confined_artifactPropTypes {a : LocalArtifact} (mem : a.name ∈ B.props)
    (own : a.decl.propIds ⊆ B.nodes) : B.law.Holds (artifactPropTypes need a) := by
  refine B.law.read rfl (confined_propTypes hneed ?_ mem own)
  cases a.kind with
  | namespaced => exact within_some.mpr B.same.inside.module
  | _ => exact within_none.mpr trivial

end

variable {check : Check Unit}

theorem confined_content {i : Item}
    (hneed : ∀ j, Confined (B.inside (B.outline.region i)) (need j))
    (found : content need B.outline i = some check) :
    Total check ∧ Confined (B.inside (B.outline.region i)) check := by
  cases i with
  | global id =>
    obtain ⟨global, here, rfl⟩ := Option.map_eq_some_iff.mp found
    have declared := B.same.inside.globals global (Array.mem_of_getElem? here)
    exact ⟨total_globalType id global, confined_globalType hneed id declared
      (by simp [Bounds.inside, Outline.region, Outline.code, here])⟩
  | signature id =>
    obtain ⟨proc, here, rfl⟩ := Option.map_eq_some_iff.mp found
    exact ⟨total_signature id proc.decl, confined_signature hneed (.inl List.mem_cons_self)
      (by simp [Bounds.inside, Outline.region, Outline.code, here])⟩
  | body id =>
    obtain ⟨proc, here, rfl⟩ := Option.map_eq_some_iff.mp found
    have self := B.same.inside.procs proc (Array.mem_of_getElem? here)
    have own : Stmt.idsAll proc.decl.body.stmts ⊆ (B.outline.region (.body id)).nodes := by
      cases body : proc.decl.body
      simp [Outline.region, Outline.code, here, body, Block.ids]
    exact ⟨total_body _ id fun c => total_stmts c _, confined_body
      (B := B.inside (B.outline.region (.body id))) _ self id
        fun c hc => confined_stmts hneed hc _ own⟩
  | props name =>
    obtain ⟨a, here, rfl⟩ := Option.map_eq_some_iff.mp found
    have inList := List.mem_of_find?_eq_some here
    have named := List.find?_some here
    have mem : a.name ∈ (B.outline.region (.props name)).props := by
      simpa [Outline.region] using named
    refine ⟨total_artifactPropTypes a, confined_artifactPropTypes hneed mem fun n mem => ?_⟩
    exact List.mem_flatMap.mpr ⟨a, List.mem_filter.mpr ⟨inList, named⟩, mem⟩

/-- An item of the outline writes at its own nodes, wherever it is needed. -/
theorem confinedAt_item {depth : Nat} {i : Item} {s : Analysis}
    (hneed : ∀ j, Confined (B.inside (B.outline.region i)) (demand depth j))
    (found : content (demand depth) B.outline i = some check)
    (size : B.outline.procs.size ≤ s.procs.size) (hs : s.TablesWithin B.scope)
    (ready : ∀ id, i = .body id → .signature id ∈ s.started) : ConfinedAt B (once i check) s := by
  obtain ⟨total, confined⟩ := confined_content hneed found
  refine confinedAt_once total hs (fun _ => confined (s.begin i) size { hs with }) ?_
  exact fun s₁ new run inner => .item found new ready run inner (.refl _ _)

theorem begun_of_once {i : Item} {s s₁ : Analysis} {K : Region}
    (total : Total check) (h : Gives (once i check) B.outline s () s₁)
    (inner : i ∉ s.started →
      Trace B.outline K (s.begin i) (runAt check B.outline (s.begin i)).2) : i ∈ s₁.started := by
  have h : runAt (once i check) B.outline s = (.ok (), s₁) := h
  rcases runAt_once i total B.outline s with ⟨begun, run⟩ | ⟨new, s₂, gives, run⟩
  · obtain rfl : s = s₁ := congrArg Prod.snd (run.symm.trans h)
    exact begun
  · obtain rfl : s₂.finish i = s₁ := congrArg Prod.snd (run.symm.trans h)
    have trace := inner new
    rw [gives] at trace
    exact trace.grows.started List.mem_cons_self

theorem confined_demand (B : Bounds) (depth : Nat) (i : Item) : B.law.Holds (demand depth i) := by
  induction depth generalizing B i with
  | zero => exact B.law.pure trivial
  | succ depth ih =>
    have item {i : Item} {check : Check Unit}
        (found : content (demand depth) B.outline i = some check) (other : ∀ id, i ≠ .body id) :
        B.law.Holds (once i check) := fun s size hs =>
      confinedAt_item (fun j => ih _ j) found size hs fun id same => absurd same (other id)
    rw [demand]
    cases i with
    | global id =>
      refine confined_read rfl ?_
      split
      next global here => exact item (by simp [content, here]) (by simp)
      next => exact B.law.pure trivial
    | signature id =>
      refine confined_read rfl ?_
      split
      next proc here => exact item (by simp [content, here]) (by simp)
      next => exact B.law.pure trivial
    | body id =>
      refine confined_read rfl ?_
      split
      next proc here =>
        have found : content (demand depth) B.outline (.signature id) =
            some (signature (demand depth) id proc.decl) := by simp [content, here]
        have found' : content (demand depth) B.outline (.body id) = some (body {} proc.self id
            fun c => stmts (demand depth) c proc.decl.body.stmts) := by simp [content, here]
        obtain ⟨total, confined⟩ := confined_content (fun j => ih _ j) found
        intro s size hs
        refine (item found (by simp) s size hs).bind fun _ s₁ run _ hs₁ grown => ?_
        refine confinedAt_item (fun j => ih _ j) found' (Nat.le_trans size grown) hs₁ ?_
        intro _ same
        cases same
        exact begun_of_once total run fun _ => (confined (s.begin _) size { hs with }).trace
      next => exact B.law.pure trivial
    | props name =>
      refine confined_read rfl ?_
      split
      next a here => exact item (by simp [content, here]) (by simp)
      next => exact B.law.pure trivial

theorem confined_topStmt (hneed : ∀ i, B.law.Holds (need i)) (position : Nat) {s : Stmt}
    (own : s.topCode ⊆ B.nodes) : B.law.Holds (topStmt need position s) := by
  cases s with
  | importUnit _ => exact B.law.pure trivial
  | var decl | proc decl =>
    refine B.law.bind B.law.get fun s _ => ?_
    split
    · exact hneed _
    · exact B.law.pure trivial
  | artifact decl =>
    refine confined_read rfl ?_
    split
    · exact B.law.bind (hneed _) fun _ _ => holds_items hneed _
    · exact B.law.pure trivial
  | _ =>
    exact B.law.bind (confined_stmt hneed (within_none.mpr trivial) _ own) fun _ _ =>
      B.law.pure trivial

theorem confined_topStmts (hneed : ∀ i, B.law.Holds (need i)) (position : Nat) {ss : List Stmt}
    (own : ss.flatMap Stmt.topCode ⊆ B.nodes) : B.law.Holds (topStmts need position ss) := by
  induction ss generalizing position with
  | nil => exact B.law.pure trivial
  | cons s rest ih =>
    obtain ⟨ofFirst, ofOthers⟩ := List.append_subset.mp own
    exact B.law.bind (confined_topStmt hneed position ofFirst) fun _ _ =>
      ih (position + 1) ofOthers

/-- Module-level code writes at its own nodes. -/
theorem confined_program {p : Program} (own : p.stmts.flatMap Stmt.topCode ⊆ B.nodes) :
    B.law.Holds (program p) :=
  confined_read rfl (confined_topStmts (fun i => confined_demand B _ i) 0 own)

theorem trace_program (o : Outline) (p : Program) :
    Trace o { nodes := p.stmts.flatMap Stmt.topCode } (.ofOutline o)
      (runAt (program p) o (.ofOutline o)).2 :=
  Confined.trace (confined_program (B := o.bounds _) (List.Subset.refl _))
    (by simp [Analysis.ofOutline])

end Items

end Check

end ArkLang
