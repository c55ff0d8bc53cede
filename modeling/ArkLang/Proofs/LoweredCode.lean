import ArkLang.Lowering.Program
import ArkLang.Proofs.CoherentUnits
import ArkLang.Proofs.LoweredExprs
import ArkLang.Proofs.ReleasePoints

/-!
# Lowered code

What the lowering of a unit adds to a program. An activation describes the function being lowered:
its open blocks are those of the code at the point that lowering has come to, with the lists
declared in them so far. Every function that is added releases exactly the lists that are live where
it is left, and what it reads from environments is there.
-/

namespace ArkLang

open List
open C (Covered CoveredBy Point)
open C.Expr (ReadsOnly)

/-! ### What functions are for -/

namespace CheckedUnit

def functionName (u : CheckedUnit) (proc : ProcInfo) : C.Name :=
  if proc.isNested then .nested u.module proc.id proc.name else .member u.module proc.path

def holdsList (u : CheckedUnit) : C.Name → Bool
  | .localVar id _ => (u.symbols[id]?).any (·.type.isList)
  | _ => false

def listParams (u : CheckedUnit) (proc : ProcInfo) : List C.Name :=
  (proc.params.filter (·.type.isList)).map fun q =>
    .localVar q.symbol (u.symbols.getD q.symbol default).name

/-- What the procedure around some code captures. -/
def capturesOf (u : CheckedUnit) : Option ProcId → List SymbolId
  | none => []
  | some id => (u.procs.getD id default).captures

end CheckedUnit

/-- Functions beside those of procedures and of module-level code: they take the place of other
functions in calls, make records, or end a module. -/
def C.Name.isHelper : C.Name → Bool
  | .omitting _ _ | .viaValue _ | .constructor _ | .defaultRecord _ | .moduleEnd _ => true
  | _ => false

/-- The code of a function releases exactly the lists that are live where it is left. -/
def C.Function.Releases (f : C.Function) (u : CheckedUnit) (params : List C.Name) (isVoid : Bool) :
    Prop :=
  C.Stmt.ReleasesTo u.holdsList params (Point.EndsFunction params isVoid) {} f.body

/-- A function of a unit releases its lists, and reads fields that are there. -/
structure FunctionSound (u : CheckedUnit) (envs : List C.Environment) (f : C.Function) : Prop where
  releases : f.sig.name.isHelper = true ∨
    (∃ proc ∈ u.procs, f.sig.name = u.functionName proc ∧
      f.Releases u (u.listParams proc) (decide (proc.ret = .void))) ∨
    f.sig.name = .moduleStart u.module ∧ f.Releases u [] true
  accesses : ∀ x ∈ C.Stmt.accessesAll f.body, ∃ proc ∈ u.procs, ∃ env ∈ envs, env.IsFor u proc ∧
    x.2 ∈ proc.captures ∧ (x.1, env.name) ∈ C.Stmt.openedAll f.body ∧
      (x.1 = .env → f.sig.name = u.functionName proc)

theorem FunctionSound.mono {u : CheckedUnit} {envs envs' : List C.Environment} {f : C.Function}
    (h : FunctionSound u envs f) (more : envs ⊆ envs') : FunctionSound u envs' f := by
  refine ⟨h.releases, fun x mem => ?_⟩
  obtain ⟨proc, hproc, env, known, facts⟩ := h.accesses x mem
  exact ⟨proc, hproc, env, more known, facts⟩

theorem FunctionSound.helper {u : CheckedUnit} {envs : List C.Environment} {f : C.Function}
    (helper : f.sig.name.isHelper = true) (silent : C.Stmt.accessesAll f.body = []) :
    FunctionSound u envs f :=
  ⟨.inl helper, fun x mem => by simp [silent] at mem⟩

/-- All functions of a program are sound, and the values of its constants read no environments,
apart from what was there before. -/
structure SectionsSound (u : CheckedUnit) (before sections : C.Sections) : Prop where
  functions : ∀ f ∈ sections.functions,
    f ∈ before.functions ∨ FunctionSound u sections.environments.toList f
  globals : ∀ g ∈ sections.globals, g ∈ before.globals ∨ ∀ e ∈ g.value, e.accesses = []

theorem SectionsSound.refl (u : CheckedUnit) (sections : C.Sections) :
    SectionsSound u sections sections :=
  ⟨fun _ old => .inl old, fun _ old => .inl old⟩

namespace Lower

/-! ### Rules -/

section Rules

variable {α β : Type} {c : LowerContext} {before : C.Sections} {s : LowerState}
variable {Q : α → List C.Environment → Prop} {R : β → List C.Environment → Prop}

/-- What a lowering gives if it succeeds where all functions are sound. Those that it adds are
sound, and no environment is lost. If it fails, no jump outside of loops is the cause. -/
structure Emits (c : LowerContext) (before : C.Sections) (s : LowerState) (x : Lower α)
    (Q : α → List C.Environment → Prop) : Prop where
  gives : SectionsSound c.unit before s.sections → ∀ a s', x c s = .ok (a, s') →
    SectionsSound c.unit before s'.sections ∧
      s.sections.environments.toList ⊆ s'.sections.environments.toList ∧
      Q a s'.sections.environments.toList
  inside : SectionsSound c.unit before s.sections → Inside (x c s)

theorem Emits.of_yields {x : Lower α}
    (h : Yields c x fun a => Q a s.sections.environments.toList) : Emits c before s x Q := by
  refine ⟨fun sound a s' run => ?_, fun _ => h.inside s⟩
  obtain ⟨noted, value⟩ := h.gives s a s' run
  rw [noted.sections]
  exact ⟨sound, List.Subset.refl _, value⟩

theorem emits_pure {a : α} (h : Q a s.sections.environments.toList) :
    Emits c before s (pure a) Q := by
  refine ⟨fun sound b s' run => ?_, fun _ => inside_ok _⟩
  cases run
  exact ⟨sound, List.Subset.refl _, h⟩

theorem Emits.weaken {x : Lower α} {R : α → List C.Environment → Prop} (h : Emits c before s x Q)
    (weaker : ∀ a envs, Q a envs → R a envs) : Emits c before s x R := by
  refine ⟨fun sound a s' run => ?_, h.inside⟩
  obtain ⟨sound, more, value⟩ := h.gives sound a s' run
  exact ⟨sound, more, weaker _ _ value⟩

theorem Emits.kept {x : Lower α} (h : Emits c before s x Q) :
    Emits c before s x fun _ envs => s.sections.environments.toList ⊆ envs := by
  refine ⟨fun sound a s' run => ?_, h.inside⟩
  obtain ⟨sound, more, -⟩ := h.gives sound a s' run
  exact ⟨sound, more, more⟩

/-- What is emitted in sequence stays sound. -/
theorem Emits.bind {x : Lower α} {f : α → Lower β} (hx : Emits c before s x Q)
    (hf : ∀ a s₁, s.sections.environments.toList ⊆ s₁.sections.environments.toList →
      Q a s₁.sections.environments.toList → Emits c before s₁ (f a) R) :
    Emits c before s (x >>= f) R := by
  refine ⟨fun sound b s' run => ?_, fun sound => inside_bind (hx.inside sound) fun a s₁ first => ?_⟩
  · obtain ⟨a, s₁, first, second⟩ := bind_eq_ok.mp run
    obtain ⟨sound, more, value⟩ := hx.gives sound a s₁ first
    obtain ⟨sound', more', result⟩ := (hf a s₁ more value).gives sound b s' second
    exact ⟨sound', List.Subset.trans more more', result⟩
  · obtain ⟨sound, more, value⟩ := hx.gives sound a s₁ first
    exact (hf a s₁ more value).inside sound

theorem Yields.then {x : Lower α} {f : α → Lower β} {P : α → Prop} (hx : Yields c x P)
    (hf : ∀ a s₁, s₁.sections = s.sections → P a → Emits c before s₁ (f a) R) :
    Emits c before s (x >>= f) R := by
  refine ⟨fun sound b s' run => ?_, fun sound => inside_bind (hx.inside s) fun a s₁ first => ?_⟩
  · obtain ⟨a, s₁, first, second⟩ := bind_eq_ok.mp run
    obtain ⟨noted, value⟩ := hx.gives s a s₁ first
    have same := noted.sections
    obtain ⟨sound', more, result⟩ := (hf a s₁ same value).gives (same ▸ sound) b s' second
    exact ⟨sound', same ▸ more, result⟩
  · obtain ⟨noted, value⟩ := hx.gives s a s₁ first
    exact (hf a s₁ noted.sections value).inside (noted.sections ▸ sound)

theorem emits_addTo {f : C.Sections → C.Sections}
    (functions : (f s.sections).functions = s.sections.functions)
    (globals : (f s.sections).globals = s.sections.globals)
    (more : s.sections.environments.toList ⊆ (f s.sections).environments.toList) :
    Emits c before s (addTo f) fun _ envs => envs = (f s.sections).environments.toList := by
  refine ⟨fun sound u s' run => ?_, fun _ => inside_ok _⟩
  cases run
  refine ⟨⟨fun g mem => ?_, fun g mem => sound.globals g (globals ▸ mem)⟩, more, rfl⟩
  exact (sound.functions g (functions ▸ mem)).imp_right (·.mono more)

theorem emits_addGlobal {g : C.Global} (silent : ∀ e ∈ g.value, e.accesses = []) :
    Emits c before s (addTo fun sections => { sections with globals := sections.globals.push g })
      fun _ _ => True := by
  refine ⟨fun sound u s' run => ?_, fun _ => inside_ok _⟩
  cases run
  refine ⟨⟨sound.functions, fun g mem => ?_⟩, List.Subset.refl _, trivial⟩
  rcases Array.mem_push.mp mem with old | rfl
  · exact sound.globals g old
  · exact .inr silent

theorem emits_addPrototype (sig : C.Signature) :
    Emits c before s (addPrototype sig) fun _ _ => True :=
  (emits_addTo rfl rfl (List.Subset.refl _)).weaken fun _ _ _ => trivial

theorem emits_addBody {sig : C.Signature} {body : List C.Stmt}
    (h : FunctionSound c.unit s.sections.environments.toList ⟨sig, body⟩) :
    Emits c before s (addBody sig body) fun _ _ => True := by
  refine ⟨fun sound u s' run => ?_, fun _ => inside_ok _⟩
  cases run
  refine ⟨⟨fun g mem => ?_, sound.globals⟩, List.Subset.refl _, trivial⟩
  rcases Array.mem_push.mp mem with old | rfl
  · exact sound.functions g old
  · exact .inr h

theorem emits_addFunction {sig : C.Signature} {body : List C.Stmt}
    (h : FunctionSound c.unit s.sections.environments.toList ⟨sig, body⟩) :
    Emits c before s (addFunction sig body) fun _ _ => True :=
  (emits_addPrototype sig).bind fun _ _ more _ => emits_addBody (h.mono more)

theorem emits_inFunction {x : Lower α}
    (h : ∀ s₁ : LowerState, s₁.sections = s.sections → Emits c before s₁ x Q) :
    Emits c before s (inFunction x) Q := by
  have inner := h { s with temporaries := 0 } rfl
  refine ⟨fun sound a s' run => ?_, fun sound => ?_⟩
  · obtain ⟨s₀, s₁, got, run⟩ := bind_eq_ok.mp run
    cases got
    obtain ⟨_, s₂, reset, run⟩ := bind_eq_ok.mp run
    cases reset
    obtain ⟨b, s₃, ran, run⟩ := bind_eq_ok.mp run
    obtain ⟨_, s₄, restored, run⟩ := bind_eq_ok.mp run
    cases restored
    cases run
    exact inner.gives sound a s₃ ran
  · refine inside_bind (inside_ok _) fun _ _ got => inside_bind (inside_ok _) fun _ _ reset => ?_
    cases got
    cases reset
    refine inside_bind (inner.inside sound) fun _ _ _ => ?_
    exact inside_bind (inside_ok _) fun _ _ _ => inside_ok _

end Rules

/-! ### Points and activations -/

def blocksOf (a : Activation) : List C.OpenBlock :=
  a.scopes.map fun scope => ⟨scope.owned.map Owned.name, scope.isLoopBody⟩

/-- Whether a jump may leave a loop. -/
def inLoop (a : Activation) : Bool :=
  (Activation.ownedInLoop? a.scopes).isSome

theorem inLoop_enter (a : Activation) (isLoopBody : Bool) :
    inLoop (a.enter isLoopBody) = (inLoop a || isLoopBody) := by
  rw [inLoop, Activation.enter, Activation.ownedInLoop?, inLoop]
  cases isLoopBody <;> simp

theorem inLoop_own (a : Activation) (name : C.Name) (type : Ty) :
    inLoop (a.own name type) = inLoop a := by
  rw [Activation.own]
  split
  · next scope outer scopes =>
    split
    · rw [inLoop, inLoop, scopes, Activation.ownedInLoop?, Activation.ownedInLoop?]
      split <;> simp
    · rfl
  · rfl

def listsOf (a : Activation) : List C.Name :=
  a.ownedByFunction.map Owned.name

theorem listsInLoop?_blocksOf (a : Activation) : C.listsInLoop? (blocksOf a) =
    (Activation.ownedInLoop? a.scopes).map (List.map Owned.name) := by
  unfold blocksOf
  induction a.scopes with
  | nil => rfl
  | cons scope outer ih =>
    rw [map_cons, C.listsInLoop?, Activation.ownedInLoop?]
    split
    · rfl
    · rw [ih]
      cases Activation.ownedInLoop? outer <;> simp

theorem lists_blocksOf (a : Activation) (released : List C.Name) (jumped : Bool) :
    (Point.mk (blocksOf a) released jumped).lists = a.ownedByBlocks.map Owned.name := by
  simp [Point.lists, blocksOf, Activation.ownedByBlocks, flatMap_map, map_flatMap]

theorem lists_append_params (a : Activation) (released : List C.Name) (jumped : Bool) :
    (Point.mk (blocksOf a) released jumped).lists ++ a.params.map Owned.name = listsOf a := by
  rw [lists_blocksOf, listsOf, Activation.ownedByFunction, map_append]

theorem ownLists_blocksOf (a : Activation) (released : List C.Name) (jumped : Bool) :
    (Point.mk (blocksOf a) released jumped).ownLists = a.ownedByBlock.map Owned.name := by
  rw [Point.ownLists, Activation.ownedByBlock, blocksOf]
  cases a.scopes <;> rfl

/-- The lists that an activation owns are distinct, and the variables that some nodes declare are
not among them yet. -/
structure Unowned (u : CheckedUnit) (sites : NodeId → Site) (a : Activation) (nodes : List NodeId) :
    Prop where
  distinct : (listsOf a).Nodup
  fresh : ∀ n ∈ nodes, (sites n).isVar = true → ∀ id, u.declSymbols.get? n = some id →
    ∀ name, .localVar id name ∉ listsOf a

/-- Lowered code: from a point with the open blocks of one activation it leads to a point with those
of another one, and it releases what it has to on the way. -/
structure Lowered (u : CheckedUnit) (sites : NodeId → Site) (nodes : List NodeId) (jumps : Bool)
    (a : Activation) (code : List C.Stmt) (a' : Activation) (envs : List C.Environment) : Prop where
  releases : ∀ (jumped : Bool) (goal : Point → Prop),
    (∀ jumped' : Bool, (jumps = true → jumped' = true) → goal ⟨blocksOf a', [], jumped'⟩) →
      C.Stmt.ReleasesTo u.holdsList (a.params.map Owned.name) goal ⟨blocksOf a, [], jumped⟩ code
  covered : Covered u envs (u.capturesOf a.proc) code
  proc : a'.proc = a.proc
  params : a'.params = a.params
  distinct : (listsOf a').Nodup
  names : ∀ name ∈ listsOf a', name ∈ listsOf a ∨ ∃ n ∈ nodes, (sites n).isVar = true ∧
    ∃ id text, u.declSymbols.get? n = some id ∧ name = .localVar id text
  inLoop : inLoop a' = inLoop a

section Lowered

variable {u : CheckedUnit} {sites : NodeId → Site} {nodes nodes' : List NodeId}
    {jumps jumps' : Bool}
variable {a a' a'' : Activation} {code code' : List C.Stmt} {envs envs' : List C.Environment}

theorem Unowned.mono (h : Unowned u sites a nodes) (sub : nodes' ⊆ nodes) :
    Unowned u sites a nodes' :=
  ⟨h.distinct, fun n mem => h.fresh n (sub mem)⟩

theorem Unowned.enter (h : Unowned u sites a nodes) (isLoopBody : Bool) :
    Unowned u sites (a.enter isLoopBody) nodes := by
  have same : listsOf (a.enter isLoopBody) = listsOf a := rfl
  exact ⟨same ▸ h.distinct, same ▸ h.fresh⟩

theorem Lowered.mono (h : Lowered u sites nodes jumps a code a' envs) (more : envs ⊆ envs')
    (sub : nodes ⊆ nodes') : Lowered u sites nodes' jumps a code a' envs' :=
  { h with
    covered := h.covered.mono more
    names := fun name mem => (h.names name mem).imp_right fun declared => by
      obtain ⟨n, here, facts⟩ := declared
      exact ⟨n, sub here, facts⟩ }

theorem Lowered.append (h : Lowered u sites nodes jumps a code a' envs)
    (h' : Lowered u sites nodes' jumps' a' code' a'' envs) :
    Lowered u sites (nodes ++ nodes') jumps' a (code ++ code') a'' envs where
  releases jumped goal reached := by
    rw [C.Stmt.releasesTo_append]
    refine h.releases jumped _ fun jumped' _ => ?_
    rw [← h.params]
    exact h'.releases jumped' goal reached
  covered := C.covered_append h.covered (h.proc ▸ h'.covered)
  proc := h'.proc.trans h.proc
  params := h'.params.trans h.params
  distinct := h'.distinct
  names name mem := by
    rcases h'.names name mem with old | ⟨n, here, facts⟩
    · refine (h.names name old).imp_right fun declared => ?_
      obtain ⟨n, here, facts⟩ := declared
      exact ⟨n, mem_append_left _ here, facts⟩
    · exact .inr ⟨n, mem_append_right _ here, facts⟩
  inLoop := h'.inLoop.trans h.inLoop

theorem Lowered.unowned (h : Lowered u sites nodes jumps a code a' envs)
    (once : ∀ n m i, u.declSymbols.get? n = some i → u.declSymbols.get? m = some i → n = m)
    (free : Unowned u sites a nodes') (apart : nodes.Disjoint nodes') :
    Unowned u sites a' nodes' := by
  refine ⟨h.distinct, fun n mem isVar id declares name owned => ?_⟩
  rcases h.names _ owned with old | ⟨m, here, -, i, text, declares', same⟩
  · exact free.fresh n mem isVar id declares name old
  · cases same
    exact apart here (once m n id declares' declares ▸ mem)

theorem Lowered.of_code (free : Unowned u sites a nodes)
    (releases : ∀ (jumped : Bool) (goal : Point → Prop),
      (∀ jumped' : Bool, (jumps = true → jumped' = true) → goal ⟨blocksOf a, [], jumped'⟩) →
        C.Stmt.ReleasesTo u.holdsList (a.params.map Owned.name) goal ⟨blocksOf a, [], jumped⟩ code)
    (covered : Covered u envs (u.capturesOf a.proc) code) :
    Lowered u sites nodes jumps a code a envs :=
  ⟨releases, covered, rfl, rfl, free.distinct, fun _ mem => .inl mem, rfl⟩

end Lowered

/-- Statements that neither declare variables nor jump, release or hold blocks. -/
def isPlain : C.Stmt → Bool
  | .expr _ | .drop _ | .use _ | .assign _ _ | .openEnv _ | .newEnv _ _ | .bindProc _ _ _ _ => true
  | _ => false

theorem releasesTo_plain {holdsList : C.Name → Bool} {params : List C.Name} {goal : Point → Prop}
    {blocks : List C.OpenBlock} {jumped : Bool} {code : List C.Stmt}
    (plain : ∀ st ∈ code, isPlain st = true)
    (reached : ∀ jumped' : Bool, goal ⟨blocks, [], jumped'⟩) :
    C.Stmt.ReleasesTo holdsList params goal ⟨blocks, [], jumped⟩ code := by
  induction code generalizing jumped with
  | nil => exact reached jumped
  | cons st rest ih =>
    obtain ⟨first, others⟩ := List.forall_mem_cons.mp plain
    cases st with
    | expr | drop | use | assign | openEnv | newEnv | bindProc => exact ⟨rfl, ih others⟩
    | _ => simp [isPlain] at first

/-! ### Where activations stand -/

section Standing

variable {o : Outline} {sites : NodeId → Site} {t : Analysis} {p : Program} {c : LowerContext}
variable (ht : t.Coherent o sites) (hu : c.unit = t.unit o p)

include ht in
theorem standsIn_unique {site : Site} {proc proc' : Option ProcId} (h : t.StandsIn site proc)
    (h' : t.StandsIn site proc') : proc = proc' := by
  cases proc with
  | none =>
    cases proc' with
    | none => rfl
    | some id =>
      obtain ⟨q, -, here⟩ := h'
      rw [show site.proc = none from h] at here
      cases here
  | some id =>
    obtain ⟨q, found, here⟩ := h
    cases proc' with
    | none =>
      rw [show site.proc = none from h'] at here
      cases here
    | some id' =>
      obtain ⟨q', found', here'⟩ := h'
      have same : q.info.decl = q'.info.decl := Option.some.inj (here.symm.trans here')
      have first := ht.procDecl id q found
      rw [same, ht.procDecl id' q' found'] at first
      exact first.symm

include hu in
theorem symbols_eq : c.unit.symbols = t.symbols := by
  rw [hu]
  rfl

variable {a : Activation} {ids : List NodeId} {sym : SymbolInfo}

include hu in
theorem symbols_getD {id : SymbolId} (found : t.symbols[id]? = some sym) :
    c.unit.symbols.getD id default = sym := by
  rw [hu, Array.getD_eq_getD_getElem?]
  change (t.symbols[id]?).getD default = _
  rw [found, Option.getD_some]

include hu in
theorem mem_procs {q : ProcEntry} (mem : q ∈ t.procs) : q.info ∈ c.unit.procs := by
  rw [hu]
  exact Array.mem_map.mpr ⟨q, mem, rfl⟩

include hu in
theorem procs_getD {id : ProcId} {q : ProcEntry} (found : t.procs[id]? = some q) :
    c.unit.procs.getD id default = q.info := by
  rw [hu, Array.getD_eq_getD_getElem?]
  change ((t.procs.map ProcEntry.info)[id]?).getD default = _
  rw [Array.getElem?_map, found]
  rfl

include hu in
theorem yields_varAccess {own : List SymbolId} {id : SymbolId}
    (found : t.symbols[id]? = some sym) (finds : sym.isGlobal = false →
      sym.owner = a.proc ∨ (∃ proc, a.proc = some proc ∧ sym.kind = .nestedProc proc) ∨ id ∈ own) :
    Yields c (varAccess a id) (ReadsOnly own) := by
  refine yields_varAccess_of_law fun sym' same isLocal other unowned => ?_
  obtain rfl : sym' = sym := same.trans (symbols_getD hu found)
  rcases finds isLocal with owned | ⟨proc, home, itself⟩ | captured
  · exact absurd owned unowned
  · simp [ownProc?, itself, home] at other
  · exact C.Expr.readsOnly_capture captured

include ht hu in
theorem yields_varAccess_of_finds {id : SymbolId}
    (found : t.symbols[id]? = some sym) (finds : sym.isGlobal = false → t.Finds sym a.proc) :
    Yields c (varAccess a id) (ReadsOnly (c.unit.capturesOf a.proc)) := by
  refine yields_varAccess hu found fun isLocal => ?_
  have finds := finds isLocal
  cases home : a.proc with
  | none =>
    rw [home] at finds
    exact .inl finds
  | some proc =>
    rw [home] at finds
    rcases finds with owned | itself | ⟨q, here, captured⟩
    · exact .inl owned
    · exact .inr (.inl ⟨proc, rfl, itself⟩)
    · rw [CheckedUnit.capturesOf, procs_getD hu here, ← ht.symbolIds id _ found]
      exact .inr (.inr captured)

include ht hu in
theorem reachable_of_uses {own : List SymbolId}
    (h : ∀ n ∈ ids, ∀ id, t.Uses (sites n) id → Yields c (varAccess a id) (ReadsOnly own)) :
    Reachable c a own ids := by
  constructor
  · intro n mem id found
    rw [hu] at found
    exact h n mem id (ht.resolved n id found)
  · intro n mem id proc supplied total found
    rw [hu] at found
    exact h n mem id (ht.called n id proc supplied total found)

include ht hu in
theorem reachable_of_standsIn {site : Site} (stands : t.StandsIn site a.proc)
    (here : ∀ n ∈ ids, sites n = site) :
    Reachable c a (c.unit.capturesOf a.proc) ids := by
  refine reachable_of_uses ht hu fun n mem id uses => ?_
  obtain ⟨sym, found, use⟩ := uses
  refine yields_varAccess_of_finds ht hu found fun isLocal => ?_
  obtain ⟨proc, stands', finds, -⟩ := use isLocal
  rw [here n mem] at stands'
  exact standsIn_unique ht stands stands' ▸ finds

include ht hu in
/-- A default reads no captured symbol. -/
theorem reachable_of_default {site : Site} (stands : t.StandsIn site a.proc)
    (isDefault : site.isDefault = true) (here : ∀ n ∈ ids, sites n = site) :
    Reachable c a [] ids := by
  refine reachable_of_uses ht hu fun n mem id uses => ?_
  obtain ⟨sym, found, use⟩ := uses
  refine yields_varAccess hu found fun isLocal => .inl ?_
  obtain ⟨proc, stands', -, own⟩ := use isLocal
  rw [here n mem] at stands' own
  exact (own isDefault).trans (standsIn_unique ht stands' stands)

end Standing

/-! ### Simple statements -/

section Simple

variable {o : Outline} {sites : NodeId → Site} {t : Analysis} {p : Program} {c : LowerContext}
variable {a : Activation} {nodes : List NodeId} {envs : List C.Environment}

theorem yields_releaseAll (owned : List Owned) :
    Yields c (releaseAll owned) fun code => C.Releasing code (owned.map Owned.name) := by
  induction owned with
  | nil => exact yields_pure .nil
  | cons first rest ih =>
    have one : Yields c (release first) fun st => ∃ type, st = .release type first.name :=
      yields_bind (yields_cType _) fun type _ => yields_pure ⟨type, rfl⟩
    exact yields_bind one fun st hst => yields_bind ih fun code hcode =>
      yields_pure (.cons hst hcode)

theorem yields_temporary (what : String) : Yields c (temporary what) fun name =>
    ∃ number, name = .temporary number what := by
  refine ⟨fun s name s' run => ?_, fun _ => inside_ok _⟩
  cases run
  exact ⟨⟨rfl, .refl _⟩, _, rfl⟩

variable {own : List SymbolId} {code : List C.Stmt} {u : CheckedUnit}

theorem accesses_of_releasing {names : List C.Name}
    (h : C.Releasing code names) : ∀ st ∈ code, st.accesses = [] := by
  induction h with
  | nil => intro st mem; cases mem
  | cons first rest ih =>
    obtain ⟨type, rfl⟩ := first
    exact List.forall_mem_cons.mpr ⟨rfl, ih⟩

theorem covered_releasing {names : List C.Name}
    (h : C.Releasing code names) : Covered u envs own code :=
  C.covered_of_readsOnly fun st mem x hx => by simp [accesses_of_releasing h st mem] at hx

theorem blocksOf_own (name : C.Name) (type : Ty)
    (holds : u.holdsList name = type.containsList) :
    C.declared u.holdsList name (blocksOf a) = blocksOf (a.own name type) := by
  rw [blocksOf, Activation.own]
  cases scopes : a.scopes with
  | nil => simp [C.declared, blocksOf, scopes]
  | cons scope outer =>
    rw [map_cons, C.declared, holds]
    dsimp only
    split
    · rfl
    · rw [blocksOf, scopes]
      rfl

theorem listsOf_own (name : C.Name) (type : Ty) :
    listsOf (a.own name type) = listsOf a ∨ listsOf (a.own name type) = name :: listsOf a := by
  rw [Activation.own]
  split
  · next scope outer scopes =>
    split
    · right
      simp [listsOf, Activation.ownedByFunction, Activation.ownedByBlocks, scopes]
    · exact .inl rfl
  · exact .inl rfl

theorem own_proc (name : C.Name) (type : Ty) :
    (a.own name type).proc = a.proc ∧ (a.own name type).params = a.params := by
  rw [Activation.own]
  split
  · split <;> exact ⟨rfl, rfl⟩
  · exact ⟨rfl, rfl⟩

theorem Lowered.of_plain (free : Unowned c.unit sites a nodes)
    (plain : ∀ st ∈ code, isPlain st = true)
    (reads : ∀ st ∈ code, ∀ x ∈ st.accesses, x.1 = .env ∧ x.2 ∈ c.unit.capturesOf a.proc) :
    Lowered c.unit sites nodes false a code a envs :=
  .of_code free (fun _ _ reached => releasesTo_plain plain fun jumped' => reached jumped' (by simp))
    (C.covered_of_readsOnly reads)

theorem yields_initialValue {P : C.Expr → Prop} [C.ExprLaw P] {value : Option Expr}
    (reach : Reaches c a P (Expr.idsOption value)) (type : Ty) :
    Yields c (initialValue a value type) P := by
  cases value with
  | none => exact yields_defaultValue type
  | some e => exact yields_ownedValue reach

theorem yields_isStoredConstant (type : Ty) (mutable : Bool) (value : Option Expr) :
    Yields c (isStoredConstant type mutable value) fun _ => True :=
  yields_bind yields_unit fun _ _ => yields_bind yields_table fun _ _ => yields_pure trivial

theorem yields_symbolOf (n : NodeId) : Yields c (symbolOf n) fun sym =>
    ∃ id, c.unit.declSymbols.get? n = some id ∧ sym = c.unit.symbols.getD id default := by
  refine yields_bind yields_unit fun u hu => ?_
  refine yields_bind (yields_require (fun id found => found) _) fun id found => yields_pure ?_
  rw [hu] at found ⊢
  exact ⟨id, found, rfl⟩

theorem symbol_of_declares (ht : t.Coherent o sites) (hu : c.unit = t.unit o p) {n : NodeId}
    {id : SymbolId} (declares : c.unit.declSymbols.get? n = some id) :
    (c.unit.symbols.getD id default).id = id ∧
      t.symbols[id]? = some (c.unit.symbols.getD id default) ∧
      ((sites n).isVar = true → (c.unit.symbols.getD id default).kind = .var) := by
  rw [hu] at declares
  obtain ⟨sym, found, isVar⟩ := ht.declared n id declares
  rw [symbols_getD hu found]
  exact ⟨ht.symbolIds id sym found, found, isVar⟩

theorem yields_procOf (ht : t.Coherent o sites) (hu : c.unit = t.unit o p) (n : NodeId) :
    Yields c (procOf n) fun info => ∃ (id : ProcId) (q : ProcEntry), t.procs[id]? = some q ∧
      q.info.decl = n ∧ info = q.info := by
  refine yields_bind yields_unit fun u hunit => ?_
  refine yields_bind (yields_require (fun id found => found) _) fun id found => yields_pure ?_
  rw [hunit, hu] at found
  obtain ⟨q, here, declares⟩ := ht.procDecls n id found
  exact ⟨id, q, here, declares, hunit ▸ procs_getD hu here⟩

theorem yields_varStmt (ht : t.Coherent o sites) (hu : c.unit = t.unit o p) {decl : VarDecl}
    (reach : Reachable c a (c.unit.capturesOf a.proc) (Expr.idsOption decl.value))
    (isVar : (sites decl.node.id).isVar = true) (free : Unowned c.unit sites a decl.ids) :
    Yields c (varStmt a decl) fun r =>
      Lowered c.unit sites decl.ids false a r.1 r.2 envs := by
  refine yields_bind (yields_symbolOf _) fun sym hsym => ?_
  obtain ⟨id, declares, rfl⟩ := hsym
  obtain ⟨number, found, -⟩ := symbol_of_declares ht hu declares
  set sym := c.unit.symbols.getD id default
  refine yields_bind (yields_initialValue reach _) fun init hinit => ?_
  split
  · refine yields_bind (yields_isStoredConstant _ _ _) fun stored _ => ?_
    split
    · exact yields_pure (.of_plain free (by simp) (by simp))
    · refine yields_bind (yields_globalName _) fun name _ => yields_pure ?_
      exact .of_plain free (by simp [isPlain]) (List.forall_mem_singleton.mpr hinit)
  · refine yields_bind (yields_cType _) fun type _ => yields_bind yields_table fun table _ => ?_
    refine yields_pure ?_
    have tame := ht.symbolTypes sym (Array.mem_of_getElem? found)
    have holds : c.unit.holdsList (localName sym) = sym.type.containsList := by
      rw [localName, number, CheckedUnit.holdsList, symbols_eq hu, found,
        Ty.Tame.containsList_eq tame]
      rfl
    have new : localName sym ∉ listsOf a := by
      rw [localName, number]
      exact free.fresh decl.node.id mem_cons_self isVar id declares _
    obtain ⟨proc, params⟩ := own_proc (a := a) (localName sym) sym.type
    -- The variable is live from here on if it holds a list; a type that is tame contains a list
    -- only if it is one, so the activation and the point agree.
    refine ⟨fun jumped goal reached => ?_, ?_, proc, params, ?_, fun name mem => ?_, inLoop_own ..⟩
    · refine ⟨rfl, rfl, ?_⟩
      have behind := reached false (by simp)
      rwa [← blocksOf_own _ _ holds] at behind
    · exact C.covered_of_readsOnly (List.forall_mem_cons.mpr ⟨hinit, by simp [C.Stmt.accesses]⟩)
    · rcases listsOf_own (a := a) (localName sym) sym.type with same | more
      · exact same ▸ free.distinct
      · exact more ▸ List.nodup_cons.mpr ⟨new, free.distinct⟩
    · rcases listsOf_own (a := a) (localName sym) sym.type with same | more
      · exact .inl (same ▸ mem)
      · rw [more] at mem
        rcases List.mem_cons.mp mem with rfl | old
        · exact .inr ⟨decl.node.id, mem_cons_self, isVar, id, sym.name, declares,
            by rw [localName, number]⟩
        · exact .inl old

theorem yields_namespaceConstants (ref : ArtifactRef)
    {entries : List (PropInfo × VarDecl)}
    (reach : ∀ x ∈ entries, Reachable c a own (Expr.idsOption x.2.value)) :
    Yields c (namespaceConstants a ref entries) fun code => (∀ st ∈ code, isPlain st = true) ∧
      ∀ st ∈ code, ∀ x ∈ st.accesses, x.1 = .env ∧ x.2 ∈ own := by
  induction entries with
  | nil => exact yields_pure (by simp)
  | cons entry rest ih =>
    obtain ⟨first, others⟩ := List.forall_mem_cons.mp reach
    refine yields_bind (yields_isStoredConstant _ _ _) fun stored _ => ?_
    split
    · exact ih others
    · refine yields_bind (yields_initialValue first _) fun init hinit => ?_
      refine yields_bind (ih others) fun code hcode => yields_pure ⟨?_, ?_⟩
      · exact List.forall_mem_cons.mpr ⟨rfl, hcode.1⟩
      · exact List.forall_mem_cons.mpr ⟨hinit, hcode.2⟩

theorem yields_artifactStmt {decl : ArtifactDecl}
    (reach : Reachable c a (c.unit.capturesOf a.proc) decl.propIds)
    (free : Unowned c.unit sites a nodes) :
    Yields c (artifactStmt a decl) fun code =>
      Lowered c.unit sites nodes false a code a envs := by
  have none : Yields c (pure [] : Lower (List C.Stmt)) fun code =>
      Lowered c.unit sites nodes false a code a envs :=
    yields_pure (.of_plain free (by simp) (by simp))
  unfold artifactStmt
  split
  · refine yields_bind yields_unit fun u _ => ?_
    refine yields_bind (yields_bind yields_table fun table _ =>
      yields_lift (Q := fun _ => True) (table.inside_find _) fun _ _ => trivial) fun info _ => ?_
    have values (x : PropInfo × VarDecl) (mem : x ∈ info.props.zip decl.props) :
        Reachable c a (c.unit.capturesOf a.proc) (Expr.idsOption x.2.value) :=
      reach.mono fun n hn => List.mem_flatMap.mpr ⟨x.2, (of_mem_zip mem).2, hn⟩
    exact (yields_namespaceConstants _ values).weaken fun code hcode =>
      .of_plain free hcode.1 hcode.2
  · exact none

theorem yields_assignStmt {target value : Expr}
    (reachTarget : Reachable c a (c.unit.capturesOf a.proc) target.ids)
    (reachValue : Reachable c a (c.unit.capturesOf a.proc) value.ids)
    (free : Unowned c.unit sites a nodes) :
    Yields c (assignStmt a target value) fun code =>
      Lowered c.unit sites nodes false a code a envs := by
  refine yields_bind (yields_typeOf _) fun type _ => ?_
  refine yields_bind (yields_ownedValue reachValue) fun v hv => ?_
  refine yields_bind (yields_expr target reachTarget) fun place hplace => ?_
  split
  · refine yields_bind (yields_cType _) fun list _ => yields_pure ?_
    have reads : ReadsOnly (c.unit.capturesOf a.proc)
        (.call (.helper list "assign") [.address place, v]) :=
      C.Expr.readsOnly_all (List.forall_mem_cons.mpr ⟨hplace, List.forall_mem_singleton.mpr hv⟩)
    exact .of_plain free (by simp [isPlain]) (List.forall_mem_singleton.mpr reads)
  · refine yields_pure (.of_plain free (by simp [isPlain]) (List.forall_mem_singleton.mpr ?_))
    exact List.forall_mem_append.mpr ⟨hplace, hv⟩

theorem yields_exprStmt {e : Expr} (reach : Reachable c a (c.unit.capturesOf a.proc) e.ids)
    (free : Unowned c.unit sites a nodes) :
    Yields c (exprStmt a e) fun code => Lowered c.unit sites nodes false a code a envs := by
  refine yields_bind yields_unit fun u _ => ?_
  refine yields_bind (yields_exprValue reach) fun v hv => ?_
  split
  · refine yields_bind (yields_cType _) fun list _ => yields_pure ?_
    have reads : ReadsOnly (c.unit.capturesOf a.proc) (.call (.helper list "drop") [v]) :=
      C.Expr.readsOnly_all (List.forall_mem_singleton.mpr hv)
    exact .of_plain free (by simp [isPlain]) (List.forall_mem_singleton.mpr reads)
  · split
    all_goals exact yields_pure (.of_plain free (by simp [isPlain])
      (List.forall_mem_singleton.mpr hv))

theorem releasesTo_ret (free : Unowned u sites a nodes) {releases : List C.Stmt}
    (h : C.Releasing releases (listsOf a)) (value : Option C.Expr) {jumped : Bool}
    {goal : Point → Prop} (reached : goal ⟨blocksOf a, [], true⟩) :
    C.Stmt.ReleasesTo u.holdsList (a.params.map Owned.name) goal ⟨blocksOf a, [], jumped⟩
      (releases ++ [.ret value]) := by
  rw [C.Stmt.releasesTo_append, C.Stmt.releasesTo_releases h]
  refine ⟨⟨?_, ?_⟩, reached⟩
  · rw [lists_append_params]
    rfl
  · rw [lists_append_params]
    exact free.distinct

theorem listsOf_of_not_holdsLists (h : a.holdsLists = false) : listsOf a = [] := by
  simp only [Activation.holdsLists, Bool.or_eq_false_iff, Bool.not_eq_false', List.isEmpty_iff,
    any_eq_false, Bool.not_eq_true', Bool.not_eq_false] at h
  simp only [listsOf, Activation.ownedByFunction, Activation.ownedByBlocks, h.1, append_nil,
    map_eq_nil_iff, flatMap_eq_nil_iff]
  exact h.2

theorem yields_returnStmt {value : Option Expr}
    (reach : Reachable c a (c.unit.capturesOf a.proc) (Expr.idsOption value))
    (free : Unowned c.unit sites a nodes) :
    Yields c (returnStmt a value) fun code =>
      Lowered c.unit sites nodes true a code a envs := by
  unfold returnStmt
  split
  · refine yields_bind (yields_releaseAll _) fun code hcode => yields_pure ?_
    refine .of_code free (fun _ _ reached => ?_) ?_
    · exact releasesTo_ret free hcode none (reached true fun _ => rfl)
    · exact C.covered_append (covered_releasing hcode)
        (C.covered_of_readsOnly (by simp [C.Stmt.accesses]))
  · next e =>
    refine yields_bind (yields_ownedValue reach) fun v hv => ?_
    split
    · refine yields_bind (yields_temporary "ret") fun name hname => ?_
      obtain ⟨number, rfl⟩ := hname
      refine yields_bind (yields_cType _) fun type _ => ?_
      refine yields_bind (yields_releaseAll _) fun code hcode => yields_pure ?_
      refine .of_code free (fun _ _ reached => ?_) ?_
      -- The value is kept in a temporary, which no block owns, while the lists are released.
      · have kept : C.declared c.unit.holdsList (.temporary number "ret") (blocksOf a) =
            blocksOf a := by
          cases blocksOf a <;> rfl
        refine ⟨rfl, ?_⟩
        simp only [Point.after, kept]
        exact releasesTo_ret free hcode _ (reached true fun _ => rfl)
      · refine C.covered_append (C.covered_append ?_ (covered_releasing hcode)) ?_
        · exact C.covered_of_readsOnly (List.forall_mem_singleton.mpr hv)
        · exact C.covered_of_readsOnly (by simp [C.Stmt.accesses, C.Expr.accesses])
    · next none =>
      refine yields_pure (.of_code free (fun _ _ reached => ?_) ?_)
      · have empty : C.Releasing [] (listsOf a) := by
          rw [listsOf_of_not_holdsLists (by simpa using none)]
          exact .nil
        exact releasesTo_ret free empty _ (reached true fun _ => rfl)
      · exact C.covered_of_readsOnly (List.forall_mem_singleton.mpr hv)

theorem yields_jumpStmt (free : Unowned c.unit sites a nodes) {jump : C.Stmt}
    (isJump : jump = .breakLoop ∨ jump = .continueLoop) (inside : inLoop a = true) :
    Yields c (jumpStmt a jump) fun code => Lowered c.unit sites nodes true a code a envs := by
  obtain ⟨owned, found⟩ := Option.isSome_iff_exists.mp inside
  unfold jumpStmt
  rw [found]
  refine yields_bind (yields_pure (Q := (· = owned)) rfl) fun _ same => same ▸ ?_
  refine yields_bind (yields_releaseAll _) fun code hcode => yields_pure ?_
  have lists : C.listsInLoop? (blocksOf a) = some (owned.map Owned.name) := by
    rw [listsInLoop?_blocksOf, found]
    rfl
  -- The blocks up to the innermost loop body are the first ones of all open blocks.
  have distinct : (owned.map Owned.name).Nodup := by
    refine List.Nodup.sublist ?_ free.distinct
    have inner {scopes : List OpenScope} {owned : List Owned}
        (found : Activation.ownedInLoop? scopes = some owned) :
        owned.Sublist (scopes.flatMap OpenScope.owned) := by
      induction scopes generalizing owned with
      | nil => cases found
      | cons scope outer ih =>
        rw [Activation.ownedInLoop?] at found
        split at found
        · cases found
          exact sublist_append_left _ _
        · obtain ⟨more, rest, rfl⟩ := Option.map_eq_some_iff.mp found
          exact (ih rest).append_left _
    exact ((inner found).trans (sublist_append_left _ _)).map _
  refine .of_code free (fun jumped goal reached => ?_) ?_
  · rw [C.Stmt.releasesTo_append, C.Stmt.releasesTo_releases hcode]
    have released (point : Point) (blocks : point.blocks = blocksOf a)
        (names : point.released = owned.map Owned.name) :
        ∃ lists, C.listsInLoop? point.blocks = some lists ∧ point.Released lists :=
      ⟨_, by rw [blocks, lists], names, distinct⟩
    rcases isJump with rfl | rfl
    · exact ⟨released _ rfl rfl, reached true fun _ => rfl⟩
    · exact ⟨released _ rfl rfl, reached true fun _ => rfl⟩
  · refine C.covered_append (covered_releasing hcode) (C.covered_of_readsOnly ?_)
    rcases isJump with rfl | rfl <;> simp [C.Stmt.accesses]

theorem yields_rangeEnd {P : C.Expr → Prop} [C.ExprLaw P] {stop : Expr}
    (reach : Reaches c a P stop.ids) : Yields c (rangeEnd a stop) P := by
  have operand : Lawful c P (operand a stop) := yields_expr stop reach
  refine yields_bind (yields_typeOf _) fun type _ => ?_
  split
  · exact yields_exprValue reach
  · exact yields_arrayLength operand _
  · exact yields_listLength operand _
  · exact yields_throw _

end Simple

/-! ### Procedures -/

section Procedures

variable {o : Outline} {sites : NodeId → Site} {t : Analysis} {p : Program} {c : LowerContext}
variable {before : C.Sections} {s : LowerState} {envs : List C.Environment}

theorem yields_paramsOf (params : List ParamInfo) : Yields c (paramsOf params) fun typed =>
    typed.map (fun x => (⟨x.1.name, x.2⟩ : Owned)) = params.map fun q =>
      ⟨localName (c.unit.symbols.getD q.symbol default), q.type⟩ := by
  induction params with
  | nil => exact yields_pure rfl
  | cons q rest ih =>
    refine yields_bind (yields_cType _) fun type _ =>
      yields_bind (yields_symbol _) fun sym hsym => ?_
    refine yields_bind ih fun typed htyped => yields_pure ?_
    rw [map_cons, map_cons, htyped, hsym]

theorem yields_captureFields (ids : List SymbolId) :
    Yields c (captureFields ids) fun fields => fields.map Prod.snd = ids := by
  induction ids with
  | nil => exact yields_pure rfl
  | cons id rest ih =>
    refine yields_bind (yields_symbol _) fun sym _ => yields_bind (yields_cType _) fun type _ => ?_
    refine yields_bind ih fun fields hfields => yields_pure ?_
    rw [map_cons, hfields]

theorem yields_envName (id : ProcId) :
    Yields c (envName id) (· = .environment c.unit.module id) := by
  refine yields_bind yields_unit fun u hu => yields_pure ?_
  rw [hu]

theorem emits_addEnvironment (proc : ProcInfo) :
    Emits c before s (addEnvironment proc) fun _ envs =>
      proc.isNested = true → proc.captures ≠ [] → ∃ env ∈ envs, env.IsFor c.unit proc := by
  unfold addEnvironment
  split
  · refine (yields_envName proc.id).then fun name s₁ _ hname => ?_
    refine (yields_captureFields proc.captures).then fun fields s₂ _ hfields => ?_
    refine (emits_addTo rfl rfl (by simp)).weaken fun _ envs known _ _ => ?_
    refine ⟨⟨name, fields⟩, ?_, ⟨hname, hfields⟩⟩
    rw [known]
    simp
  · next none =>
    refine emits_pure fun nested some => ?_
    simp [nested, some] at none

theorem yields_openBody (proc : ProcInfo) :
    Yields c (openBody proc (leadParam proc.kind)) fun code =>
    (∀ st ∈ code, isPlain st = true ∧ st.accesses = []) ∧
      (proc.isNested = true → proc.captures ≠ [] →
        (.env, .environment c.unit.module proc.id) ∈ C.Stmt.openedAll code) := by
  unfold openBody
  split
  · next none =>
    refine yields_pure ⟨by simp, fun nested _ => ?_⟩
    cases kind : proc.kind <;> simp [ProcInfo.isNested, leadParam, kind] at nested none
  · split
    · refine yields_bind (yields_envName _) fun name hname => yields_pure ⟨?_, fun _ _ => ?_⟩
      · simp [isPlain, C.Stmt.accesses]
      · simp [C.Stmt.openedAll, C.Stmt.opened, hname]
    · next none =>
      refine yields_pure ⟨by simp [isPlain, C.Stmt.accesses], fun nested some => ?_⟩
      simp [nested, some] at none

theorem accesses_forward (proc : ProcInfo) (name : C.Name) (args : List C.Name) :
    (forward proc name args).accesses = [] := by
  have none : C.Expr.accessesAll (args.map .ident) = [] := by
    refine C.Expr.accessesAll_eq_nil.mpr fun e mem => ?_
    obtain ⟨arg, -, rfl⟩ := List.mem_map.mp mem
    rfl
  unfold forward
  dsimp only
  split <;> simp [C.Stmt.accesses, C.Expr.accesses, none]

theorem yields_declareDefaults {a : Activation} {entries : List (C.Param × Param)}
    (reach : ∀ x ∈ entries, Reachable c a [] (Expr.idsOption x.2.default)) :
    Yields c (declareDefaults a entries) fun code => C.Stmt.accessesAll code = [] := by
  induction entries with
  | nil => exact yields_pure rfl
  | cons entry rest ih =>
    obtain ⟨first, others⟩ := List.forall_mem_cons.mp reach
    refine yields_bind (yields_require (fun e found => found) _) fun e found => ?_
    rw [found] at first
    refine yields_bind (yields_ownedValue first) fun v hv => ?_
    refine yields_bind (ih others) fun code hcode => yields_pure ?_
    simp [C.Stmt.accessesAll, C.Stmt.accesses, hv.accesses_eq_nil, hcode]

theorem emits_addAllOmitting {proc : ProcInfo} {decls : List Param}
    (reach : Reachable c { proc := some proc.id, ret := proc.ret } [] (Param.idsAll decls))
    (sig : C.Signature) (lead : Option C.Param) (params : List C.Param) (keeps : List Nat) :
    Emits c before s (addAllOmitting proc decls sig lead params keeps) fun _ _ => True := by
  have default {q : Param} (mem : q ∈ decls) : Expr.idsOption q.default ⊆ Param.idsAll decls := by
    induction decls with
    | nil => cases mem
    | cons first rest ih =>
      rcases List.mem_cons.mp mem with rfl | mem
      · exact fun n hn => mem_append_left _ (mem_cons_of_mem _ hn)
      · exact fun n hn => mem_append_right _
          (ih (reach.mono (subset_append_right _ _)) mem hn)
  induction keeps generalizing s with
  | nil => exact emits_pure trivial
  | cons keep rest ih =>
    refine Emits.bind (Q := fun _ _ => True) ?_ fun _ s₁ _ _ => ih
    refine (emits_addPrototype _).bind fun _ s₁ _ _ => ?_
    have defaults : ∀ x ∈ (params.zip decls).drop keep,
        Reachable c { proc := some proc.id, ret := proc.ret } [] (Expr.idsOption x.2.default) :=
      fun x mem => reach.mono (default (of_mem_zip (mem_of_mem_drop mem)).2)
    refine (yields_declareDefaults defaults).then fun code s₂ _ hcode => ?_
    refine emits_addBody (.helper rfl ?_)
    simp [C.Stmt.accessesAll_append, hcode, C.Stmt.accessesAll, accesses_forward]

theorem endsFunction_of_released {a : Activation} (distinct : (listsOf a).Nodup) (jumped : Bool) :
    Point.EndsFunction (a.params.map Owned.name) true
      ⟨blocksOf a, listsOf a, if listsOf a = [] then jumped else false⟩ := by
  have all (jumped : Bool) : (Point.mk (blocksOf a) (listsOf a) jumped).Released
      ((Point.mk (blocksOf a) (listsOf a) jumped).lists ++ a.params.map Owned.name) := by
    rw [lists_append_params]
    exact ⟨rfl, distinct⟩
  by_cases live : listsOf a = []
  · rw [if_pos live]
    cases jumped with
    | true => exact live
    | false => exact all false
  · rw [if_neg live]
    exact all false

section Body

variable (ht : t.Coherent o sites) (hu : c.unit = t.unit o p) {q : ProcEntry} {id : ProcId}
variable (found : t.procs[id]? = some q)

include ht hu found

theorem map_name_listParams {typed : List (C.Param × Ty)}
    (h : typed.map (fun x => (⟨x.1.name, x.2⟩ : Owned)) = q.info.params.map fun x =>
      ⟨localName (c.unit.symbols.getD x.symbol default), x.type⟩) :
    ((typed.filter (·.2.containsList)).map fun (p, type) => (⟨p.name, type⟩ : Owned)).map
      Owned.name = c.unit.listParams q.info := by
  have filtered : (typed.filter (·.2.containsList)).map (fun x => (⟨x.1.name, x.2⟩ : Owned)) =
      (typed.map fun x => (⟨x.1.name, x.2⟩ : Owned)).filter (·.type.containsList) := by
    rw [filter_map]
    rfl
  change ((typed.filter (·.2.containsList)).map fun x => (⟨x.1.name, x.2⟩ : Owned)).map _ = _
  rw [filtered, h, filter_map, map_map, CheckedUnit.listParams]
  have lists : q.info.params.filter ((·.type.containsList) ∘ fun x : ParamInfo =>
      (⟨localName (c.unit.symbols.getD x.symbol default), x.type⟩ : Owned)) =
      q.info.params.filter (·.type.isList) := by
    refine filter_congr fun x mem => ?_
    exact Ty.Tame.containsList_eq ((ht.procTypes q (Array.mem_of_getElem? found)).1.1 x mem)
  rw [lists]
  refine map_congr_left fun x mem => ?_
  obtain ⟨sym, here, -⟩ := (ht.params id q found).2 x (mem_of_mem_filter mem)
  change localName (c.unit.symbols.getD x.symbol default) = _
  rw [symbols_getD hu here, localName, ht.symbolIds _ _ here]

theorem unowned_params (nodes : List NodeId) {a : Activation} (scopes : a.scopes = [{}])
    (params : a.params.map Owned.name = c.unit.listParams q.info) :
    Unowned c.unit sites a nodes := by
  have lists : listsOf a = c.unit.listParams q.info := by
    simp [listsOf, Activation.ownedByFunction, Activation.ownedByBlocks, scopes, params]
  obtain ⟨distinct, symbols⟩ := ht.params id q found
  constructor
  -- Names of variables are told apart by the numbers of their symbols.
  · rw [lists, CheckedUnit.listParams]
    have ids : ((q.info.params.filter (·.type.isList)).map ParamInfo.symbol).Nodup :=
      distinct.sublist (List.filter_sublist.map _)
    refine List.Nodup.of_map (fun name => match name with
      | .localVar id _ => id
      | _ => 0) ?_
    rwa [map_map]
  · intro n _ isVar id declares name mem
    rw [lists] at mem
    obtain ⟨x, hx, same⟩ := List.mem_map.mp mem
    cases same
    obtain ⟨sym, here, isParam, -⟩ := symbols x (mem_of_mem_filter hx)
    obtain ⟨-, here', isVar'⟩ := symbol_of_declares ht hu declares
    rw [here] at here'
    cases here'
    rw [isVar' isVar] at isParam
    cases isParam

theorem functionSound_procedure {sig : C.Signature} {opening code closing : List C.Stmt}
    {params : List C.Param} {a a' : Activation} {nodes : List NodeId} {jumps : Bool}
    (name : sig.name = c.unit.functionName q.info) (proc : a.proc = some id)
    (start : a.params.map Owned.name = c.unit.listParams q.info) (scopes : a.scopes = [{}])
    (environment : q.info.captures ≠ [] → ∃ env ∈ envs, env.IsFor c.unit q.info)
    (opens : (∀ st ∈ opening, isPlain st = true ∧ st.accesses = []) ∧ (q.info.isNested = true →
      q.info.captures ≠ [] →
        (.env, .environment c.unit.module q.info.id) ∈ C.Stmt.openedAll opening))
    (lowered : Lowered c.unit sites nodes jumps a code a' envs)
    (closes : if jumps then closing = [] else
      if q.info.ret = .void then C.Releasing closing (listsOf a')
      else ∀ st ∈ closing, isPlain st = true ∧ st.accesses = []) :
    FunctionSound c.unit envs
      ⟨sig, opening ++ params.map (fun p => .use p.name) ++ (code ++ closing)⟩ := by
  have mem := mem_procs hu (Array.mem_of_getElem? found)
  have blocks : blocksOf a = [{}] := by
    rw [blocksOf, scopes]
    rfl
  have silent : C.Stmt.accessesAll closing = [] := by
    refine C.Stmt.accessesAll_eq_nil.mpr ?_
    split at closes
    · simp [closes]
    · split at closes
      · exact accesses_of_releasing closes
      · exact fun st mem => (closes st mem).2
  have plain : ∀ st ∈ opening ++ params.map (fun p => C.Stmt.use p.name),
      isPlain st = true ∧ st.accesses = [] := by
    refine List.forall_mem_append.mpr ⟨opens.1, fun st mem => ?_⟩
    obtain ⟨param, -, rfl⟩ := List.mem_map.mp mem
    exact ⟨rfl, rfl⟩
  refine ⟨.inr (.inl ⟨q.info, mem, name, ?_⟩), fun x access => ?_⟩
  · rw [C.Function.Releases, C.Stmt.releasesTo_append]
    refine releasesTo_plain (fun st mem => (plain st mem).1) fun jumped => ?_
    rw [C.Stmt.releasesTo_append, ← blocks, ← start]
    refine lowered.releases jumped _ fun jumped' jumps' => ?_
    rw [← lowered.params]
    split at closes
    · next isJump =>
      rw [closes, jumps' isJump]
      simp [C.Stmt.ReleasesTo, Point.EndsFunction]
    · split at closes
      · next isVoid =>
        rw [C.Stmt.releasesTo_releases closes, isVoid]
        exact endsFunction_of_released lowered.distinct jumped'
      · next isVoid =>
        refine releasesTo_plain (fun st mem => (closes st mem).1) fun jumped'' => ?_
        simp [Point.EndsFunction, isVoid]
  · have reads : x ∈ C.Stmt.accessesAll code := by
      have none := C.Stmt.accessesAll_eq_nil.mpr fun st mem => (plain st mem).2
      rw [C.Stmt.accessesAll_append, none, C.Stmt.accessesAll_append, silent] at access
      simpa using access
    have home : c.unit.capturesOf a.proc = q.info.captures := by
      rw [proc, CheckedUnit.capturesOf, procs_getD hu found]
    -- Either the function reads its own environment, or it fills in one that it has just made for a
    -- procedure in one of its blocks.
    rcases lowered.covered x reads with ⟨env, own⟩ | ⟨other, proc', hproc', env, known, isFor,
      captured, opened⟩
    · rw [home] at own
      have some : q.info.captures ≠ [] := ne_nil_of_mem own
      obtain ⟨environment, known, isFor⟩ := environment some
      obtain ⟨_, -, -, -, nested, -⟩ :=
        ht.captures q (Array.mem_of_getElem? found) x.2 own
      refine ⟨q.info, mem, environment, known, isFor, own, ?_, fun _ => name⟩
      rw [env, isFor.name, C.Stmt.openedAll_append, C.Stmt.openedAll_append]
      exact mem_append_left _ (mem_append_left _ (opens.2 nested some))
    · refine ⟨proc', hproc', env, known, isFor, captured, ?_, fun same => absurd same other⟩
      rw [C.Stmt.openedAll_append, C.Stmt.openedAll_append code]
      exact mem_append_right _ (mem_append_left _ opened)

/-- A procedure, with a function for each way to call it. -/
theorem emits_procedure {decls : List Param}
    (defaults : ∀ n ∈ Param.idsAll decls, sites n = { proc := some q.info.decl, isDefault := true })
    {nodes : List NodeId} {jumps : Bool} {body : Activation → Lower (List C.Stmt × Activation)}
    (hbody : ∀ a s₁, a.proc = some id →
      Unowned c.unit sites a nodes → inLoop a = false → Emits c before s₁ (body a) fun r envs =>
        Lowered c.unit sites nodes jumps a r.1 r.2 envs) :
    Emits c before s (procedure q.info decls jumps body) fun _ envs =>
      q.info.captures ≠ [] → ∃ env ∈ envs, env.IsFor c.unit q.info := by
  have number : q.info.id = id := ht.procIds id q found
  have nested (some : q.info.captures ≠ []) : q.info.isNested = true := by
    obtain ⟨x, own⟩ := exists_mem_of_ne_nil _ some
    obtain ⟨_, -, -, -, nested, -⟩ := ht.captures q (Array.mem_of_getElem? found) x own
    exact nested
  unfold procedure
  refine (yields_procName _).then fun name s₁ _ hname => ?_
  refine (yields_cType _).then fun ret s₂ _ _ => ?_
  refine (yields_paramsOf _).then fun typed s₃ _ htyped => ?_
  refine (emits_addEnvironment _).bind fun _ s₄ _ env₄ => ?_
  refine (emits_addPrototype _).bind fun _ s₅ more₅ _ => ?_
  refine (yields_openBody _).then fun opening s₆ same₆ hopening => ?_
  have start := map_name_listParams ht hu found htyped
  set a : Activation :=
    { proc := some q.info.id, ret := q.info.ret
      params := (typed.filter (·.2.containsList)).map fun (p, type) => (⟨p.name, type⟩ : Owned) }
  have free := unowned_params ht hu found nodes (a := a) rfl start
  refine Emits.bind (Q := fun code envs => FunctionSound c.unit envs ⟨⟨ret, name,
    (leadParam q.info.kind).toList ++ typed.map Prod.fst⟩, opening ++
      (typed.map Prod.fst).map (fun p => .use p.name) ++ code⟩) ?_
    fun code s₇ more₇ hcode => ?_
  -- The body, and behind it what the function does at its end.
  · refine emits_inFunction fun s₇ same₇ => ?_
    refine Emits.bind (hbody a s₇ (number ▸ rfl) free rfl) fun r s₈ more₈ lowered => ?_
    obtain ⟨code, a'⟩ := r
    have closed (closing : List C.Stmt) (closes : if jumps then closing = [] else
        if q.info.ret = .void then C.Releasing closing (listsOf a')
        else ∀ st ∈ closing, isPlain st = true ∧ st.accesses = []) (s₉ : LowerState)
        (same₉ : s₉.sections = s₈.sections) :
        Emits c before s₉ (pure (code ++ closing) : Lower (List C.Stmt)) fun code envs =>
          FunctionSound c.unit envs ⟨⟨ret, name,
            (leadParam q.info.kind).toList ++ typed.map Prod.fst⟩, opening ++
              (typed.map Prod.fst).map (fun p => .use p.name) ++ code⟩ := by
      have all : s₄.sections.environments.toList ⊆ s₉.sections.environments.toList := by
        rw [same₉]
        exact List.Subset.trans more₅ (List.Subset.trans (same₇ ▸ same₆ ▸ List.Subset.refl _) more₈)
      refine emits_pure ?_
      refine functionSound_procedure ht hu found hname (number ▸ rfl : a.proc = some id) start rfl
        (fun some => ?_) hopening (same₉ ▸ lowered) closes
      obtain ⟨env, known, isFor⟩ := env₄ (nested some) some
      exact ⟨env, all known, isFor⟩
    cases isJump : jumps with
    | true => exact closed [] (by simp [isJump]) s₈ rfl
    | false =>
      have closing : Yields c (closeBody q.info a') fun closing =>
          if q.info.ret = .void then C.Releasing closing (listsOf a')
          else ∀ st ∈ closing, isPlain st = true ∧ st.accesses = [] := by
        unfold closeBody
        split
        · exact yields_releaseAll _
        · exact yields_pure (by simp [isPlain, support, C.Stmt.accesses, C.Expr.accesses,
            C.Expr.accessesAll])
      exact closing.then fun closing s₉ same₉ closes =>
        closed closing (by simpa [isJump] using closes) s₉ same₉
  -- The functions that fill in defaults or take the place of a value stand behind it.
  · refine (emits_addBody hcode).bind fun _ s₈ more₈ _ => ?_
    have stands : t.StandsIn { proc := some q.info.decl, isDefault := true } (some q.info.id) :=
      ⟨q, number ▸ found, rfl⟩
    have reach := reachable_of_default (a := { proc := some q.info.id, ret := q.info.ret }) ht hu
      stands rfl defaults
    refine (emits_addAllOmitting reach _ _ _ _).bind fun _ s₉ more₉ _ => ?_
    have environment (some : q.info.captures ≠ []) :
        ∃ env ∈ s₉.sections.environments.toList, env.IsFor c.unit q.info := by
      obtain ⟨env, known, isFor⟩ := env₄ (nested some) some
      have more₆ : s₅.sections.environments.toList ⊆ s₆.sections.environments.toList :=
        same₆ ▸ List.Subset.refl _
      exact ⟨env, more₉ (more₈ (more₇ (more₆ (more₅ known)))), isFor⟩
    split
    · refine (emits_addFunction (.helper rfl ?_)).kept.weaken fun _ envs more some => ?_
      · simp [C.Stmt.accessesAll, C.Stmt.accesses, accesses_forward]
      · obtain ⟨env, known, isFor⟩ := environment some
        exact ⟨env, more known, isFor⟩
    · exact emits_pure environment

end Body

/-! ### Procedures in blocks -/

theorem yields_copyCaptures {a : Activation} {own : List SymbolId} (target : C.Name)
    {ids : List SymbolId} (reach : ∀ id ∈ ids, Yields c (varAccess a id) (ReadsOnly own)) :
    Yields c (copyCaptures a target ids) fun code => (∀ st ∈ code, isPlain st = true) ∧
      ∀ x ∈ C.Stmt.accessesAll code, (x.1 = .env ∧ x.2 ∈ own) ∨ (x.1 = target ∧ x.2 ∈ ids) := by
  induction ids with
  | nil => exact yields_pure (by simp [C.Stmt.accessesAll])
  | cons id rest ih =>
    obtain ⟨first, others⟩ := List.forall_mem_cons.mp reach
    refine yields_bind first fun v hv => yields_bind (ih others) fun code hcode => yields_pure ?_
    refine ⟨List.forall_mem_cons.mpr ⟨rfl, hcode.1⟩, fun x mem => ?_⟩
    simp only [C.Stmt.accessesAll, C.Stmt.accesses, C.Expr.accesses, mem_append,
      mem_singleton] at mem
    rcases mem with (rfl | mem) | mem
    · exact .inr ⟨rfl, mem_cons_self⟩
    · exact .inl (hv x mem)
    · exact (hcode.2 x mem).imp_right fun h => ⟨h.1, mem_cons_of_mem _ h.2⟩

theorem yields_bindNested (ht : t.Coherent o sites) (hu : c.unit = t.unit o p) {q : ProcEntry}
    {id : ProcId} (found : t.procs[id]? = some q) (nested : q.info.isNested = true) {a : Activation}
    (stands : t.StandsIn (sites q.info.decl) a.proc) {nodes : List NodeId}
    (free : Unowned c.unit sites a nodes)
    (environment : q.info.captures ≠ [] → ∃ env ∈ envs, env.IsFor c.unit q.info) (n : NodeId) :
    Yields c (bindNested a q.info n) fun code =>
      Lowered c.unit sites nodes false a code a envs := by
  have mem := Array.mem_of_getElem? found
  have listed := mem_procs hu mem
  refine yields_bind (yields_symbolOf _) fun sym _ => yields_bind (yields_cType _) fun type _ => ?_
  refine yields_bind (yields_procName _) fun function _ => ?_
  split
  · refine yields_pure (.of_plain free (by simp [isPlain]) ?_)
    simp [C.Stmt.accesses, C.Expr.accesses]
  · next some =>
    obtain ⟨env, known, isFor⟩ := environment (by simpa using some)
    have reach (x : SymbolId) (own : x ∈ q.info.captures) :
        Yields c (varAccess a x) (ReadsOnly (c.unit.capturesOf a.proc)) := by
      obtain ⟨sym, here, -, -, -, finds⟩ := ht.captures q mem x own
      have home := standsIn_unique ht stands (ht.nested q mem nested)
      exact yields_varAccess_of_finds ht hu here fun _ => home ▸ finds
    refine yields_bind (yields_temporary "env") fun target htarget => ?_
    have other : target ≠ .env := by
      obtain ⟨number, rfl⟩ := htarget
      simp
    refine yields_bind (yields_copyCaptures target reach) fun copies hcopies => ?_
    refine yields_bind (yields_envName _) fun envName henvName => yields_pure ?_
    refine .of_code free (fun _ _ reached => releasesTo_plain ?_ fun jumped' =>
      reached jumped' (by simp)) fun x access => ?_
    · simp only [forall_mem_append]
      exact ⟨⟨by simp [isPlain], hcopies.1⟩, by simp [isPlain]⟩
    · have copied : x ∈ C.Stmt.accessesAll copies := by
        simpa [C.Stmt.accessesAll_append, C.Stmt.accessesAll, C.Stmt.accesses, C.Expr.accesses]
          using access
      rcases hcopies.2 x copied with own | ⟨rfl, own⟩
      · exact .inl own
      · refine .inr ⟨other, q.info, listed, env, known, isFor, own, ?_⟩
        simp [C.Stmt.openedAll, C.Stmt.opened, henvName, isFor.name]

end Procedures

/-! ### Statements -/

/-- A lowered block: every exit releases what it has to, and what the block reads is there. -/
structure BlockLowered (u : CheckedUnit) (a : Activation) (isLoopBody : Bool) (code : List C.Stmt)
    (envs : List C.Environment) : Prop where
  releases : C.Stmt.ReleasesTo u.holdsList (a.params.map Owned.name) Point.EndsBlock
    (.enter (blocksOf a) isLoopBody) code
  covered : Covered u envs (u.capturesOf a.proc) code

/-- The lowered arms of a chain. -/
structure ArmsLowered (u : CheckedUnit) (a : Activation) (arms : List C.Arm)
    (envs : List C.Environment) : Prop where
  releases : C.Arm.ReleasesAll u.holdsList (a.params.map Owned.name) (blocksOf a) arms
  covered : CoveredBy u envs (u.capturesOf a.proc) (C.Arm.accessesAll arms) (C.Arm.openedAll arms)

section Blocks

variable {u : CheckedUnit} {sites : NodeId → Site} {nodes nodes' : List NodeId}
variable {a a' a'' : Activation} {code code' : List C.Stmt} {envs envs' : List C.Environment}

theorem endsInJump_cons {st : Stmt} {rest : List Stmt} (some : rest ≠ []) :
    endsInJump (st :: rest) = endsInJump rest := by
  cases rest with
  | nil => exact absurd rfl some
  | cons next rest => simp [endsInJump]

theorem Lowered.cons {st : Stmt} {rest : List Stmt}
    (h : Lowered u sites nodes (endsInJump [st]) a code a' envs)
    (h' : Lowered u sites nodes' (endsInJump rest) a' code' a'' envs)
    (none : rest = [] → code' = [] ∧ a'' = a') :
    Lowered u sites (nodes ++ nodes') (endsInJump (st :: rest)) a (code ++ code') a'' envs := by
  by_cases last : rest = []
  · obtain ⟨rfl, rfl⟩ := none last
    subst last
    rw [append_nil]
    exact h.mono (List.Subset.refl _) (subset_append_left _ _)
  · rw [endsInJump_cons last]
    exact h.append h'

theorem Lowered.block_of_jump {isLoopBody : Bool}
    (h : Lowered u sites nodes true (a.enter isLoopBody) code a' envs) :
    BlockLowered u a isLoopBody code envs :=
  ⟨h.releases false _ fun jumped' jumps => by simp [Point.EndsBlock, jumps rfl], h.covered⟩

theorem Lowered.block_of_releases {isLoopBody jumps : Bool} {releases : List C.Stmt}
    (h : Lowered u sites nodes jumps (a.enter isLoopBody) code a' envs)
    (releasing : C.Releasing releases (a'.ownedByBlock.map Owned.name)) :
    BlockLowered u a isLoopBody (code ++ releases) envs := by
  have distinct : (a'.ownedByBlock.map Owned.name).Nodup := by
    refine h.distinct.sublist (List.Sublist.map _ ?_)
    rw [Activation.ownedByFunction, Activation.ownedByBlocks, Activation.ownedByBlock]
    cases a'.scopes with
    | nil => exact nil_sublist _
    | cons scope outer =>
      exact (sublist_append_left _ _).trans (sublist_append_left _ _)
  have ends (released : List C.Name) (jumped : Bool)
      (same : released = a'.ownedByBlock.map Owned.name) (empty : jumped = true → released = []) :
      Point.EndsBlock ⟨blocksOf a', released, jumped⟩ := by
    cases jumped with
    | true => exact empty rfl
    | false => exact ⟨by rw [ownLists_blocksOf, same], by rwa [ownLists_blocksOf]⟩
  constructor
  · rw [C.Stmt.releasesTo_append]
    refine h.releases false _ fun jumped' _ => ?_
    rw [C.Stmt.releasesTo_releases releasing]
    refine ends _ _ rfl fun jumped => ?_
    by_contra live
    rw [nil_append] at live
    simp [live] at jumped
  · exact C.covered_append h.covered (covered_releasing releasing)

end Blocks

section Statements

variable {o : Outline} {sites : NodeId → Site} {t : Analysis} {p : Program} {c : LowerContext}
variable {before : C.Sections}

theorem emits_code {s : LowerState}
    {x : Lower (List C.Stmt)} {nodes : List NodeId} {jumps : Bool} {a : Activation}
    (h : Yields c x fun code =>
      Lowered c.unit sites nodes jumps a code a s.sections.environments.toList) :
    Emits c before s (do return (← x, a)) fun r envs =>
      Lowered c.unit sites nodes jumps a r.1 r.2 envs :=
  .of_yields (yields_bind h fun _ lowered => yields_pure lowered)

/-- Code at a place in a procedure, to be lowered in an activation of it: its nodes are distinct,
and none of the lists that they declare is owned yet. -/
structure InPlace (t : Analysis) (u : CheckedUnit) (sites : NodeId → Site) (d : Option NodeId)
    (a : Activation) (places : List (NodeId × Site)) (nodes : List NodeId) : Prop where
  stands : t.StandsIn { proc := d } a.proc
  placed : Placed sites places
  distinct : nodes.Nodup
  free : Unowned u sites a nodes

section InPlace

variable {d : Option NodeId} {a : Activation} {places places' : List (NodeId × Site)}
variable {nodes nodes' : List NodeId}

theorem InPlace.left (h : InPlace t c.unit sites d a (places ++ places') (nodes ++ nodes')) :
    InPlace t c.unit sites d a places nodes :=
  ⟨h.stands, (placed_append.mp h.placed).1, h.distinct.of_append_left,
    h.free.mono (subset_append_left _ _)⟩

theorem InPlace.right (h : InPlace t c.unit sites d a (places ++ places') (nodes ++ nodes')) :
    InPlace t c.unit sites d a places' nodes' :=
  ⟨h.stands, (placed_append.mp h.placed).2, h.distinct.of_append_right,
    h.free.mono (subset_append_right _ _)⟩

theorem InPlace.reachable (ht : t.Coherent o sites) (hu : c.unit = t.unit o p)
    (h : InPlace t c.unit sites d a (Site.mark { proc := d } nodes) nodes') :
    Reachable c a (c.unit.capturesOf a.proc) nodes :=
  reachable_of_standsIn ht hu h.stands (Site.placed_mark.mp h.placed)

/-- Code behind a statement. No variable of it is live yet, since its nodes are not among those of
the statement. -/
theorem InPlace.behind (ht : t.Coherent o sites) (hu : c.unit = t.unit o p)
    (h : InPlace t c.unit sites d a (places ++ places') (nodes ++ nodes')) {jumps : Bool}
    {code : List C.Stmt} {a' : Activation} {envs : List C.Environment}
    (lowered : Lowered c.unit sites nodes jumps a code a' envs) :
    InPlace t c.unit sites d a' places' nodes' :=
  ⟨lowered.proc ▸ h.stands, h.right.placed, h.right.distinct,
    lowered.unowned (hu ▸ ht.declaredOnce) h.right.free (List.nodup_append'.mp h.distinct).2.2⟩

end InPlace

mutual

/-- A lowered statement releases what it has to. -/
theorem emits_stmt (ht : t.Coherent o sites) (hu : c.unit = t.unit o p) :
    (st : Stmt) → {d : Option NodeId} → {a : Activation} → {s : LowerState} → {inProc : Bool} →
    InPlace t c.unit sites d a (st.sites d) st.ids →
    st.JumpsIn (inLoop a) inProc →
      Emits c before s (stmt a st) fun r envs =>
        Lowered c.unit sites st.ids (endsInJump [st]) a r.1 r.2 envs
  | .importUnit _, d, a, s, inProc, here, jumps =>
    emits_pure (.of_plain here.free (by simp) (by simp))
  | .artifact decl, d, a, s, inProc, here, jumps =>
    emits_code (yields_artifactStmt (here.reachable ht hu) here.free)
  | .var decl, d, a, s, inProc, here, jumps => by
    obtain ⟨isVar, value⟩ := placed_cons.mp here.placed
    have reach := reachable_of_standsIn ht hu here.stands (Site.placed_mark.mp value)
    exact .of_yields (yields_varStmt ht hu reach (by rw [isVar]) here.free)
  | .proc ⟨node, name, params, ret, ⟨span, code⟩⟩, d, a, s, inProc, here, jumps => by
    obtain ⟨head, ofBody⟩ := placed_append.mp here.placed
    obtain ⟨declared, ofParams⟩ := placed_cons.mp head
    have jumps : Stmt.AllJumpIn false true code := jumps
    refine (yields_procOf ht hu node.id).then fun info s₁ _ hinfo => ?_
    obtain ⟨id, q, found, declares, rfl⟩ := hinfo
    have defaults : ∀ n ∈ Param.idsAll params,
        sites n = { proc := some q.info.decl, isDefault := true } :=
      declares ▸ Param.placed_sitesAll.mp ofParams
    split
    · next nested =>
      refine (emits_procedure ht hu found defaults fun inner s₂ home unowned outer =>
        (emits_stmts ht hu code ⟨?_, ofBody, ?_, unowned⟩ (outer ▸ jumps)).weaken
          fun _ _ lowered => lowered.1).bind fun _ s₂ _ environment => ?_
      · rw [home]
        exact ⟨q, found, by rw [declares]⟩
      · exact (List.nodup_cons.mp here.distinct).2.of_append_right
      · have inBlock : t.StandsIn (sites q.info.decl) a.proc := by
          rw [declares, declared]
          exact here.stands
        exact emits_code
          (yields_bindNested ht hu found nested inBlock here.free environment node.id)
    · exact emits_pure (.of_plain here.free (by simp) (by simp))
  | .assign _ target value, d, a, s, inProc, here, jumps =>
    emits_code
      (yields_assignStmt (here.left.reachable ht hu) (here.right.reachable ht hu) here.free)
  | .cond ⟨_, cond, ⟨_, body⟩⟩, d, a, s, inProc, here, jumps => by
    refine (yields_exprValue (here.left.reachable ht hu)).then fun v s₁ _ hv => ?_
    refine (emits_block ht hu body false here.right (by simpa using jumps)).bind
      fun code s₂ _ lowered => ?_
    refine emits_pure (.of_code here.free (fun _ _ reached => ?_) (C.covered_singleton ?_))
    · exact ⟨⟨rfl, ⟨lowered.releases, trivial⟩, trivial⟩, reached false (by simp [endsInJump])⟩
    · simp only [C.Stmt.accesses, C.Arm.accessesAll, C.Stmt.accessesOption, C.Stmt.opened,
        C.Arm.openedAll, C.Stmt.openedOption, append_nil]
      exact .behind hv lowered.covered
  | .chain _ arms none, d, a, s, inProc, here, jumps => by
    refine (emits_chainArms ht hu arms here.left jumps.1).bind fun code s₁ _ lowered => ?_
    refine emits_pure (.of_code here.free (fun _ _ reached => ?_) (C.covered_singleton ?_))
    · exact ⟨⟨rfl, lowered.releases, trivial⟩, reached false (by simp [endsInJump])⟩
    · simp only [C.Stmt.accesses, C.Stmt.accessesOption, C.Stmt.opened, C.Stmt.openedOption,
        append_nil]
      exact lowered.covered
  | .chain _ arms (some ⟨_, body⟩), d, a, s, inProc, here, jumps => by
    refine (emits_chainArms ht hu arms here.left jumps.1).bind fun code s₁ _ lowered => ?_
    refine (emits_block ht hu body false here.right (by simpa using jumps.2)).bind
      fun fallback s₂ more lowered' => ?_
    refine emits_pure (.of_code here.free (fun _ _ reached => ?_) (C.covered_singleton ?_))
    · exact ⟨⟨rfl, lowered.releases, lowered'.releases⟩, reached false (by simp [endsInJump])⟩
    · exact (lowered.covered.mono more (List.Subset.refl _)).append lowered'.covered
  | .whileLoop ⟨_, cond, ⟨_, body⟩⟩, d, a, s, inProc, here, jumps => by
    refine (yields_exprValue (here.left.reachable ht hu)).then fun v s₁ _ hv => ?_
    refine (emits_block ht hu body true here.right (by simpa using jumps)).bind
      fun code s₂ _ lowered => ?_
    refine emits_pure (.of_code here.free (fun _ _ reached => ?_) (C.covered_singleton ?_))
    · exact ⟨⟨rfl, lowered.releases⟩, reached false (by simp [endsInJump])⟩
    · exact .behind hv lowered.covered
  | .rangeLoop node _ start stop ⟨_, body⟩, d, a, s, inProc, here, jumps => by
    obtain ⟨-, ofStart⟩ := placed_cons.mp here.left.left.placed
    have reach := reachable_of_standsIn ht hu here.stands (Site.placed_mark.mp ofStart)
    refine (yields_exprValue reach).then fun first s₁ _ hfirst => ?_
    refine (yields_rangeEnd (here.left.right.reachable ht hu)).then fun last s₂ _ hlast => ?_
    refine (yields_temporary _).then fun _ s₃ _ _ => ?_
    refine (yields_temporary _).then fun _ s₄ _ _ => ?_
    refine (yields_temporary _).then fun _ s₅ _ _ => ?_
    refine (yields_symbolOf _).then fun _ s₆ _ _ => ?_
    refine (emits_block ht hu body true here.right (by simpa using jumps)).bind
      fun code s₇ _ lowered => ?_
    refine emits_pure (.of_code here.free (fun _ _ reached => ?_) (C.covered_singleton ?_))
    · exact ⟨⟨rfl, lowered.releases⟩, reached false (by simp [endsInJump])⟩
    · exact .behind (List.forall_mem_append.mpr ⟨hfirst, hlast⟩) lowered.covered
  | .breakLoop _, d, a, s, inProc, here, jumps =>
    emits_code (yields_jumpStmt here.free (.inl rfl) jumps)
  | .skipTurn _, d, a, s, inProc, here, jumps =>
    emits_code (yields_jumpStmt here.free (.inr rfl) jumps)
  | .ret _ value, d, a, s, inProc, here, jumps =>
    emits_code (yields_returnStmt (here.reachable ht hu) here.free)
  | .block ⟨_, body⟩, d, a, s, inProc, here, jumps => by
    refine (emits_block ht hu body false here (by simpa using jumps)).bind
      fun code s₂ _ lowered => ?_
    refine emits_pure (.of_code here.free (fun _ _ reached => ?_) (C.covered_singleton ?_))
    · exact ⟨⟨rfl, lowered.releases⟩, reached false (by simp [endsInJump])⟩
    · exact lowered.covered
  | .expr e, d, a, s, inProc, here, jumps =>
    emits_code (yields_exprStmt (here.reachable ht hu) here.free)

theorem emits_stmts (ht : t.Coherent o sites) (hu : c.unit = t.unit o p) :
    (ss : List Stmt) → {d : Option NodeId} → {a : Activation} → {s : LowerState} →
    {inProc : Bool} →
    InPlace t c.unit sites d a (Stmt.sitesAll d ss) (Stmt.idsAll ss) →
    Stmt.AllJumpIn (inLoop a) inProc ss →
      Emits c before s (stmts a ss) fun r envs =>
        Lowered c.unit sites (Stmt.idsAll ss) (endsInJump ss) a r.1 r.2 envs ∧
          (ss = [] → r.1 = [] ∧ r.2 = a)
  | [], d, a, s, inProc, here, jumps =>
    emits_pure ⟨.of_plain here.free (by simp) (by simp), fun _ => ⟨rfl, rfl⟩⟩
  | st :: rest, d, a, s, inProc, here, jumps => by
    refine (emits_stmt ht hu st here.left jumps.1).bind fun r s₁ _ lowered => ?_
    refine (emits_stmts ht hu rest (here.behind ht hu lowered)
      (lowered.inLoop.symm ▸ jumps.2)).bind fun r' s₂ more lowered' => ?_
    refine emits_pure ⟨?_, fun none => by cases none⟩
    exact (lowered.mono more (List.Subset.refl _)).cons lowered'.1 lowered'.2

theorem emits_block (ht : t.Coherent o sites) (hu : c.unit = t.unit o p) :
    (ss : List Stmt) → (isLoopBody : Bool) → {d : Option NodeId} → {a : Activation} →
    {s : LowerState} → {inProc : Bool} →
    InPlace t c.unit sites d a (Stmt.sitesAll d ss) (Stmt.idsAll ss) →
    Stmt.AllJumpIn (inLoop a || isLoopBody) inProc ss →
      Emits c before s (block a isLoopBody ss) fun code envs =>
        BlockLowered c.unit a isLoopBody code envs
  | [], isLoopBody, d, a, s, inProc, here, jumps =>
    emits_pure ⟨⟨rfl, nodup_nil⟩, C.covered_nil⟩
  | st :: rest, isLoopBody, d, a, s, inProc, here, jumps => by
    have inside : InPlace t c.unit sites d (a.enter isLoopBody) (st.sites d ++ Stmt.sitesAll d rest)
        (st.ids ++ Stmt.idsAll rest) :=
      ⟨here.stands, here.placed, here.distinct, here.free.enter isLoopBody⟩
    rw [← inLoop_enter] at jumps
    refine (emits_stmt ht hu st inside.left jumps.1).bind fun r s₁ _ lowered => ?_
    refine (emits_stmts ht hu rest (inside.behind ht hu lowered)
      (lowered.inLoop.symm ▸ jumps.2)).bind fun r' s₂ more lowered' => ?_
    have whole := (lowered.mono more (List.Subset.refl _)).cons lowered'.1 lowered'.2
    dsimp only
    -- A block that ends in a jump has released its lists in front of the jump.
    split
    · next jump =>
      rw [jump] at whole
      refine emits_pure ?_
      rw [append_nil]
      exact whole.block_of_jump
    · refine (yields_releaseAll _).then fun releases s₃ same releasing => ?_
      exact emits_pure ((same ▸ whole).block_of_releases releasing)

theorem emits_chainArms (ht : t.Coherent o sites) (hu : c.unit = t.unit o p) :
    (arms : List Guarded) → {d : Option NodeId} → {a : Activation} → {s : LowerState} →
    {inProc : Bool} →
    InPlace t c.unit sites d a (Guarded.sitesAll d arms) (Guarded.idsAll arms) →
    Guarded.AllJumpIn (inLoop a) inProc arms →
      Emits c before s (chainArms a arms) fun lowered envs => ArmsLowered c.unit a lowered envs
  | [], d, a, s, inProc, here, jumps =>
    emits_pure ⟨trivial, fun _ mem => by cases mem⟩
  | ⟨_, cond, ⟨_, body⟩⟩ :: rest, d, a, s, inProc, here, jumps => by
    refine (yields_exprValue (here.left.left.reachable ht hu)).then fun v s₁ _ hv => ?_
    refine (emits_block ht hu body false here.left.right (by simpa using jumps.1)).bind
      fun code s₂ _ lowered => ?_
    refine (emits_chainArms ht hu rest here.right jumps.2).bind fun arms s₃ more lowered' => ?_
    refine emits_pure ⟨⟨lowered.releases, lowered'.releases⟩, ?_⟩
    exact CoveredBy.append (.behind hv (lowered.covered.mono more)) lowered'.covered

end

end Statements

end Lower

end ArkLang
