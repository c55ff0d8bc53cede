import ArkLang.Proofs.Frames
import ArkLang.Proofs.Sites

/-!
# Tables that fit together

What the tables of a unit say of one thing fits what they say of others, at every moment of the
analysis: symbols and procedures stand under their numbers, every name resolves to a symbol that the
code around it can get at, and what a procedure captures the code around it can get at in turn. This
is so at first, and every entry that a check writes keeps it.
-/

namespace ArkLang

open List

variable {id : SymbolId} {site : Site}

variable {o : Outline} {sites : NodeId → Site} {s s' : Analysis}

namespace Analysis

/-- No procedure is declared by a node. -/
def Unmade (s : Analysis) (n : NodeId) : Prop :=
  ∀ p ∈ s.procs, p.info.decl ≠ n

/-- Nodes that declare no procedures yet, and that belong to no item that is still to be checked. -/
def Fresh (o : Outline) (s : Analysis) (nodes : List NodeId) : Prop :=
  ∀ n ∈ nodes, s.Unmade n ∧ ∀ i, i ∉ s.started → n ∉ o.code i

/-- Code of a procedure, or of the module, can get at a symbol: it owns the symbol, it is the
procedure that the symbol stands for, or it captures the symbol. -/
def Finds (s : Analysis) (sym : SymbolInfo) : Option ProcId → Prop
  | none => sym.owner = none
  | some id => sym.owner = some id ∨ sym.kind = .nestedProc id ∨
      ∃ p, s.procs[id]? = some p ∧ sym.id ∈ p.info.captures

/-- Code at a site belongs to a procedure, or to the module. -/
def StandsIn (s : Analysis) (site : Site) : Option ProcId → Prop
  | none => site.proc = none
  | some id => ∃ p, s.procs[id]? = some p ∧ site.proc = some p.info.decl

/-- Code at a site may use a symbol. -/
def Uses (s : Analysis) (site : Site) (id : SymbolId) : Prop :=
  ∃ sym, s.symbols[id]? = some sym ∧ (sym.isGlobal = false →
    ∃ proc, s.StandsIn site proc ∧ s.Finds sym proc ∧ (site.isDefault = true → sym.owner = proc))

/-- The parameters of a procedure have symbols of their own. -/
def HasParams (s : Analysis) (id : ProcId) (params : List ParamInfo) : Prop :=
  (params.map ParamInfo.symbol).Nodup ∧ ∀ q ∈ params, ∃ sym,
    s.symbols[q.symbol]? = some sym ∧ sym.kind = .param ∧ sym.isGlobal = false ∧ sym.owner = some id

/-- What a procedure captures is local, it is no list, and the code around the procedure can get at
it. -/
def Captures (s : Analysis) (p : ProcInfo) (id : SymbolId) : Prop :=
  ∃ sym, s.symbols[id]? = some sym ∧ sym.isGlobal = false ∧ sym.type.containsList = false ∧
    p.isNested = true ∧ s.Finds sym p.nestedIn

/-- The procedures of an outline stand under their numbers. -/
def HoldsProcs (s : Analysis) (o : Outline) : Prop :=
  ∀ (i : Nat) proc, o.procs[i]? = some proc →
    ∃ p, s.procs[i]? = some p ∧ p.info.decl = proc.decl.node.id

/-- Tables that fit together. -/
structure Aligned (o : Outline) (sites : NodeId → Site) (s : Analysis) : Prop where
  records : s.errors = #[] → ∀ a ∈ o.artifacts, a.kind = .record →
    ∀ p ∈ (s.props.get? a.name).getD [], p.type.containsList = false
  symbolIds : ∀ (i : Nat) sym, s.symbols[i]? = some sym → sym.id = i
  globalsFirst : o.globals.size ≤ s.symbols.size
  isGlobal_iff : ∀ (i : Nat) sym, s.symbols[i]? = some sym →
    (sym.isGlobal = true ↔ i < o.globals.size)
  globalKind : ∀ (i : Nat) sym, s.symbols[i]? = some sym → sym.isGlobal = true → sym.kind = .var
  declared : ∀ n i, s.declSymbols.get? n = some i →
    ∃ sym, s.symbols[i]? = some sym ∧ ((sites n).isVar = true → sym.kind = .var)
  declaredOnce : ∀ n m i, s.declSymbols.get? n = some i → s.declSymbols.get? m = some i → n = m
  outlineProcs : s.HoldsProcs o
  procIds : ∀ (i : Nat) p, s.procs[i]? = some p → p.info.id = i
  params : ∀ (i : Nat) p, s.procs[i]? = some p → s.HasParams i p.info.params
  nested : ∀ p ∈ s.procs, p.info.isNested = true → s.StandsIn (sites p.info.decl) p.info.nestedIn
  procDecl : ∀ (i : Nat) p, s.procs[i]? = some p → s.procDecls.get? p.info.decl = some i
  procDecls : ∀ n i, s.procDecls.get? n = some i → ∃ p, s.procs[i]? = some p ∧ p.info.decl = n
  unmade : ∀ i, i ∉ s.started → ∀ n ∈ o.code i, s.Unmade n
  capturesNodup : ∀ p ∈ s.procs, p.info.captures.Nodup
  captures : ∀ p ∈ s.procs, ∀ id ∈ p.info.captures, s.Captures p.info id
  resolved : ∀ n id, s.resolutions.get? n = some (.var id) → s.Uses (sites n) id
  called : ∀ n id proc supplied total,
    s.calls.get? n = some (.nestedProc id proc supplied total) → s.Uses (sites n) id
  begun : ∀ id, .body id ∈ s.started → id < s.procs.size
  jumps : s.errors = #[] → ∀ (id : Nat) proc, o.procs[id]? = some proc →
    .body id ∈ s.finished → proc.decl.JumpsIn

/-! ### What stays true as tables grow -/

/-- Tables in which symbols and procedures stay what they are: a symbol may get another type, and a
procedure may capture more. -/
structure Keeps (s s' : Analysis) : Prop where
  symbol : ∀ {id : SymbolId} {sym : SymbolInfo}, s.symbols[id]? = some sym →
    ∃ type, s'.symbols[id]? = some { sym with type }
  proc : ∀ {id : ProcId} {p : ProcEntry}, s.procs[id]? = some p →
    ∃ q, s'.procs[id]? = some q ∧ q.info.decl = p.info.decl ∧ q.info.isNested = p.info.isNested ∧
      q.info.nestedIn = p.info.nestedIn ∧ p.info.captures ⊆ q.info.captures

/-- A procedure stays where it was declared. -/
theorem Grows.proc (h : s.Grows s') {id : ProcId} {p : ProcEntry} (found : s.procs[id]? = some p) :
    ∃ q, s'.procs[id]? = some q ∧ q.info.decl = p.info.decl ∧ q.info.isNested = p.info.isNested ∧
      q.info.nestedIn = p.info.nestedIn ∧ p.info.captures ⊆ q.info.captures := by
  obtain ⟨q, found, filled⟩ := h.procs id p found
  refine ⟨q, found, by rw [filled.info], by rw [filled.info]; rfl, by rw [filled.info], ?_⟩
  exact filled.captures.subset

theorem Grows.keeps (h : s.Grows s') : s.Keeps s' :=
  ⟨h.symbols _ _, h.proc⟩

theorem Grows.size_symbols (h : s.Grows s') : s.symbols.size ≤ s'.symbols.size := by
  by_contra less
  obtain ⟨type, found⟩ := h.symbols s'.symbols.size _
    (Array.getElem?_eq_getElem (Nat.lt_of_not_le less))
  simp at found

theorem Grows.noErrors (h : s.Grows s') (none : s'.errors = #[]) : s.errors = #[] := by
  have before := h.errors
  rwa [none, prefix_nil, Array.toList_eq_nil_iff] at before

/-- Of procedures in blocks that are there already, only such bodies are begun that some nodes
declare. -/
def Opens (o : Outline) (nodes : List NodeId) (s s' : Analysis) : Prop :=
  ∀ (id : Nat) p, s.procs[id]? = some p → o.procs[id]? = none → p.info.decl ∉ nodes →
    .body id ∈ s'.started → .body id ∈ s.started

variable {nodes : List NodeId}

theorem opens_of_started (same : s'.started = s.started) :
    s.Opens o nodes s' :=
  fun _ _ _ _ _ begun => same ▸ begun

theorem Opens.mono {nodes nodes' : List NodeId} (h : s.Opens o nodes s') (sub : nodes ⊆ nodes') :
    s.Opens o nodes' s' :=
  fun id p found outside other => h id p found outside fun mem => other (sub mem)

theorem Opens.trans {s₁ : Analysis} (h : s.Opens o nodes s₁)
    (grows : s.Grows s₁) (h' : s₁.Opens o nodes s') : s.Opens o nodes s' := by
  intro id p found outside other begun
  obtain ⟨q, found₁, decl, -⟩ := grows.proc found
  exact h id p found outside other (h' id q found₁ outside (decl ▸ other) begun)

theorem Finds.keeps {sym : SymbolInfo} {type : Ty} {proc : Option ProcId} (h : s.Finds sym proc)
    (later : s.Keeps s') : s'.Finds { sym with type } proc := by
  cases proc with
  | none => exact h
  | some id =>
    rcases h with owned | itself | ⟨p, found, captured⟩
    · exact .inl owned
    · exact .inr (.inl itself)
    · obtain ⟨q, found, -, -, -, captures⟩ := later.proc found
      exact .inr (.inr ⟨q, found, captures captured⟩)

theorem Finds.grows {sym : SymbolInfo} {type : Ty} {proc : Option ProcId} (h : s.Finds sym proc)
    (later : s.Grows s') : s'.Finds { sym with type } proc :=
  h.keeps later.keeps

theorem StandsIn.keeps {proc : Option ProcId} (h : s.StandsIn site proc)
    (later : s.Keeps s') : s'.StandsIn site proc := by
  cases proc with
  | none => exact h
  | some id =>
    obtain ⟨p, found, here⟩ := h
    obtain ⟨q, found, decl, -⟩ := later.proc found
    exact ⟨q, found, by rw [here, decl]⟩

theorem StandsIn.grows {proc : Option ProcId} (h : s.StandsIn site proc)
    (later : s.Grows s') : s'.StandsIn site proc :=
  h.keeps later.keeps

theorem Uses.keeps (h : s.Uses site id) (later : s.Keeps s') :
    s'.Uses site id := by
  obtain ⟨sym, found, use⟩ := h
  obtain ⟨type, found⟩ := later.symbol found
  refine ⟨_, found, fun isLocal => ?_⟩
  obtain ⟨proc, stands, finds, own⟩ := use isLocal
  exact ⟨proc, stands.keeps later, finds.keeps later, own⟩

theorem Uses.grows (h : s.Uses site id) (later : s.Grows s') :
    s'.Uses site id :=
  h.keeps later.keeps

theorem HasParams.keeps {id : ProcId} {params : List ParamInfo} (h : s.HasParams id params)
    (later : s.Keeps s') : s'.HasParams id params := by
  refine ⟨h.1, fun q mem => ?_⟩
  obtain ⟨sym, found, facts⟩ := h.2 q mem
  obtain ⟨type, found⟩ := later.symbol found
  exact ⟨_, found, facts⟩

theorem Captures.keeps {p q : ProcInfo} (h : s.Captures p id)
    (later : s.Keeps s') (nested : q.isNested = p.isNested) (around : q.nestedIn = p.nestedIn)
    (types : ∀ sym sym', s.symbols[id]? = some sym → s'.symbols[id]? = some sym' →
      sym.isGlobal = false → sym.type.containsList = false → sym'.type.containsList = false) :
    s'.Captures q id := by
  obtain ⟨sym, found, isLocal, noList, inBlock, finds⟩ := h
  obtain ⟨type, found'⟩ := later.symbol found
  have noList' := types sym _ found found' isLocal noList
  exact ⟨_, found', isLocal, noList', nested.trans inBlock, around ▸ finds.keeps later⟩

theorem HoldsProcs.keeps (h : s.HoldsProcs o) (later : s.Keeps s') : s'.HoldsProcs o := by
  intro i proc found
  obtain ⟨p, at_, decl⟩ := h i proc found
  obtain ⟨q, at_, same, -⟩ := later.proc at_
  exact ⟨q, at_, same.trans decl⟩

theorem Fresh.mono {nodes nodes' : List NodeId} (h : s.Fresh o nodes) (sub : nodes' ⊆ nodes) :
    s.Fresh o nodes' :=
  fun n mem => h n (sub mem)

theorem Fresh.of_decls (h : s.Fresh o nodes)
    (decls : ∀ q ∈ s'.procs, ∃ p ∈ s.procs, q.info.decl = p.info.decl)
    (started : s.started ⊆ s'.started) : s'.Fresh o nodes := by
  intro n mem
  obtain ⟨unmade, others⟩ := h n mem
  constructor
  · intro q hq
    obtain ⟨p, hp, same⟩ := decls q hq
    exact same ▸ unmade p hp
  · exact fun i untouched => others i fun begun => untouched (started begun)

end Analysis

open Analysis

/-! ### Facts that last -/

/-- A fact about tables that lasts as they grow. -/
structure Fact where
  holds : Analysis → Prop
  lasts : ∀ {s s' : Analysis}, holds s → s.Grows s' → holds s'

/-- A symbol that is reached through the procedures around some code: all procedures up to the one
that owns it, or that it stands for, are declared in blocks of each other. -/
def Analysis.ReachedBy (s : Analysis) (sym : SymbolInfo) : List ProcId → Prop
  | [] => sym.owner = none
  | id :: outer => sym.owner = some id ∨ sym.kind = .nestedProc id ∨
      (∃ p, s.procs[id]? = some p ∧ p.info.isNested = true ∧ p.info.nestedIn = outer.head?) ∧
        s.ReachedBy sym outer

theorem Analysis.ReachedBy.grows {sym : SymbolInfo} {type : Ty} {procs : List ProcId}
    (h : s.ReachedBy sym procs) (later : s.Grows s') :
    s'.ReachedBy { sym with type } procs := by
  induction procs with
  | nil => exact h
  | cons id outer ih =>
    rcases h with owned | itself | ⟨⟨p, found, nested, around⟩, more⟩
    · exact .inl owned
    · exact .inr (.inl itself)
    · obtain ⟨q, found, -, nested', around', -⟩ := later.proc found
      exact .inr (.inr ⟨⟨q, found, nested'.trans nested, around'.trans around⟩, ih more⟩)

/-- A context describes where code stands: in the procedure of its site, and its names stand for
local symbols that are reached through the procedures around the code. -/
structure Context.Fits (c : Context) (site : Site) (s : Analysis) : Prop where
  proc : s.StandsIn site c.proc
  frames : ∀ frame ∈ c.frames, ∀ x ∈ frame, ∃ sym, s.symbols[x.2]? = some sym ∧
    sym.isGlobal = false ∧ s.ReachedBy sym c.procs ∧ (site.isDefault = true → sym.owner = c.proc)

theorem Context.Fits.grows {c : Context} (h : c.Fits site s) (later : s.Grows s') :
    c.Fits site s' where
  proc := h.proc.grows later
  frames frame mem x hx := by
    obtain ⟨sym, found, isLocal, reached, own⟩ := h.frames frame mem x hx
    obtain ⟨type, found⟩ := later.symbols _ sym found
    exact ⟨_, found, isLocal, reached.grows later, own⟩

/-- The fact that a context describes where code stands. -/
def Context.fits (c : Context) (site : Site) : Fact :=
  ⟨c.Fits site, Context.Fits.grows⟩

/-! ### Checks that keep tables aligned -/

/-- What a check leaves, whether or not it gives a value: aligned tables, grown, in which fresh
nodes outside some given ones are still fresh, and bodies that others declare still to begin. A
value has a property. -/
structure Leaves {α : Type} (o : Outline) (sites : NodeId → Site) (nodes : List NodeId)
    (s : Analysis) (x : Check α) (Q : α → Analysis → Prop) : Prop where
  aligned : (runAt x o s).2.Aligned o sites
  grows : s.Grows (runAt x o s).2
  fresh : ∀ others, s.Fresh o others → others.Disjoint nodes → (runAt x o s).2.Fresh o others
  opens : s.Opens o nodes (runAt x o s).2
  value : ∀ a, (runAt x o s).1 = .ok a → Q a (runAt x o s).2

/-- A check that declares no procedures itself keeps tables aligned where a fact holds. -/
def Sound {α : Type} (o : Outline) (sites : NodeId → Site) (P : Fact) (x : Check α) : Prop :=
  ∀ s, s.Aligned o sites → P.holds s → Leaves o sites [] s x fun _ _ => True

section Rules

variable {α β : Type} {nodes nodes' : List NodeId} {Q : α → Analysis → Prop}
variable {R : β → Analysis → Prop} {P : Fact}

theorem leaves_pure {a : α} (hs : s.Aligned o sites) (q : Q a s) :
    Leaves o sites nodes s (pure a) Q where
  aligned := hs
  grows := .refl s
  fresh _ h _ := h
  opens := opens_of_started rfl
  value := by
    rintro _ ⟨⟩
    exact q

theorem leaves_throw (hs : s.Aligned o sites) (e : SemanticError) :
    Leaves o sites nodes s (throw e : Check α) Q where
  aligned := hs
  grows := .refl s
  fresh _ h _ := h
  opens := opens_of_started rfl
  value := by
    rintro _ ⟨⟩

theorem leaves_modify {f : Analysis → Analysis} {Q : Unit → Analysis → Prop}
    (aligned : (f s).Aligned o sites) (grows : s.Grows (f s))
    (fresh : ∀ others, s.Fresh o others → others.Disjoint nodes → (f s).Fresh o others)
    (q : Q () (f s)) (started : (f s).started = s.started := by rfl) :
    Leaves o sites nodes s (modify f : Check Unit) Q where
  aligned := aligned
  grows := grows
  fresh := fresh
  opens := opens_of_started started
  value := by
    rintro _ ⟨⟩
    exact q

theorem Leaves.of_runAt_eq {x y : Check α} (h : Leaves o sites nodes s y Q)
    (same : runAt x o s = runAt y o s) : Leaves o sites nodes s x Q := by
  refine ⟨?_, ?_, ?_, ?_, ?_⟩ <;> rw [same]
  · exact h.aligned
  · exact h.grows
  · exact h.fresh
  · exact h.opens
  · exact h.value

theorem Leaves.mono {x : Check α} {Q' : α → Analysis → Prop} (h : Leaves o sites nodes s x Q)
    (sub : nodes ⊆ nodes') (weaker : ∀ a s', Q a s' → Q' a s') : Leaves o sites nodes' s x Q' where
  aligned := h.aligned
  grows := h.grows
  fresh others fresh apart := h.fresh others fresh fun _ mem mem' => apart mem (sub mem')
  opens := h.opens.mono sub
  value a found := weaker a _ (h.value a found)

/-- Checks in sequence, each at nodes of its own. -/
theorem Leaves.bind {x : Check α} {f : α → Check β} (hx : Leaves o sites nodes s x Q)
    (hf : ∀ a s₁, s₁.Aligned o sites → s.Grows s₁ →
      (∀ others, s.Fresh o others → others.Disjoint nodes → s₁.Fresh o others) → Q a s₁ →
        Leaves o sites nodes' s₁ (f a) R) :
    Leaves o sites (nodes ++ nodes') s (x >>= f) R := by
  rcases run : runAt x o s with ⟨e | a, s₁⟩
  · have whole : runAt (x >>= f) o s = (.error e, s₁) := by rw [runAt_bind, run]
    have state : (runAt x o s).2 = s₁ := by rw [run]
    refine ⟨?_, ?_, ?_, ?_, ?_⟩ <;> rw [whole]
    · exact state ▸ hx.aligned
    · exact state ▸ hx.grows
    · exact fun others fresh apart => state ▸ hx.fresh others fresh
        fun _ mem mem' => apart mem (mem_append_left _ mem')
    · exact state ▸ hx.opens.mono (subset_append_left _ _)
    · rintro _ ⟨⟩
  · have whole : runAt (x >>= f) o s = runAt (f a) o s₁ := by rw [runAt_bind, run]
    have state : (runAt x o s).2 = s₁ := by rw [run]
    have rest := hf a s₁ (state ▸ hx.aligned) (state ▸ hx.grows) (state ▸ hx.fresh)
      (state ▸ hx.value a (by rw [run]))
    refine ⟨?_, ?_, ?_, ?_, ?_⟩ <;> rw [whole]
    · exact rest.aligned
    · exact (state ▸ hx.grows).trans rest.grows
    · intro others fresh apart
      refine rest.fresh others ?_ fun _ mem mem' => apart mem (mem_append_right _ mem')
      exact state ▸ hx.fresh others fresh fun _ mem mem' => apart mem (mem_append_left _ mem')
    · exact (state ▸ hx.opens.mono (subset_append_left _ _)).trans (state ▸ hx.grows)
        (rest.opens.mono (subset_append_right _ _))
    · exact rest.value

/-- Behind an error, checking goes on with aligned tables. -/
theorem leaves_tryCatch {x : Check α} {handle : SemanticError → Check α}
    (hx : Leaves o sites nodes s x Q)
    (hh : ∀ e s₁, s₁.Aligned o sites → s.Grows s₁ → Leaves o sites [] s₁ (handle e) Q) :
    Leaves o sites nodes s (tryCatch x handle) Q := by
  rcases run : runAt x o s with ⟨e | a, s₁⟩
  · have whole : runAt (tryCatch x handle) o s = runAt (handle e) o s₁ := by
      rw [runAt_tryCatch, run]
    have state : (runAt x o s).2 = s₁ := by rw [run]
    have rest := hh e s₁ (state ▸ hx.aligned) (state ▸ hx.grows)
    refine ⟨?_, ?_, ?_, ?_, ?_⟩ <;> rw [whole]
    · exact rest.aligned
    · exact (state ▸ hx.grows).trans rest.grows
    · intro others fresh apart
      exact rest.fresh others (state ▸ hx.fresh others fresh apart) fun _ _ mem => by cases mem
    · exact (state ▸ hx.opens).trans (state ▸ hx.grows) (rest.opens.mono (nil_subset _))
    · exact rest.value
  · have whole : runAt (tryCatch x handle) o s = runAt x o s := by rw [runAt_tryCatch, run]
    exact hx.of_runAt_eq whole

/-! ### Bodies and errors -/

/-- What follows if there are no errors. -/
def Cleanly (J : Prop) (_ : α) (s : Analysis) : Prop :=
  s.errors = #[] → J

theorem Leaves.clean {x : Check α} {J : Prop} (h : Leaves o sites nodes s x Q)
    (first : s.errors = #[] → J) : Leaves o sites nodes s x (Cleanly J) :=
  { h with value := fun _ _ none => first (h.grows.noErrors none) }

theorem Leaves.unbegun {x : Check α} (h : Leaves o sites [] s x Q) {id : ProcId} {p : ProcEntry}
    (found : s.procs[id]? = some p) (outside : o.procs[id]? = none)
    (new : .body id ∉ s.started) :
    Leaves o sites [] s x fun a s' => Q a s' ∧ .body id ∉ s'.started :=
  { h with value := fun a given => ⟨h.value a given, fun begun =>
      new (h.opens id p found outside not_mem_nil begun)⟩ }

/-! ### Sound checks -/

theorem Sound.weaken {x : Check α} {P' : Fact} (h : Sound o sites P x)
    (stronger : ∀ s, P'.holds s → P.holds s) : Sound o sites P' x :=
  fun s hs hp => h s hs (stronger s hp)

theorem sound_pure (a : α) : Sound o sites P (pure a) :=
  fun _ hs _ => leaves_pure hs trivial

theorem sound_throw (e : SemanticError) : Sound o sites P (throw e : Check α) :=
  fun _ hs _ => leaves_throw hs e

theorem sound_bind {x : Check α} {f : α → Check β} (hx : Sound o sites P x)
    (hf : ∀ a, Sound o sites P (f a)) : Sound o sites P (x >>= f) := by
  intro s hs hp
  refine (hx s hs hp).bind fun a s₁ hs₁ later _ _ => ?_
  exact hf a s₁ hs₁ (P.lasts hp later)

theorem sound_read {f : Outline → Check β} (h : Sound o sites P (f o)) :
    Sound o sites P (read >>= f) :=
  fun s hs hp => (h s hs hp).of_runAt_eq rfl

theorem sound_tryCatch {x : Check α} {handle : SemanticError → Check α}
    (hx : Sound o sites P x) (hh : ∀ e, Sound o sites P (handle e)) :
    Sound o sites P (tryCatch x handle) :=
  fun s hs hp => leaves_tryCatch (hx s hs hp) fun e s₁ hs₁ later => hh e s₁ hs₁ (P.lasts hp later)

theorem sound_modify {f : Analysis → Analysis}
    (aligned : ∀ s, s.Aligned o sites → P.holds s → (f s).Aligned o sites)
    (grows : ∀ s : Analysis, s.Grows (f s)) (procs : ∀ s, (f s).procs = s.procs)
    (started : ∀ s, (f s).started = s.started) : Sound o sites P (modify f : Check Unit) := by
  refine fun s hs hp => leaves_modify (aligned s hs hp) (grows s) (fun others fresh _ => ?_)
    trivial (started s)
  exact fresh.of_decls (fun q mem => ⟨q, procs s ▸ mem, rfl⟩) (started s ▸ List.Subset.refl _)

end Rules

/-! ### Single entries -/

theorem get?_insertNode {γ : Type} {table : NodeTable γ} {m n : NodeId} {x : γ} :
    (table.insert m x).get? n = if m = n then some x else table.get? n := by
  simp [Std.TreeMap.getElem?_insert]

namespace Analysis.Aligned

variable (hs : s.Aligned o sites)

include hs

theorem resolve {id : NodeId} {r : Resolution}
    (h : ∀ symbol, r = .var symbol → s.Uses (sites id) symbol) :
    { s with resolutions := s.resolutions.insert id r }.Aligned o sites := by
  refine { hs with resolved := fun n symbol found => ?_ }
  rw [get?_insertNode] at found
  split at found
  · next here =>
    cases found
    exact here ▸ h symbol rfl
  · exact hs.resolved n symbol found

theorem setCall {id : NodeId} {target : CallTarget}
    (h : ∀ symbol proc supplied total, target = .nestedProc symbol proc supplied total →
      s.Uses (sites id) symbol) :
    { s with calls := s.calls.insert id target }.Aligned o sites := by
  refine { hs with called := fun n symbol proc supplied total found => ?_ }
  rw [get?_insertNode] at found
  split at found
  · next here =>
    cases found
    exact here ▸ h symbol proc supplied total rfl
  · exact hs.called n symbol proc supplied total found

theorem setDeclSymbol {id : NodeId} {symbol : SymbolId} {sym : SymbolInfo}
    (found : s.symbols[symbol]? = some sym) (isVar : (sites id).isVar = true → sym.kind = .var)
    (new : ∀ n, s.declSymbols.get? n ≠ some symbol) :
    { s with declSymbols := s.declSymbols.insert id symbol }.Aligned o sites := by
  refine { hs with declared := fun n i declares => ?_, declaredOnce := fun n m i hn hm => ?_ }
  · rw [get?_insertNode] at declares
    split at declares
    · next here =>
      cases declares
      exact ⟨sym, found, fun var => isVar (here ▸ var)⟩
    · exact hs.declared n i declares
  · rw [get?_insertNode] at hn hm
    split at hn <;> split at hm
    · next here here' => exact here.symm.trans here'
    · cases hn
      exact absurd hm (new m)
    · cases hm
      exact absurd hn (new n)
    · exact hs.declaredOnce n m i hn hm

theorem note (e : SemanticError) : { s with errors := s.errors.push e }.Aligned o sites :=
  { hs with records := fun none => by simp at none, jumps := fun none => by simp at none }

theorem withSymbols {symbols : Array SymbolInfo} (kept : s.Keeps { s with symbols })
    (more : s.symbols.size ≤ symbols.size)
    (known : ∀ {i : Nat} {x : SymbolInfo}, symbols[i]? = some x →
      (∃ y type, s.symbols[i]? = some y ∧ x = { y with type }) ∨
        x.id = i ∧ x.isGlobal = false ∧ s.symbols.size ≤ i)
    (free : ∀ {i : Nat} {x y : SymbolInfo}, s.symbols[i]? = some x → symbols[i]? = some y →
      x.isGlobal = false → x.type.containsList = false → y.type.containsList = false) :
    { s with symbols }.Aligned o sites := by
  have first := hs.globalsFirst
  refine { hs with
    symbolIds := fun i x found => ?_
    globalsFirst := first.trans more
    isGlobal_iff := fun i x found => ?_
    globalKind := fun i x found global => ?_
    declared := fun n i declares => ?_
    params := fun i p found => (hs.params i p found).keeps kept
    nested := fun p mem inBlock => (hs.nested p mem inBlock).keeps kept
    captures := fun p mem i captured =>
      (hs.captures p mem i captured).keeps kept rfl rfl fun _ _ => free
    resolved := fun n id found => (hs.resolved n id found).keeps kept
    called := fun n id proc a b found => (hs.called n id proc a b found).keeps kept }
  · rcases known found with ⟨y, type, old, rfl⟩ | ⟨number, -⟩
    · exact hs.symbolIds i y old
    · exact number
  · rcases known found with ⟨y, type, old, rfl⟩ | ⟨-, isLocal, new⟩
    · exact hs.isGlobal_iff i y old
    · rw [isLocal]
      constructor
      · intro absurd
        cases absurd
      · omega
  · rcases known found with ⟨y, type, old, rfl⟩ | ⟨-, isLocal, -⟩
    · exact hs.globalKind i y old global
    · rw [isLocal] at global
      cases global
  · obtain ⟨x, found, isVar⟩ := hs.declared n i declares
    obtain ⟨type, found⟩ := kept.symbol found
    exact ⟨_, found, isVar⟩

theorem newSymbol {sym : SymbolInfo} (numbered : sym.id = s.symbols.size)
    (isLocal : sym.isGlobal = false)
    (later : s.Grows { s with symbols := s.symbols.push sym }) :
    { s with symbols := s.symbols.push sym }.Aligned o sites := by
  refine hs.withSymbols later.keeps (by simp) (fun {i x} found => ?_)
    fun {i x y} old found _ noList => ?_
  · rw [Array.getElem?_push] at found
    split at found
    · next here =>
      cases found
      exact .inr ⟨numbered.trans here.symm, isLocal, here.ge⟩
    · exact .inl ⟨x, x.type, found, rfl⟩
  · have inside := (Array.getElem?_eq_some_iff.mp old).1
    rw [Array.getElem?_push, if_neg (Nat.ne_of_lt inside), old] at found
    cases found
    exact noList

theorem setSymbolType {type : Ty}
    (free : ∀ sym, s.symbols[id]? = some sym → sym.isGlobal = true ∨ type.containsList = false)
    (later : s.Grows { s with symbols := s.symbols.modify id fun x => { x with type } }) :
    { s with symbols := s.symbols.modify id fun x => { x with type } }.Aligned o sites := by
  refine hs.withSymbols later.keeps (by simp) (fun {i x} found => .inl ?_)
    fun {i x y} old found isLocal noList => ?_
  · rw [Array.getElem?_modify] at found
    split at found
    · obtain ⟨y, old, rfl⟩ := Option.map_eq_some_iff.mp found
      exact ⟨y, type, old, rfl⟩
    · exact ⟨x, x.type, found, rfl⟩
  · rw [Array.getElem?_modify, old] at found
    split at found
    · next here =>
      cases found
      refine (free x (here ▸ old)).elim (fun global => ?_) fun noList => noList
      rw [isLocal] at global
      cases global
    · cases found
      exact noList

theorem mapProcs {procs : Array ProcEntry} {f : Nat → ProcEntry → ProcEntry}
    (entries : ∀ i, procs[i]? = (s.procs[i]?).map (f i)) (kept : s.Keeps { s with procs })
    (number : ∀ i p, (f i p).info.id = p.info.id)
    (params : ∀ i p, s.procs[i]? = some p → s.HasParams i (f i p).info.params)
    (nodup : ∀ i p, p.info.captures.Nodup → (f i p).info.captures.Nodup)
    (captures : ∀ i p, s.procs[i]? = some p → ∀ id ∈ (f i p).info.captures,
      id ∈ p.info.captures ∨ Captures { s with procs } (f i p).info id) :
    Aligned o sites { s with procs } := by
  have at_ {i : Nat} {p : ProcEntry} (found : procs[i]? = some p) : ∃ q, s.procs[i]? = some q ∧
      p = f i q ∧ p.info.decl = q.info.decl ∧ p.info.isNested = q.info.isNested ∧
        p.info.nestedIn = q.info.nestedIn := by
    obtain ⟨q, old, rfl⟩ := Option.map_eq_some_iff.mp (entries i ▸ found)
    obtain ⟨p, here, decl, nested, around, -⟩ := kept.proc old
    cases found.symm.trans here
    exact ⟨q, old, rfl, decl, nested, around⟩
  have member {p : ProcEntry} (mem : p ∈ procs) : ∃ i, procs[i]? = some p :=
    Array.getElem?_of_mem mem
  exact { hs with
    outlineProcs := hs.outlineProcs.keeps kept
    procIds := fun i p found => by
      obtain ⟨q, old, rfl, -⟩ := at_ found
      exact (number i q).trans (hs.procIds i q old)
    params := fun i p found => by
      obtain ⟨q, old, rfl, -⟩ := at_ found
      exact (params i q old).keeps kept
    nested := fun p mem nested => by
      obtain ⟨i, found⟩ := member mem
      obtain ⟨q, old, -, decl, same, around⟩ := at_ found
      rw [decl, around]
      exact (hs.nested q (Array.mem_of_getElem? old) (same ▸ nested)).keeps kept
    procDecl := fun i p found => by
      obtain ⟨q, old, -, decl, -⟩ := at_ found
      rw [decl]
      exact hs.procDecl i q old
    procDecls := fun n i declares => by
      obtain ⟨p, found, rfl⟩ := hs.procDecls n i declares
      obtain ⟨q, found, same, -⟩ := kept.proc found
      exact ⟨q, found, same⟩
    unmade := fun i untouched n mem p hp => by
      obtain ⟨j, found⟩ := member hp
      obtain ⟨q, old, -, decl, -⟩ := at_ found
      rw [decl]
      exact hs.unmade i untouched n mem q (Array.mem_of_getElem? old)
    capturesNodup := fun p mem => by
      obtain ⟨i, found⟩ := member mem
      obtain ⟨q, old, rfl, -⟩ := at_ found
      exact nodup i q (hs.capturesNodup q (Array.mem_of_getElem? old))
    captures := fun p mem id captured => by
      obtain ⟨i, found⟩ := member mem
      obtain ⟨q, old, rfl, -, nested, around⟩ := at_ found
      refine (captures i q old id captured).elim (fun before => ?_) fun new => new
      refine (hs.captures q (Array.mem_of_getElem? old) id before).keeps kept nested around
        fun x y hx hy _ noList => ?_
      cases hx.symm.trans hy
      exact noList
    resolved := fun n id found => (hs.resolved n id found).keeps kept
    called := fun n id proc a b found => (hs.called n id proc a b found).keeps kept
    begun := fun id begun => by
      obtain ⟨q, found, -⟩ := kept.proc (Array.getElem?_eq_getElem (hs.begun id begun))
      exact (Array.getElem?_eq_some_iff.mp found).1 }

theorem updateProc {id : ProcId} {f : ProcEntry → ProcEntry}
    (filled : ∀ p, ProcEntry.Filled p (f p))
    (same : ∀ p, (f p).info.captures = p.info.captures)
    (params : ∀ p, s.procs[id]? = some p → s.HasParams id (f p).info.params)
    (later : s.Grows { s with procs := s.procs.modify id f }) :
    { s with procs := s.procs.modify id f }.Aligned o sites := by
  refine hs.mapProcs (f := fun i p => if id = i then f p else p) (fun i => ?_) later.keeps
    (fun i p => ?_) (fun i p found => ?_) (fun i p nodup => ?_) fun i p _ x captured => .inl ?_
  · rw [Array.getElem?_modify]
    split <;> simp
  · split
    · rw [(filled p).info]
    · rfl
  · split
    · next here => exact here ▸ params p (here ▸ found)
    · exact hs.params i p found
  · split
    · rwa [same]
    · exact nodup
  · split at captured
    · rwa [same] at captured
    · exact captured

theorem newProc {entry : ProcEntry} (numbered : entry.info.id = s.procs.size)
    (noParams : entry.info.params = []) (noCaptures : entry.info.captures = [])
    (stands : s.StandsIn (sites entry.info.decl) entry.info.nestedIn)
    (fresh : s.Fresh o [entry.info.decl])
    (later : s.Grows { s with
      procs := s.procs.push entry
      procDecls := s.procDecls.insert entry.info.decl s.procs.size }) :
    { s with
      procs := s.procs.push entry
      procDecls := s.procDecls.insert entry.info.decl s.procs.size }.Aligned o sites := by
  have unmade : s.Unmade entry.info.decl := (fresh _ mem_cons_self).1
  have cases {i : Nat} {p : ProcEntry} (found : (s.procs.push entry)[i]? = some p) :
      s.procs[i]? = some p ∨ i = s.procs.size ∧ p = entry := by
    rw [Array.getElem?_push] at found
    split at found
    · next here =>
      cases found
      exact .inr ⟨here, rfl⟩
    · exact .inl found
  refine { hs with
    outlineProcs := hs.outlineProcs.keeps later.keeps
    procIds := fun i p found => ?_
    params := fun i p found => ?_
    nested := fun p mem inBlock => ?_
    procDecl := fun i p found => ?_
    procDecls := fun n i declares => ?_
    unmade := fun i untouched n mem p hp => ?_
    capturesNodup := fun p mem => ?_
    captures := fun p mem id captured => ?_
    resolved := fun n id found => (hs.resolved n id found).grows later
    called := fun n id proc a b found => (hs.called n id proc a b found).grows later
    begun := fun id begun => Nat.lt_of_lt_of_le (hs.begun id begun) later.size_procs }
  · rcases cases found with found | ⟨rfl, rfl⟩
    · exact hs.procIds i p found
    · exact numbered
  · rcases cases found with found | ⟨rfl, rfl⟩
    · exact (hs.params i p found).keeps later.keeps
    · rw [noParams]
      exact ⟨nodup_nil, fun q mem => by cases mem⟩
  · rcases Array.mem_push.mp mem with mem | rfl
    · exact (hs.nested p mem inBlock).grows later
    · exact stands.grows later
  -- The node is fresh, so the entry of no other procedure is replaced.
  · rw [get?_insertNode]
    rcases cases found with found | ⟨rfl, rfl⟩
    · rw [if_neg (unmade p (Array.mem_of_getElem? found)).symm]
      exact hs.procDecl i p found
    · rw [if_pos rfl]
  · rw [get?_insertNode] at declares
    split at declares
    · next here =>
      cases declares
      exact ⟨entry, by simp, here⟩
    · obtain ⟨p, found, rfl⟩ := hs.procDecls n i declares
      obtain ⟨q, found, same, -⟩ := later.proc found
      exact ⟨q, found, same⟩
  · rcases Array.mem_push.mp hp with hp | rfl
    · exact hs.unmade i untouched n mem p hp
    · rintro rfl
      exact (fresh _ mem_cons_self).2 i untouched mem
  · rcases Array.mem_push.mp mem with mem | rfl
    · exact hs.capturesNodup p mem
    · rw [noCaptures]
      exact nodup_nil
  · rcases Array.mem_push.mp mem with mem | rfl
    · refine (hs.captures p mem id captured).keeps later.keeps rfl rfl fun x y hx hy _ noList => ?_
      cases hx.symm.trans hy
      exact noList
    · rw [noCaptures] at captured
      cases captured

theorem addProp {artifact : String} {prop : PropInfo}
    (noList : s.errors = #[] → ∀ a ∈ o.artifacts, a.name = artifact → a.kind = .record →
      prop.type.containsList = false) :
    Aligned o sites { s with
      props := s.props.insert artifact ((s.props.get? artifact).getD [] ++ [prop]) } := by
  refine { hs with records := fun none a mem kind p hp => ?_ }
  rw [NameTable.get?_insert] at hp
  split at hp
  · next here =>
    rcases List.mem_append.mp hp with hp | hp
    · exact hs.records none a mem kind p (here ▸ hp)
    · rw [List.mem_singleton.mp hp]
      exact noList none a mem here kind
  · exact hs.records none a mem kind p hp

theorem begin {i : Item} (known : ∀ id, i = .body id → id < s.procs.size) :
    (s.begin i).Aligned o sites :=
  { hs with
    unmade := fun j untouched =>
      hs.unmade j fun begun => untouched (mem_cons_of_mem _ begun)
    begun := fun id begun =>
      (List.mem_cons.mp begun).elim (fun same => known id same.symm) (hs.begun id) }

theorem finish {i : Item} (jumps : s.errors = #[] → ∀ (id : Nat) proc, o.procs[id]? = some proc →
    i = .body id → proc.decl.JumpsIn) : (s.finish i).Aligned o sites :=
  { hs with
    jumps := fun none id proc found ended =>
      (List.mem_cons.mp ended).elim (fun same => jumps none id proc found same.symm)
        (hs.jumps none id proc found) }

end Analysis.Aligned

/-! ### Captured symbols -/

namespace Analysis

/-- The procedures that capture a symbol where it is used: those around its use up to the one that
owns it, or that it stands for. -/
def capturing (sym : SymbolInfo) : List ProcId → List ProcId
  | [] => []
  | id :: outer =>
    if sym.owner = some id ∨ sym.kind = .nestedProc id then [] else id :: capturing sym outer

def addCapture (id : SymbolId) (p : ProcEntry) : ProcEntry :=
  if id ∈ p.info.captures then p else { p with info.captures := p.info.captures ++ [id] }

/-- Tables in which some procedures capture a symbol. -/
def withCaptures (s : Analysis) (procs : List ProcId) (id : SymbolId) : Analysis :=
  { s with procs := s.procs.mapIdx fun i p => if i ∈ procs then addCapture id p else p }

theorem addCapture_filled (id : SymbolId) (p : ProcEntry) : p.Filled (addCapture id p) := by
  unfold addCapture
  split
  · exact .refl p
  · exact ⟨rfl, prefix_append _ _, rfl, fun h => h⟩

theorem mem_addCapture {id x : SymbolId} {p : ProcEntry} :
    x ∈ (addCapture id p).info.captures ↔ x = id ∨ x ∈ p.info.captures := by
  unfold addCapture
  split
  · next here =>
    constructor
    · exact .inr
    · rintro (rfl | mem)
      · exact here
      · exact mem
  · simp [or_comm]

theorem withCaptures_nil (id : SymbolId) : s.withCaptures [] id = s := by
  have same : s.procs.mapIdx (fun _ p => p) = s.procs := by
    apply Array.ext_getElem?
    simp
  simp only [withCaptures, not_mem_nil, if_false, same]

variable {procs : List ProcId} {sym : SymbolInfo}

theorem getElem?_withCaptures {i : Nat} :
    (s.withCaptures procs id).procs[i]? =
      s.procs[i]?.map fun p => if i ∈ procs then addCapture id p else p := by
  simp [withCaptures]

theorem withCaptures_cons (proc : ProcId) (procs : List ProcId) (id : SymbolId) :
    (s.withCaptures [proc] id).withCaptures procs id = s.withCaptures (proc :: procs) id := by
  have twice (p : ProcEntry) : addCapture id (addCapture id p) = addCapture id p := by
    have here : id ∈ (addCapture id p).info.captures := mem_addCapture.mpr (.inl rfl)
    rw [addCapture, if_pos here]
  have entries : ((s.withCaptures [proc] id).withCaptures procs id).procs =
      (s.withCaptures (proc :: procs) id).procs := by
    apply Array.ext_getElem?
    intro i
    simp only [getElem?_withCaptures, Option.map_map, mem_cons, not_mem_nil, or_false]
    congr 1
    funext p
    by_cases here : i = proc <;> by_cases there : i ∈ procs <;> simp [here, there, twice]
  simp only [withCaptures] at entries ⊢
  rw [entries]

theorem withCaptures_grows (procs : List ProcId) (id : SymbolId) :
    s.Grows (s.withCaptures procs id) := by
  refine { Grows.refl s with procs := fun i p found => ?_ }
  rw [getElem?_withCaptures, found]
  refine ⟨_, rfl, ?_⟩
  split
  · exact addCapture_filled id p
  · exact .refl p

/-- The code around a procedure that captures a symbol has it, or captures it too. -/
def HandedOn (sym : SymbolInfo) (procs : List ProcId) : Option ProcId → Prop
  | none => sym.owner = none
  | some around => sym.owner = some around ∨ sym.kind = .nestedProc around ∨ around ∈ procs

theorem HandedOn.cons {around : Option ProcId}
    (h : HandedOn sym procs around) (proc : ProcId) : HandedOn sym (proc :: procs) around := by
  cases around with
  | none => exact h
  | some around => exact h.imp_right (.imp_right (mem_cons_of_mem _))

theorem ReachedBy.handedOn (h : s.ReachedBy sym procs) :
    HandedOn sym (capturing sym procs) procs.head? := by
  cases procs with
  | nil => exact h
  | cons around rest =>
    by_cases ends : sym.owner = some around ∨ sym.kind = .nestedProc around
    · exact ends.imp_right .inl
    · exact .inr (.inr (by simp [capturing, ends]))

theorem ReachedBy.handed (h : s.ReachedBy sym procs)
    {id : ProcId} (mem : id ∈ capturing sym procs) : ∃ p, s.procs[id]? = some p ∧
      p.info.isNested = true ∧ HandedOn sym (capturing sym procs) p.info.nestedIn := by
  induction procs with
  | nil => cases mem
  | cons first outer ih =>
    unfold capturing at mem ⊢
    split at mem
    · cases mem
    · next goesOn =>
      rw [if_neg goesOn]
      obtain ⟨⟨p, found, nested, around⟩, more⟩ := (or_assoc.mpr h).resolve_left goesOn
      rcases List.mem_cons.mp mem with rfl | mem
      · exact ⟨p, found, nested, around ▸ more.handedOn.cons id⟩
      · obtain ⟨q, found, nested, rest⟩ := ih more mem
        exact ⟨q, found, nested, rest.cons first⟩

theorem ReachedBy.finds (h : s.ReachedBy sym procs)
    {around : Option ProcId} (handed : HandedOn sym (capturing sym procs) around) :
    (s.withCaptures (capturing sym procs) sym.id).Finds sym around := by
  cases around with
  | none => exact handed
  | some around =>
    rcases handed with owned | itself | captures
    · exact .inl owned
    · exact .inr (.inl itself)
    · obtain ⟨p, found, -⟩ := h.handed captures
      refine .inr (.inr ⟨addCapture sym.id p, ?_, mem_addCapture.mpr (.inl rfl)⟩)
      rw [getElem?_withCaptures, found, Option.map_some, if_pos captures]

/-- Tables stay aligned if all procedures on the way capture. -/
theorem Aligned.withCaptures (hs : s.Aligned o sites)
    (found : s.symbols[sym.id]? = some sym) (isLocal : sym.isGlobal = false)
    (noList : sym.type.containsList = false) (reached : s.ReachedBy sym procs) :
    (s.withCaptures (capturing sym procs) sym.id).Aligned o sites := by
  have filled (i : Nat) (q : ProcEntry) : ProcEntry.Filled q
      (if i ∈ capturing sym procs then addCapture sym.id q else q) := by
    split
    · exact addCapture_filled sym.id q
    · exact .refl q
  refine hs.mapProcs (fun i => getElem?_withCaptures) (withCaptures_grows _ _).keeps
    (fun i q => by rw [(filled i q).info]) (fun i q old => ?_) (fun i q nodup => ?_)
    fun i q old id captured => or_iff_not_imp_left.mpr fun before => ?_
  · have same : (if i ∈ capturing sym procs then addCapture sym.id q else q).info.params =
        q.info.params := by
      unfold addCapture
      split <;> [split; skip] <;> rfl
    rw [same]
    exact hs.params i q old
  · unfold addCapture
    split
    · split
      · exact nodup
      · next absent =>
        exact nodup.append (nodup_singleton _) fun x mem mem' =>
          absent (List.mem_singleton.mp mem' ▸ mem)
    · exact nodup
  -- What is new is the symbol itself, in a procedure on the way out. The code around that procedure
  -- has the symbol, or is on the way out as well.
  · have here : i ∈ capturing sym procs := by
      by_contra outside
      rw [if_neg outside] at captured
      exact before captured
    have same := filled i q
    rw [if_pos here, mem_addCapture] at captured
    obtain rfl := captured.resolve_right before
    obtain ⟨r, hr, nested, around⟩ := reached.handed here
    cases old.symm.trans hr
    refine ⟨sym, found, isLocal, noList, by rw [same.info]; exact nested, ?_⟩
    rw [same.info]
    exact reached.finds around

end Analysis

namespace Check

variable {sym : SymbolInfo}

theorem runAt_capture_of_list (list : sym.type.containsList = true) (span : Span)
    (procs : List ProcId) : (∃ e, runAt (capture sym span procs) o s = (.error e, s)) ∨
      runAt (capture sym span procs) o s = (.ok (), s) ∧ capturing sym procs = [] := by
  cases procs with
  | nil => exact .inr ⟨rfl, rfl⟩
  | cons proc outer =>
    by_cases ends : sym.owner = some proc ∨ sym.kind = .nestedProc proc
    · refine .inr ⟨?_, by rw [capturing, if_pos ends]⟩
      rw [capture, if_pos (by simpa using ends)]
      rfl
    · refine .inl ⟨⟨.capturesList (s.procs.getD proc default).info.name sym.name, span⟩, ?_⟩
      rw [capture, if_neg (by simpa using ends)]
      simp only [list, if_true]
      rfl

theorem withCaptures_singleton (proc : ProcId) (id : SymbolId) : s.withCaptures [proc] id =
    if (s.procs.getD proc default).info.captures.contains id then s else { s with
      procs := s.procs.modify proc fun p =>
        { p with info.captures := p.info.captures ++ [id] } } := by
  have entries : (s.withCaptures [proc] id).procs =
      if (s.procs.getD proc default).info.captures.contains id then s.procs else
        s.procs.modify proc fun p => { p with info.captures := p.info.captures ++ [id] } := by
    apply Array.ext_getElem?
    intro i
    rw [getElem?_withCaptures]
    by_cases here : i = proc
    · subst here
      cases at_ : s.procs[i]? with
      | none =>
        rw [Option.map_none]
        split
        · exact at_.symm
        · rw [Array.getElem?_modify, if_pos rfl, at_, Option.map_none]
      | some p =>
        have entry : s.procs.getD i default = p := by
          rw [Array.getD_eq_getD_getElem?, at_, Option.getD_some]
        rw [entry, Option.map_some, if_pos mem_cons_self, addCapture]
        split
        · next known =>
          rw [if_pos (by simpa using known)]
          exact at_.symm
        · next known =>
          rw [if_neg (by simpa using known), Array.getElem?_modify, if_pos rfl, at_]
          rfl
    · have unlike : proc ≠ i := Ne.symm here
      have outside : i ∉ [proc] := by simpa using here
      simp only [outside, if_false, Option.map_id_fun', id_eq]
      split
      · rfl
      · rw [Array.getElem?_modify, if_neg unlike]
  have whole : s.withCaptures [proc] id =
      { s with procs := (s.withCaptures [proc] id).procs } := rfl
  rw [whole, entries]
  split <;> rfl

/-- What capturing writes for a symbol without lists. -/
theorem runAt_capture (noList : sym.type.containsList = false) (span : Span)
    (procs : List ProcId) : runAt (capture sym span procs) o s =
      (.ok (), s.withCaptures (capturing sym procs) sym.id) := by
  -- From the use outwards, one procedure at a time, with the tables of the step before.
  induction procs generalizing s with
  | nil =>
    rw [capturing, withCaptures_nil]
    rfl
  | cons proc outer ih =>
    by_cases ends : sym.owner = some proc ∨ sym.kind = .nestedProc proc
    · rw [capturing, if_pos ends, withCaptures_nil, capture, if_pos (by simpa using ends)]
      rfl
    · rw [capturing, if_neg ends, ← withCaptures_cons, ← ih, withCaptures_singleton, capture,
        if_neg (by simpa using ends)]
      change runAt (if sym.type.containsList = true then _ else _) o s = _
      rw [if_neg (by simp [noList])]
      change runAt (if (s.procs.getD proc default).info.captures.contains sym.id = true then _
        else _) o s = _
      split <;> rfl

/-- A captured symbol is found where it is used. -/
theorem leaves_capture {procs : List ProcId} (hs : s.Aligned o sites)
    (found : s.symbols[sym.id]? = some sym) (isLocal : sym.isGlobal = false)
    (reached : s.ReachedBy sym procs) (span : Span) :
    Leaves o sites [] s (capture sym span procs) fun _ s' => s'.Finds sym procs.head? := by
  have owned (chain : capturing sym procs = []) : s.Finds sym procs.head? := by
    have finds := reached.finds reached.handedOn
    rwa [chain, withCaptures_nil] at finds
  by_cases list : sym.type.containsList = true
  · rcases runAt_capture_of_list list span procs with ⟨e, run⟩ | ⟨run, chain⟩
    · exact (leaves_throw hs e).of_runAt_eq run
    · exact (leaves_pure (a := ()) hs (owned chain)).of_runAt_eq run
  · have noList : sym.type.containsList = false := by simpa using list
    have run := runAt_capture (o := o) (s := s) noList span procs
    have aligned := hs.withCaptures found isLocal noList reached
    have grows : s.Grows (s.withCaptures (capturing sym procs) sym.id) := withCaptures_grows _ _
    refine ⟨?_, ?_, ?_, opens_of_started ?_, ?_⟩ <;> rw [run]
    · exact aligned
    · exact grows
    · refine fun others fresh _ => fresh.of_decls (fun q mem => ?_) (List.Subset.refl _)
      obtain ⟨i, at_⟩ := Array.getElem?_of_mem mem
      rw [getElem?_withCaptures] at at_
      obtain ⟨p, hp, rfl⟩ := Option.map_eq_some_iff.mp at_
      refine ⟨p, Array.mem_of_getElem? hp, ?_⟩
      split
      · rw [(addCapture_filled sym.id p).info]
      · rfl
    · rfl
    · exact fun _ _ => reached.finds reached.handedOn

end Check

end ArkLang
