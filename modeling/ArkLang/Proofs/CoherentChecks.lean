import ArkLang.Proofs.CheckLaws
import ArkLang.Proofs.Coherence

/-!
# Expressions keep the tables aligned

To keep the tables aligned is a law of checks, so it remains to look at names that stand for
symbols. A local symbol is captured all the way from its use to its owner before the use is
recorded. Expressions declare nothing: whatever they need of other items is checked on the way, and
fits in as well.
-/

namespace ArkLang

open Scoped (within_all)
open Analysis

def Placed (sites : NodeId → Site) (nodes : List (NodeId × Site)) : Prop :=
  ∀ x ∈ nodes, sites x.1 = x.2

theorem placed_append {sites : NodeId → Site} {nodes nodes' : List (NodeId × Site)} :
    Placed sites (nodes ++ nodes') ↔ Placed sites nodes ∧ Placed sites nodes' := by
  simp only [Placed, List.forall_mem_append]

theorem placed_cons {sites : NodeId → Site} {n : NodeId} {site : Site}
    {nodes : List (NodeId × Site)} :
    Placed sites ((n, site) :: nodes) ↔ sites n = site ∧ Placed sites nodes := by
  simp only [Placed, List.forall_mem_cons]

theorem Site.placed_mark {sites : NodeId → Site} {site : Site} {ids : List NodeId} :
    Placed sites (site.mark ids) ↔ ∀ n ∈ ids, sites n = site := by
  simp [Placed, Site.mark]

theorem Param.placed_sitesAll {sites : NodeId → Site} {d : NodeId} {params : List Param} :
    Placed sites (Param.sitesAll d params) ↔
      ∀ n ∈ Param.idsAll params, sites n = { proc := some d, isDefault := true } := by
  induction params with
  | nil => simp [Placed, Param.sitesAll, Param.idsAll]
  | cons p ps ih =>
    rw [Param.sitesAll, Param.idsAll, placed_append, Site.placed_mark, ih, List.forall_mem_append]

/-- An outline whose items stand where their sites say. -/
structure Outline.Sited (o : Outline) (sites : NodeId → Site) : Prop where
  artifactNames : ∀ a ∈ o.artifacts, ∀ b ∈ o.artifacts, a.name = b.name → a = b
  globalSites : ∀ g ∈ o.globals, Placed sites (Site.mark {} g.decl.valueIds)
  procSites : ∀ p ∈ o.procs, Placed sites (Param.sitesAll p.decl.node.id p.decl.params) ∧
    Placed sites (p.decl.body.sites (some p.decl.node.id))
  propSites : ∀ a ∈ o.artifacts, ∀ decl ∈ a.decl.props, Placed sites (Site.mark {} decl.valueIds)

/-- An outline whose names stand for symbols of the module, and whose nodes are distinct. -/
structure Outline.Proper (o : Outline) (sites : NodeId → Site) : Prop extends o.Sited sites where
  symbols : ∀ name id, o.names.lookup name = some (.symbol id) → id < o.globals.size
  distinct : o.ids.Nodup

variable {o : Outline} {sites : NodeId → Site} {s s' : Analysis}

/-! ### Running one check behind another -/

section Rules

variable {α β : Type} {nodes : List NodeId} {Q : α → Analysis → Prop} {R : β → Analysis → Prop}

theorem Leaves.andThen {x : Check α} {f : α → Check β} (hx : Leaves o sites [] s x Q)
    (hf : ∀ a s₁, s₁.Aligned o sites → s.Grows s₁ →
      (∀ others, s.Fresh o others → s₁.Fresh o others) → Q a s₁ →
        Leaves o sites nodes s₁ (f a) R) : Leaves o sites nodes s (x >>= f) R :=
  hx.bind fun a s₁ hs₁ later kept q =>
    hf a s₁ hs₁ later (fun others fresh => kept others fresh (List.disjoint_nil_right _)) q

theorem leaves_read {f : Outline → Check β} (h : Leaves o sites nodes s (f o) R) :
    Leaves o sites nodes s (read >>= f) R :=
  h.of_runAt_eq rfl

theorem leaves_get {f : Analysis → Check β} (h : Leaves o sites nodes s (f s) R) :
    Leaves o sites nodes s (get >>= f) R :=
  h.of_runAt_eq rfl

theorem Check.leaves_symbol {f : SymbolInfo → Check β} {id : SymbolId}
    (h : Leaves o sites nodes s (f (s.symbols.getD id default)) R) :
    Leaves o sites nodes s (Check.symbol id >>= f) R :=
  h.of_runAt_eq rfl

theorem Check.leaves_procEntry {f : ProcEntry → Check β} {id : ProcId}
    (h : Leaves o sites nodes s (f (s.procs.getD id default)) R) :
    Leaves o sites nodes s (Check.procEntry id >>= f) R :=
  h.of_runAt_eq rfl

end Rules

/-- The fact that a symbol may be used at a site, where code stands that a context describes. -/
def Context.uses (c : Context) (site : Site) (id : SymbolId) : Fact :=
  ⟨fun s => c.Fits site s ∧ s.Uses site id, fun h later => ⟨h.1.grows later, h.2.grows later⟩⟩

/-- What always holds. -/
def Fact.any : Fact :=
  ⟨fun _ => True, fun _ _ => trivial⟩

namespace Check

/-! ### Single steps -/

section Steps

variable {P : Fact}

theorem sound_note (e : SemanticError) : Sound o sites P (note e) :=
  sound_modify (fun _ hs _ => hs.note e) (fun s => (Change.error (o := o) (K := {}) s e).grows)
    (fun _ => rfl) fun _ => rfl

theorem sound_resolve (id : NodeId) {r : Resolution}
    (h : ∀ symbol, r = .var symbol → ∀ s, P.holds s → s.Uses (sites id) symbol) :
    Sound o sites P (resolve id r) :=
  sound_modify (fun s hs hp => hs.resolve fun symbol var => h symbol var s hp)
    (fun s => (Change.resolution (o := o) (K := { nodes := [id] }) s r List.mem_cons_self).grows)
    (fun _ => rfl) fun _ => rfl

theorem sound_setCall (id : NodeId) {target : CallTarget} (other : target.isMethod = false)
    (h : ∀ symbol proc supplied total, target = .nestedProc symbol proc supplied total →
      ∀ s, P.holds s → s.Uses (sites id) symbol) : Sound o sites P (setCall id target) :=
  sound_modify
    (fun s hs hp => hs.setCall fun symbol proc a b call => h symbol proc a b call s hp)
    (fun s => (Change.call (o := o) (K := { nodes := [id] }) s List.mem_cons_self other).grows)
    (fun _ => rfl) fun _ => rfl

theorem leaves_updateProc (hs : s.Aligned o sites) {id : ProcId} {f : ProcEntry → ProcEntry}
    (filled : ∀ p, ProcEntry.Filled p (f p))
    (captures : ∀ p, (f p).info.captures = p.info.captures)
    (params : ∀ p, s.procs[id]? = some p → s.HasParams id (f p).info.params) :
    Leaves o sites [] s (updateProc id f) fun _ _ => True := by
  have grows : s.Grows { s with procs := s.procs.modify id f } :=
    (Change.params (o := o) (K := { params := [id] }) s filled (.inl List.mem_cons_self)).grows
  refine leaves_modify (hs.updateProc filled captures params grows) grows
    (fun others fresh _ => fresh.of_decls (fun q mem => ?_) (List.Subset.refl _)) trivial
  obtain ⟨i, found⟩ := Array.getElem?_of_mem mem
  rw [Array.getElem?_modify] at found
  split at found
  · obtain ⟨p, hp, rfl⟩ := Option.map_eq_some_iff.mp found
    exact ⟨p, Array.mem_of_getElem? hp, by rw [(filled p).info]⟩
  · exact ⟨q, Array.mem_of_getElem? found, rfl⟩

theorem sound_updateProc (id : ProcId) {f : ProcEntry → ProcEntry}
    (filled : ∀ p, ProcEntry.Filled p (f p)) (params : ∀ p, (f p).info.params = p.info.params)
    (captures : ∀ p, (f p).info.captures = p.info.captures) :
    Sound o sites P (updateProc id f) := by
  refine fun s hs _ => leaves_updateProc hs filled captures fun p found => ?_
  rw [params]
  exact hs.params id p found

end Steps

end Check

/-- To be sound where a fact holds is a law of checks that write at the nodes of a site. -/
def Fact.law (P : Fact) (o : Outline) (sites : NodeId → Site) (site : Site) : CheckLaw where
  scope := .all
  outline := o
  view := o.reached
  same := ⟨o.inside_all, fun _ _ => rfl⟩
  nodes := { n | sites n = site }
  Holds := Sound o sites P
  pure _ := sound_pure _
  throw _ := sound_throw _
  bind hx hf := sound_bind hx fun a => hf a (within_all a)
  tryCatch hx hh := sound_tryCatch hx fun e => hh e trivial
  get s hs _ := ⟨hs, .refl s, fun _ fresh _ => fresh, opens_of_started rfl, fun _ _ => trivial⟩
  read _ h := sound_read h
  note _ := Check.sound_note _
  setType {id type} _ _ := sound_modify (fun _ hs _ => { hs with })
    (fun s => (Change.type (o := o) (K := { nodes := [id] }) s type List.mem_cons_self).grows)
    (fun _ => rfl) fun _ => rfl
  widen id := sound_modify (fun _ hs _ => { hs with })
    (fun s => (Change.widened (o := o) (K := {}) s id).grows) (fun _ => rfl) fun _ => rfl
  resolve _ other := Check.sound_resolve _ fun symbol var => by
    simp [var, Resolution.isSymbol] at other
  setCall _ plain := Check.sound_setCall _ (CallTarget.isMethod_of_isPlain plain)
    fun symbol proc a b call => by simp [call, CallTarget.isPlain] at plain
  callMethod {receiver} supplied total how _ _ known :=
    sound_modify (fun _ hs _ => { hs.setCall (by simp) with })
      (fun s => (Change.method (o := o) (K := { nodes := [receiver.call.id] }) s supplied total how
        List.mem_cons_self known).grows) (fun _ => rfl) fun _ => rfl
  updateProc id _ filled params captures _ := Check.sound_updateProc id filled params captures

/-- To be sound where a context describes a site. -/
abbrev Context.law (c : Context) (site : Site) (o : Outline) (sites : NodeId → Site) : CheckLaw :=
  (c.fits site).law o sites site

namespace Check

theorem sound_noteOutcome {α : Type} [Scoped α] {P : Fact} (outcome : Except SemanticError α) :
    Sound o sites P (noteOutcome outcome) :=
  (holds_noteOutcome (within_all outcome) : (P.law o sites {}).Holds _)

/-- What code needs of other items, wherever it stands. -/
theorem sound_needed {P : Fact} {need : Item → Check Unit}
    (hneed : ∀ i, Sound o sites .any (need i)) (i : Item) : Sound o sites P (need i) :=
  (hneed i).weaken fun _ _ => trivial

/-! ### Symbols -/

section Symbols

variable {need : Item → Check Unit} {c : Context} {site : Site}

theorem lookup_symbol (ho : o.Proper sites) (hs : s.Aligned o sites) 
    (fits : c.Fits site s) {name : String} {id : SymbolId}
    (found : c.lookup o name = some (.symbol id)) : ∃ sym, s.symbols[id]? = some sym ∧
      (sym.isGlobal = true ∨ sym.isGlobal = false ∧ s.ReachedBy sym c.procs ∧
        (site.isDefault = true → sym.owner = c.proc)) := by
  unfold Context.lookup at found
  split at found
  · next key here =>
    obtain rfl : key = id := by simpa using found
    obtain ⟨frame, mem, entry⟩ := List.exists_of_findSome?_eq_some here
    obtain ⟨sym, at_, facts⟩ := fits.frames frame mem (name, key) (mem_of_lookup_eq_some entry)
    exact ⟨sym, at_, .inr facts⟩
  · have global := ho.symbols name id found
    have inside : id < s.symbols.size := Nat.lt_of_lt_of_le global hs.globalsFirst
    have at_ : s.symbols[id]? = some s.symbols[id] := Array.getElem?_eq_getElem inside
    exact ⟨_, at_, .inl ((hs.isGlobal_iff id _ at_).mpr global)⟩

theorem uses_of_finds {c : Context} {site : Site} {sym : SymbolInfo} {id : SymbolId}
    (fits : c.Fits site s) (found : s.symbols[id]? = some sym) (finds : s.Finds sym c.proc)
    (own : site.isDefault = true → sym.owner = c.proc) : s.Uses site id :=
  ⟨sym, found, fun _ => ⟨c.proc, fits.proc, finds, own⟩⟩

theorem leaves_useSymbol (ho : o.Proper sites) (hs : s.Aligned o sites) (fits : c.Fits site s)
    (hneed : ∀ i, Sound o sites .any (need i)) {name : String} {id : SymbolId}
    (found : c.lookup o name = some (.symbol id)) (span : Span) :
    Leaves o sites [] s (useSymbol need c id span) fun _ s' => s'.Uses site id := by
  obtain ⟨sym, at_, known⟩ := lookup_symbol ho hs fits found
  have number := hs.symbolIds id sym at_
  have value {s₁ : Analysis} (hs₁ : s₁.Aligned o sites) (uses : s₁.Uses site id) :
      Leaves o sites [] s₁ (do return (← symbol id).type) fun _ s' => s'.Uses site id :=
    leaves_symbol (leaves_pure hs₁ uses)
  unfold useSymbol
  apply leaves_symbol
  have entry : s.symbols.getD id default = sym := by
    rw [Array.getD_eq_getD_getElem?, at_, Option.getD_some]
  rw [entry]
  dsimp only
  -- A symbol of the module may have to be checked first; a local one is captured on the way out.
  split
  · next global =>
    have uses : s.Uses site id := ⟨sym, at_, fun isLocal => by
      rw [global] at isLocal
      cases isLocal⟩
    apply leaves_read
    split
    · have checked (global : LocalGlobal) :
          (c.law site o sites).Holds (useGlobal need c sym global span) :=
        holds_useGlobal (sound_needed hneed) c sym global span
      exact (checked _ s hs fits).andThen fun _ s₁ hs₁ later _ _ => value hs₁ (uses.grows later)
    · exact value hs uses
  · next isLocal =>
    obtain ⟨isLocal, reached, own⟩ := known.resolve_left isLocal
    refine (leaves_capture hs (number.symm ▸ at_) isLocal reached span).andThen
      fun _ s₁ hs₁ later _ finds => value hs₁ ?_
    obtain ⟨type, at₁⟩ := later.symbols id sym at_
    exact uses_of_finds (fits.grows later) at₁ (finds.grows (.refl s₁)) own

theorem leaves_nestedCall (hneed : ∀ i, Sound o sites .any (need i)) {args : Arguments}
    (hargs : Arguments.Hold (c.law site o sites) args) (hs : s.Aligned o sites)
    (fits : c.Fits site s) {sym : SymbolInfo} (found : s.symbols[sym.id]? = some sym)
    (isLocal : sym.isGlobal = false) (reached : s.ReachedBy sym c.procs)
    (own : site.isDefault = true → sym.owner = c.proc) {node callee : Node}
    (here : sites node.id = site) (there : sites callee.id = site) (proc : ProcId) :
    Leaves o sites [] s (nestedCall need c node callee sym proc args) fun _ _ => True := by
  refine (leaves_capture hs found isLocal reached callee.span).andThen
    fun _ s₁ hs₁ later _ finds => ?_
  obtain ⟨type, found₁⟩ := later.symbols sym.id sym found
  have uses : s₁.Uses site sym.id :=
    uses_of_finds (fits.grows later) found₁ (finds.grows (.refl s₁)) own
  -- The use is recorded behind the arguments, so that it is allowed has to last while they are
  -- checked.
  let law := (c.uses site sym.id).law o sites site
  have fitting (s : Analysis) (h : (c.uses site sym.id).holds s) : (c.fits site).holds s := h.1
  have needed (i : Item) : law.Holds (need i) := sound_needed hneed i
  have arguments : Arguments.Hold law args :=
    ⟨Sound.weaken hargs.types fitting, fun wants h => Sound.weaken (hargs.expect wants h) fitting⟩
  have recorded (sig : ProcSig) : law.Holds (do
      bindArguments node sym.name sig args
      resolve callee.id (.var sym.id)
      setType callee.id sig.type
      setCall node.id (.nestedProc sym.id proc args.count sig.params.length)
      return sig.ret) := by
    refine law.bind (holds_bindArguments arguments sym.name (within_all sig)) fun _ _ => ?_
    refine law.bind (sound_resolve _ fun symbol var s hp => ?_) fun _ _ => ?_
    · cases var
      exact there ▸ hp.2
    refine law.bind (law.setType there trivial) fun _ _ => ?_
    refine law.bind (sound_setCall _ rfl fun symbol proc a b call s hp => ?_) fun _ _ =>
      law.pure trivial
    cases call
    exact here ▸ hp.2
  have whole := law.bind (holds_localSig needed proc node.span) fun sig _ => recorded sig
  exact whole s₁ hs₁ ⟨fits.grows later, uses⟩

/-- Code that stands at a site, which the context describes, is sound if the items that it needs
are. -/
theorem sound_supports (ho : o.Proper sites) (hneed : ∀ i, Sound o sites .any (need i)) :
    Supports (c.law site o sites) need c where
  items := sound_needed hneed
  context := within_all c
  used {_ id} found node here s hs fits := by
    refine (leaves_useSymbol ho hs fits hneed found node.span).andThen
      fun type s₁ hs₁ later _ uses => ?_
    have resolved : Sound o sites (c.uses site id) (resolve node.id (.var id)) :=
      sound_resolve _ fun symbol var s hp => by
        cases var
        exact here ▸ hp.2
    exact sound_bind resolved (fun _ => sound_pure type) s₁ hs₁ ⟨fits.grows later, uses⟩
  called {_ id} found node callee args f value here there hargs hvalue h s hs fits := by
    obtain ⟨sym, at_, known⟩ := lookup_symbol ho hs fits found
    have number := hs.symbolIds id sym at_
    have entry : s.symbols.getD id default = sym := by
      rw [Array.getD_eq_getD_getElem?, at_, Option.getD_some]
    apply leaves_symbol
    rw [entry]
    rcases h sym with same | ⟨proc, kind, same⟩
    · rw [same]
      exact hvalue s hs fits
    -- Symbols of the module are variables, so one that stands for a procedure is local.
    · have isLocal : ¬ sym.isGlobal = true := fun global => by
        rw [hs.globalKind id sym at_ global] at kind
        cases kind
      obtain ⟨isLocal, reached, own⟩ := known.resolve_left isLocal
      rw [same]
      exact leaves_nestedCall hneed hargs hs fits (number.symm ▸ at_) isLocal reached own here there
        proc

end Symbols

end Check

end ArkLang
