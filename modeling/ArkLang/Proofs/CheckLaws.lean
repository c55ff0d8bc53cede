import ArkLang.Proofs.Changes
import ArkLang.Proofs.Scope

/-!
# Laws of checks

The checks of expressions are made of a few steps: they read the outline and the tables, fail, and
write at nodes of their own. A property that these steps have and that sequences keep is a property
of the check of every expression, if it holds where names stand for symbols: there, variables of the
module may have to be checked first, and local ones are captured. It is a property of all statements
that declare nothing as well.
-/

namespace ArkLang

open List
open Scoped (Within)

/-- Names that denote symbols. -/
@[grind =]
def Resolution.isSymbol : Resolution → Bool
  | .var _ => true
  | _ => false

/-- Calls of neither procedures that are declared in blocks nor methods. -/
@[grind =]
def CallTarget.isPlain : CallTarget → Bool
  | .nestedProc .. | .method .. => false
  | _ => true

theorem CallTarget.isMethod_of_isPlain {target : CallTarget} (h : target.isPlain = true) :
    target.isMethod = false := by
  cases target with
  | method => cases h
  | _ => rfl

/-- A property of checks that holds of every step that declares nothing and uses no symbol, and is
kept by sequences. Checks write at some nodes; what they speak of lies within a scope. There is
another view of the modules, which agrees with that of the outline on those of the scope. -/
structure CheckLaw where
  scope : Scope
  outline : Outline
  view : ModuleId → Option Interface
  same : outline.SameView scope view
  nodes : Set NodeId
  Holds : {α : Type} → [Scoped α] → Check α → Prop
  pure : ∀ {α : Type} [Scoped α] {a : α}, Within scope a → Holds (pure a)
  throw : ∀ {α : Type} [Scoped α] {e : SemanticError}, scope.Reports e → Holds (throw e : Check α)
  bind : ∀ {α β : Type} [Scoped α] [Scoped β] {x : Check α} {f : α → Check β}, Holds x →
    (∀ a, Within scope a → Holds (f a)) → Holds (x >>= f)
  tryCatch : ∀ {α : Type} [Scoped α] {x : Check α} {handle : SemanticError → Check α}, Holds x →
    (∀ e, scope.Reports e → Holds (handle e)) → Holds (tryCatch x handle)
  get : Holds (get : Check Analysis)
  /-- Code that reads the outline does the same with both views. -/
  read : ∀ {β : Type} [Scoped β] {f : Outline → Check β},
    f (outline.reaching view) = f outline → Holds (f outline) → Holds (read >>= f)
  note : ∀ {e}, scope.Reports e → Holds (Check.note e)
  setType : ∀ {id : NodeId} {type : Ty}, id ∈ nodes → scope.Allows type →
    Holds (Check.setType id type)
  widen : ∀ id, Holds (Check.widen id)
  resolve : ∀ {id : NodeId} {r : Resolution}, id ∈ nodes → r.isSymbol = false →
    Holds (Check.resolve id r)
  setCall : ∀ {id : NodeId} {target : CallTarget}, id ∈ nodes → target.isPlain = true →
    Holds (Check.setCall id target)
  callMethod : ∀ {receiver : PendingReceiver} (supplied total : Nat) (how : Receiver),
    receiver.call.id ∈ nodes → receiver.artifact.module ∈ scope.modules →
    (outline.method? receiver.artifact receiver.method).isSome → Holds (do
      Check.setCall receiver.call.id
        (.method receiver.artifact receiver.method supplied total false how)
      Check.postpone receiver)
  /-- A change of an entry that keeps its parameters and its captures. -/
  updateProc : ∀ (id : ProcId) {f : ProcEntry → ProcEntry}, (∀ p, ProcEntry.Filled p (f p)) →
    (∀ p, (f p).info.params = p.info.params) → (∀ p, (f p).info.captures = p.info.captures) →
      (∀ p, Within scope p → Within scope (f p)) → Holds (Check.updateProc id f)

attribute [grind ←] CheckLaw.pure CheckLaw.throw CheckLaw.bind CheckLaw.get CheckLaw.note
  CheckLaw.setType CheckLaw.widen CheckLaw.resolve CheckLaw.setCall

namespace Check

/-! ### Errors and tables -/

section Steps

variable {α : Type} [Scoped α] {law : CheckLaw}

@[grind ←]
theorem holds_fail {fault : SemanticFault} (other : ¬ fault.IsContainment) (span : Span) :
    law.Holds (fail fault span : Check α) :=
  law.throw (law.scope.reports other)

/-- A check that is reached only if nothing fails before. -/
theorem holds_guard {cond : Prop} [Decidable cond] {fault : SemanticFault} {span : Span}
    {x : Check α} (other : ¬ fault.IsContainment) (h : law.Holds x) :
    law.Holds (if cond then do
      let _ : Unit ← fail fault span
      x
    else x) := by
  split
  · exact law.bind (holds_fail other _) fun _ _ => h
  · exact h

@[grind ←]
theorem holds_attempt {x : Check α} (h : law.Holds x) : law.Holds (attempt x) := by
  refine law.tryCatch ?_ fun e he => law.pure (within_error.mpr he)
  rw [← bind_pure_comp]
  exact law.bind h fun a ha => law.pure (within_ok.mpr ha)

@[grind ←]
theorem holds_orNote {x : Check α} (h : law.Holds x) {missing : α}
    (hm : Within law.scope missing) : law.Holds (orNote x missing) :=
  law.tryCatch h fun _ he => law.bind (law.note he) fun _ _ => law.pure hm

@[grind ←]
theorem holds_noteOutcome {outcome : Except SemanticError α} (h : Within law.scope outcome) :
    law.Holds (noteOutcome outcome) := by
  cases outcome with
  | ok => exact law.pure trivial
  | error e => exact law.note (within_error.mp h)

@[grind ←]
theorem holds_ofExcept {outcome : Except SemanticError α} (h : Within law.scope outcome) :
    law.Holds (ofExcept outcome) := by
  cases outcome with
  | ok => exact law.pure (within_ok.mp h)
  | error e => exact law.throw (within_error.mp h)

@[grind ←]
theorem holds_procEntry (id : ProcId) : law.Holds (procEntry id) :=
  law.bind law.get fun _ hs => law.pure (within_getD hs.procTypes ProcEntry.within_default)

@[grind ←]
theorem holds_symbol (id : SymbolId) : law.Holds (symbol id) :=
  law.bind law.get fun _ hs => law.pure (within_getD hs.symbolTypes law.scope.int)

@[grind ←]
theorem holds_isInProgress (i : Item) : law.Holds (isInProgress i) :=
  law.bind law.get fun _ _ => law.pure trivial

end Steps

/-! ### Names -/

section Names

variable {law : CheckLaw} {need : Item → Check Unit}

@[grind ←]
theorem holds_procRef (id : ProcId) : law.Holds (procRef id) := by
  unfold procRef
  refine law.read rfl ?_
  grind

@[grind ←]
theorem holds_staticPath (c : Context) {e : Expr} (own : ∀ n ∈ e.ids, n ∈ law.nodes) :
    law.Holds (staticPath c e) := by
  induction e using staticPath.induct with
  | case1 node name =>
    have mem : node.id ∈ law.nodes := own _ (by simp [Expr.ids])
    have found := law.same.inside.lookup c name
    unfold staticPath
    refine law.read rfl ?_
    grind
  | case2 node base name ih =>
    have mem : node.id ∈ law.nodes := own _ (by simp [Expr.ids])
    have inner := ih fun n h => own n (by simp [Expr.ids, h])
    unfold staticPath
    grind
  | case3 e ident member =>
    unfold staticPath
    grind

variable {node : Node} {ref : ArtifactRef}

theorem holds_moduleMember (mem : node.id ∈ law.nodes) {interface : Interface}
    (h : Within law.scope interface) (name : Ident) :
    law.Holds (moduleMember node interface name) := by
  have global := h.2.1 name.value
  have proc := h.2.2.1 name.value
  unfold moduleMember
  grind

variable (hneed : ∀ i, law.Holds (need i))

include hneed

@[grind ←]
theorem holds_useGlobal (c : Context) (sym : SymbolInfo) (global : LocalGlobal) (span : Span) :
    law.Holds (useGlobal need c sym global span) := by
  unfold useGlobal
  grind

@[grind ←]
theorem holds_localSig (id : ProcId) (span : Span) : law.Holds (localSig need id span) := by
  have sig (p : ProcInfo) (h : Within law.scope p) : Within law.scope p.sig :=
    ProcInfo.sig_within h
  unfold localSig
  grind

@[grind ←]
theorem holds_artifactProps (href : ref.module ∈ law.scope.modules) :
    law.Holds (artifactProps need ref) := by
  have imported := law.same.inside.importedArtifact? href
  unfold artifactProps
  refine law.read ?_ ?_
  · simp only [Outline.localArtifact?_reaching, Outline.importedArtifact?_reaching law.same href]
  split
  · refine law.bind (hneed _) fun _ _ => law.bind law.get fun s hs => law.pure ?_
    cases found : s.props.get? _ with
    | none => exact within_nil.mpr trivial
    | some props => exact hs.propTypes _ _ found
  · refine law.pure ?_
    cases found : law.outline.importedArtifact? ref with
    | none => exact within_nil.mpr trivial
    | some a => exact (imported a found).1

@[grind ←]
theorem holds_artifactProp? (href : ref.module ∈ law.scope.modules)
    (name : String) : law.Holds (artifactProp? need ref name) := by
  refine law.bind (holds_artifactProps hneed href) fun props hprops =>
    law.pure fun prop found => ?_
  exact hprops prop (mem_of_find?_eq_some found)

@[grind ←]
theorem holds_methodSig (span : Span) {source : Outline.MethodSource}
    (h : Within law.scope source) : law.Holds (methodSig need span source) := by
  cases source with
  | ofProc id => exact holds_localSig hneed id span
  | ofInterface method => exact law.pure h

@[grind ←]
theorem holds_namespaceMember (c : Context) (mem : node.id ∈ law.nodes)
    (href : ref.module ∈ law.scope.modules) (name : Ident) :
    law.Holds (namespaceMember need c node ref name) := by
  have method := law.same.inside.method? href name.value
  unfold namespaceMember
  refine law.read ?_ ?_
  · simp only [Outline.localArtifact?_reaching, Outline.method?_reaching law.same href]
    rfl
  refine law.bind (holds_artifactProp? hneed href name.value) fun found hfound => ?_
  cases found with
  | some prop =>
    dsimp only
    split <;> grind
  | none => grind

@[grind ←]
theorem holds_selfPropType {c : Context} (hc : Within law.scope c)
    (mem : node.id ∈ law.nodes) (name : Ident) : law.Holds (selfPropType need c node name) := by
  unfold selfPropType
  split
  · grind
  · grind
  · next ref _ self =>
    have href : ref.module ∈ law.scope.modules := hc _ self
    refine law.bind (holds_artifactProp? hneed href name.value) fun found hfound => ?_
    split
    · grind
    · refine law.read ?_ ?_
      · simp only [Outline.method?_reaching law.same href]
      grind

@[grind ←]
theorem holds_valueMember (mem : node.id ∈ law.nodes) {base : Ty}
    (hbase : law.scope.Allows base) (name : Ident) :
    law.Holds (valueMember need node base name) := by
  unfold valueMember
  cases base with
  | unknown => exact law.pure law.scope.unknown
  | artifact ref =>
    have href : ref.module ∈ law.scope.modules := law.scope.artifact_iff.mp hbase
    refine law.read ?_ ?_
    · simp only [Outline.artifactKind?_reaching law.same href]
    refine holds_guard (by simp) ?_
    refine law.bind (holds_artifactProp? hneed href name.value) fun found hfound => ?_
    split
    · grind
    · refine law.read ?_ ?_
      · simp only [Outline.method?_reaching law.same href]
      grind
  | _ => exact holds_fail (by simp) _

theorem holds_artifactMember (c : Context) (mem : node.id ∈ law.nodes)
    (href : ref.module ∈ law.scope.modules) (name : Ident) :
    law.Holds (artifactMember need c node ref name) := by
  unfold artifactMember
  refine law.read ?_ ?_
  · simp only [Outline.artifactKind?_reaching law.same href,
      Outline.caseValue?_reaching law.same href]
  grind

@[grind ←]
theorem holds_staticMember (c : Context) (mem : node.id ∈ law.nodes)
    {path : StaticPath} (h : Within law.scope path) (name : Ident) :
    law.Holds (staticMember need c node path name) := by
  cases path with
  | failed => exact law.pure law.scope.unknown
  | module interface => exact holds_moduleMember mem h name
  | artifact ref => exact holds_artifactMember hneed c mem h name

end Names

/-! ### Operators and literals -/

section Operators

variable {law : CheckLaw}

@[grind ←]
theorem holds_coerce (node : Node) (found want : Ty) : law.Holds (coerce node found want) := by
  unfold coerce
  grind

@[grind ←]
theorem holds_unaryType (node : Node) (op : UnaryOp) (operand : Ty) :
    law.Holds (unaryType node op operand) := by
  unfold unaryType
  grind

@[grind ←]
theorem holds_numeric (left right : NodeId) (l r : Ty) :
    law.Holds (numeric left right l r) := by
  unfold numeric
  grind

theorem holds_binaryResult? (left right : NodeId) (op : BinOp) {l : Ty}
    (hl : law.scope.Allows l) (r : Ty) : law.Holds (binaryResult? left right op l r) := by
  have comparable :
      isComparable (law.outline.reaching law.view) l r = isComparable law.outline l r := by
    unfold isComparable
    split
    · rfl
    · rfl
    · rw [Outline.artifactKind?_reaching law.same (law.scope.artifact_iff.mp hl)]
    · rfl
  cases op with
  | eq | ne =>
    refine law.bind (holds_numeric left right l r) fun number _ => law.read ?_ ?_
    · rw [comparable]
    · grind
  | _ => grind [binaryResult?]

@[grind ←]
theorem holds_binaryType (node : Node) (left right : NodeId) (op : BinOp) {l : Ty}
    (hl : law.scope.Allows l) (r : Ty) : law.Holds (binaryType node left right op l r) := by
  have result := holds_binaryResult? left right op hl r
  unfold binaryType
  grind

@[grind ←]
theorem holds_indexType (base place : Expr) {baseType : Ty} (h : law.scope.Allows baseType)
    (placeType : Ty) : law.Holds (indexType base place baseType placeType) := by
  unfold indexType
  cases baseType <;> dsimp only <;> grind

@[grind ←]
theorem holds_joinElement (span : Span) {elem next : Ty} (h : law.scope.Allows elem)
    (h' : law.scope.Allows next) : law.Holds (joinElement span elem next) := by
  unfold joinElement
  grind

theorem holds_joinElements {elem : Ty} {items : List (Node × Ty)} (h : law.scope.Allows elem)
    (hitems : ∀ item ∈ items, law.scope.Allows item.2) : law.Holds (joinElements elem items) := by
  induction items generalizing elem with
  | nil => exact law.pure h
  | cons item rest ih =>
    refine law.bind (holds_joinElement _ h (hitems item mem_cons_self)) ?_
    exact fun joined hjoined => ih hjoined fun other mem => hitems other (mem_cons_of_mem _ mem)

theorem holds_widenIntegers (items : List (Node × Ty)) : law.Holds (widenIntegers items) := by
  induction items with
  | nil => exact law.pure trivial
  | cons item rest ih =>
    unfold widenIntegers
    grind

theorem fail_bind {α β : Type} (fault : SemanticFault) (span : Span) (f : α → Check β) :
    (fail fault span >>= f) = fail fault span :=
  rfl

theorem holds_elementType_bind {β : Type} [Scoped β] (node : Node) {items : List (Node × Ty)}
    (h : ∀ item ∈ items, law.scope.Allows item.2) {f : Ty → Check β}
    (hf : ∀ elem, law.scope.Allows elem → elem.containsList = false → law.Holds (f elem)) :
    law.Holds (elementType node items >>= f) := by
  unfold elementType
  cases items with
  | nil => exact holds_fail (by simp) _
  | cons first rest =>
    have joined : law.Holds (joinElements first.2 rest) :=
      holds_joinElements (h first mem_cons_self)
        fun other mem => h other (mem_cons_of_mem _ mem)
    have widened : law.Holds (widenIntegers (first :: rest)) := holds_widenIntegers _
    dsimp only
    rw [bind_assoc]
    refine law.bind joined fun elem helem => ?_
    split
    · simp only [fail_bind]
      exact holds_fail (by simp) _
    · split
      · simp only [fail_bind]
        exact holds_fail (by simp) _
      · next noList =>
        have hf := hf elem helem (by simpa using noList)
        split
        · simp only [bind_assoc, pure_bind]
          exact law.bind widened fun _ _ => hf
        · simpa only [pure_bind] using hf

end Operators

/-! ### Places -/

section Places

variable {law : CheckLaw}

theorem isMutableProp_reaching (s : Analysis) {ref : ArtifactRef}
    (href : ref.module ∈ law.scope.modules) (name : String) :
    s.isMutableProp (law.outline.reaching law.view) ref name =
      s.isMutableProp law.outline ref name := by
  simp only [Analysis.isMutableProp, Outline.localArtifact?_reaching,
    Outline.importedArtifact?_reaching law.same href]

/-- Both views find the same place for an expression. -/
theorem place_reaching {s : Analysis} (hs : s.TablesWithin law.scope) {c : Context}
    (hc : Within law.scope c) :
    (e : Expr) → s.place (law.outline.reaching law.view) c e = s.place law.outline c e
  | .selfProp node name => by
    simp only [Analysis.place]
    split
    · next ref _ _ self => rw [isMutableProp_reaching s (hc _ self)]
    · rfl
    · rfl
  | .member node base name => by
    have outer := place_reaching hs hc base
    simp only [Analysis.place, outer]
    cases found : s.exprTypes.get? base.id with
    | none => rfl
    | some t =>
      cases t with
      | artifact ref =>
        have href := law.scope.artifact_iff.mp (hs.exprTypes _ _ found)
        simp only [isMutableProp_reaching s href]
      | _ => rfl
  | .index _ base _ => place_reaching hs hc base
  | .ident .. | .int .. | .float .. | .str .. | .bool .. | .array .. | .unary .. | .binary ..
  | .postOp .. | .call .. => rfl

@[grind ←]
theorem holds_placeOf {c : Context} (hc : Within law.scope c) (e : Expr) :
    law.Holds (placeOf c e) := by
  refine law.bind law.get fun s hs => law.read ?_ (law.pure trivial)
  rw [place_reaching hs hc]

@[grind ←]
theorem holds_markSelfWrite (c : Context) : law.Holds (markSelfWrite c) := by
  unfold markSelfWrite
  split
  · exact law.updateProc _ (fun p => ⟨rfl, prefix_rfl, rfl, fun _ => rfl⟩) (fun _ => rfl)
      (fun _ => rfl) fun _ hp => hp
  · exact law.pure trivial

@[grind ←]
theorem holds_writeTo (c : Context) (place : Place) {temporary : SemanticError}
    {fixed : Fixed → SemanticError} (ht : law.scope.Reports temporary)
    (hf : ∀ reason, law.scope.Reports (fixed reason)) :
    law.Holds (writeTo c place temporary fixed) := by
  unfold writeTo
  grind

@[grind ←]
theorem holds_assign {c : Context} (hc : Within law.scope c) (target : Expr) :
    law.Holds (assign c target) :=
  law.bind (holds_placeOf hc target) fun place _ =>
    holds_writeTo c place (law.scope.reports (by simp)) fun _ => law.scope.reports (by simp)

end Places

/-! ### Calls -/

/-- Arguments whose checks have a property. -/
structure Arguments.Hold (law : CheckLaw) (args : Arguments) : Prop where
  types : law.Holds args.types
  expect : ∀ wants, Within law.scope wants → law.Holds (args.expect wants)

private theorem findSome?_congr {α β : Type} {f g : α → Option β} {xs : List α}
    (h : ∀ x ∈ xs, f x = g x) : xs.findSome? f = xs.findSome? g := by
  induction xs with
  | nil => rfl
  | cons x xs ih =>
    rw [findSome?_cons, findSome?_cons, h x mem_cons_self,
      ih fun y mem => h y (mem_cons_of_mem _ mem)]

section Calls

variable {law : CheckLaw} {need : Item → Check Unit} {args : Arguments} {node callee : Node}
variable (hneed : ∀ i, law.Holds (need i)) (hargs : Arguments.Hold law args)
variable (mem : node.id ∈ law.nodes) (mem' : callee.id ∈ law.nodes)

include hargs

/-- Arguments are bound to the parameters of a signature. -/
@[grind ←]
theorem holds_bindArguments (name : String) {sig : ProcSig} (h : Within law.scope sig) :
    law.Holds (bindArguments node name sig args) := by
  have expect := hargs.expect sig.paramTypes fun t mem => by
    obtain ⟨p, hp, rfl⟩ := List.mem_map.mp mem
    exact h.1 p hp
  unfold bindArguments
  grind

include mem

@[grind ←]
theorem holds_applyValue {callee : Ty} (h : law.scope.Allows callee) :
    law.Holds (applyValue node callee args) := by
  unfold applyValue
  cases callee with
  | proc params ret =>
    obtain ⟨hparams, hret⟩ := law.scope.proc_iff.mp h
    have expect := hargs.expect params hparams
    grind
  | unknown => exact law.bind hargs.types fun _ _ => law.pure law.scope.unknown
  | _ => exact holds_fail (by simp) _

@[grind ←]
theorem holds_builtinCall (builtin : Builtin) : law.Holds (builtinCall node builtin args) := by
  have result (types : List Ty) : Within law.scope (builtin.result? types) := by
    unfold Builtin.result?
    grind
  unfold builtinCall
  refine holds_guard (by simp) (law.bind hargs.types fun types htypes => ?_)
  refine law.bind (law.setCall mem rfl) fun _ _ => ?_
  split
  · grind
  · refine law.read ?_ ?_
    · dsimp only
      congr 1
      refine findSome?_congr fun t mem => ?_
      cases t with
      | artifact ref =>
        have href := law.scope.artifact_iff.mp (htypes _ mem)
        simp only [Outline.artifactKind?_reaching law.same href]
      | _ => rfl
    · grind

variable {c : Context}

theorem holds_listCall (hc : Within law.scope c) (base : Expr) {elem : Ty}
    (h : law.scope.Allows elem) (name : Ident) :
    law.Holds (listCall c node base elem name args) := by
  have expect := hargs.expect [elem] (by simpa using h)
  unfold listCall
  grind

include mem'

@[grind ←]
theorem holds_procCall (name : String) (ref : ProcRef) {sig : ProcSig}
    (h : Within law.scope sig) : law.Holds (procCall node callee name ref sig args) := by
  have type := ProcSig.type_within h
  unfold procCall
  grind

include hneed

omit mem' in
@[grind ←]
theorem holds_construct {ref : ArtifactRef} (href : ref.module ∈ law.scope.modules) :
    law.Holds (construct need node ref args) := by
  unfold construct
  refine law.read ?_ ?_
  · simp only [Outline.artifactKind?_reaching law.same href]
  split
  · refine law.bind (holds_artifactProps hneed href) fun props hprops => holds_guard (by simp) ?_
    have expect := hargs.expect (props.map PropInfo.type) fun t mem => by
      obtain ⟨p, hp, rfl⟩ := List.mem_map.mp mem
      exact hprops p hp
    grind
  · exact holds_fail (by simp) _
  · exact holds_fail (by simp) _
  · exact law.pure law.scope.unknown

@[grind ←]
theorem holds_namespaceCall (ref : ArtifactRef) (name : Ident) {source : Outline.MethodSource}
    (h : Within law.scope source) :
    law.Holds (namespaceCall need node callee ref name source args) := by
  unfold namespaceCall
  grind

omit mem' in
@[grind ←]
theorem holds_methodCall (c : Context) {ref : ArtifactRef} (href : ref.module ∈ law.scope.modules)
    {name : Ident} {source : Outline.MethodSource} (h : Within law.scope source)
    (known : law.outline.method? ref name.value = some source) (receiver : Receiver)
    (place : Place) : law.Holds (methodCall need c node ref name source receiver place args) := by
  refine law.bind (holds_methodSig hneed node.span h) fun sig hsig => ?_
  refine law.bind (holds_bindArguments hargs name.value hsig) fun _ _ => ?_
  rw [← bind_assoc]
  exact law.bind (@CheckLaw.callMethod law ⟨node, place, ref, name.value, c.proc⟩ _ _ _ mem href
    (by simp [known])) fun _ _ => law.pure hsig.2

@[grind ←]
theorem holds_selfCall (hc : Within law.scope c) (name : Ident)
    {value : Check Ty} (hvalue : law.Holds value) :
    law.Holds (selfCall need c node callee name value args) := by
  unfold selfCall
  cases self : c.self with
  | none =>
    refine law.read rfl ?_
    grind
  | some which =>
    have hself := hc which self
    cases which with
    | record ref _ | namespaced ref =>
      have method := law.same.inside.method? hself name.value
      refine law.read ?_ ?_
      · simp only [Outline.method?_reaching law.same hself]
      grind

theorem holds_staticCall (c : Context) {path : StaticPath} (h : Within law.scope path)
    (name : Ident) : law.Holds (staticCall need c node callee path name args) := by
  have value : law.Holds (do
      let type ← staticMember need c callee path name
      setType callee.id type
      applyValue node type args) := by
    grind
  unfold staticCall
  cases path with
  | failed =>
    refine law.read rfl ?_
    exact law.bind hargs.types fun _ _ => law.pure law.scope.unknown
  | module interface =>
    have proc := h.2.2.1 name.value
    have hmodule := h.1
    refine law.read rfl ?_
    grind
  | artifact ref =>
    have href : ref.module ∈ law.scope.modules := h
    have method := law.same.inside.method? href name.value
    refine law.read ?_ ?_
    · simp only [Outline.artifactKind?_reaching law.same href,
        Outline.method?_reaching law.same href]
    grind

theorem holds_valueMemberCall (hc : Within law.scope c) (base : Expr)
    {baseType : Ty} (h : law.scope.Allows baseType) (name : Ident) :
    law.Holds (valueMemberCall need c node callee base baseType name args) := by
  have value : law.Holds (do
      let type ← valueMember need callee baseType name
      setType callee.id type
      applyValue node type args) := by
    grind
  unfold valueMemberCall
  cases baseType with
  | list elem =>
    have helem := law.scope.list_iff.mp h
    have push := holds_listCall hargs mem hc base helem name
    grind
  | artifact ref =>
    have href := law.scope.artifact_iff.mp h
    have method := law.same.inside.method? href name.value
    refine law.read ?_ ?_
    · simp only [Outline.method?_reaching law.same href]
    grind
  | unknown => exact law.bind hargs.types fun _ _ => law.pure law.scope.unknown
  | _ => exact value

theorem holds_memberCall (hc : Within law.scope c) {base : Expr}
    (own : ∀ n ∈ base.ids, n ∈ law.nodes) (name : Ident) {baseType : Check Ty}
    (htype : law.Holds baseType) :
    law.Holds (memberCall need c node callee base name baseType args) := by
  refine law.bind (holds_staticPath c own) fun path hpath => ?_
  cases path with
  | some path =>
    exact holds_staticCall hneed hargs mem mem' c (within_some.mp hpath) name
  | none =>
    refine law.bind htype fun type ht => ?_
    exact holds_valueMemberCall hneed hargs mem mem' hc base ht name

end Calls

/-! ### Expressions -/

/-- A property of checks holds of what code in a context needs: of items, and where names stand for
symbols. -/
structure Supports (law : CheckLaw) (need : Item → Check Unit) (c : Context) : Prop where
  items : ∀ i, law.Holds (need i)
  context : Within law.scope c
  used : ∀ {name : String} {id : SymbolId}, c.lookup law.outline name = some (.symbol id) →
    ∀ {node : Node}, node.id ∈ law.nodes → law.Holds (do
      let type ← useSymbol need c id node.span
      resolve node.id (.var id)
      return type)
  /-- Calls of procedures that are declared in blocks. Other symbols stand for values. -/
  called : ∀ {name : String} {id : SymbolId}, c.lookup law.outline name = some (.symbol id) →
    ∀ {node callee : Node} {args : Arguments} {f : SymbolInfo → Check Ty} {value : Check Ty},
      node.id ∈ law.nodes → callee.id ∈ law.nodes → Arguments.Hold law args → law.Holds value →
        (∀ sym, f sym = value ∨ ∃ proc, sym.kind = .nestedProc proc ∧
          f sym = nestedCall need c node callee sym proc args) → law.Holds (symbol id >>= f)

section Exprs

variable {law : CheckLaw} {need : Item → Check Unit}

theorem holds_literalType (node : Node) (items : List Expr) {args : Arguments}
    (hargs : Arguments.Hold law args) {expected : Option Ty} (h : Within law.scope expected) :
    law.Holds (literalType node items args expected) := by
  have slots {elem : Ty} (helem : law.scope.Allows elem) :
      law.Holds (args.expect (items.map fun _ => elem)) :=
    hargs.expect _ fun t mem => by
      obtain ⟨_, _, rfl⟩ := List.mem_map.mp mem
      exact helem
  unfold literalType
  split
  · next elem =>
    have helem := within_some.mp h
    exact law.bind (slots (law.scope.list_iff.mp helem)) fun _ _ => law.pure helem
  · next elem size =>
    have helem := within_some.mp h
    exact holds_guard (by simp) (law.bind (slots (law.scope.of_array helem)) fun _ _ =>
      law.pure helem)
  · refine law.bind hargs.types fun types htypes => ?_
    refine holds_elementType_bind node (fun item mem => ?_) fun elem helem noList =>
      law.pure (law.scope.to_array _ helem noList)
    exact htypes item.2 (of_mem_zip mem).2

theorem holds_postOpType {c : Context} (hc : Within law.scope c) (node : Node) (op : PostOp)
    (operand : Expr) (type : Ty) : law.Holds (postOpType c node op operand type) :=
  holds_guard (by simp) (law.bind (holds_assign hc operand) fun _ _ => law.pure law.scope.int)

theorem holds_memberType (hneed : ∀ i, law.Holds (need i)) (c : Context) {node : Node}
    (mem : node.id ∈ law.nodes) {base : Expr} (own : ∀ n ∈ base.ids, n ∈ law.nodes) (name : Ident)
    {baseType : Check Ty} (htype : law.Holds baseType) :
    law.Holds (memberType need c node base name baseType) := by
  refine law.bind (holds_staticPath c own) fun path hpath => ?_
  cases path with
  | some path => exact holds_staticMember hneed c mem (within_some.mp hpath) name
  | none => exact law.bind htype fun type ht => holds_valueMember hneed mem ht name

theorem holds_record {x : Check Ty} (h : law.Holds x) {id : NodeId} (mem : id ∈ law.nodes) :
    law.Holds (do
      let type ← x
      setType id type
      return type) :=
  law.bind h fun _ ht => law.bind (law.setType mem ht) fun _ _ => law.pure ht

section Names

variable {c : Context} (hc : Supports law need c) {node : Node} (mem : node.id ∈ law.nodes)

include hc mem

theorem holds_identType (name : String) : law.Holds (identType need c node name) := by
  unfold identType
  refine law.read rfl ?_
  split
  · next id found => exact hc.used found mem
  · next id _ =>
    have sig := holds_localSig hc.items id node.span
    grind
  · exact holds_fail (by simp) _
  · exact holds_fail (by simp) _
  · split <;> exact holds_fail (by simp) _

theorem holds_nameCall {callee : Node} (mem' : callee.id ∈ law.nodes) {args : Arguments}
    (hargs : Arguments.Hold law args) (name : String) {value : Check Ty}
    (hvalue : law.Holds value) :
    law.Holds (nameCall need c node callee name value args) := by
  have bound := law.same.inside.lookup c name
  unfold nameCall
  refine law.read rfl ?_
  split
  · next id found =>
    have applied : law.Holds (do applyValue node (← value) args) :=
      law.bind hvalue fun _ ht => holds_applyValue hargs mem ht
    refine hc.called found mem mem' hargs applied fun sym => ?_
    split
    · next proc kind => exact .inr ⟨proc, kind, rfl⟩
    · exact .inl rfl
  · next id _ =>
    refine law.bind (holds_localSig hc.items id node.span) fun sig hsig => ?_
    exact law.bind (holds_procRef id) fun ref _ => holds_procCall hargs mem mem' name ref hsig
  · next ref found =>
    have href : ref.module ∈ law.scope.modules := bound _ found
    exact law.bind (law.resolve mem' rfl) fun _ _ => holds_construct hc.items hargs mem href
  · exact holds_fail (by simp) _
  · split
    · exact holds_builtinCall hargs mem _
    · exact holds_fail (by simp) _

end Names

variable {c : Context}

mutual

/-- The check of every expression obeys the law. -/
theorem holds_exprType (hc : Supports law need c) : (e : Expr) → (∀ n ∈ e.ids, n ∈ law.nodes) →
    {expected : Option Ty} → Within law.scope expected → law.Holds (exprType need c e expected)
  | .int .., own, _, _ | .float .., own, _, _ | .str .., own, _, _ | .bool .., own, _, _ => by
    simp only [exprType]
    exact holds_record (law.pure (by simp)) (own _ (Expr.id_mem_ids _))
  | .ident node name, own, _, _ => by
    have mem : node.id ∈ law.nodes := own _ (Expr.id_mem_ids (.ident node name))
    simp only [exprType]
    exact holds_record (holds_identType hc mem name) mem
  | .selfProp node name, own, _, _ => by
    have mem : node.id ∈ law.nodes := own _ (Expr.id_mem_ids (.selfProp node name))
    simp only [exprType]
    exact holds_record (holds_selfPropType hc.items hc.context mem name) mem
  | .array node items, own, _, h => by
    obtain ⟨ofItems, mem⟩ := List.forall_mem_append.mp own
    have inner := holds_arguments hc items ofItems
    simp only [exprType]
    exact holds_record (holds_literalType node items inner h) (mem _ mem_cons_self)
  | .unary node op operand, own, _, _ => by
    obtain ⟨ofOperand, mem⟩ := List.forall_mem_append.mp own
    have inner := holds_exprType hc operand ofOperand (within_none.mpr trivial)
    simp only [exprType]
    exact law.bind inner fun t _ =>
      holds_record (holds_unaryType node op t) (mem _ mem_cons_self)
  | .binary node left op right, own, _, _ => by
    obtain ⟨ofBoth, mem⟩ := List.forall_mem_append.mp own
    obtain ⟨ofLeft, ofRight⟩ := List.forall_mem_append.mp ofBoth
    have first := holds_exprType hc left ofLeft (within_none.mpr trivial)
    have second := holds_exprType hc right ofRight (within_none.mpr trivial)
    simp only [exprType]
    exact law.bind first fun l hl => law.bind second fun r _ =>
      holds_record (holds_binaryType node left.id right.id op hl r) (mem _ mem_cons_self)
  | .postOp node op operand, own, _, _ => by
    obtain ⟨ofOperand, mem⟩ := List.forall_mem_append.mp own
    have inner := holds_exprType hc operand ofOperand (within_none.mpr trivial)
    simp only [exprType]
    exact law.bind inner fun t _ =>
      holds_record (holds_postOpType hc.context node op operand t) (mem _ mem_cons_self)
  | .call node callee args, own, _, _ => by
    obtain ⟨ofBoth, last⟩ := List.forall_mem_append.mp own
    obtain ⟨ofCallee, ofArgs⟩ := List.forall_mem_append.mp ofBoth
    have mem : node.id ∈ law.nodes := last _ mem_cons_self
    have value := holds_exprType hc callee ofCallee (within_none.mpr trivial)
    have inner := holds_arguments hc args ofArgs
    cases callee with
    | ident calleeNode name =>
      have mem' := ofCallee calleeNode.id (Expr.id_mem_ids (.ident calleeNode name))
      simp only [exprType] at value ⊢
      exact holds_record (holds_nameCall hc mem mem' inner name value) mem
    | selfProp calleeNode name =>
      have mem' := ofCallee calleeNode.id (Expr.id_mem_ids (.selfProp calleeNode name))
      simp only [exprType] at value ⊢
      exact holds_record (holds_selfCall hc.items inner mem mem' hc.context name value) mem
    | member calleeNode base name =>
      obtain ⟨ofBase, mem'⟩ := List.forall_mem_append.mp ofCallee
      have base' := holds_exprType hc base ofBase (within_none.mpr trivial)
      simp only [exprType]
      exact holds_record (holds_memberCall hc.items inner mem (mem' _ mem_cons_self) hc.context
        ofBase name base') mem
    | _ =>
      rw [exprType_call (by simp) (by simp) (by simp)]
      exact law.bind value fun t ht => holds_record (holds_applyValue inner mem ht) mem
  | .index node base place, own, _, _ => by
    obtain ⟨ofBoth, mem⟩ := List.forall_mem_append.mp own
    obtain ⟨ofBase, ofPlace⟩ := List.forall_mem_append.mp ofBoth
    have first := holds_exprType hc base ofBase (within_none.mpr trivial)
    have second := holds_exprType hc place ofPlace (within_none.mpr trivial)
    simp only [exprType]
    exact law.bind first fun b hb => law.bind second fun p _ =>
      holds_record (holds_indexType base place hb p) (mem _ mem_cons_self)
  | .member node base name, own, _, _ => by
    obtain ⟨ofBase, last⟩ := List.forall_mem_append.mp own
    have mem : node.id ∈ law.nodes := last _ mem_cons_self
    have inner := holds_exprType hc base ofBase (within_none.mpr trivial)
    simp only [exprType]
    exact holds_record (holds_memberType hc.items c mem ofBase name inner) mem

theorem holds_arguments (hc : Supports law need c) : (es : List Expr) →
    (∀ n ∈ Expr.idsAll es, n ∈ law.nodes) → Arguments.Hold law
      ⟨es.length, exprTypes need c es, fun want => expectTypes need c es want⟩
  | [], _ => ⟨law.pure (within_nil.mpr trivial), fun _ _ => law.pure trivial⟩
  | e :: es, own => by
    obtain ⟨ofFirst, ofOthers⟩ := List.forall_mem_append.mp own
    have others := holds_arguments hc es ofOthers
    refine ⟨?_, fun wants h => ?_⟩
    · have first := holds_exprType hc e ofFirst (within_none.mpr trivial)
      simp only [exprTypes]
      exact law.bind first fun t ht => law.bind others.types fun ts hts =>
        law.pure (within_cons.mpr ⟨ht, hts⟩)
    · cases wants with
      | nil => exact law.pure trivial
      | cons want wants =>
        obtain ⟨hwant, hwants⟩ := within_cons.mp h
        have first := holds_exprType hc e ofFirst (within_some.mpr hwant)
        simp only [expectTypes]
        exact law.bind first fun t _ => law.bind (holds_coerce e.node t want)
          fun _ _ => others.expect wants hwants

end

theorem holds_expectType (hc : Supports law need c) {e : Expr}
    (own : ∀ n ∈ e.ids, n ∈ law.nodes) {want : Ty}
    (h : law.scope.Allows want) : law.Holds (expectType need c e want) :=
  law.bind (holds_exprType hc e own (within_some.mpr h)) fun t _ =>
    holds_coerce e.node t want

end Exprs

/-! ### Slots -/

section Slots

variable {law : CheckLaw}

variable {declared : Option Ty}

theorem holds_annotated (h : Within law.scope declared)
    (type : Option TypeExpr) : law.Holds ( annotation declared type) := by
  unfold annotation
  split
  · exact law.pure h
  · next t =>
    refine law.read ?_ ?_
    · rw [Outline.valueTypeOf_reaching law.same]
    · have type := Outline.valueTypeOf_within law.same.inside t
      exact law.bind (holds_ofExcept type) fun t ht => law.pure (within_some.mpr ht)
  · exact law.pure (within_none.mpr trivial)

variable {need : Item → Check Unit} {c : Context} (hc : Supports law need c)

include hc

theorem holds_slotType (h : Within law.scope declared)
    {value : Option Expr} (own : ∀ n ∈ Expr.idsOption value, n ∈ law.nodes)
    {nothing : SemanticFault} (other : ¬ nothing.IsContainment) :
    law.Holds (slotType need c declared value nothing) := by
  unfold slotType
  split
  · next t value =>
    have ht : law.scope.Allows t := within_some.mp h
    exact law.bind (holds_expectType hc own ht) fun _ _ => law.pure ht
  · exact law.pure (within_some.mp h)
  · next value =>
    refine law.bind (holds_exprType hc value own h) fun t ht => ?_
    exact holds_guard other (law.pure ht)
  · exact law.pure law.scope.unknown

theorem holds_declType {decl : VarDecl} (own : ∀ n ∈ decl.valueIds, n ∈ law.nodes)
    (h : Within law.scope declared) : law.Holds (declType need c decl declared) :=
  law.bind (holds_annotated h decl.type) fun _ ht =>
    holds_slotType hc ht own (by simp)

theorem holds_paramType {param : Param} (own : ∀ n ∈ Expr.idsOption param.default, n ∈ law.nodes) :
    law.Holds (paramType need c param) :=
  law.bind (holds_annotated (within_none.mpr trivial) param.type) fun _ ht =>
    holds_slotType hc ht own (by simp)

end Slots

/-! ### Statements -/

section Stmts

variable {law : CheckLaw} {need : Item → Check Unit}
variable {c : Context} (hc : Supports law need c)

theorem holds_jumpStmt (jump : Jump) (span : Span) : law.Holds (jumpStmt c jump span) := by
  unfold jumpStmt
  grind

include hc

theorem holds_condition {cond : Expr} (own : ∀ n ∈ cond.ids, n ∈ law.nodes) :
    law.Holds (condition need c cond) := by
  have inner := holds_exprType hc cond own (within_none.mpr trivial)
  unfold condition
  grind

theorem holds_rangeEnd {stop : Expr} (own : ∀ n ∈ stop.ids, n ∈ law.nodes) :
    law.Holds (rangeEnd need c stop) := by
  have inner := holds_exprType hc stop own (within_none.mpr trivial)
  unfold rangeEnd
  grind

theorem holds_rangeEnds {start stop : Expr} (ofStart : ∀ n ∈ start.ids, n ∈ law.nodes)
    (ofStop : ∀ n ∈ stop.ids, n ∈ law.nodes) : law.Holds (rangeEnds need c start stop) := by
  have first := holds_attempt (holds_expectType hc ofStart law.scope.int)
  have second := holds_attempt (holds_rangeEnd hc ofStop)
  unfold rangeEnds
  grind

theorem holds_returnStmt (span : Span) {value : Option Expr}
    (own : ∀ n ∈ Expr.idsOption value, n ∈ law.nodes) :
    law.Holds (returnStmt need c span value) := by
  have settle (id : ProcId) {ret : Ty} (h : law.scope.Allows ret) :
      law.Holds (updateProc id fun p => { p with ret := some ret }) :=
    law.updateProc id (fun p => ⟨rfl, prefix_rfl, rfl, fun h => h⟩) (fun p => rfl)
      (fun p => rfl) fun p hp => ⟨hp.1, within_some.mpr h⟩
  unfold returnStmt
  cases c.proc with
  | none => exact holds_fail (by simp) _
  | some id =>
    refine law.bind (holds_procEntry id) fun entry hentry => ?_
    have hret := hentry.2
    dsimp only
    split
    · next value _ =>
      have typed := holds_exprType hc value own (within_none.mpr trivial)
      grind
    · next value ret _ known =>
      have hret : law.scope.Allows ret := hret ret known
      have typed := holds_exprType hc value own (within_some.mpr hret)
      have expected := holds_expectType hc own hret
      grind
    · next value _ =>
      have typed := holds_exprType hc value own (within_none.mpr trivial)
      exact law.bind typed fun type htype => holds_guard (by simp) (settle id htype)
    · exact settle id law.scope.void
    · exact law.pure trivial
    · exact law.pure trivial
    · exact holds_fail (by simp) _

theorem holds_assignment {target value : Expr} (ofTarget : ∀ n ∈ target.ids, n ∈ law.nodes)
    (ofValue : ∀ n ∈ value.ids, n ∈ law.nodes) : law.Holds (assignment need c target value) := by
  refine law.bind (holds_exprType hc target ofTarget (within_none.mpr trivial)) ?_
  intro type htype
  refine law.bind (holds_assign hc.context target) fun _ _ => ?_
  exact holds_expectType hc ofValue htype

end Stmts

theorem holds_items {law : CheckLaw} {need : Item → Check Unit} (hneed : ∀ i, law.Holds (need i))
    (is : List Item) : law.Holds (items need is) := by
  induction is with
  | nil => exact law.pure trivial
  | cons i rest ih => exact law.bind (hneed i) fun _ _ => ih

end Check

end ArkLang
