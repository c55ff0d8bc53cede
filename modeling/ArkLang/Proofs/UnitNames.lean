import Mathlib.Algebra.Order.Group.Multiset
import Mathlib.Tactic.Abel
import ArkLang.Proofs.LoweredUnits

/-!
# What units add to a program

Every declaration of a unit adds certain names to the sections of the program: a procedure its
function and the functions for calls that leave out arguments, a record its constructors, a variable
its storage. Which names these are follows from the tree of the unit and its tables. Lowering adds
each of them once, and nothing else.
-/

namespace ArkLang

namespace C

/-- The parts of a program that give names a meaning. -/
inductive Part where
  | record
  | prototype (arity : Nat)
  | body
  | global
  | enumCase
  | environment
  deriving DecidableEq, Repr

/-- The names that stand in the sections of a program. -/
def Sections.parts (s : Sections) : Multiset (Part × Name) :=
  .ofList (s.environments.toList.map fun env => (.environment, env.name)) +
    .ofList (s.enumCases.toList.map fun case => (.enumCase, case.1)) +
    .ofList (s.prototypes.toList.map fun sig => (.prototype sig.params.length, sig.name)) +
    .ofList (s.globals.toList.map fun global => (.global, global.name)) +
    .ofList (s.functions.toList.map fun f => (.body, f.sig.name))

/-- What a unit gives a name, in which part of the program. -/
structure Entry where
  part : Part
  root : Root
  ending : Ending
  deriving DecidableEq, Repr

def functionEntries (root : Root) (form : Ending × Nat) : List Entry :=
  [⟨.prototype form.2, root, form.1⟩, ⟨.body, root, form.1⟩]

end C

open C (Entry functionEntries)

/-! ### Names of units -/

/-- What the functions of a procedure are called after. -/
def ProcInfo.root (p : ProcInfo) : C.Root :=
  if p.isNested then .nested p.id else .member p.path

/-- The forms in which a procedure is called, with the numbers of their parameters. -/
def ProcInfo.forms (p : ProcInfo) : List (C.Ending × Nat) :=
  let lead := (Lower.leadParam p.kind).toList.length
  (.plain, lead + p.params.length) ::
    (Lower.numbersFrom p.sig.required p.params.length).map
      (fun keep => (.omitting (p.params.length - keep), lead + keep)) ++
    if Lower.hasValueForm p.kind then [(.viaValue, p.params.length + 1)] else []

def ProcInfo.environment (p : ProcInfo) : List Entry :=
  if p.isNested && !p.captures.isEmpty then [⟨.environment, .environment p.id, .plain⟩] else []

/-- What a procedure adds, without the procedures in its body. -/
def ProcInfo.entries (p : ProcInfo) : List Entry :=
  p.environment ++ p.forms.flatMap (functionEntries p.root)

theorem ProcInfo.coe_entries (p : ProcInfo) : (p.entries : Multiset Entry) =
    p.environment + {⟨.prototype ((Lower.leadParam p.kind).toList.length + p.params.length), p.root,
      .plain⟩} + {⟨.body, p.root, .plain⟩} +
    ((Lower.numbersFrom p.sig.required p.params.length).map fun keep =>
      (C.Ending.omitting (p.params.length - keep),
        (Lower.leadParam p.kind).toList.length + keep)).flatMap (functionEntries p.root) +
    ((if Lower.hasValueForm p.kind then [(C.Ending.viaValue, p.params.length + 1)] else []).flatMap
      (functionEntries p.root)) := by
  simp only [entries, forms, List.flatMap_cons, List.flatMap_append, functionEntries,
    ← Multiset.coe_add, add_assoc]
  rfl

namespace CheckedUnit

def called (u : CheckedUnit) (proc : ProcId) : String :=
  (u.procs.getD proc default).name

def declares (u : CheckedUnit) (e : Entry) : C.Part × C.Name :=
  (e.part, C.Key.name (fun _ => u.called) ⟨u.module, e.root, e.ending⟩)

mutual

/-- What the procedures add that a statement declares in blocks. -/
def stmtEntries (u : CheckedUnit) : Stmt → List Entry
  | .proc ⟨node, _, _, _, ⟨_, code⟩⟩ =>
    if (u.procAt node.id).isNested then (u.procAt node.id).entries ++ u.codeEntries code else []
  | .cond ⟨_, _, ⟨_, body⟩⟩ => u.codeEntries body
  | .chain _ arms fallback =>
    u.armEntries arms ++ match fallback with
      | some ⟨_, body⟩ => u.codeEntries body
      | none => []
  | .whileLoop ⟨_, _, ⟨_, body⟩⟩ => u.codeEntries body
  | .rangeLoop _ _ _ _ ⟨_, body⟩ => u.codeEntries body
  | .block ⟨_, body⟩ => u.codeEntries body
  | _ => []

def codeEntries (u : CheckedUnit) : List Stmt → List Entry
  | [] => []
  | s :: rest => u.stmtEntries s ++ u.codeEntries rest

def armEntries (u : CheckedUnit) : List Guarded → List Entry
  | [] => []
  | ⟨_, _, ⟨_, body⟩⟩ :: rest => u.codeEntries body ++ u.armEntries rest

end

/-- What a procedure of the module or of an artifact adds. -/
def procEntries (u : CheckedUnit) (decl : ProcDecl) : List Entry :=
  (u.procAt decl.node.id).entries ++ u.codeEntries decl.body.stmts

end CheckedUnit

/-- The forms in which a record is made, with the numbers of their parameters. -/
def recordForms (props : Nat) : List (C.Ending × Nat) :=
  (.constructor, props) ::
    (Lower.numbersFrom 1 props).map (fun keep => (.shortConstructor (props - keep), keep)) ++
    [(.defaultRecord, 0)]

/-- What an artifact adds, without its procedures. -/
def ArtifactDecl.entries (a : ArtifactDecl) (info : ArtifactInfo) : List Entry :=
  match a.kind with
  | .enumeration =>
    info.cases.map fun case => ⟨.enumCase, .member [a.name.value, case.1], .plain⟩
  | .namespaced =>
    (info.props.zip a.props).map fun prop => ⟨.global, .member [a.name.value, prop.1.name], .plain⟩
  | .record =>
    (recordForms info.props.length).flatMap (functionEntries (.member [a.name.value]))

namespace CheckedUnit

variable (table : ArtifactTable) (u : CheckedUnit)

/-- An artifact of a unit as the program knows it. -/
def artifactOf (a : ArtifactDecl) : ArtifactInfo :=
  (table.get? ⟨u.module, a.name.value⟩).getD default

def declEntries : Stmt → List Entry
  | .artifact a => a.entries (u.artifactOf table a) ++ a.procs.flatMap u.procEntries
  | .proc decl => if (u.procAt decl.node.id).kind = .topLevel then u.procEntries decl else []
  | .var v => [⟨.global, .member [(u.symbolAt v.node.id).name], .plain⟩]
  | _ => []

def entries : List Entry :=
  u.program.stmts.flatMap (u.declEntries table) ++ u.codeEntries u.program.stmts ++
    functionEntries .start (.plain, 0) ++ functionEntries .finish (.plain, 0)

/-- A unit whose procedures stand under their numbers and whose records are no enumerations. -/
structure Fits : Prop where
  procs : ∀ n i, u.procDecls.get? n = some i → ∃ p, u.procs[i]? = some p ∧ p.id = i
  records : ∀ a, .artifact a ∈ u.program.stmts → a.kind = .record →
    table.isEnum ⟨u.module, a.name.value⟩ = false

end CheckedUnit

namespace Lower

variable {α β : Type} {c : LowerContext} {M N : Multiset Entry}

/-! ### Lowerings that add names -/

/-- A lowering that adds given names, if it succeeds, and notes types. -/
def Adds (c : LowerContext) (x : Lower α) (M : Multiset Entry) : Prop :=
  ∀ s a s', x c s = .ok (a, s') →
    s'.sections.parts = s.sections.parts + M.map c.unit.declares ∧ s.types.Extends c.table s'.types

section Rules

variable {x : Lower α}

theorem Adds.of_eq (h : Adds c x M) (same : M = N) : Adds c x N :=
  same ▸ h

/-- Lowered expressions add nothing. -/
theorem Yields.addsNothing {Q : α → Prop} (h : Yields c x Q) : Adds c x 0 := by
  intro s a s' run
  obtain ⟨noted, -⟩ := h.gives s a s' run
  exact ⟨by rw [noted.sections, Multiset.map_zero, add_zero], noted.types⟩

theorem Adds.bind {f : α → Lower β} (hx : Adds c x M) (hf : ∀ a, Adds c (f a) N) :
    Adds c (x >>= f) (M + N) := by
  intro s b s' run
  obtain ⟨a, s₁, first, second⟩ := bind_eq_ok.mp run
  obtain ⟨parts, types⟩ := hx s a s₁ first
  obtain ⟨parts', types'⟩ := hf a s₁ b s' second
  exact ⟨by rw [parts', parts, Multiset.map_add, add_assoc], types.trans types'⟩

theorem Yields.adds {f : α → Lower β} {P : α → Prop} (hx : Yields c x P)
    (hf : ∀ a, P a → Adds c (f a) M) : Adds c (x >>= f) M := by
  intro s b s' run
  obtain ⟨a, s₁, first, second⟩ := bind_eq_ok.mp run
  obtain ⟨noted, value⟩ := hx.gives s a s₁ first
  obtain ⟨parts, types⟩ := hf a value s₁ b s' second
  exact ⟨by rw [parts, noted.sections], noted.types.trans types⟩

theorem adds_pure (a : α) : Adds c (pure a) 0 :=
  (yields_pure (Q := fun _ => True) trivial).addsNothing

theorem Adds.map {f : α → Lower β} (hx : Adds c x M) (hf : ∀ a, Adds c (f a) 0) :
    Adds c (x >>= f) M :=
  (hx.bind hf).of_eq (add_zero M)

theorem adds_throw (fault : LowerFault) : Adds c (throw fault : Lower α) M := by
  intro s a s' run
  cases run

theorem adds_inFunction (h : Adds c x M) : Adds c (inFunction x) M := by
  intro s a s' run
  obtain ⟨s₀, s₁, got, run⟩ := bind_eq_ok.mp run
  cases got
  obtain ⟨_, s₂, reset, run⟩ := bind_eq_ok.mp run
  cases reset
  obtain ⟨b, s₃, inner, run⟩ := bind_eq_ok.mp run
  obtain ⟨_, s₄, restored, run⟩ := bind_eq_ok.mp run
  cases restored
  cases run
  exact h { s with temporaries := 0 } a s₃ inner

end Rules

section Sections

theorem adds_addTo {f : C.Sections → C.Sections}
    (h : ∀ s, (f s).parts = s.parts + M.map c.unit.declares) :
    Adds c (addTo f) M := by
  intro s a s' run
  cases run
  exact ⟨h s.sections, .refl _⟩

theorem adds_addPrototype (sig : C.Signature) {e : Entry}
    (named : (.prototype sig.params.length, sig.name) = c.unit.declares e) :
    Adds c (addPrototype sig) {e} :=
  adds_addTo fun s => by
    simp [C.Sections.parts, ← named, ← Multiset.coe_add]
    abel

theorem adds_addBody (sig : C.Signature) (body : List C.Stmt) {e : Entry}
    (named : (.body, sig.name) = c.unit.declares e) : Adds c (addBody sig body) {e} :=
  adds_addTo fun s => by
    simp [C.Sections.parts, ← named, ← Multiset.coe_add]
    abel

theorem adds_addGlobal {g : C.Global} {e : Entry} (named : (.global, g.name) = c.unit.declares e) :
    Adds c (addTo fun s => { s with globals := s.globals.push g }) {e} :=
  adds_addTo fun s => by
    simp [C.Sections.parts, ← named, ← Multiset.coe_add]
    abel

theorem adds_addEnvironmentOf {env : C.Environment} {e : Entry}
    (named : (.environment, env.name) = c.unit.declares e) :
    Adds c (addTo fun s => { s with environments := s.environments.push env }) {e} :=
  adds_addTo fun s => by
    simp [C.Sections.parts, ← named, ← Multiset.coe_add]
    abel

end Sections

/-! ### What leaves the sections alone -/

section Quiet

variable {a : Activation}

instance : C.ExprLaw fun _ => True := by
  constructor <;> intros <;> trivial

theorem quiet_varAccess (id : SymbolId) : Yields c (varAccess a id) fun _ => True :=
  yields_varAccess_of_law fun _ _ _ _ _ => trivial

theorem reaches_true (ids : List NodeId) : Reaches c a (fun _ => True) ids :=
  ⟨fun _ _ id _ => quiet_varAccess id, fun _ _ id _ _ _ _ => quiet_varAccess id⟩

theorem quiet_expr (e : Expr) : Yields c (expr a e) fun _ => True :=
  yields_expr e (reaches_true _)

theorem quiet_value (e : Expr) : Yields c (value a e) fun _ => True :=
  yields_exprValue (reaches_true _)

theorem quiet_ownedValue (e : Expr) : Yields c (ownedValue a e) fun _ => True :=
  yields_ownedValue (reaches_true _)

theorem quiet_initialValue (value : Option Expr) (type : Ty) :
    Yields c (initialValue a value type) fun _ => True :=
  yields_initialValue (reaches_true _) type

theorem quiet_rangeEnd (stop : Expr) : Yields c (rangeEnd a stop) fun _ => True :=
  yields_rangeEnd (reaches_true _)

theorem quiet_releaseAll (owned : List Owned) : Yields c (releaseAll owned) fun _ => True :=
  (yields_releaseAll owned).any

theorem quiet_varStmt (decl : VarDecl) : Yields c (varStmt a decl) fun _ => True := by
  refine yields_bind (yields_symbolOf _) fun sym _ => ?_
  refine yields_bind (quiet_initialValue _ _) fun init _ => ?_
  split
  · refine yields_bind (yields_isStoredConstant _ _ _) fun stored _ => ?_
    split
    · exact yields_pure trivial
    · exact yields_bind (yields_globalName _) fun _ _ => yields_pure trivial
  · exact yields_bind (yields_cType _) fun _ _ => yields_bind yields_table fun _ _ =>
      yields_pure trivial

theorem quiet_namespaceConstants (ref : ArtifactRef) (entries : List (PropInfo × VarDecl)) :
    Yields c (namespaceConstants a ref entries) fun _ => True := by
  induction entries with
  | nil => exact yields_pure trivial
  | cons entry rest ih =>
    refine yields_bind (yields_isStoredConstant _ _ _) fun stored _ => ?_
    split
    · exact ih
    · exact yields_bind (quiet_initialValue _ _) fun _ _ => yields_bind ih fun _ _ =>
        yields_pure trivial

theorem quiet_artifactStmt (decl : ArtifactDecl) :
    Yields c (artifactStmt a decl) fun _ => True := by
  unfold artifactStmt
  split
  · exact yields_bind yields_unit fun _ _ => yields_bind (yields_artifact _) fun _ _ =>
      quiet_namespaceConstants _ _
  · exact yields_pure trivial

theorem quiet_assignStmt (target value : Expr) :
    Yields c (assignStmt a target value) fun _ => True := by
  refine yields_bind (yields_typeOf _) fun type _ => yields_bind (quiet_ownedValue _) fun v _ => ?_
  refine yields_bind (quiet_expr _) fun place _ => ?_
  split
  · exact yields_bind (yields_cType _) fun _ _ => yields_pure trivial
  · exact yields_pure trivial

theorem quiet_exprStmt (e : Expr) : Yields c (exprStmt a e) fun _ => True := by
  refine yields_bind yields_unit fun u _ => yields_bind (quiet_value _) fun v _ => ?_
  split
  · exact yields_bind (yields_cType _) fun _ _ => yields_pure trivial
  · split <;> exact yields_pure trivial

theorem quiet_returnStmt (result : Option Expr) : Yields c (returnStmt a result) fun _ => True := by
  unfold returnStmt
  split
  · exact yields_bind (quiet_releaseAll _) fun _ _ => yields_pure trivial
  · refine yields_bind (quiet_ownedValue _) fun v _ => ?_
    split
    · exact yields_bind (yields_temporary _) fun _ _ => yields_bind (yields_cType _) fun _ _ =>
        yields_bind (quiet_releaseAll _) fun _ _ => yields_pure trivial
    · exact yields_pure trivial

theorem adds_jumpStmt (jump : C.Stmt) : Adds c (jumpStmt a jump) 0 := by
  unfold jumpStmt require
  split
  · exact (yields_pure (Q := fun _ => True) trivial).adds fun _ _ =>
      (quiet_releaseAll _).adds fun _ _ => adds_pure _
  · exact Adds.map (adds_throw _) fun _ => (quiet_releaseAll _).adds fun _ _ => adds_pure _

theorem quiet_copyCaptures (target : C.Name) (ids : List SymbolId) :
    Yields c (copyCaptures a target ids) fun _ => True := by
  induction ids with
  | nil => exact yields_pure trivial
  | cons id rest ih =>
    exact yields_bind (quiet_varAccess _) fun _ _ => yields_bind ih fun _ _ => yields_pure trivial

theorem quiet_bindNested (proc : ProcInfo) (n : NodeId) :
    Yields c (bindNested a proc n) fun _ => True := by
  refine yields_bind (yields_symbolOf _) fun sym _ => yields_bind (yields_cType _) fun type _ => ?_
  refine yields_bind (yields_procName _) fun function _ => ?_
  split
  · exact yields_pure trivial
  · exact yields_bind (yields_temporary _) fun _ _ =>
      yields_bind (quiet_copyCaptures _ _) fun _ _ =>
      yields_bind (yields_envName _) fun _ _ => yields_pure trivial

theorem quiet_declareDefaults (entries : List (C.Param × Param)) :
    Yields c (declareDefaults a entries) fun _ => True := by
  induction entries with
  | nil => exact yields_pure trivial
  | cons entry rest ih =>
    exact yields_bind (yields_require (Q := fun _ => True) (fun _ _ => trivial) _) fun _ _ =>
      yields_bind (quiet_ownedValue _) fun _ _ => yields_bind ih fun _ _ => yields_pure trivial

theorem quiet_fieldDefaults (entries : List (PropInfo × VarDecl)) :
    Yields c (fieldDefaults entries) fun _ => True := by
  induction entries with
  | nil => exact yields_pure trivial
  | cons entry rest ih =>
    exact yields_bind (quiet_initialValue _ _) fun _ _ => yields_bind ih fun _ _ =>
      yields_pure trivial

theorem quiet_closeBody (proc : ProcInfo) : Yields c (closeBody proc a) fun _ => True := by
  unfold closeBody
  split
  · exact quiet_releaseAll _
  · exact yields_pure trivial

end Quiet

/-! ### Procedures -/

section Procedures

theorem adds_addFunction (sig : C.Signature) (body : List C.Stmt) (root : C.Root)
    (form : C.Ending × Nat)
    (named : sig.name = (c.unit.declares ⟨.body, root, form.1⟩).2)
    (arity : sig.params.length = form.2) :
    Adds c (addFunction sig body) (functionEntries root form) := by
  refine ((adds_addPrototype sig (e := ⟨.prototype form.2, root, form.1⟩) ?_).bind fun _ =>
    adds_addBody sig body (e := ⟨.body, root, form.1⟩) ?_).of_eq rfl
  · rw [named, arity]
    rfl
  · rw [named]
    rfl

theorem functionName_eq {proc : ProcInfo}
    (known : proc.isNested = true → c.unit.called proc.id = proc.name) :
    c.unit.functionName proc = (c.unit.declares ⟨.body, proc.root, .plain⟩).2 := by
  unfold CheckedUnit.functionName ProcInfo.root
  cases nested : proc.isNested with
  | false => rfl
  | true =>
    simp [CheckedUnit.declares, C.Key.name, C.Root.name, C.Ending.apply, known nested]

theorem adds_addEnvironment (proc : ProcInfo) : Adds c (addEnvironment proc) proc.environment := by
  unfold addEnvironment ProcInfo.environment
  split
  · refine (yields_envName proc.id).adds fun name hname => ?_
    refine (yields_captureFields _).adds fun fields _ => adds_addEnvironmentOf ?_
    rw [hname]
    rfl
  · exact adds_pure _

theorem length_paramsOf (params : List ParamInfo) :
    Yields c (paramsOf params) fun typed => typed.length = params.length :=
  (yields_paramsOf params).weaken fun typed same => by simpa using congrArg List.length same

theorem adds_addAllOmitting {proc : ProcInfo} (decls : List Param) {sig : C.Signature}
    {lead : Option C.Param} {params : List C.Param} {keeps : List Nat}
    (named : sig.name = (c.unit.declares ⟨.body, proc.root, .plain⟩).2)
    (within : ∀ keep ∈ keeps, keep < params.length) :
    Adds c (addAllOmitting proc decls sig lead params keeps) ((keeps.map fun keep =>
      (C.Ending.omitting (params.length - keep), lead.toList.length + keep)).flatMap
        (functionEntries proc.root)) := by
  induction keeps with
  | nil => exact adds_pure _
  | cons keep rest ih =>
    obtain ⟨first, others⟩ := List.forall_mem_cons.mp within
    have prototype := adds_addPrototype (c := c)
      ⟨sig.ret, .omitting sig.name (params.length - keep), lead.toList ++ params.take keep⟩
      (e := ⟨.prototype (lead.toList.length + keep), proc.root, .omitting (params.length - keep)⟩)
      (by simp [named, CheckedUnit.declares, C.Key.name, C.Ending.apply, Nat.le_of_lt first])
    have body (code : List C.Stmt) := adds_addBody (c := c)
      ⟨sig.ret, .omitting sig.name (params.length - keep), lead.toList ++ params.take keep⟩
      code (e := ⟨.body, proc.root, .omitting (params.length - keep)⟩)
      (by simp [named, CheckedUnit.declares, C.Key.name, C.Ending.apply])
    have added : Adds c (addOmitting proc decls sig lead params keep) (functionEntries proc.root
        (C.Ending.omitting (params.length - keep), lead.toList.length + keep)) :=
      (prototype.bind fun _ => (quiet_declareDefaults _).adds fun _ _ => body _).of_eq rfl
    exact (added.bind fun _ => ih others).of_eq (by simp)

theorem mem_numbersFrom {first last n : Nat} (h : n ∈ numbersFrom first last) :
    first ≤ n ∧ n < last := by
  obtain ⟨i, hi, rfl⟩ := List.mem_map.mp h
  have := List.mem_range.mp hi
  omega

/-- A procedure adds a function for each way to call it. -/
theorem adds_procedure {proc : ProcInfo} (decls : List Param) (jumps : Bool)
    {body : Activation → Lower (List C.Stmt × Activation)}
    (known : proc.isNested = true → c.unit.called proc.id = proc.name)
    (h : ∀ a, Adds c (body a) M) :
    Adds c (procedure proc decls jumps body) (proc.entries + M) := by
  refine (yields_procName proc).adds fun name hname => (yields_cType _).adds fun ret _ => ?_
  replace hname := hname.trans (functionName_eq known)
  refine (length_paramsOf proc.params).adds fun typed htyped => ?_
  have length : (typed.map Prod.fst).length = proc.params.length := by rw [List.length_map, htyped]
  have viaValue : Adds c (if hasValueForm proc.kind then
      addFunction ⟨ret, .viaValue name, envParam :: typed.map Prod.fst⟩
        [.use .envParam, forward proc name ((typed.map Prod.fst).map C.Param.name)]
      else pure ()) ((if hasValueForm proc.kind then
        [(C.Ending.viaValue, proc.params.length + 1)] else []).flatMap
          (functionEntries proc.root)) := by
    split
    · refine (adds_addFunction _ _ proc.root (.viaValue, proc.params.length + 1) ?_ ?_).of_eq
        (by simp)
      · rw [hname]
        rfl
      · simp [length]
    · exact adds_pure _
  refine ((adds_addEnvironment proc).bind fun _ => (adds_addPrototype _
    (e := ⟨.prototype ((leadParam proc.kind).toList.length + proc.params.length), proc.root,
      .plain⟩) ?_).bind
    fun _ => (yields_openBody proc).adds fun opening _ => (adds_inFunction ((h _).map ?_)).bind
      fun _ => (adds_addBody _ _ (e := ⟨.body, proc.root, .plain⟩) ?_).bind
      fun _ => (adds_addAllOmitting decls ?_ ?_).bind fun _ => viaValue).of_eq ?_
  · simp [length, hname, CheckedUnit.declares]
  · rintro ⟨code, a⟩
    dsimp only
    split
    · exact (adds_pure _).map fun _ => adds_pure _
    · exact (quiet_closeBody _).adds fun _ _ => adds_pure _
  · rw [hname]
    rfl
  · exact hname
  · intro keep mem
    exact (mem_numbersFrom mem).2
  · rw [ProcInfo.coe_entries, length]
    abel

end Procedures

/-! ### Statements -/

section Statements

theorem yields_symbolAt (n : NodeId) : Yields c (symbolOf n) (· = c.unit.symbolAt n) := by
  refine (yields_symbolOf n).weaken fun sym hsym => ?_
  obtain ⟨id, found, rfl⟩ := hsym
  rw [CheckedUnit.symbolAt, found]

theorem yields_procAt (n : NodeId) : Yields c (procOf n) fun proc =>
    proc = c.unit.procAt n ∧ ∃ i, c.unit.procDecls.get? n = some i := by
  refine yields_bind yields_unit fun u hu => ?_
  refine yields_bind (yields_require (fun id found => found) _) fun id found => yields_pure ?_
  subst hu
  exact ⟨by rw [CheckedUnit.procAt, found], id, found⟩

theorem called_procAt (fits : c.unit.Fits c.table) {n : NodeId}
    (found : ∃ i, c.unit.procDecls.get? n = some i) :
    c.unit.called (c.unit.procAt n).id = (c.unit.procAt n).name := by
  obtain ⟨i, found⟩ := found
  obtain ⟨p, here, number⟩ := fits.procs n i found
  have same : c.unit.procAt n = p := by
    rw [CheckedUnit.procAt, found]
    simp [Array.getD_eq_getD_getElem?, here]
  rw [same, CheckedUnit.called, number, Array.getD_eq_getD_getElem?, here]
  rfl

mutual

/-- Statements add what the procedures in them do. -/
theorem adds_stmt (fits : c.unit.Fits c.table) : (s : Stmt) → (a : Activation) →
    Adds c (stmt a s) (c.unit.stmtEntries s)
  | .importUnit _, a => adds_pure _
  | .artifact decl, a => (quiet_artifactStmt decl).adds fun _ _ => adds_pure _
  | .var decl, a => (quiet_varStmt decl).addsNothing
  | .proc ⟨node, _, params, _, ⟨_, code⟩⟩, a => by
    unfold CheckedUnit.stmtEntries
    refine (yields_procAt node.id).adds fun proc hproc => ?_
    obtain ⟨rfl, found⟩ := hproc
    split
    · have added := adds_procedure params (endsInJump code)
        (fun _ => called_procAt fits found) (adds_stmts fits code)
      exact (added.map fun _ => (quiet_bindNested _ _).adds fun _ _ => adds_pure _).of_eq
        (Multiset.coe_add _ _)
    · exact adds_pure _
  | .assign _ target v, a => (quiet_assignStmt target v).adds fun _ _ => adds_pure _
  | .cond ⟨_, cond, ⟨_, body⟩⟩, a =>
    (quiet_value cond).adds fun _ _ => (adds_block fits body a false).map fun _ => adds_pure _
  | .chain _ arms none, a =>
    ((adds_chainArms fits arms a).map fun _ => adds_pure _).of_eq
      (congrArg Multiset.ofList (List.append_nil _).symm)
  | .chain _ arms (some ⟨_, body⟩), a =>
    ((adds_chainArms fits arms a).bind fun _ =>
      (adds_block fits body a false).map fun _ => adds_pure _).of_eq
      (Multiset.coe_add _ _)
  | .whileLoop ⟨_, cond, ⟨_, body⟩⟩, a =>
    (quiet_value cond).adds fun _ _ => (adds_block fits body a true).map fun _ => adds_pure _
  | .rangeLoop node _ start stop ⟨_, body⟩, a =>
    (quiet_value start).adds fun _ _ => (quiet_rangeEnd stop).adds fun _ _ =>
      (yields_temporary _).adds fun _ _ => (yields_temporary _).adds fun _ _ =>
      (yields_temporary _).adds fun _ _ => (yields_symbolOf _).adds fun _ _ =>
        (adds_block fits body a true).map fun _ => adds_pure _
  | .breakLoop _, a => (adds_jumpStmt _).map fun _ => adds_pure _
  | .skipTurn _, a => (adds_jumpStmt _).map fun _ => adds_pure _
  | .ret _ result, a => (quiet_returnStmt result).adds fun _ _ => adds_pure _
  | .block ⟨_, body⟩, a => (adds_block fits body a false).map fun _ => adds_pure _
  | .expr e, a => (quiet_exprStmt e).adds fun _ _ => adds_pure _

theorem adds_stmts (fits : c.unit.Fits c.table) : (ss : List Stmt) → (a : Activation) →
    Adds c (stmts a ss) (c.unit.codeEntries ss)
  | [], a => adds_pure _
  | s :: rest, a => by
    refine ((adds_stmt fits s a).bind fun r => ?_).of_eq (Multiset.coe_add _ _)
    exact (adds_stmts fits rest _).map fun _ => adds_pure _

theorem adds_block (fits : c.unit.Fits c.table) : (ss : List Stmt) → (a : Activation) →
    (isLoopBody : Bool) →
    Adds c (block a isLoopBody ss) (c.unit.codeEntries ss)
  | [], a, isLoopBody => adds_pure _
  | s :: rest, a, isLoopBody => by
    refine ((adds_stmt fits s _).bind fun r => ?_).of_eq (Multiset.coe_add _ _)
    refine (adds_stmts fits rest _).map fun r' => ?_
    dsimp only
    split
    · exact (adds_pure _).map fun _ => adds_pure _
    · exact (quiet_releaseAll _).adds fun _ _ => adds_pure _

theorem adds_chainArms (fits : c.unit.Fits c.table) : (arms : List Guarded) → (a : Activation) →
    Adds c (chainArms a arms) (c.unit.armEntries arms)
  | [], a => adds_pure _
  | ⟨_, cond, ⟨_, body⟩⟩ :: rest, a => by
    refine (quiet_value cond).adds fun _ _ => ?_
    exact ((adds_block fits body a false).bind fun _ => (adds_chainArms fits rest a).map fun _ =>
      adds_pure _).of_eq (Multiset.coe_add _ _)

end

end Statements

/-! ### Declarations -/

section Declarations

theorem adds_storage (decl : VarDecl) {name : C.Name} (type : Ty) (mutable : Bool) {e : Entry}
    (named : (.global, name) = c.unit.declares e) :
    Adds c (storage decl name type mutable) {e} := by
  refine (yields_cType _).adds fun typeName _ =>
    (yields_isStoredConstant _ _ _).adds fun isConst _ => ?_
  split
  · exact (quiet_value _).adds fun init _ => (adds_addGlobal named).map fun _ => adds_pure _
  · exact (adds_addGlobal named).map fun _ => adds_pure _

theorem adds_namespaceStorage {a : String} (entries : List (PropInfo × VarDecl)) :
    Adds c (namespaceStorage ⟨c.unit.module, a⟩ entries)
      (entries.map fun x => (⟨.global, .member [a, x.1.name], .plain⟩ : Entry)) := by
  induction entries with
  | nil => exact adds_pure _
  | cons entry rest ih =>
    have first := adds_storage (c := c) entry.2 entry.1.type entry.1.mutable
      (e := ⟨.global, .member [a, entry.1.name], .plain⟩) rfl
    exact (first.bind fun _ => ih.map fun _ => adds_pure _).of_eq (by simp)

theorem length_fieldParams (props : List PropInfo) :
    Yields c (fieldParams props) fun fields => fields.length = props.length := by
  induction props with
  | nil => exact yields_pure rfl
  | cons prop rest ih =>
    refine yields_bind (yields_cType _) fun _ _ => yields_bind ih fun fields same => yields_pure ?_
    rw [List.length_cons, List.length_cons, same]

theorem yields_cType_record {ref : ArtifactRef} (record : c.table.isEnum ref = false) :
    Yields c (cType (.artifact ref)) (· = (C.artifactName ref).text) := by
  refine ⟨fun s name s' run => ⟨((yields_cType _).gives s name s' run).1, ?_⟩,
    (yields_cType _).inside⟩
  obtain ⟨t, s₁, got, run⟩ := bind_eq_ok.mp run
  obtain ⟨-, rfl⟩ := yields_table.gives s t s₁ got
  obtain ⟨_, s₂, -, run⟩ := bind_eq_ok.mp run
  obtain ⟨_, s₃, -, run⟩ := bind_eq_ok.mp run
  obtain ⟨_, s₄, -, run⟩ := bind_eq_ok.mp run
  rw [ArtifactTable.typeName, record] at run
  cases run
  rfl

theorem adds_addShortConstructors {a : String} {ref : ArtifactRef} (defaults : List C.Expr)
    {fields : List C.Param} (keeps : List Nat) (hkeeps : ∀ keep ∈ keeps, keep < fields.length)
    (own : ref = ⟨c.unit.module, a⟩) :
    Adds c (addShortConstructors ref (C.artifactName ref).text fields defaults keeps)
      ((keeps.map fun keep => (C.Ending.shortConstructor (fields.length - keep), keep)).flatMap
        (functionEntries (.member [a]))) := by
  subst own
  induction keeps with
  | nil => exact adds_pure _
  | cons keep rest ih =>
    obtain ⟨first, others⟩ := List.forall_mem_cons.mp hkeeps
    unfold addShortConstructors
    split
    · exact adds_throw _
    · refine ((adds_addFunction _ _ (.member [a]) (.shortConstructor (fields.length - keep), keep)
        rfl ?_).bind fun _ => ih others).of_eq (by simp)
      simp [Nat.le_of_lt first]

theorem yields_artifactOf (ref : ArtifactRef) : Yields c (artifact ref) fun info =>
    c.table.get? ref = some info := by
  refine yields_bind yields_table fun t ht => yields_lift (t.inside_find ref) fun info found => ?_
  subst ht
  unfold ArtifactTable.find at found
  split at found
  · next known =>
    cases found
    exact known
  · cases found

theorem adds_record {a : String} (record : c.table.isEnum ⟨c.unit.module, a⟩ = false)
    {info : ArtifactInfo} (found : c.table.get? ⟨c.unit.module, a⟩ = some info)
    (props : List (PropInfo × VarDecl)) :
    Adds c (Lower.record ⟨c.unit.module, a⟩ props)
      ((recordForms info.props.length).flatMap (functionEntries (.member [a]))) := by
  refine (yields_artifactOf _).adds fun info' found' => ?_
  obtain rfl : info = info' := Option.some.inj (found.symm.trans found')
  refine (yields_cType_record record).adds fun name hname => ?_
  subst hname
  refine (length_fieldParams _).adds fun fields length => ?_
  refine (quiet_fieldDefaults _).adds fun defaults _ => ?_
  refine ((adds_addFunction _ _ (.member [a]) (.constructor, fields.length) rfl rfl).bind fun _ =>
    (adds_addShortConstructors defaults _ (fun keep mem => (mem_numbersFrom mem).2) rfl).bind
      fun _ => adds_addFunction _ _ (.member [a]) (.defaultRecord, 0) rfl rfl).of_eq ?_
  simp [recordForms, length]

theorem adds_procDecl (fits : c.unit.Fits c.table) (decl : ProcDecl)
    (found : ∃ i, c.unit.procDecls.get? decl.node.id = some i) :
    Adds c (procDecl decl (c.unit.procAt decl.node.id)) (c.unit.procEntries decl) :=
  (adds_procedure decl.params (endsInJump decl.body.stmts) (fun _ => called_procAt fits found)
    (adds_stmts fits decl.body.stmts)).of_eq (Multiset.coe_add _ _)

theorem adds_artifactProcs (fits : c.unit.Fits c.table) (decls : List ProcDecl) :
    Adds c (artifactProcs decls) (decls.flatMap c.unit.procEntries) := by
  induction decls with
  | nil => exact adds_pure _
  | cons decl rest ih =>
    refine (yields_procAt decl.node.id).adds fun proc hproc => ?_
    obtain ⟨rfl, found⟩ := hproc
    exact ((adds_procDecl fits decl found).bind fun _ => ih).of_eq (Multiset.coe_add _ _)

theorem adds_artifactDecl (fits : c.unit.Fits c.table) {a : ArtifactDecl}
    (mem : .artifact a ∈ c.unit.program.stmts) :
    Adds c (artifactDecl a) (c.unit.declEntries c.table (.artifact a)) := by
  refine yields_unit.adds fun u hu => ?_
  subst hu
  refine (yields_artifactOf _).adds fun info found => ?_
  have rest (owned : List Owned) : Adds c (do artifactProcs a.procs; pure owned)
      (a.procs.flatMap c.unit.procEntries) :=
    (adds_artifactProcs fits a.procs).map fun _ => adds_pure _
  have known : c.unit.artifactOf c.table a = info := by rw [CheckedUnit.artifactOf, found]; rfl
  rw [CheckedUnit.declEntries, known, ← Multiset.coe_add, ArtifactDecl.entries]
  cases kind : a.kind with
  | enumeration =>
    refine (adds_addTo fun s => ?_).bind fun _ => (rest _)
    have cases' : info.cases.map (fun case => c.unit.declares
        ⟨.enumCase, .member [a.name.value, case.1], .plain⟩) = info.cases.map fun case =>
          (.enumCase, C.memberName ⟨c.unit.module, a.name.value⟩ case.1) := rfl
    simp only [C.Sections.parts, Array.toList_appendList, List.map_append, ← Multiset.coe_add,
      Multiset.map_coe, List.map_map, Function.comp_def, cases']
    abel
  | namespaced => exact (adds_namespaceStorage _).bind fun _ => rest _
  | record => exact (adds_record (fits.records a mem kind) found _).bind fun _ => rest _

theorem adds_decl (fits : c.unit.Fits c.table) {s : Stmt} (mem : s ∈ c.unit.program.stmts) :
    Adds c (decl s) (c.unit.declEntries c.table s) := by
  cases s with
  | artifact a => exact adds_artifactDecl fits mem
  | proc d =>
    refine (yields_procAt d.node.id).adds fun proc hproc => ?_
    obtain ⟨rfl, found⟩ := hproc
    have entries : c.unit.declEntries c.table (.proc d) =
        if (c.unit.procAt d.node.id).kind = .topLevel then c.unit.procEntries d else [] := rfl
    rw [entries]
    split
    · exact (adds_procDecl fits d found).map fun _ => adds_pure _
    · exact adds_pure _
  | var v =>
    refine (yields_symbolAt v.node.id).adds fun sym hsym => ?_
    refine (yields_globalName _).adds fun name hname => adds_storage v _ _ ?_
    rw [hname, hsym]
    rfl
  | _ => exact adds_pure _

theorem adds_decls (fits : c.unit.Fits c.table) {ss : List Stmt} (sub : ss ⊆ c.unit.program.stmts) :
    Adds c (decls ss) (ss.flatMap (c.unit.declEntries c.table)) := by
  induction ss with
  | nil => exact adds_pure _
  | cons s rest ih =>
    obtain ⟨mem, others⟩ := List.cons_subset.mp sub
    exact ((adds_decl fits mem).bind fun _ => (ih others).map fun _ => adds_pure _).of_eq
      (Multiset.coe_add _ _)

/-- A unit adds what its declarations do. -/
theorem adds_module (fits : c.unit.Fits c.table) :
    Adds c Lower.module (c.unit.entries c.table) := by
  refine yields_unit.adds fun u hu => ?_
  subst hu
  refine ((adds_decls fits (List.Subset.refl _)).bind fun owned => (adds_inFunction
    ((adds_stmts fits _ _).map ?_)).bind fun start => (quiet_releaseAll _).adds fun finish _ =>
      (adds_addFunction _ _ .start (.plain, 0) rfl rfl).bind fun _ =>
      (adds_addFunction _ _ .finish (.plain, 0) rfl rfl).map fun _ => ?_).of_eq ?_
  · rintro ⟨code, a⟩
    exact (quiet_releaseAll _).adds fun _ _ => adds_pure _
  · exact adds_addTo fun s => by simp [C.Sections.parts]
  · simp only [CheckedUnit.entries, ← Multiset.coe_add]
    abel

end Declarations

end Lower

/-- Units add their names one after the other. -/
theorem parts_lowerUnits {table : ArtifactTable} {units : List CheckedUnit}
    (fits : ∀ u ∈ units, u.Fits table) {state final : LowerState}
    (lowered : lowerUnits table state units = .ok final) :
    final.sections.parts = state.sections.parts +
        .ofList (units.flatMap fun u => (u.entries table).map u.declares) ∧
      state.types.Extends table final.types := by
  induction units generalizing state with
  | nil =>
    cases lowered
    exact ⟨by simp, .refl _⟩
  | cons u rest ih =>
    obtain ⟨first, others⟩ := List.forall_mem_cons.mp fits
    rw [lowerUnits] at lowered
    cases run : (Lower.module ⟨u, table⟩).run state with
    | error e =>
      rw [run] at lowered
      cases lowered
    | ok r =>
      rw [run] at lowered
      obtain ⟨parts, types⟩ := Lower.adds_module (c := ⟨u, table⟩) first _ _ _ run
      obtain ⟨parts', types'⟩ := ih others lowered
      refine ⟨?_, types.trans types'⟩
      rw [parts', parts, add_assoc, List.flatMap_cons, ← Multiset.coe_add, Multiset.map_coe]

end ArkLang
