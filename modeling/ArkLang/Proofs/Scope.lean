import Mathlib.Data.Set.Basic
import ArkLang.Analysis.Unit

/-!
# What values mention

Types name artifacts by their modules, and everything that is known of a unit speaks of types. A
scope says which modules may be named and which types may occur. A value lies within a scope if
everything that it mentions does. What an outline says of an artifact depends only on what it knows
of its module.
-/

namespace ArkLang

/-! ### Scopes -/

/-- Faults of records that contain themselves. They are looked for when all records are known. -/
abbrev SemanticFault.IsContainment (fault : SemanticFault) : Prop :=
  ∃ record prop, fault = .containsItself record prop

/-- The modules whose artifacts may be mentioned, the types that may occur, and the errors that may
be reported. -/
structure Scope where
  modules : Set ModuleId
  Allows : Ty → Prop
  Reports : SemanticError → Prop
  reports : ∀ {e : SemanticError}, ¬ e.fault.IsContainment → Reports e
  int : Allows .int
  float : Allows .float
  string : Allows .string
  bool : Allows .bool
  void : Allows .void
  unknown : Allows .unknown
  artifact_iff : ∀ {ref : ArtifactRef}, Allows (.artifact ref) ↔ ref.module ∈ modules
  list_iff : ∀ {elem : Ty}, Allows (.list elem) ↔ Allows elem
  proc_iff : ∀ {params : List Ty} {ret : Ty},
    Allows (.proc params ret) ↔ (∀ t ∈ params, Allows t) ∧ Allows ret
  of_array : ∀ {elem : Ty} {size : Nat}, Allows (.array elem size) → Allows elem
  /-- Elements that contain no lists may stand in arrays. -/
  to_array : ∀ {elem : Ty} (size : Nat), Allows elem → elem.containsList = false →
    Allows (.array elem size)

attribute [simp, grind ←] Scope.int Scope.float Scope.string Scope.bool Scope.void Scope.unknown
attribute [grind ←] Scope.reports
attribute [simp, grind =] Scope.artifact_iff Scope.list_iff
attribute [grind →] Scope.of_array
attribute [grind ←] Scope.to_array

/-- Everything may be mentioned. -/
def Scope.all : Scope where
  modules := Set.univ
  Allows _ := True
  Reports _ := True
  reports _ := trivial
  int := trivial
  float := trivial
  string := trivial
  bool := trivial
  void := trivial
  unknown := trivial
  artifact_iff := .rfl
  list_iff := .rfl
  proc_iff := by simp
  of_array _ := trivial
  to_array _ _ _ := trivial

mutual

/-- Every artifact that a type mentions belongs to one of the modules. -/
def Ty.Within (M : Set ModuleId) : Ty → Prop
  | .artifact ref => ref.module ∈ M
  | .array elem _ => elem.Within M
  | .list elem => elem.Within M
  | .proc params ret => Ty.AllWithin M params ∧ ret.Within M
  | .int | .float | .string | .bool | .void | .unknown => True

def Ty.AllWithin (M : Set ModuleId) : List Ty → Prop
  | [] => True
  | t :: ts => t.Within M ∧ Ty.AllWithin M ts

end

theorem Ty.allWithin_iff {M : Set ModuleId} {ts : List Ty} :
    Ty.AllWithin M ts ↔ ∀ t ∈ ts, t.Within M := by
  induction ts with
  | nil => simp [AllWithin]
  | cons t ts ih => simp [AllWithin, ih]

/-- Only artifacts of given modules may be mentioned. -/
def Scope.ofModules (M : Set ModuleId) : Scope where
  modules := M
  Allows := Ty.Within M
  Reports _ := True
  reports _ := trivial
  int := trivial
  float := trivial
  string := trivial
  bool := trivial
  void := trivial
  unknown := trivial
  artifact_iff := .rfl
  list_iff := .rfl
  proc_iff := and_congr_left' Ty.allWithin_iff
  of_array h := h
  to_array _ h _ := h

instance : Coe (Set ModuleId) Scope :=
  ⟨Scope.ofModules⟩

/-! ### Values within scopes -/

/-- Values that mention modules and types. -/
class Scoped (α : Type) where
  /-- Everything that a value mentions lies within a scope. -/
  Within : Scope → α → Prop
  within_all : ∀ a, Within .all a

open Scoped (Within)

namespace Scoped

variable {α β : Type} [Scoped α] [Scoped β]

/-- Values that mention what a part of them mentions. -/
@[reducible]
def via (part : α → β) : Scoped α :=
  ⟨fun S a => Within S (part a), fun a => within_all (part a)⟩

instance : Scoped Unit := ⟨fun _ _ => True, fun _ => trivial⟩

instance : Scoped Bool := ⟨fun _ _ => True, fun _ => trivial⟩

instance : Scoped Nat := ⟨fun _ _ => True, fun _ => trivial⟩

instance : Scoped Place := ⟨fun _ _ => True, fun _ => trivial⟩

instance : Scoped ProcRef := ⟨fun _ _ => True, fun _ => trivial⟩

instance : Scoped Ty := ⟨fun S t => S.Allows t, fun _ => trivial⟩

instance : Scoped ArtifactRef := ⟨fun S ref => ref.module ∈ S.modules, fun _ => trivial⟩

instance : Scoped (Option α) := ⟨fun S x => ∀ a ∈ x, Within S a, fun _ _ _ => within_all _⟩

instance : Scoped (List α) := ⟨fun S xs => ∀ a ∈ xs, Within S a, fun _ _ _ => within_all _⟩

instance : Scoped (α × β) :=
  ⟨fun S x => Within S x.1 ∧ Within S x.2, fun _ => ⟨within_all _, within_all _⟩⟩

instance : Scoped SemanticError := ⟨fun S e => S.Reports e, fun _ => trivial⟩

instance : Scoped ImportFailure := ⟨fun _ _ => True, fun _ => trivial⟩

instance : Scoped (Except α β) where
  Within S := fun
    | .ok b => Within S b
    | .error a => Within S a
  within_all
    | .ok _ | .error _ => within_all _

instance : Scoped (NameTable α) :=
  ⟨fun S t => ∀ name a, t.get? name = some a → Within S a, fun _ _ _ _ => within_all _⟩

instance : Scoped ParamSig := via (·.type)

instance : Scoped ProcSig := via fun sig => (sig.params, sig.ret)

instance : Scoped PropInfo := via (·.type)

instance : Scoped MethodInfo := via (·.sig)

instance : Scoped ArtifactInfo := via fun a => (a.props, a.methods)

instance : Scoped GlobalInfo := via (·.type)

instance : Scoped Interface where
  Within S i := i.module ∈ S.modules ∧ Within S i.globals ∧ Within S i.procs ∧ Within S i.artifacts
  within_all _ := ⟨trivial, within_all _, within_all _, within_all _⟩

instance : Scoped Binding where
  Within S := fun
    | .symbol _ | .proc _ => True
    | .artifact ref => Within S ref
    | .module interface => Within S interface
  within_all
    | .symbol _ | .proc _ | .artifact _ => trivial
    | .module _ => within_all _

instance : Scoped SelfContext := via fun
  | .record ref _ | .namespaced ref => ref

instance : Scoped Context := via (·.self)

instance : Scoped SymbolInfo := via (·.type)

instance : Scoped ParamInfo := via (·.type)

instance : Scoped ProcInfo := via fun p => (p.params, p.ret)

instance : Scoped ProcEntry := via fun p => (p.info, p.ret)

instance : Scoped PendingReceiver := via (·.artifact)

instance : Scoped Outline.MethodSource where
  Within S := fun
    | .ofProc _ => True
    | .ofInterface method => Within S method
  within_all
    | .ofProc _ => trivial
    | .ofInterface _ => within_all _

instance : Scoped Check.StaticPath where
  Within S := fun
    | .module interface => Within S interface
    | .artifact ref => Within S ref
    | .failed => True
  within_all
    | .module _ => within_all _
    | .artifact _ | .failed => trivial

end Scoped

open Scoped (within_all)

/-- Everything that the tables of a unit mention lies within a scope. -/
structure Analysis.TablesWithin (S : Scope) (s : Analysis) : Prop where
  exprTypes : ∀ id t, s.exprTypes.get? id = some t → S.Allows t
  symbolTypes : ∀ sym ∈ s.symbols, Within S sym
  procTypes : ∀ p ∈ s.procs, Within S p
  propTypes : Within S s.props
  receivers : ∀ p ∈ s.pending, Within S p
  reported : ∀ e ∈ s.errors, Within S e

instance : Scoped Analysis where
  Within S s := s.TablesWithin S
  within_all _ := ⟨fun _ _ _ => trivial, fun _ _ => within_all _, fun _ _ => within_all _,
    within_all _, fun _ _ => within_all _, fun _ _ => within_all _⟩

/-- Everything that an outline mentions lies within a scope, and through its modules it knows of
nothing else. -/
structure Outline.Inside (S : Scope) (o : Outline) : Prop where
  module : o.module ∈ S.modules
  names : ∀ entry ∈ o.names, Within S entry.2
  imported : Within S o.imported
  reached : ∀ m ∈ S.modules, Within S (o.reached m)
  globals : ∀ g ∈ o.globals, Within S g.declared
  procs : ∀ p ∈ o.procs, Within S p.self
  errors : ∀ e ∈ o.errors, Within S e

theorem Outline.inside_all (o : Outline) : o.Inside .all :=
  ⟨trivial, fun _ _ => within_all _, within_all _, fun _ _ => within_all _, fun _ _ => within_all _,
    fun _ _ => within_all _, fun _ _ => within_all _⟩

/-! ### Parts of values -/

section Parts

variable {α β ε : Type} [Scoped α] [Scoped β] [Scoped ε] {S : Scope}

@[simp, grind =]
theorem within_unit {u : Unit} : Within S u ↔ True :=
  .rfl

@[simp, grind =]
theorem within_procRef {ref : ProcRef} : Within S ref ↔ True :=
  .rfl

@[simp, grind =]
theorem within_ty {t : Ty} : Within S t ↔ S.Allows t :=
  .rfl

@[simp, grind =]
theorem within_none : Within S (none : Option α) ↔ True := by
  simp [Within]

@[simp, grind =]
theorem within_some {a : α} : Within S (some a) ↔ Within S a := by
  simp [Within]

@[simp, grind =]
theorem within_nil : Within S ([] : List α) ↔ True := by
  simp [Within]

@[simp, grind =]
theorem within_cons {a : α} {xs : List α} :
    Within S (a :: xs) ↔ Within S a ∧ Within S xs := by
  simp [Within]

@[simp, grind =]
theorem within_ok {a : α} : Within S (.ok a : Except ε α) ↔ Within S a :=
  .rfl

@[simp, grind =]
theorem within_error {e : ε} : Within S (.error e : Except ε α) ↔ Within S e :=
  .rfl

@[simp, grind =]
theorem within_semanticError {e : SemanticError} : Within S e ↔ S.Reports e :=
  .rfl

@[simp, grind =]
theorem within_procSig {sig : ProcSig} :
    Within S sig ↔ Within S sig.params ∧ S.Allows sig.ret :=
  .rfl

@[simp, grind =]
theorem within_propInfo {p : PropInfo} : Within S p ↔ S.Allows p.type :=
  .rfl

@[simp, grind =]
theorem within_globalInfo {g : GlobalInfo} : Within S g ↔ S.Allows g.type :=
  .rfl

@[simp, grind =]
theorem within_interface {i : Interface} : Within S i ↔
    i.module ∈ S.modules ∧ Within S i.globals ∧ Within S i.procs ∧ Within S i.artifacts :=
  .rfl

variable {ref : ArtifactRef}

@[simp, grind =]
theorem within_binding_artifact :
    Within S (Binding.artifact ref) ↔ ref.module ∈ S.modules :=
  .rfl

@[simp, grind =]
theorem within_binding_module {interface : Option Interface} :
    Within S (Binding.module interface) ↔ Within S interface :=
  .rfl

@[simp, grind =]
theorem within_self_record {method : ProcId} :
    Within S (SelfContext.record ref method) ↔ ref.module ∈ S.modules :=
  .rfl

@[simp, grind =]
theorem within_self_namespaced :
    Within S (SelfContext.namespaced ref) ↔ ref.module ∈ S.modules :=
  .rfl

@[simp, grind =]
theorem within_path_module {interface : Interface} :
    Within S (Check.StaticPath.module interface) ↔ Within S interface :=
  .rfl

@[simp, grind =]
theorem within_path_artifact :
    Within S (Check.StaticPath.artifact ref) ↔ ref.module ∈ S.modules :=
  .rfl

@[simp, grind =]
theorem within_path_failed : Within S Check.StaticPath.failed ↔ True :=
  .rfl

@[simp, grind =]
theorem within_context {c : Context} : Within S c ↔ Within S c.self :=
  .rfl

@[simp, grind =]
theorem within_symbolInfo {sym : SymbolInfo} : Within S sym ↔ S.Allows sym.type :=
  .rfl

@[simp, grind =]
theorem within_procEntry {p : ProcEntry} : Within S p ↔ Within S p.info ∧ Within S p.ret :=
  .rfl

@[grind ←]
theorem ProcSig.type_within {sig : ProcSig} (h : Within S sig) : S.Allows sig.type := by
  refine S.proc_iff.mpr ⟨fun t mem => ?_, h.2⟩
  obtain ⟨p, hp, rfl⟩ := List.mem_map.mp mem
  exact h.1 p hp

theorem ProcInfo.sig_within {p : ProcInfo} (h : Within S p) : Within S p.sig := by
  refine ⟨fun q mem => ?_, h.2⟩
  obtain ⟨q, hq, rfl⟩ := List.mem_map.mp mem
  exact h.1 q hq

theorem ProcEntry.within_default : Within S (default : ProcEntry) :=
  ⟨⟨within_nil.mpr trivial, S.int⟩, within_none.mpr trivial⟩

theorem within_getD [Inhabited β] {xs : Array β} {i : Nat} (h : ∀ x ∈ xs, Within S x)
    (hd : Within S (default : β)) : Within S (xs.getD i default) := by
  rw [Array.getD_eq_getD_getElem?]
  cases found : xs[i]? with
  | none => exact hd
  | some x => exact h x (Array.mem_of_getElem? found)

theorem mem_of_lookup_eq_some {κ ν : Type} [BEq κ] [LawfulBEq κ] {entries : List (κ × ν)} {key : κ}
    {value : ν} (h : entries.lookup key = some value) : (key, value) ∈ entries := by
  induction entries with
  | nil => cases h
  | cons entry rest ih =>
    rw [List.lookup_cons] at h
    split at h
    · next here =>
      cases h
      rw [eq_of_beq here]
      exact List.mem_cons_self
    · exact List.mem_cons_of_mem _ (ih h)

/-- What is found in a table within a scope. -/
theorem within_of_lookup {κ : Type} [BEq κ] [LawfulBEq κ] {entries : List (κ × β)}
    (h : ∀ entry ∈ entries, Within S entry.2) (key : κ) : Within S (entries.lookup key) :=
  fun value found => h (key, value) (mem_of_lookup_eq_some found)

theorem NameTable.insert_within {table : NameTable α} {value : α} (ht : Within S table)
    (h : Within S value) (name : String) : Within S (table.insert name value) := by
  intro key a found
  rw [NameTable.get?_insert] at found
  split at found
  · cases found
    exact h
  · exact ht key a found

theorem NameTable.empty_within : Within S ({} : NameTable α) := by
  intro name a found
  simp [NameTable.get?] at found

mutual

theorem Ty.Within.mono {M N : Set ModuleId} (sub : M ⊆ N) : {t : Ty} → t.Within M → t.Within N
  | .artifact _, h => sub h
  | .array elem _, h => Ty.Within.mono (t := elem) sub h
  | .list elem, h => Ty.Within.mono (t := elem) sub h
  | .proc _ _, h => ⟨Ty.AllWithin.mono sub h.1, Ty.Within.mono sub h.2⟩
  | .int, _ | .float, _ | .string, _ | .bool, _ | .void, _ | .unknown, _ => trivial

theorem Ty.AllWithin.mono {M N : Set ModuleId} (sub : M ⊆ N) :
    {ts : List Ty} → Ty.AllWithin M ts → Ty.AllWithin N ts
  | [], _ => trivial
  | _ :: _, h => ⟨Ty.Within.mono sub h.1, Ty.AllWithin.mono sub h.2⟩

end

theorem ProcSig.within_mono {M N : Set ModuleId} (sub : M ⊆ N) {sig : ProcSig}
    (h : Within (M : Scope) sig) :
    Within (N : Scope) sig :=
  ⟨fun p mem => (h.1 p mem : p.type.Within M).mono sub, Ty.Within.mono sub h.2⟩

theorem Interface.within_mono {M N : Set ModuleId} (sub : M ⊆ N) {i : Interface}
    (h : Within (M : Scope) i) : Within (N : Scope) i := by
  obtain ⟨module, globals, procs, artifacts⟩ := h
  refine ⟨sub module, fun name g found => ?_, fun name sig found => ?_, fun name a found => ?_⟩
  · exact Ty.Within.mono sub (globals name g found)
  · exact ProcSig.within_mono sub (procs name sig found)
  · obtain ⟨props, methods⟩ := artifacts name a found
    exact ⟨fun p mem => Ty.Within.mono sub (props p mem),
      fun m mem => ProcSig.within_mono sub (methods m mem)⟩

end Parts

/-! ### Outlines with another view -/

/-- How the imports of a program are answered, as far as a scope goes. -/
structure Resolver.SameOn (S : Scope) (p : Program)
    (resolver resolver' : Resolver) : Prop where
  resolve : ∀ i ∈ p.imports, resolver'.resolve i = resolver.resolve i
  resolved : ∀ i ∈ p.imports, Within S (resolver.resolve i)
  view : ∀ m ∈ S.modules, resolver'.interface? m = resolver.interface? m
  viewed : ∀ m ∈ S.modules, Within S (resolver.interface? m)

namespace Outline

/-- An outline with another view of the modules that it does not import itself. -/
def reaching (o : Outline) (view : ModuleId → Option Interface) : Outline :=
  { o with reached := view }

/-- An outline within a scope, and a view of the modules that agrees with its own on those of the
scope. -/
structure SameView (S : Scope) (o : Outline) (view : ModuleId → Option Interface) : Prop
    where
  inside : o.Inside S
  view : ∀ m ∈ S.modules, view m = o.reached m

variable {S : Scope} {o : Outline} {view : ModuleId → Option Interface}

theorem localArtifact?_reaching (ref : ArtifactRef) :
    (o.reaching view).localArtifact? ref = o.localArtifact? ref :=
  rfl

section SameView

variable (same : SameView S o view) {ref : ArtifactRef} (href : ref.module ∈ S.modules)

include same href

theorem importedArtifact?_reaching :
    (o.reaching view).importedArtifact? ref = o.importedArtifact? ref := by
  simp only [importedArtifact?, interface?, reaching, same.view _ href]

theorem artifactKind?_reaching :
    (o.reaching view).artifactKind? ref = o.artifactKind? ref := by
  simp only [artifactKind?, localArtifact?_reaching, importedArtifact?_reaching same href]

theorem caseValue?_reaching (name : String) :
    (o.reaching view).caseValue? ref name = o.caseValue? ref name := by
  simp only [caseValue?, localArtifact?_reaching, importedArtifact?_reaching same href]

theorem method?_reaching (name : String) :
    (o.reaching view).method? ref name = o.method? ref name := by
  simp only [method?, localArtifact?_reaching, importedArtifact?_reaching same href]

end SameView

namespace Inside

variable (inside : o.Inside S)

include inside

theorem lookup (c : Context) (name : String) : Within S (c.lookup o name) := by
  rw [Context.lookup]
  split
  · exact within_some.mpr trivial
  · exact within_of_lookup inside.names name

theorem importedArtifact? {ref : ArtifactRef} (href : ref.module ∈ S.modules) :
    Within S (o.importedArtifact? ref) := by
  have found : Within S (o.interface? ref.module) := by
    rw [interface?]
    cases imported : o.imported.find? (·.module == ref.module) with
    | none => exact inside.reached _ href
    | some i => exact within_some.mpr (inside.imported i (List.mem_of_find?_eq_some imported))
  intro a ha
  obtain ⟨i, hi, ha⟩ := Option.bind_eq_some_iff.mp ha
  exact (found i hi).2.2.2 _ a ha

theorem method? {ref : ArtifactRef} (href : ref.module ∈ S.modules) (name : String) :
    Within S (o.method? ref name) := by
  rw [Outline.method?]
  split
  · intro source found
    obtain ⟨id, -, rfl⟩ := Option.map_eq_some_iff.mp found
    trivial
  · intro source found
    obtain ⟨m, hm, rfl⟩ := Option.map_eq_some_iff.mp found
    obtain ⟨a, ha, hm⟩ := Option.bind_eq_some_iff.mp hm
    exact (inside.importedArtifact? href a ha).2 m (List.mem_of_find?_eq_some hm)

end Inside

/-! ### Written types -/

theorem artifactType_within {ref : ArtifactRef} (href : ref.module ∈ S.modules) (span : Span) :
    Within S (o.artifactType ref span) := by
  unfold artifactType
  split
  · exact within_error.mpr (S.reports (by simp))
  · exact within_ok.mpr (S.artifact_iff.mpr href)

theorem namedType_within (inside : o.Inside S) (name : Ident) (span : Span) :
    Within S (o.namedType name span) := by
  have found := within_of_lookup inside.names name.value
  unfold namedType
  split
  · next t scalar =>
    refine within_ok.mpr ?_
    unfold scalar? at scalar
    grind
  · split
    · next ref named =>
      have href : ref.module ∈ S.modules := by simpa [named] using found
      exact artifactType_within href span
    · exact within_error.mpr (S.reports (by simp))

theorem qualifiedType_within (inside : o.Inside S) (module name : Ident) (span : Span) :
    Within S (o.qualifiedType module name span) := by
  have found := within_of_lookup inside.names module.value
  unfold qualifiedType
  split
  · exact within_ok.mpr S.unknown
  · next interface named =>
    have hmodule : interface.module ∈ S.modules := (within_some.mp (found _ named)).1
    split
    · exact artifactType_within hmodule span
    · exact within_error.mpr (S.reports (by simp))
  · exact within_error.mpr (S.reports (by simp))

section SameView

variable (same : SameView S o view)

include same

theorem artifactType_reaching {ref : ArtifactRef} (href : ref.module ∈ S.modules) (span : Span) :
    (o.reaching view).artifactType ref span = o.artifactType ref span := by
  rw [artifactType, artifactType, artifactKind?_reaching same href]

theorem namedType_reaching (name : Ident) (span : Span) :
    (o.reaching view).namedType name span = o.namedType name span := by
  have found := within_of_lookup same.inside.names name.value
  unfold namedType
  split
  · rfl
  · split
    · next ref named =>
      have named : o.names.lookup name.value = some (.artifact ref) := named
      have href : ref.module ∈ S.modules := by simpa [named] using found
      simp only [named]
      exact artifactType_reaching same href span
    · next none =>
      have none : ∀ ref, o.names.lookup name.value = some (.artifact ref) → False := none
      grind

theorem qualifiedType_reaching (module name : Ident) (span : Span) :
    (o.reaching view).qualifiedType module name span = o.qualifiedType module name span := by
  have found := within_of_lookup same.inside.names module.value
  have names : (o.reaching view).names = o.names := rfl
  unfold qualifiedType
  rw [names]
  split
  · rfl
  · next interface named =>
    have hmodule : interface.module ∈ S.modules := (within_some.mp (found _ named)).1
    split
    · exact artifactType_reaching same hmodule span
    · rfl
  · rfl

end SameView

theorem valueType_within {type : Ty} (h : S.Allows type) (span : Span) :
    Within S (valueType type span) := by
  unfold valueType
  split
  · exact within_error.mpr (S.reports (by simp))
  · exact within_ok.mpr h

theorem arrayType_within {elem : Ty} (h : S.Allows elem) (elemSpan : Span) (size : Nat)
    (span : Span) : Within S (arrayType elem elemSpan size span) := by
  unfold arrayType
  grind

theorem within_bind {α β : Type} [Scoped α] [Scoped β] {x : Except SemanticError α}
    {f : α → Except SemanticError β} (hx : Within S x)
    (hf : ∀ a, Within S a → Within S (f a)) : Within S (x >>= f) := by
  cases x with
  | error e => exact hx
  | ok a => exact hf a (within_ok.mp hx)

mutual

/-- What a type that is written down mentions. -/
theorem typeOf_within (inside : o.Inside S) : (t : TypeExpr) → Within S (o.typeOf t)
  | .named span name => namedType_within inside name span
  | .qualified span module name => qualifiedType_within inside module name span
  | .array span elem size =>
    within_bind (typeOf_within inside elem) fun _ ht =>
      within_bind (valueType_within ht _) fun _ ht => arrayType_within ht _ size span
  | .list _ elem =>
    within_bind (typeOf_within inside elem) fun _ ht =>
      within_bind (valueType_within ht _) fun _ ht => within_ok.mpr (S.list_iff.mpr ht)
  | .proc _ params ret =>
    within_bind (valueTypesOf_within inside params) fun _ hts =>
      within_bind (typeOf_within inside ret) fun _ ht =>
        within_ok.mpr (S.proc_iff.mpr ⟨hts, ht⟩)

theorem valueTypesOf_within (inside : o.Inside S) :
    (ts : List TypeExpr) → Within S (o.valueTypesOf ts)
  | [] => within_ok.mpr (within_nil.mpr trivial)
  | t :: ts =>
    within_bind (typeOf_within inside t) fun _ ht => within_bind (valueType_within ht _) fun _ ht =>
      within_bind (valueTypesOf_within inside ts) fun _ hts =>
        within_ok.mpr (within_cons.mpr ⟨ht, hts⟩)

end

theorem valueTypeOf_within (inside : o.Inside S) (t : TypeExpr) :
    Within S (o.valueTypeOf t) :=
  within_bind (typeOf_within inside t) fun _ ht => valueType_within ht _

mutual

/-- A type that is written down means the same in both views. -/
theorem typeOf_reaching (same : SameView S o view) :
    (t : TypeExpr) → (o.reaching view).typeOf t = o.typeOf t
  | .named span name => namedType_reaching same name span
  | .qualified span module name => qualifiedType_reaching same module name span
  | .array span elem size => by
    simp only [typeOf, typeOf_reaching same elem]
  | .list _ elem => by
    simp only [typeOf, typeOf_reaching same elem]
  | .proc _ params ret => by
    simp only [typeOf, valueTypesOf_reaching same params, typeOf_reaching same ret]

theorem valueTypesOf_reaching (same : SameView S o view) :
    (ts : List TypeExpr) → (o.reaching view).valueTypesOf ts = o.valueTypesOf ts
  | [] => rfl
  | t :: ts => by
    simp only [valueTypesOf, typeOf_reaching same t, valueTypesOf_reaching same ts]

end

theorem valueTypeOf_reaching (same : SameView S o view) (t : TypeExpr) :
    (o.reaching view).valueTypeOf t = o.valueTypeOf t := by
  rw [valueTypeOf, valueTypeOf, typeOf_reaching same t]

/-! ### Collecting declarations

Collecting declarations looks at the view of other modules only for written types, so the outlines
under two views that agree on the modules differ in nothing but their views. -/

theorem bind_reaching (name : Ident) (binding : Binding) :
    (o.reaching view).bind name binding = (o.bind name binding).reaching view := by
  have names : (o.reaching view).names = o.names := rfl
  unfold bind
  rw [names]
  split <;> rfl

namespace SameView

variable (same : o.SameView S view)

include same

theorem addError {e : SemanticError} (h : Within S e) :
    { o with errors := o.errors.push e }.SameView S view := by
  refine ⟨{ same.inside with errors := fun e' mem => ?_ }, same.view⟩
  rcases Array.mem_push.mp mem with mem | rfl
  · exact same.inside.errors e' mem
  · exact h

theorem report {fault : SemanticFault} (other : ¬ fault.IsContainment) (span : Span) :
    (o.report fault span).SameView S view :=
  same.addError (S.reports other)

theorem bind (name : Ident) {binding : Binding} (h : Within S binding) :
    (o.bind name binding).SameView S view := by
  unfold Outline.bind
  split
  · exact same.report (by simp) _
  · refine ⟨{ same.inside with names := fun entry mem => ?_ }, same.view⟩
    rcases List.mem_append.mp mem with mem | mem
    · exact same.inside.names entry mem
    · rw [List.mem_singleton.mp mem]
      exact h

theorem addProc {proc : LocalProc} (h : Within S proc.self) :
    (o.addProc proc).SameView S view := by
  refine ⟨{ same.inside with procs := fun p mem => ?_ }, same.view⟩
  rcases Array.mem_push.mp mem with mem | rfl
  · exact same.inside.procs p mem
  · exact h

theorem addImport {resolver : Resolver} {decl : Import}
    (h : Within S (resolver.resolve decl)) :
    (o.addImport resolver decl).SameView S view := by
  unfold Outline.addImport
  split
  · next interface found =>
    have hi : Within S interface := by simpa [found] using h
    refine SameView.bind ?_ decl.name (within_some.mpr hi)
    exact ⟨{ same.inside with imported := within_cons.mpr ⟨hi, same.inside.imported⟩ }, same.view⟩
  · exact (same.report (by simp) _).bind decl.name (within_none.mpr trivial)
  · exact (same.report (by simp) _).bind decl.name (within_none.mpr trivial)
  · exact same.bind decl.name (within_none.mpr trivial)

end SameView

variable {resolver resolver' : Resolver}

theorem addImport_reaching {decl : Import}
    (h : resolver'.resolve decl = resolver.resolve decl) :
    (o.reaching view).addImport resolver' decl = (o.addImport resolver decl).reaching view := by
  unfold addImport
  rw [h]
  split <;> rw [← bind_reaching] <;> rfl

/-- Members with another view in their outline. -/
def Members.reaching (m : Members) (view : ModuleId → Option Interface) : Members :=
  { m with outline := m.outline.reaching view }

theorem Members.add_reaching (artifact : ArtifactDecl) (m : Members) (member : Member) :
    (m.reaching view).add artifact member = (m.add artifact member).reaching view := by
  have names : (m.reaching view).names = m.names := rfl
  cases member <;>
  · unfold Members.add
    dsimp only
    rw [names]
    split <;> rfl

theorem SameView.addMember {m : Members} (same : m.outline.SameView S view)
    (artifact : ArtifactDecl) (member : Member) :
    (m.add artifact member).outline.SameView S view := by
  cases member with
  | prop _ | enumCase _ =>
    unfold Members.add
    dsimp only
    split
    · exact same.report (by simp) _
    · exact same
  | proc decl =>
    unfold Members.add
    dsimp only
    split
    · exact same.report (by simp) _
    · refine same.addProc ?_
      cases artifact.kind <;> exact within_some.mpr same.inside.module

theorem addMembers_reaching (view : ModuleId → Option Interface) (artifact : ArtifactDecl)
    (members : List Member) (m : Members) :
    members.foldl (Members.add artifact) (m.reaching view) =
      (members.foldl (Members.add artifact) m).reaching view := by
  induction members generalizing m with
  | nil => rfl
  | cons member rest ih => rw [List.foldl_cons, List.foldl_cons, Members.add_reaching, ih]

theorem SameView.addMembers {m : Members} (same : m.outline.SameView S view)
    (artifact : ArtifactDecl) (members : List Member) :
    (members.foldl (Members.add artifact) m).outline.SameView S view := by
  induction members generalizing m with
  | nil => exact same
  | cons member rest ih => exact ih (same.addMember artifact member)

theorem addArtifact_reaching (position : Nat) (decl : ArtifactDecl) :
    (o.reaching view).addArtifact position decl = (o.addArtifact position decl).reaching view := by
  have names : (o.reaching view).names = o.names := rfl
  have members := addMembers_reaching view decl decl.members
    { outline := o.bind decl.name (.artifact ⟨o.module, decl.name.value⟩) }
  have named : (o.reaching view).bind decl.name
      (.artifact ⟨(o.reaching view).module, decl.name.value⟩) =
        (o.bind decl.name (.artifact ⟨o.module, decl.name.value⟩)).reaching view :=
    bind_reaching _ _
  unfold addArtifact
  dsimp only
  rw [names, named]
  split
  · rfl
  · simp only [Members.reaching] at members
    rw [members]
    rfl

theorem SameView.addArtifact (same : o.SameView S view) (position : Nat) (decl : ArtifactDecl) :
    (o.addArtifact position decl).SameView S view := by
  have named : (o.bind decl.name (.artifact ⟨o.module, decl.name.value⟩)).SameView S view :=
    same.bind decl.name same.inside.module
  unfold Outline.addArtifact
  dsimp only
  split
  · exact named
  · have members := SameView.addMembers
      (m := { outline := o.bind decl.name (.artifact ⟨o.module, decl.name.value⟩) })
      named decl decl.members
    exact ⟨{ members.inside with }, members.view⟩

theorem addTopLevel_reaching (decl : ProcDecl) :
    (o.reaching view).addTopLevel decl = (o.addTopLevel decl).reaching view := by
  unfold addTopLevel
  rw [← bind_reaching]
  rfl

theorem SameView.addTopLevel (same : o.SameView S view) (decl : ProcDecl) :
    (o.addTopLevel decl).SameView S view :=
  (same.addProc (within_none.mpr trivial)).bind decl.name trivial

theorem addGlobal_reaching (same : o.SameView S view) (position : Nat) (decl : VarDecl) :
    (o.reaching view).addGlobal position decl = (o.addGlobal position decl).reaching view := by
  have types : (o.reaching view).valueTypeOf = o.valueTypeOf := by
    funext t
    exact valueTypeOf_reaching same t
  unfold addGlobal
  rw [types]
  dsimp only
  split <;> rw [← bind_reaching] <;> rfl

theorem SameView.addGlobal (same : o.SameView S view) (position : Nat) (decl : VarDecl) :
    (o.addGlobal position decl).SameView S view := by
  have add {o : Outline} (same : o.SameView S view) {declared : Option Ty}
      (h : Within S declared) :
      ({ o with globals := o.globals.push ⟨decl, position, declared⟩ }.bind decl.name
        (.symbol o.globals.size)).SameView S view := by
    refine SameView.bind ?_ decl.name (by trivial)
    refine ⟨{ same.inside with globals := fun g mem => ?_ }, same.view⟩
    rcases Array.mem_push.mp mem with mem | rfl
    · exact same.inside.globals g mem
    · exact h
  have typed (t : TypeExpr) := valueTypeOf_within same.inside t
  unfold Outline.addGlobal
  dsimp only
  split
  · exact add same (within_none.mpr trivial)
  · next type found =>
    obtain ⟨t, -, ht⟩ := Option.map_eq_some_iff.mp found
    exact add same (within_some.mpr (within_ok.mp (ht ▸ typed t)))
  · next e found =>
    obtain ⟨t, -, ht⟩ := Option.map_eq_some_iff.mp found
    exact add (same.addError (within_error.mp (ht ▸ typed t))) (within_some.mpr S.unknown)

theorem addTypes_reaching (position : Nat) {stmts : List Stmt}
    (same : o.SameView S view)
    (resolve : ∀ i, .importUnit i ∈ stmts → resolver'.resolve i = resolver.resolve i)
    (inside : ∀ i, .importUnit i ∈ stmts → Within S (resolver.resolve i)) :
    (o.reaching view).addTypes resolver' position stmts =
        (o.addTypes resolver position stmts).reaching view ∧
      (o.addTypes resolver position stmts).SameView S view := by
  induction stmts generalizing o position with
  | nil => exact ⟨rfl, same⟩
  | cons stmt rest ih =>
    have more (o : Outline) (same : o.SameView S view) := ih (position + 1) same
      (fun i mem => resolve i (List.mem_cons_of_mem _ mem))
      (fun i mem => inside i (List.mem_cons_of_mem _ mem))
    cases stmt with
    | importUnit decl =>
      rw [addTypes, addTypes, addImport_reaching (resolve decl List.mem_cons_self)]
      exact more _ (same.addImport (inside decl List.mem_cons_self))
    | artifact decl =>
      rw [addTypes, addTypes, addArtifact_reaching]
      exact more _ (same.addArtifact position decl)
    | _ => exact more _ same

theorem addValues_reaching (position : Nat) (stmts : List Stmt) (same : o.SameView S view) :
    (o.reaching view).addValues position stmts = (o.addValues position stmts).reaching view ∧
      (o.addValues position stmts).SameView S view := by
  induction stmts generalizing o position with
  | nil => exact ⟨rfl, same⟩
  | cons stmt rest ih =>
    cases stmt with
    | proc decl =>
      rw [addValues, addValues, addTopLevel_reaching]
      exact ih (position + 1) (same.addTopLevel decl)
    | var decl =>
      rw [addValues, addValues, addGlobal_reaching same]
      exact ih (position + 1) (same.addGlobal position decl)
    | _ => exact ih (position + 1) same

/-- Both views give a program the same outline. -/
theorem ofProgram_reaching {module : ModuleId} {p : Program}
    (hm : module ∈ S.modules) (h : Resolver.SameOn S p resolver resolver') :
    ofProgram module resolver' p = (ofProgram module resolver p).reaching resolver'.interface? ∧
      (ofProgram module resolver p).SameView S resolver'.interface? := by
  have start : ({ module, reached := resolver.interface? } : Outline).SameView S
      resolver'.interface? :=
    ⟨⟨hm, by simp, within_nil.mpr trivial, h.viewed, by simp, by simp, by simp⟩, h.view⟩
  have imports {i : Import} (mem : Stmt.importUnit i ∈ p.stmts) : i ∈ p.imports :=
    List.mem_filterMap.mpr ⟨_, mem, rfl⟩
  have types := addTypes_reaching 0 start
    (fun i mem => h.resolve i (imports mem)) (fun i mem => h.resolved i (imports mem))
  have values := addValues_reaching 0 p.stmts types.2
  rw [← types.1] at values
  exact values

end Outline

end ArkLang
