import ArkLang.Lowering.Expr
import ArkLang.Proofs.EnvAccesses
import ArkLang.Proofs.ParsedTrees
import ArkLang.Proofs.TypeTags

/-!
# Lowered expressions

What holds of the forms that the lowering writes, if it holds of their parts and of the accesses to
variables, holds of every lowered expression. So a lowered expression reads no other captured
symbols than the accesses to its variables do. Lowering it notes types, and adds nothing to the
sections of the program.
-/

namespace ArkLang

open List
open C.Expr (ReadsOnly)

/-! ### Forms of expressions -/

namespace C

/-- Names that are words: the parts that are not spelled out by the name itself are words. -/
def Name.IsPlain : Name → Prop
  | omitting base _ | viaValue base => base.IsPlain
  | constructor word | defaultRecord word | support word | temporary _ word => IsWord word
  | helper type word => IsWord type ∧ IsWord word
  | _ => True

theorem chars_cleaned (name : String) : (cleaned name).toList.all isNameChar = true :=
  List.all_eq_true.mpr fun _ mem => Ty.isNameChar_of_mem_cleaned mem

theorem chars_segments (names : List String) : (segments names).toList.all isNameChar = true :=
  List.all_eq_true.mpr fun _ mem => Ty.isNameChar_of_mem_segments mem

theorem chars_toString (n : Nat) : (toString n).toList.all isNameChar = true := by
  rw [toList_toString]
  exact List.all_eq_true.mpr fun _ mem => Ty.isNameChar_of_isDigit (isDigit_of_mem_toDigits mem)

theorem isWord_field (name : String) : IsWord (Name.field name).text :=
  IsWord.append (by decide) (chars_cleaned name)

theorem Name.IsPlain.isWord {name : Name} (h : name.IsPlain) : IsWord name.text := by
  induction name with
  | omitting base count ih => exact ((ih h).append (by decide)).append (chars_toString count)
  | viaValue base ih => exact (ih h).append (by decide)
  | constructor | defaultRecord => exact IsWord.append h (by decide)
  | support => exact h
  | helper type name => exact (h.1.append (by decide)).append h.2.chars
  | temporary number what =>
    exact ((IsWord.append (by decide) (chars_toString number)).append (by decide)).append h.chars
  | field name => exact isWord_field name
  | capture symbol => exact IsWord.append (by decide) (chars_toString symbol)
  | localVar symbol name =>
    exact ((IsWord.append (by decide) (chars_toString symbol)).append (by decide)).append
      (chars_cleaned name)
  | member module path =>
    exact ((IsWord.append (by decide) (chars_segments _)).append (by decide)).append
      (chars_segments path)
  | nested module proc name =>
    exact ((((IsWord.append (by decide) (chars_segments _)).append (by decide)).append
      (chars_toString proc)).append (by decide)).append (chars_cleaned name)
  | moduleStart | moduleEnd =>
      exact (IsWord.append (by decide) (chars_segments _)).append (by decide)
  | environment module proc =>
    exact ((IsWord.append (by decide) (chars_segments _)).append (by decide)).append
      (chars_toString proc)
  | receiver | envParam | env | result => decide

/-- What the lowering keeps: it holds of every form of expression that is written, if it holds of
the parts of the expression. -/
class ExprLaw (P : Expr → Prop) : Prop where
  int (value : Int) : P (.int value)
  float (value : Binary64) : P (.float value)
  string (value : String) : P (.string value)
  bool (value : Bool) : P (.bool value)
  null : P .null
  zero : P .zero
  ident {name : Name} : name.IsPlain → P (.ident name)
  property (name : String) : P (.arrow .receiver (.field name))
  unary {op : String} {e : Expr} : op ∈ ["-", "!", "~"] → P e → P (.unary op e)
  binary {l r : Expr} (op : BinOp) : P l → P r → P (.binary l op.text r)
  cast {type : TypeName} {e : Expr} : IsWord type → P e → P (.cast type e)
  after {l r : Expr} : P l → P r → P (.after l r)
  field {e : Expr} {name : String} : IsWord name → P e → P (.field e name)
  element {l r : Expr} : P l → P r → P (.element l r)
  deref {e : Expr} : P e → P (.deref e)
  address {e : Expr} : P e → P (.address e)
  compound {type : TypeName} {es : List Expr} :
    IsWord type → (∀ e ∈ es, P e) → P (.compound type es)
  arrayOf {type : TypeName} {es : List Expr} : IsWord type → (∀ e ∈ es, P e) → P (.arrayOf type es)
  elements {type : TypeName} {es : List Expr} :
    IsWord type → (∀ e ∈ es, P e) → P (.elements type es)
  call {name : Name} {es : List Expr} : name.IsPlain → (∀ e ∈ es, P e) → P (.call name es)

instance (own : List SymbolId) : ExprLaw (Expr.ReadsOnly own) where
  int _ := forall_mem_nil _
  float _ := forall_mem_nil _
  string _ := forall_mem_nil _
  bool _ := forall_mem_nil _
  null := forall_mem_nil _
  zero := forall_mem_nil _
  ident _ := forall_mem_nil _
  property _ := forall_mem_nil _
  unary _ h := h
  binary _ hl hr := List.forall_mem_append.mpr ⟨hl, hr⟩
  cast _ h := h
  after hl hr := List.forall_mem_append.mpr ⟨hl, hr⟩
  field _ h := h
  element hl hr := List.forall_mem_append.mpr ⟨hl, hr⟩
  deref h := h
  address h := h
  compound _ h := Expr.readsOnly_all h
  arrayOf _ h := Expr.readsOnly_all h
  elements _ h := Expr.readsOnly_all h
  call _ h := Expr.readsOnly_all h

end C

/-! ### What lowering leaves -/

/-- Types are noted, and the sections of the program are left alone. -/
structure LowerState.Noted (table : ArtifactTable) (s s' : LowerState) : Prop where
  sections : s'.sections = s.sections
  types : s.types.Extends table s'.types

namespace LowerState.Noted

variable {table : ArtifactTable} {s s₁ s' : LowerState}

theorem refl (s : LowerState) : s.Noted table s :=
  ⟨rfl, .refl _⟩

theorem trans (h : s.Noted table s₁) (h' : s₁.Noted table s') : s.Noted table s' :=
  ⟨h'.sections.trans h.sections, h.types.trans h'.types⟩

end LowerState.Noted

/-! ### Causes of failure -/

section Inside

variable {α β : Type}

/-- If something fails, no jump outside of loops is the cause. -/
def Inside (x : Except LowerFault α) : Prop :=
  x ≠ .error .jumpOutsideLoop

theorem inside_ok (a : α) : Inside (.ok a) := by
  simp [Inside]

theorem inside_error {fault : LowerFault} (other : fault ≠ .jumpOutsideLoop) :
    Inside (.error fault : Except LowerFault α) := by
  simpa [Inside] using other

theorem Inside.bind {x : Except LowerFault α} {f : α → Except LowerFault β} (hx : Inside x)
    (hf : ∀ a, Inside (f a)) : Inside (x >>= f) := by
  cases x with
  | error e => exact inside_error fun same => hx (same ▸ rfl)
  | ok a => exact hf a

namespace ArtifactTable

variable (table : ArtifactTable)

theorem inside_find (ref : ArtifactRef) : Inside (table.find ref) := by
  unfold find
  split
  · exact inside_ok _
  · exact inside_error (by simp)

mutual

theorem inside_typeTag : (t : Ty) → Inside (table.typeTag t)
  | .int | .float | .string | .bool | .void => inside_ok _
  | .unknown => inside_error (by simp)
  | .artifact ref => by
    rw [typeTag]
    split <;> exact inside_ok _
  | .array elem _ | .list elem => (inside_typeTag elem).bind fun _ => inside_ok _
  | .proc params ret =>
    (inside_typeTags params).bind fun _ => (inside_typeTag ret).bind fun _ => inside_ok _

theorem inside_typeTags : (ts : List Ty) → Inside (table.typeTags ts)
  | [] => inside_ok _
  | t :: ts => (inside_typeTag t).bind fun _ => (inside_typeTags ts).bind fun _ => inside_ok _

end

theorem inside_typeName (type : Ty) : Inside (table.typeName type) := by
  cases type with
  | array | list | proc => exact (table.inside_typeTag _).bind fun _ => inside_ok _
  | unknown => exact inside_error (by simp)
  | artifact ref =>
    rw [typeName]
    split <;> exact inside_ok _
  | _ => exact inside_ok _

theorem inside_defaultValue (name : C.TypeName) (type : Ty) :
    Inside (table.defaultValue name type) := by
  cases type with
  | unknown | void => exact inside_error (by simp)
  | artifact ref =>
    rw [defaultValue]
    split
    · exact (table.inside_find ref).bind fun _ => inside_ok _
    · exact inside_ok _
  | _ => exact inside_ok _

theorem inside_visit (type : Ty) {needs : Register Unit} (h : ∀ s, Inside (needs s))
    (s : TypeOrder) : Inside (visit type needs s) := by
  change Inside ((if _ then _ else _ : Register Unit) s)
  split
  · exact inside_ok _
  · exact (h _).bind fun _ => inside_ok _

section Register

variable {expand : ArtifactRef → Register Unit}

mutual

theorem inside_registerWith (hexpand : ∀ ref s, Inside (expand ref s)) :
    (t : Ty) → (s : TypeOrder) → Inside (table.registerWith expand t s)
  | .int, _ | .float, _ | .string, _ | .bool, _ | .void, _ => inside_ok _
  | .unknown, _ => inside_error (by simp)
  | .artifact ref, s => by
    rw [registerWith]
    split
    · exact inside_ok _
    · exact inside_visit _ (hexpand ref) s
  | .array elem _, s | .list elem, s => inside_visit _ (inside_registerWith hexpand elem) s
  | .proc params ret, s => inside_visit _ (fun s => (inside_registerAll hexpand params s).bind
      fun x => inside_registerWith hexpand ret x.2) s

theorem inside_registerAll (hexpand : ∀ ref s, Inside (expand ref s)) :
    (ts : List Ty) → (s : TypeOrder) → Inside (table.registerAll expand ts s)
  | [], _ => inside_ok _
  | t :: ts, s => (inside_registerWith hexpand t s).bind fun x => inside_registerAll hexpand ts x.2

end

end Register

/-- To register a type never fails at a jump. -/
theorem inside_register (type : Ty) (s : TypeOrder) : Inside (table.register type s) := by
  refine table.inside_registerWith ?_ type s
  generalize table.artifacts.length + 1 = depth
  induction depth with
  | zero => exact fun _ _ => inside_ok _
  | succ depth ih =>
    intro ref s
    refine Inside.bind (x := (liftM (table.find ref) : Register _) s) ?_
      fun x => table.inside_registerAll ih _ x.2
    exact (table.inside_find ref).bind fun _ => inside_ok _

end ArtifactTable

end Inside

namespace Lower

variable {α β : Type} {c : LowerContext}

/-- What a lowering gives if it succeeds. It notes types, and leaves the sections of the program
alone. If it fails, no jump outside of loops is the cause. -/
structure Yields (c : LowerContext) (x : Lower α) (Q : α → Prop) : Prop where
  gives : ∀ s a s', x c s = .ok (a, s') → s.Noted c.table s' ∧ Q a
  inside : ∀ s, Inside (x c s)

/-! ### Rules -/

section Rules

variable {Q R : α → Prop} {x : Lower α}

theorem bind_eq_ok {f : α → Lower β} {s s' : LowerState} {b : β} :
    (x >>= f) c s = .ok (b, s') ↔ ∃ a s₁, x c s = .ok (a, s₁) ∧ f a c s₁ = .ok (b, s') := by
  change (x c s >>= fun y => f y.1 c y.2) = _ ↔ _
  cases x c s with
  | error e => simp [bind, Except.bind]
  | ok y =>
    obtain ⟨a, s₁⟩ := y
    simp [bind, Except.bind]

theorem inside_bind {f : α → Lower β} {s : LowerState} (hx : Inside (x c s))
    (hf : ∀ a s₁, x c s = .ok (a, s₁) → Inside (f a c s₁)) : Inside ((x >>= f) c s) := by
  change Inside (x c s >>= fun y => f y.1 c y.2)
  cases run : x c s with
  | error e =>
    rw [run] at hx
    exact inside_error fun same => hx (same ▸ rfl)
  | ok y => exact hf y.1 y.2 run

theorem Yields.weaken (h : Yields c x Q) (weaker : ∀ a, Q a → R a) : Yields c x R :=
  ⟨fun s a s' run => (h.gives s a s' run).imp_right (weaker a), h.inside⟩

theorem Yields.any (h : Yields c x Q) : Yields c x fun _ => True :=
  h.weaken fun _ _ => trivial

theorem yields_pure {a : α} (h : Q a) : Yields c (pure a) Q := by
  refine ⟨fun s b s' run => ?_, fun _ => inside_ok _⟩
  cases run
  exact ⟨.refl s, h⟩

theorem yields_throw (fault : LowerFault) (other : fault ≠ .jumpOutsideLoop := by simp) :
    Yields c (throw fault : Lower α) Q := by
  refine ⟨fun s b s' run => ?_, fun _ => inside_error other⟩
  cases run

/-- Lowering in sequence. -/
theorem yields_bind {f : α → Lower β} {P : α → Prop} {R : β → Prop} (hx : Yields c x P)
    (hf : ∀ a, P a → Yields c (f a) R) : Yields c (x >>= f) R := by
  refine ⟨fun s b s' run => ?_, fun s => inside_bind (hx.inside s) fun a s₁ run =>
    (hf a (hx.gives s a s₁ run).2).inside s₁⟩
  obtain ⟨a, s₁, first, second⟩ := bind_eq_ok.mp run
  obtain ⟨kept, value⟩ := hx.gives s a s₁ first
  obtain ⟨kept', result⟩ := (hf a value).gives s₁ b s' second
  exact ⟨kept.trans kept', result⟩

theorem yields_require {x : Option α} (h : ∀ a, x = some a → Q a) (fault : LowerFault)
    (other : fault ≠ .jumpOutsideLoop := by simp) : Yields c (require x fault) Q := by
  cases x with
  | none => exact yields_throw fault other
  | some a => exact yields_pure (h a rfl)

theorem yields_lift {x : Except LowerFault α} (inside : Inside x) (h : ∀ a, x = .ok a → Q a) :
    Yields c (liftM x : Lower α) Q := by
  cases x with
  | error e => exact yields_throw e fun same => inside (same ▸ rfl)
  | ok a => exact yields_pure (h a rfl)

theorem yields_unit : Yields c unit (· = c.unit) := by
  refine ⟨fun s u s' run => ?_, fun _ => inside_ok _⟩
  cases run
  exact ⟨.refl s, rfl⟩

theorem yields_table : Yields c table (· = c.table) := by
  refine ⟨fun s t s' run => ?_, fun _ => inside_ok _⟩
  cases run
  exact ⟨.refl s, rfl⟩

theorem yields_cType (type : Ty) : Yields c (cType type) C.IsWord := by
  refine yields_bind yields_table fun t same => ?_
  subst same
  have registers (s : LowerState) : Yields c (liftM ((c.table.register type).run s.types) : Lower _)
      fun r => s.types.Extends c.table r.2 :=
    yields_lift (c.table.inside_register type _) fun r done => ArtifactTable.extends_register done
  have names : Yields c (liftM (c.table.typeName type) : Lower _) C.IsWord :=
    yields_lift (c.table.inside_typeName type) fun _ named => ArtifactTable.isWord_typeName named
  refine ⟨fun s a s' run => ?_, fun s => inside_bind (inside_ok _) fun s₁ s₂ got => ?_⟩
  · obtain ⟨s₁, s₂, got, run⟩ := bind_eq_ok.mp run
    cases got
    obtain ⟨⟨_, types⟩, s₃, registered, run⟩ := bind_eq_ok.mp run
    obtain ⟨kept, added⟩ := (registers s).gives _ _ _ registered
    obtain ⟨_, s₄, noted, run⟩ := bind_eq_ok.mp run
    cases noted
    have whole : s.Noted c.table { s₃ with types } := ⟨kept.sections, added⟩
    exact (names.gives _ _ _ run).imp_left whole.trans
  · exact inside_bind ((registers s₁).inside s₂) fun r s₃ _ =>
      inside_bind (inside_ok _) fun _ s₄ _ => names.inside s₄

theorem yields_typeOf (e : Expr) : Yields c (typeOf e) fun _ => True :=
  yields_bind yields_unit fun _ _ => yields_pure trivial

theorem yields_valueType (e : Expr) : Yields c (valueType e) fun _ => True :=
  yields_bind yields_unit fun _ _ => yields_pure trivial

theorem yields_symbol (id : SymbolId) :
    Yields c (symbol id) (· = c.unit.symbols.getD id default) := by
  refine yields_bind yields_unit fun u hu => yields_pure ?_
  rw [hu]

theorem yields_procName (proc : ProcInfo) : Yields c (procName proc) fun name =>
    name = if proc.isNested then .nested c.unit.module proc.id proc.name
      else .member c.unit.module proc.path := by
  refine yields_bind yields_unit fun u hu => yields_pure ?_
  rw [hu]

theorem yields_procNameOf (id : ProcId) : Yields c (procNameOf id) C.Name.IsPlain := by
  refine yields_bind yields_unit fun _ _ => (yields_procName _).weaken fun name given => ?_
  rw [given]
  split <;> trivial

theorem yields_globalName (name : String) :
    Yields c (globalName name) (· = .member c.unit.module [name]) := by
  refine yields_bind yields_unit fun u hu => yields_pure ?_
  rw [hu]

theorem yields_defaultValue {P : C.Expr → Prop} [law : C.ExprLaw P] (type : Ty) :
    Yields c (defaultValue type) P := by
  refine yields_bind (yields_cType type) fun name word => yields_bind yields_table fun t _ => ?_
  refine yields_lift (t.inside_defaultValue name type) fun e found => ?_
  cases type with
  | artifact ref =>
    rw [ArtifactTable.defaultValue] at found
    split at found
    · cases known : t.find ref with
      | error fault => simp [known, bind, Except.bind] at found
      | ok a =>
        rw [known] at found
        cases found
        exact law.int _
    · cases found
      exact law.call word (by simp)
  | int | float | string | bool =>
    cases found
    first | exact law.int _ | exact law.float _ | exact law.string _ | exact law.bool _
  | array | list =>
    cases found
    exact law.call ⟨word, by decide, by decide⟩ (by simp)
  | proc =>
    cases found
    exact law.compound word (by simp [law.null])
  | void | unknown => cases found

end Rules

/-! ### Operands -/

def Lawful (c : LowerContext) (P : C.Expr → Prop) (o : Operand) : Prop :=
  Yields c o.raw P

section Operands

variable {P : C.Expr → Prop} [law : C.ExprLaw P] {o : Operand} {os : List Operand}

omit law in
theorem lawful_operand {e : Expr} {raw : Lower C.Expr} (h : Yields c raw P) : Lawful c P ⟨e, raw⟩ :=
  h

theorem yields_value (h : Lawful c P o) : Yields c o.value P := by
  refine yields_bind h fun raw hraw => yields_bind yields_unit fun u _ => yields_pure ?_
  split
  · exact law.cast (by decide) hraw
  · exact hraw

theorem yields_owned (h : Lawful c P o) : Yields c o.owned P := by
  refine yields_bind (yields_value h) fun v hv => yields_bind yields_unit fun u _ => ?_
  dsimp only
  split
  · exact yields_bind (yields_cType _) fun _ word =>
      yields_pure (law.call ⟨word, by decide⟩ (by simpa using hv))
  · exact yields_pure hv

theorem yields_ownedAll (h : ∀ o ∈ os, Lawful c P o) :
    Yields c (Operand.ownedAll os) fun es => ∀ e ∈ es, P e := by
  induction os with
  | nil => exact yields_pure (by simp)
  | cons o rest ih =>
    obtain ⟨first, others⟩ := List.forall_mem_cons.mp h
    exact yields_bind (yields_owned first) fun v hv => yields_bind (ih others) fun vs hvs =>
      yields_pure (List.forall_mem_cons.mpr ⟨hv, hvs⟩)

theorem yields_procValue (e : Expr) (ref : ProcRef) : Yields c (procValue e ref) P :=
  have code : P (.ident (.viaValue (.member ref.module ref.path))) := law.ident trivial
  yields_bind (yields_typeOf e) fun _ _ => yields_bind (yields_cType _) fun _ word =>
    yields_pure (law.compound word (by simp [law.null, code]))

theorem yields_resolution (e : Expr) :
    Yields c (resolution e) fun r => c.unit.resolutions.get? e.id = some r := by
  refine yields_bind yields_unit fun u hu => yields_require (fun r found => ?_) _
  rwa [hu] at found

theorem yields_selfPropValue (e : Expr) (name : Ident) : Yields c (selfPropValue e name) P := by
  refine yields_bind (yields_resolution e) fun r _ => ?_
  split
  · exact yields_pure (law.property _)
  · exact yields_pure (law.ident trivial)
  · exact yields_procValue e _
  · exact yields_throw _

theorem yields_memberValue (e : Expr) (h : Lawful c P o) (name : Ident) :
    Yields c (memberValue e o name) P := by
  refine yields_bind (yields_resolution e) fun r _ => ?_
  split
  · exact yields_bind (yields_value h) fun v hv => yields_pure (law.field (C.isWord_field _) hv)
  · exact yields_pure (law.ident trivial)
  · exact yields_procValue e _
  · exact yields_pure (law.ident trivial)
  · exact yields_throw _

theorem yields_arrayValue (e : Expr) (h : ∀ o ∈ os, Lawful c P o) :
    Yields c (arrayValue e os) P := by
  refine yields_bind (yields_typeOf e) fun type _ =>
    yields_bind (yields_cType type) fun name word => ?_
  refine yields_bind (yields_ownedAll h) fun vs hvs => ?_
  split
  · exact yields_pure (law.arrayOf word hvs)
  · split
    · exact yields_pure (law.call ⟨word, by decide⟩ (by simp))
    · exact yields_bind (yields_cType _) fun _ elem => yields_pure
        (law.call ⟨word, by decide⟩ (by simp [law.elements elem hvs, law.int]))
  · exact yields_throw _

theorem lawful_support {name : String} (word : C.IsWord name) {es : List C.Expr}
    (h : ∀ e ∈ es, P e) :
    P (support name es) :=
  law.call word h

theorem yields_unaryValue (op : UnaryOp) (h : Lawful c P o) : Yields c (unaryValue op o) P := by
  refine yields_bind (yields_value h) fun v hv => ?_
  split
  · refine yields_bind (yields_valueType _) fun type _ => ?_
    split
    · exact yields_pure (law.unary (by simp) hv)
    · exact yields_pure (lawful_support (by decide) (by simpa using hv))
  · exact yields_pure (law.unary (by simp) hv)
  · exact yields_pure (law.unary (by simp) hv)

theorem lawful_toText (type : Ty) {v : C.Expr} (h : P v) : P (toText type v) := by
  unfold toText
  split
  · exact h
  all_goals exact lawful_support (by decide) (by simpa using h)

theorem lawful_binaryResult (op : BinOp) (result left right : Ty) {l r : C.Expr} (hl : P l)
    (hr : P r) :
    P (binaryResult op result left right l r) := by
  have parts : ∀ e ∈ [l, r], P e := by simp [hl, hr]
  have texts : ∀ e ∈ [toText left l, toText right r], P e := by
    simp [lawful_toText left hl, lawful_toText right hr]
  have plain := law.binary op hl hr
  unfold binaryResult
  dsimp only
  split <;> (try split) <;> (try split) <;>
    first | exact plain | exact lawful_support (by decide) parts |
      exact lawful_support (by decide) texts |
      exact law.binary _ (lawful_support (by decide) parts) law.zero

example : (binaryResult .add .string .int .string (.int 1) (.string "a")).accesses = [] := by
  decide +kernel

theorem yields_binaryValue (e : Expr) {l r : Operand} (op : BinOp) (hl : Lawful c P l)
    (hr : Lawful c P r) : Yields c (binaryValue e l op r) P := by
  refine yields_bind (yields_typeOf e) fun _ _ => yields_bind (yields_valueType _) fun _ _ => ?_
  refine yields_bind (yields_valueType _) fun _ _ => yields_bind (yields_value hl) fun v hv => ?_
  exact yields_bind (yields_value hr) fun w hw => yields_pure (lawful_binaryResult op _ _ _ hv hw)

theorem yields_postOpValue (op : PostOp) (h : Lawful c P o) : Yields c (postOpValue op o) P := by
  refine yields_bind h fun _ hv => yields_pure ?_
  cases op <;> exact lawful_support (by decide) (by simpa using law.address hv)

theorem yields_indexValue {base place : Operand} (hb : Lawful c P base) (hp : Lawful c P place) :
    Yields c (indexValue base place) P := by
  refine yields_bind yields_unit fun u _ => yields_bind (yields_value hp) fun index hi => ?_
  split
  · exact yields_bind (yields_value hb) fun v hv => yields_pure
      (law.element hv (lawful_support (by decide) (by simp [hi, law.int])))
  · refine yields_bind (yields_cType _) fun list word => ?_
    split
    · exact yields_bind hb fun v hv => yields_pure
        (law.deref (law.call ⟨word, by decide⟩ (by simp [law.address hv, hi])))
    · exact yields_bind (yields_value hb) fun v hv => yields_pure
        (law.call ⟨word, by decide⟩ (by simp [hv, hi]))
  · exact yields_throw _

theorem yields_listLength (h : Lawful c P o) (type : Ty) : Yields c (listLength o type) P := by
  refine yields_bind yields_unit fun u _ => ?_
  split
  · exact yields_bind h fun v hv => yields_pure (law.field (by decide) hv)
  · exact yields_bind (yields_cType _) fun _ word => yields_bind (yields_value h) fun v hv =>
      yields_pure (law.call ⟨word, by decide⟩ (by simpa using hv))

theorem yields_arrayLength (h : Lawful c P o) (size : Nat) : Yields c (arrayLength o size) P := by
  refine yields_bind yields_unit fun u _ => ?_
  split
  · exact yields_pure (law.int _)
  · exact yields_bind (yields_value h) fun v hv => yields_pure (law.after hv (law.int _))

theorem yields_builtinValue (builtin : Builtin) (type : Ty) {v : C.Expr} (hv : P v)
    (h : ∀ o ∈ os, Lawful c P o) : Yields c (builtinValue builtin type v os) P := by
  have one : ∀ e ∈ [v], P e := by simpa using hv
  unfold builtinValue
  split
  all_goals try exact yields_throw _
  all_goals try exact yields_pure (lawful_support (by decide) one)
  all_goals try exact yields_pure hv
  all_goals try exact yields_pure (law.cast (by decide) hv)
  · exact yields_pure (lawful_toText type hv)
  · exact yields_pure (law.binary .ne hv law.zero)
  · split
    · next exponent rest =>
      refine yields_bind (yields_value (h exponent mem_cons_self)) fun w hw => ?_
      exact yields_pure (lawful_support (by decide) (by simp [hv, hw]))
    · exact yields_throw _

theorem yields_builtinCall (builtin : Builtin) (h : ∀ o ∈ os, Lawful c P o) :
    Yields c (builtinCall builtin os) P := by
  unfold builtinCall
  split
  · exact yields_pure (lawful_support (by decide) (by simp [law.null]))
  · next prompt rest =>
    refine yields_bind (yields_value (h prompt mem_cons_self)) fun v hv => ?_
    exact yields_pure (lawful_support (by decide) (by simpa using hv))
  · exact yields_throw _
  · next arg rest =>
    have first := h arg mem_cons_self
    refine yields_bind (yields_valueType _) fun type _ => ?_
    split
    · exact yields_bind (yields_value first) fun v hv =>
        yields_pure (lawful_support (by decide) (by simpa using hv))
    · exact yields_arrayLength first _
    · exact yields_listLength first _
    · exact yields_throw _
  · next arg rest _ _ =>
    obtain ⟨first, others⟩ := List.forall_mem_cons.mp h
    exact yields_bind (yields_valueType _) fun type _ =>
      yields_bind (yields_value first) fun v hv =>
      yields_builtinValue builtin type hv others

theorem yields_receiverValue (ref : ArtifactRef) (receiver : Receiver) {base : Option Operand}
    (h : ∀ o ∈ base, Lawful c P o) : Yields c (receiverValue ref receiver base) P := by
  unfold receiverValue
  split
  · exact yields_pure (law.ident trivial)
  · refine yields_bind (yields_require (fun o found => h o found) _) fun o ho => ?_
    refine yields_bind yields_unit fun u _ => ?_
    split
    · exact yields_bind ho fun v hv => yields_pure (law.address hv)
    · exact yields_bind (yields_cType _) fun _ word => yields_bind (yields_value ho) fun v hv =>
        yields_pure (law.elements word (by simpa using hv))

theorem isPlain_called {name : C.Name} (supplied total : Nat) (h : name.IsPlain) :
    (called name supplied total).IsPlain := by
  unfold called
  split <;> exact h

end Operands

/-! ### Expressions -/

/-- All accesses to the variables at some nodes keep a law. -/
structure Reaches (c : LowerContext) (a : Activation) (P : C.Expr → Prop) (ids : List NodeId) :
    Prop where
  var : ∀ n ∈ ids, ∀ id, c.unit.resolutions.get? n = some (.var id) → Yields c (varAccess a id) P
  call : ∀ n ∈ ids, ∀ id proc supplied total,
    c.unit.calls.get? n = some (.nestedProc id proc supplied total) → Yields c (varAccess a id) P

/-- All accesses to the variables at some nodes read given symbols only. -/
abbrev Reachable (c : LowerContext) (a : Activation) (own : List SymbolId) : List NodeId → Prop :=
  Reaches c a (ReadsOnly own)

section Exprs

variable {a : Activation} {P : C.Expr → Prop}

theorem Reaches.mono {ids ids' : List NodeId} (h : Reaches c a P ids) (sub : ids' ⊆ ids) :
    Reaches c a P ids' :=
  ⟨fun n mem => h.var n (sub mem), fun n mem => h.call n (sub mem)⟩

variable [law : C.ExprLaw P]

theorem yields_varAccess_of_law {id : SymbolId}
    (captured : ∀ sym, sym = c.unit.symbols.getD id default → sym.isGlobal = false →
      ownProc? a sym = none → sym.owner ≠ a.proc → P (.arrow .env (.capture id))) :
    Yields c (varAccess a id) P := by
  refine yields_bind (yields_symbol id) fun sym hsym => ?_
  split
  · exact yields_bind (yields_globalName _) fun _ given => yields_pure (law.ident (given ▸ trivial))
  · next isLocal =>
    split
    · exact yields_bind (yields_cType _) fun _ word =>
        yields_bind (yields_procNameOf _) fun _ plain =>
        have env : P (.ident .envParam) := law.ident trivial
        yields_pure (law.compound word (by simp [env, law.ident plain]))
    · next other =>
      split
      · exact yields_pure (law.ident trivial)
      · next unowned => exact yields_pure (captured sym hsym (by simpa using isLocal) other unowned)

theorem yields_identValue {e : Expr} (h : Reaches c a P [e.id]) (name : String) :
    Yields c (identValue a e name) P := by
  refine yields_bind (yields_resolution e) fun r found => ?_
  split
  · exact h.var e.id mem_cons_self _ found
  · exact yields_procValue e _
  · exact yields_pure (law.ident trivial)
  · exact yields_throw _

/-- A call, whatever it is that is called. -/
theorem yields_callValue {e : Expr} (h : Reaches c a P [e.id]) {callee : Operand}
    (hcallee : Lawful c P callee) {base : Option Operand} (hbase : ∀ o ∈ base, Lawful c P o)
    {args : List Operand} (hargs : ∀ o ∈ args, Lawful c P o) :
    Yields c (callValue a e callee base args) P := by
  have values := yields_ownedAll hargs
  refine yields_bind yields_unit fun u hu => ?_
  refine yields_bind (yields_require (fun t found => found) _) fun target found => ?_
  rw [hu] at found
  split
  · exact yields_bind values fun vs hvs => yields_pure (law.call (isPlain_called _ _ trivial) hvs)
  · next sym proc supplied total =>
    have called {env : C.Expr} (henv : P env) : Yields c (do
        let values ← Operand.ownedAll args
        return .call (called (← procNameOf proc) supplied total) (env :: values)) P :=
      yields_bind values fun vs hvs => yields_bind (yields_procNameOf _) fun _ plain =>
        yields_pure (law.call (isPlain_called _ _ plain) (List.forall_mem_cons.mpr ⟨henv, hvs⟩))
    dsimp only
    -- A procedure that calls itself hands on its own environment; any other is found under its
    -- symbol.
    split
    · exact yields_bind (P := P) (yields_pure (law.ident trivial)) fun v hv => called hv
    · refine yields_bind (h.call e.id mem_cons_self _ _ _ _ found) fun v hv => ?_
      exact yields_bind (P := P) (yields_pure (law.field (by decide) hv)) fun v hv => called hv
  · refine yields_bind (yields_receiverValue _ _ hbase) fun v hv => ?_
    exact yields_bind values fun vs hvs => yields_pure
      (law.call (isPlain_called _ _ trivial) (List.forall_mem_cons.mpr ⟨hv, hvs⟩))
  · refine yields_bind (yields_cType _) fun _ word => ?_
    split
    · exact yields_pure (law.call word (by simp))
    · exact yields_bind values fun vs hvs => yields_pure (law.call (isPlain_called _ _ word) hvs)
  · refine yields_bind (yields_typeOf _) fun _ _ => yields_bind (yields_cType _) fun _ word => ?_
    refine yields_bind (yields_value hcallee) fun v hv => ?_
    exact yields_bind values fun vs hvs => yields_pure
      (law.call ⟨word, by decide⟩ (List.forall_mem_cons.mpr ⟨hv, hvs⟩))
  · exact yields_builtinCall _ hargs
  · refine yields_bind (yields_require (fun o found => hbase o found) _) fun o ho => ?_
    refine yields_bind (yields_typeOf _) fun _ _ => yields_bind (yields_cType _) fun _ word => ?_
    refine yields_bind ho fun place hplace => ?_
    refine yields_bind (yields_require (fun o found => hargs o (mem_of_head? found)) _)
      fun arg harg => ?_
    exact yields_bind (yields_owned harg) fun v hv => yields_pure
      (law.call ⟨word, by decide⟩ (by simp [law.address hplace, hv]))
  · refine yields_bind (yields_require (fun o found => hbase o found) _) fun o ho => ?_
    refine yields_bind (yields_typeOf _) fun _ _ => yields_bind (yields_cType _) fun _ word => ?_
    exact yields_bind ho fun place hplace => yields_pure
      (law.call ⟨word, by decide⟩ (by simpa using law.address hplace))

omit law

mutual

/-- The law holds of every lowered expression. -/
theorem yields_expr [law : C.ExprLaw P] : (e : Expr) → Reaches c a P e.ids → Yields c (expr a e) P
  | .int .., _ => yields_pure (law.int _)
  | .float .., _ => yields_pure (law.float _)
  | .str .., _ => yields_pure (law.string _)
  | .bool .., _ => yields_pure (law.bool _)
  | .ident node name, h => yields_identValue (e := .ident node name) h name
  | .selfProp _ name, _ => yields_selfPropValue _ name
  | .member _ base name, h =>
    yields_memberValue _ (lawful_operand (yields_expr base (h.mono (by simp [Expr.ids])))) name
  | .array _ items, h =>
    yields_arrayValue _ (yields_operands items (h.mono (by simp [Expr.ids])))
  | .unary _ op operand, h => by
    unfold expr
    split
    · exact yields_pure (law.unary (by simp) (law.int _))
    · exact yields_pure (law.unary (by simp) (law.float _))
    · exact yields_unaryValue op
        (lawful_operand (yields_expr operand (h.mono (by simp [Expr.ids]))))
  | .binary _ left op right, h =>
    yields_binaryValue _ op (lawful_operand (yields_expr left (h.mono (by simp [Expr.ids]))))
      (lawful_operand (yields_expr right (h.mono (by simp [Expr.ids]))))
  | .postOp _ op operand, h =>
    yields_postOpValue op (lawful_operand (yields_expr operand (h.mono (by simp [Expr.ids]))))
  | .index _ base place, h =>
    yields_indexValue (lawful_operand (yields_expr base (h.mono (by simp [Expr.ids]))))
      (lawful_operand (yields_expr place (h.mono (by simp [Expr.ids]))))
  | .call node callee args, h => by
    have hcallee := yields_expr callee (h.mono (by simp [Expr.ids]))
    have hargs := yields_operands args (h.mono (by simp [Expr.ids]))
    have here : Reaches c a P [(Expr.call node callee args).id] :=
      h.mono (by simp [Expr.ids, Expr.id, Expr.node])
    unfold expr
    refine yields_callValue here (lawful_operand hcallee) (fun o found => ?_) hargs
    -- Only the call of a member has a base.
    match callee, found with
    | .member _ base _, found =>
      cases found
      exact yields_expr base (h.mono (by simp [Expr.ids]))

theorem yields_operands [C.ExprLaw P] : (es : List Expr) → Reaches c a P (Expr.idsAll es) →
    ∀ o ∈ operands a es, Lawful c P o
  | [], _ => fun _ mem => by cases mem
  | e :: es, h => List.forall_mem_cons.mpr
    ⟨yields_expr e (h.mono (by simp [Expr.idsAll])),
      yields_operands es (h.mono (by simp [Expr.idsAll]))⟩

end

theorem yields_exprValue [C.ExprLaw P] {e : Expr} (h : Reaches c a P e.ids) :
    Yields c (value a e) P :=
  yields_value (yields_expr e h)

theorem yields_ownedValue [C.ExprLaw P] {e : Expr} (h : Reaches c a P e.ids) :
    Yields c (ownedValue a e) P :=
  yields_owned (yields_expr e h)

end Exprs

end Lower

end ArkLang
