import ArkLang.Proofs.CoherentUnits

/-!
# What accepted units declare

If nothing is wrong with the declarations of a unit, its outline lists them all: no two module-level
statements declare the same name, no two members of an artifact share one, and every variable,
procedure and artifact of the program is found under its own name. The tables of the unit keep that,
and every property of an artifact is listed there in the order of its declaration.
-/

namespace ArkLang

open List

/-! ### Names of declarations -/

def Member.name : Member → String
  | .prop decl => decl.name.value
  | .proc decl => decl.name.value
  | .enumCase decl => decl.name.value

def Member.proc? : Member → Option ProcDecl
  | .proc decl => some decl
  | _ => none

def Member.case? : Member → Option EnumCase
  | .enumCase decl => some decl
  | _ => none

namespace ArtifactDecl

theorem procs_eq (a : ArtifactDecl) : a.procs = a.members.filterMap Member.proc? := rfl

theorem cases_eq (a : ArtifactDecl) : a.cases = a.members.filterMap Member.case? := rfl

end ArtifactDecl

namespace Stmt

/-- The name of an import or artifact, if a statement declares one. -/
def typeName? : Stmt → Option String
  | .importUnit decl => some decl.name.value
  | .artifact decl => some decl.name.value
  | _ => none

/-- The name of a procedure or variable, if a statement declares one. -/
def valueName? : Stmt → Option String
  | .proc decl => some decl.name.value
  | .var decl => some decl.name.value
  | _ => none

def declaredName? : Stmt → Option String
  | .importUnit decl => some decl.name.value
  | .artifact decl => some decl.name.value
  | .proc decl => some decl.name.value
  | .var decl => some decl.name.value
  | _ => none

def artifact? : Stmt → Option ArtifactDecl
  | .artifact decl => some decl
  | _ => none

def proc? : Stmt → Option ProcDecl
  | .proc decl => some decl
  | _ => none

def var? : Stmt → Option VarDecl
  | .var decl => some decl
  | _ => none

end Stmt

namespace ArtifactDecl

variable (a : ArtifactDecl)

theorem mem_procs {d : ProcDecl} : d ∈ a.procs ↔ .proc d ∈ a.members := by
  rw [procs, mem_filterMap]
  constructor
  · rintro ⟨m, hm, found⟩
    cases m <;> cases found
    exact hm
  · exact fun h => ⟨_, h, rfl⟩

theorem mem_cases {c : EnumCase} : c ∈ a.cases ↔ .enumCase c ∈ a.members := by
  rw [cases, mem_filterMap]
  constructor
  · rintro ⟨m, hm, found⟩
    cases m <;> cases found
    exact hm
  · exact fun h => ⟨_, h, rfl⟩

theorem mem_props {v : VarDecl} : v ∈ a.props ↔ .prop v ∈ a.members := by
  rw [props, mem_filterMap]
  constructor
  · rintro ⟨m, hm, found⟩
    cases m <;> cases found
    exact hm
  · exact fun h => ⟨_, h, rfl⟩

end ArtifactDecl

/-- The values of cases: a written value, or the one behind the value before it. -/
def EnumCase.valuesFrom (next : Int) : List EnumCase → List (String × Int)
  | [] => []
  | c :: rest =>
    let value := (c.value.map Located.value).getD next
    (c.name.value, value) :: valuesFrom (Outline.nextCaseValue value) rest

theorem EnumCase.map_fst_valuesFrom (next : Int) (cs : List EnumCase) :
    (valuesFrom next cs).map Prod.fst = cs.map (·.name.value) := by
  induction cs generalizing next with
  | nil => rfl
  | cons c rest ih => rw [valuesFrom, map_cons, map_cons, ih]

/-- A procedure of an outline with its path and its kind. -/
structure ProcHead where
  decl : ProcDecl
  path : List String
  kind : ProcKind

namespace Outline

def memberKind (kind : ArtifactKind) (ref : ArtifactRef) (mutating : Bool) : ProcKind :=
  match kind with
  | .record => .method ref mutating
  | _ => .namespaced ref

theorem fst_memberRole (kind : ArtifactKind) (ref : ArtifactRef) (id : ProcId) :
    (memberRole kind ref id).1 = memberKind kind ref false := by
  cases kind <;> rfl

def memberHead (module : ModuleId) (a : ArtifactDecl) (d : ProcDecl) : ProcHead :=
  ⟨d, [a.name.value, d.name.value], memberKind a.kind ⟨module, a.name.value⟩ false⟩

def memberHeads (module : ModuleId) (a : ArtifactDecl) : List ProcHead :=
  a.procs.map (memberHead module a)

def topHead (d : ProcDecl) : ProcHead :=
  ⟨d, [d.name.value], .topLevel⟩

/-- A procedure without what `.name` speaks of in it. -/
def head (p : LocalProc) : ProcHead :=
  ⟨p.decl, p.path, p.kind⟩

/-- An outline that lists the imports and artifacts of some statements, and the procedures and
variables of others. -/
structure Lists (o : Outline) (types values : List Stmt) : Prop where
  names : o.names.map Prod.fst = types.filterMap Stmt.typeName? ++ values.filterMap Stmt.valueName?
  nodup : (o.names.map Prod.fst).Nodup
  procs : o.procs.toList.map head = (types.filterMap Stmt.artifact?).flatMap
    (memberHeads o.module) ++
    (values.filterMap Stmt.proc?).map topHead
  globals : o.globals.toList.map LocalGlobal.decl = values.filterMap Stmt.var?
  artifacts : o.artifacts.map (fun a => (a.decl, a.cases)) =
    (types.filterMap Stmt.artifact?).map fun a => (a, EnumCase.valuesFrom 0 a.cases)
  members : ∀ a, Stmt.artifact a ∈ types → (a.members.map Member.name).Nodup
  methods : ∀ a ∈ o.artifacts, ∀ d ∈ a.decl.procs, ∃ id ∈ a.methods.map Prod.snd,
    (o.procs.toList.map head)[id]? = some (memberHead o.module a.decl d)

section Steps

variable {o : Outline} {types values : List Stmt}

theorem not_mem_names {names : List (String × Binding)} {name : String}
    (free : ¬ (names.lookup name).isSome = true) : name ∉ names.map Prod.fst := by
  intro taken
  obtain ⟨⟨key, old⟩, mem, rfl⟩ := List.mem_map.mp taken
  exact free (List.lookup_isSome_iff.mpr ⟨_, mem, by simp⟩)

theorem bind_free {name : Ident} {b : Binding} (h : (o.bind name b).errors = #[]) :
    name.value ∉ o.names.map Prod.fst ∧
      o.bind name b = { o with names := o.names ++ [(name.value, b)] } := by
  unfold Outline.bind at h ⊢
  split at h
  · simp [report] at h
  · next free =>
    exact ⟨not_mem_names free, if_neg free⟩

theorem Lists.skipType (h : o.Lists types values) {s : Stmt} (name : s.typeName? = none)
    (artifact : s.artifact? = none) : o.Lists (types ++ [s]) values where
  names := by simp [h.names, name]
  nodup := h.nodup
  procs := by simp [h.procs, artifact]
  globals := h.globals
  artifacts := by simp [h.artifacts, artifact]
  members a mem := by
    rcases List.mem_append.mp mem with mem | mem
    · exact h.members a mem
    · rw [← List.mem_singleton.mp mem] at artifact
      cases artifact
  methods := h.methods

theorem Lists.skipValue (h : o.Lists types values) {s : Stmt} (name : s.valueName? = none) :
    o.Lists types (values ++ [s]) where
  names := by simp [h.names, name]
  nodup := h.nodup
  procs := by
    have none : s.proc? = none := by cases s <;> simp_all [Stmt.valueName?, Stmt.proc?]
    simp [h.procs, none]
  globals := by
    have none : s.var? = none := by cases s <;> simp_all [Stmt.valueName?, Stmt.var?]
    simp [h.globals, none]
  artifacts := h.artifacts
  members := h.members
  methods := h.methods

theorem getElem?_append_of_some {α : Type} {xs ys : List α} {i : Nat} {x : α}
    (h : xs[i]? = some x) :
    (xs ++ ys)[i]? = some x :=
  (getElem?_append_left (List.getElem?_eq_some_iff.mp h).1).trans h

theorem nodup_names {names : List (String × Binding)} (h : (names.map Prod.fst).Nodup)
    {name : String}
    (new : name ∉ names.map Prod.fst) (b : Binding) :
    ((names ++ [(name, b)]).map Prod.fst).Nodup := by
  rw [map_append]
  exact h.append (nodup_singleton _) (List.disjoint_singleton.mpr new)

theorem Lists.addImport (h : o.Lists types []) {r : Resolver} {decl : Import}
    (free : (o.addImport r decl).errors = #[]) :
    (o.addImport r decl).Lists (types ++ [.importUnit decl]) [] := by
  have bound (o' : Outline) (b : Binding) (same : o'.Lists types [])
      (free : (o'.bind decl.name b).errors = #[]) :
      (o'.bind decl.name b).Lists (types ++ [.importUnit decl]) [] := by
    obtain ⟨new, eq⟩ := bind_free free
    rw [eq]
    refine ⟨?_, nodup_names same.nodup new b, ?_, same.globals, ?_,
      fun a mem => same.members a ?_, same.methods⟩
    · simp [same.names, Stmt.typeName?]
    · simpa [filterMap_cons, Stmt.artifact?] using same.procs
    · simpa [filterMap_cons, Stmt.artifact?] using same.artifacts
    · simpa using mem
  unfold Outline.addImport at free ⊢
  split at free
  · next interface _ =>
    exact bound { o with imported := interface :: o.imported } _
      ⟨h.1, h.2, h.3, h.4, h.5, h.6, h.7⟩ free
  · exact bound (o.report _ _) _ ⟨h.1, h.2, h.3, h.4, h.5, h.6, h.7⟩ free
  · exact bound (o.report _ _) _ ⟨h.1, h.2, h.3, h.4, h.5, h.6, h.7⟩ free
  · exact bound o _ h free

theorem add_of_free (artifact : ArtifactDecl) {member : Member} {m : Members}
    (free : member.name ∉ m.names) :
    (m.add artifact member).names = member.name :: m.names ∧
      (∀ more, (m.add artifact member).cases ++
        EnumCase.valuesFrom (m.add artifact member).nextValue more =
          m.cases ++ EnumCase.valuesFrom m.nextValue (member.case?.toList ++ more)) ∧
      (m.add artifact member).methods.map Prod.snd =
        m.methods.map Prod.snd ++ member.proc?.toList.map (fun _ => m.outline.procs.size) ∧
      ∃ procs, (m.add artifact member).outline = { m.outline with procs } ∧
        procs.toList.map head = m.outline.procs.toList.map head ++
          member.proc?.toList.map (memberHead m.outline.module artifact) := by
  cases member with
  | proc decl =>
    rw [Members.add, if_neg (by simpa [Member.name] using free)]
    refine ⟨rfl, fun _ => rfl, by simp [Member.proc?], _, rfl, ?_⟩
    simp [Member.proc?, head, memberHead, fst_memberRole]
  | _ decl =>
    rw [Members.add, if_neg (by simpa [Member.name] using free)]
    exact ⟨rfl, by simp [Member.case?, EnumCase.valuesFrom], by simp [Member.proc?],
      m.outline.procs, rfl, by simp [Member.proc?]⟩

theorem add_of_taken (artifact : ArtifactDecl) {member : Member} {m : Members}
    (taken : member.name ∈ m.names) :
    (m.add artifact member).names = m.names ∧ (m.add artifact member).outline.errors ≠ #[] := by
  cases member <;> rw [Members.add, if_pos (by simpa [Member.name] using taken)] <;> simp [report]

theorem addMembers {artifact : ArtifactDecl} {members : List Member} {m : Members}
    (free : (members.foldl (Members.add artifact) m).outline.errors = #[]) (nodup : m.names.Nodup) :
    (m.names.reverse ++ members.map Member.name).Nodup ∧
      (members.foldl (Members.add artifact) m).cases =
        m.cases ++ EnumCase.valuesFrom m.nextValue (members.filterMap Member.case?) ∧
      m.methods.map Prod.snd ⊆ (members.foldl (Members.add artifact) m).methods.map Prod.snd ∧
      ∃ procs, (members.foldl (Members.add artifact) m).outline = { m.outline with procs } ∧
        procs.toList.map head = m.outline.procs.toList.map head ++
          (members.filterMap Member.proc?).map (memberHead m.outline.module artifact) ∧
        ∀ d ∈ members.filterMap Member.proc?,
          ∃ id ∈ (members.foldl (Members.add artifact) m).methods.map Prod.snd,
            (procs.toList.map head)[id]? = some (memberHead m.outline.module artifact d) := by
  induction members generalizing m with
  | nil =>
    exact ⟨by simpa using nodup, by simp [EnumCase.valuesFrom], List.Subset.refl _, m.outline.procs,
      rfl, by simp, by simp⟩
  | cons member rest ih =>
    by_cases taken : member.name ∈ m.names
    · obtain ⟨names, reported⟩ := add_of_taken artifact taken
      have later := errors_prefix_addMembers artifact rest (m.add artifact member)
      exact absurd (errors_eq_empty later free) reported
    · obtain ⟨names, cases', methods, procs, outline, heads⟩ := add_of_free artifact taken
      have nodup' : (m.add artifact member).names.Nodup :=
        names ▸ List.nodup_cons.mpr ⟨taken, nodup⟩
      obtain ⟨apart, cases'', kept, procs', outline', heads', listed⟩ := ih free nodup'
      rw [outline] at outline' heads' listed
      rw [methods] at kept
      have whole : procs'.toList.map head = m.outline.procs.toList.map head ++
          ((member :: rest).filterMap Member.proc?).map (memberHead m.outline.module artifact) := by
        rw [heads', heads, append_assoc]
        cases found : member.proc? <;> simp [found]
      refine ⟨?_, ?_, ?_, procs', outline', whole, fun d mem => ?_⟩
      · simpa [names] using apart
      · rw [foldl_cons, cases'', cases']
        cases found : member.case? <;> simp [found]
      · exact fun id mem => kept (mem_append_left _ mem)
      · rw [filterMap_cons] at mem whole
        cases found : member.proc? with
        | none =>
          rw [found] at mem
          exact listed d mem
        | some first =>
          rw [found] at mem whole kept
          rcases List.mem_cons.mp mem with rfl | mem
          · exact ⟨m.outline.procs.size, kept (by simp), by rw [whole]; simp⟩
          · exact listed d mem

theorem Lists.addArtifact (h : o.Lists types []) {position : Nat} {decl : ArtifactDecl}
    (free : (o.addArtifact position decl).errors = #[]) :
    (o.addArtifact position decl).Lists (types ++ [.artifact decl]) [] := by
  unfold Outline.addArtifact at free ⊢
  dsimp only at free ⊢
  split at free
  · next taken =>
    unfold Outline.bind at free
    rw [if_pos taken] at free
    simp [report] at free
  · next untaken =>
    rw [if_neg untaken]
    have bound : o.bind decl.name (.artifact ⟨o.module, decl.name.value⟩) = { o with
        names := o.names ++ [(decl.name.value, .artifact ⟨o.module, decl.name.value⟩)] } :=
      if_neg untaken
    have new : decl.name.value ∉ o.names.map Prod.fst := not_mem_names untaken
    rw [bound] at free ⊢
    obtain ⟨members, cases', -, procs, outline, heads, listed⟩ := addMembers free nodup_nil
    rw [outline]
    refine ⟨?_, nodup_names h.nodup new _, ?_, h.globals, ?_, fun a mem => ?_, fun a mem d hd => ?_⟩
    · simp [h.names, Stmt.typeName?]
    · rw [heads, h.procs]
      simp [Stmt.artifact?, memberHeads, ArtifactDecl.procs_eq]
    · rw [map_append, h.artifacts]
      simp [Stmt.artifact?, cases', ArtifactDecl.cases_eq]
    · rcases List.mem_append.mp mem with mem | mem
      · exact h.members a mem
      · cases List.mem_singleton.mp mem
        simpa using members
    · rcases List.mem_append.mp mem with mem | mem
      · obtain ⟨id, known, at_⟩ := h.methods a mem d hd
        exact ⟨id, known, heads ▸ getElem?_append_of_some at_⟩
      · cases List.mem_singleton.mp mem
        exact listed d hd

theorem Lists.addTopLevel (h : o.Lists types values) {decl : ProcDecl}
    (free : (o.addTopLevel decl).errors = #[]) :
    (o.addTopLevel decl).Lists types (values ++ [.proc decl]) := by
  obtain ⟨new, bound⟩ := bind_free free
  rw [Outline.addTopLevel, bound]
  refine ⟨?_, nodup_names h.nodup new _, ?_, ?_, h.artifacts, h.members, fun a mem d hd => ?_⟩
  · simp [addProc, h.names, Stmt.valueName?]
  · simp [addProc, h.procs, Stmt.proc?, head, topHead]
  · simp [addProc, h.globals, filterMap_cons, Stmt.var?]
  · obtain ⟨id, known, at_⟩ := h.methods a mem d hd
    refine ⟨id, known, ?_⟩
    rw [addProc, Array.toList_push, map_append]
    exact getElem?_append_of_some at_

theorem Lists.addGlobal (h : o.Lists types values) {position : Nat} {decl : VarDecl}
    (free : (o.addGlobal position decl).errors = #[]) :
    (o.addGlobal position decl).Lists types (values ++ [.var decl]) := by
  have added (o' : Outline) (same : o'.Lists types values) (declared : Option Ty)
      (free : (Outline.bind { o' with globals := o'.globals.push ⟨decl, position, declared⟩ }
        decl.name (.symbol o'.globals.size)).errors = #[]) :
      (Outline.bind { o' with globals := o'.globals.push ⟨decl, position, declared⟩ }
        decl.name (.symbol o'.globals.size)).Lists types (values ++ [.var decl]) := by
    obtain ⟨new, bound⟩ := bind_free free
    rw [bound]
    refine ⟨?_, nodup_names same.nodup new _, ?_, ?_, same.artifacts, same.members, same.methods⟩
    · simp [same.names, Stmt.valueName?]
    · simp [same.procs, filterMap_cons, Stmt.proc?]
    · simp [same.globals, Stmt.var?]
  unfold Outline.addGlobal at free ⊢
  dsimp only at free ⊢
  split at free
  · exact added o h _ free
  · exact added o h _ free
  · next e _ =>
    exact added { o with errors := o.errors.push e } ⟨h.1, h.2, h.3, h.4, h.5, h.6, h.7⟩ _ free

end Steps

/-! ### Whole programs -/

variable {o : Outline} {types values : List Stmt}

theorem Lists.addTypes (h : o.Lists types []) {r : Resolver} {position : Nat} {stmts : List Stmt}
    (free : (o.addTypes r position stmts).errors = #[]) :
    (o.addTypes r position stmts).Lists (types ++ stmts) [] := by
  induction stmts generalizing o types position with
  | nil => simpa [Outline.addTypes] using h
  | cons s rest ih =>
    have go {o' : Outline} (same : o'.Lists (types ++ [s]) [])
        (free : (o'.addTypes r (position + 1) rest).errors = #[]) :
        (o'.addTypes r (position + 1) rest).Lists (types ++ s :: rest) [] := by
      simpa using ih same free
    cases s with
    | importUnit decl =>
      exact go (h.addImport (errors_eq_empty (errors_prefix_addTypes r (position + 1) rest) free))
        free
    | artifact decl =>
      exact go (h.addArtifact (errors_eq_empty (errors_prefix_addTypes r (position + 1) rest) free))
        free
    | _ => exact go (h.skipType rfl rfl) free

theorem Lists.addValues (h : o.Lists types values) {position : Nat} {stmts : List Stmt}
    (free : (o.addValues position stmts).errors = #[]) :
    (o.addValues position stmts).Lists types (values ++ stmts) := by
  induction stmts generalizing o values position with
  | nil => simpa [Outline.addValues] using h
  | cons s rest ih =>
    have go {o' : Outline} (same : o'.Lists types (values ++ [s]))
        (free : (o'.addValues (position + 1) rest).errors = #[]) :
        (o'.addValues (position + 1) rest).Lists types (values ++ s :: rest) := by
      simpa using ih same free
    cases s with
    | proc decl =>
      exact go (h.addTopLevel (errors_eq_empty
        (errors_prefix_addValues (position + 1) rest) free)) free
    | var decl =>
      exact go (h.addGlobal (errors_eq_empty (errors_prefix_addValues (position + 1) rest) free))
        free
    | _ => exact go (h.skipValue rfl) free

/-- An outline without errors lists all declarations. -/
theorem lists_ofProgram {module : ModuleId} {r : Resolver} {p : Program}
    (free : (ofProgram module r p).errors = #[]) :
    (ofProgram module r p).Lists p.stmts p.stmts := by
  have start : Outline.Lists { module, reached := r.interface? } [] [] :=
    ⟨rfl, nodup_nil, rfl, rfl, rfl, by simp, by simp⟩
  have types := start.addTypes (errors_eq_empty (errors_prefix_addValues 0 p.stmts) free)
  exact types.addValues free

theorem lists_of_run {module : ModuleId} {r : Resolver} {p : Program}
    (free : (Analysis.run (.ofProgram module r p) p).errors = #[]) :
    (ofProgram module r p).Lists p.stmts p.stmts := by
  have first := Analysis.errors_prefix_run (.ofProgram module r p) p
  rw [free, prefix_nil, Array.toList_eq_nil_iff] at first
  exact lists_ofProgram first

/-- No name is declared twice. -/
theorem Lists.nodup_declared {stmts : List Stmt} (h : o.Lists stmts stmts) :
    (stmts.filterMap Stmt.declaredName?).Nodup := by
  have perm (ss : List Stmt) : (ss.filterMap Stmt.declaredName?).Perm
      (ss.filterMap Stmt.typeName? ++ ss.filterMap Stmt.valueName?) := by
    induction ss with
    | nil => exact .refl _
    | cons s rest ih =>
      cases s with
      | importUnit decl | artifact decl => exact ih.cons _
      | proc decl | var decl => exact (ih.cons _).trans List.perm_middle.symm
      | _ => exact ih
  rw [(perm stmts).nodup_iff, ← h.names]
  exact h.nodup

end Outline

/-! ### Properties -/

section Properties

variable {o : Outline} {K : Region} {s s' : Analysis} {name : String}

theorem Analysis.Change.props (h : s.Change o K s') (out : name ∉ K.props) :
    s'.props.get? name = s.props.get? name := by
  cases h with
  | @prop prop artifact mem =>
    have other : name ≠ artifact := fun same => out (same ▸ mem)
    simp [other]
  | _ => rfl

theorem Trace.props_of_begun (h : Trace o K s s') (out : name ∉ K.props)
    (begun : .props name ∈ s.started) : s'.props.get? name = s.props.get? name := by
  induction h with
  | refl => rfl
  | change first _ ih => exact (ih out (first.grows.started begun)).trans (first.props out)
  | @item K s s₁ s' i _ _ _ new _ _ inner rest ihInner ihRest =>
    have other : name ∉ (o.region i).props := by
      cases i with
      | props artifact =>
        simp only [Outline.region, mem_singleton]
        rintro rfl
        exact new begun
      | _ => exact not_mem_nil
    have begun' : .props name ∈ (s.begin i).started := mem_cons_of_mem _ begun
    exact (ihRest out (inner.grows.started begun')).trans (ihInner other begun')

def Analysis.propNames (s : Analysis) (name : String) : List String :=
  ((s.props.get? name).getD []).map PropInfo.name

open Check in
/-- Properties are listed in the order of declaration. -/
theorem Check.propNames_propTypes {need : Item → Check Unit}
    (hneed : ∀ K i, (o.bounds K).law.Holds (need i)) (c : Context) (a : LocalArtifact)
    {decls : List VarDecl} {u : Unit}
    (h : Gives (propTypes need c a decls) o s u s') (size : o.procs.size ≤ s.procs.size)
    (begun : .props a.name ∈ s.started) :
    s'.propNames a.name = s.propNames a.name ++ decls.map (·.name.value) := by
  induction decls generalizing s with
  | nil =>
    obtain ⟨-, rfl⟩ := gives_pure.mp h
    simp
  | cons decl rest ih =>
    unfold propTypes at h
    obtain ⟨type, s₁, typed, h⟩ := gives_bind.mp h
    have able := supports (hneed { nodes := decl.valueIds }) (Scoped.within_all c)
    have confined : (o.bounds { nodes := decl.valueIds }).law.Holds
        (orNote (declType need c decl none) .unknown) :=
      holds_orNote (holds_declType able (fun _ mem => mem) (within_none.mpr trivial)) trivial
    have trace : Trace o { nodes := decl.valueIds } s s₁ := by
      have run := Confined.trace confined size
      rwa [typed] at run
    have same := trace.props_of_begun not_mem_nil begun
    have begun₁ := trace.grows.started begun
    have size₁ := Nat.le_trans size trace.grows.size_procs
    -- the property is added to those before it, whether or not its type is refused
    have added {t : Analysis}
        (h : Gives
          (do addProp a.name ⟨decl.name.value, type, decl.mutable⟩; propTypes need c a rest)
          o t u s') (known : t.props.get? a.name = s.props.get? a.name)
        (size : o.procs.size ≤ t.procs.size) (begun : .props a.name ∈ t.started) :
        s'.propNames a.name = s.propNames a.name ++ (decl :: rest).map (·.name.value) := by
      obtain ⟨⟨⟩, t₁, wrote, h⟩ := gives_bind.mp h
      have eq := gives_modify.mp wrote
      subst eq
      rw [ih h size begun]
      simp [Analysis.propNames, known]
    dsimp only at h
    split at h
    · obtain ⟨⟨⟩, s₂, noted, h⟩ := gives_bind.mp h
      have eq := gives_modify.mp noted
      subst eq
      exact added h same size₁ begun₁
    · exact added h same size₁ begun₁

theorem Trace.propNames {a : LocalArtifact}
    (found : o.artifacts.find? (·.name == name) = some a) (h : Trace o K s s')
    (size : o.procs.size ≤ s.procs.size) (out : name ∉ K.props) (new : .props name ∉ s.started)
    (unknown : s.props.get? name = none) :
    (.props name ∉ s'.started ∧ s'.props.get? name = none) ∨
      (.props name ∈ s'.started ∧ s'.propNames name = a.decl.props.map (·.name.value)) := by
  induction h with
  | refl => exact .inl ⟨new, unknown⟩
  | @change K s s₁ s' first rest ih =>
    refine ih (Nat.le_trans size first.grows.size_procs) out ?_
      ((first.props out).trans unknown)
    cases first with
    | started nested =>
      intro begun
      rcases List.mem_cons.mp begun with rfl | begun
      · exact nested
      · exact new begun
    | _ => exact new
  | @item K s s₁ s' i depth check content newI ready run inner rest ihInner ihRest =>
    have size₁ : o.procs.size ≤ s₁.procs.size := Nat.le_trans size inner.grows.size_procs
    -- what is listed once is listed in the end
    have kept (begun : .props name ∈ s₁.started)
        (listed : s₁.propNames name = a.decl.props.map (·.name.value)) :
        .props name ∈ s'.started ∧ s'.propNames name = a.decl.props.map (·.name.value) := by
      have same := rest.props_of_begun out begun
      exact ⟨rest.grows.started begun, by rw [Analysis.propNames, same]; exact listed⟩
    by_cases here : i = .props name
    · subst here
      obtain ⟨b, found', rfl⟩ := Option.map_eq_some_iff.mp content
      obtain rfl : b = a := Option.some.inj (found'.symm.trans found)
      have named : b.name = name := by simpa using find?_some found
      subst named
      obtain ⟨_, _, ⟨⟩, run⟩ := gives_bind.mp run
      have listed := Check.propNames_propTypes (fun K i => Check.confined_demand _ depth i) _ b run
        size mem_cons_self
      refine .inr (kept (inner.grows.started mem_cons_self) ?_)
      rw [listed]
      simp [Analysis.propNames, Analysis.begin, unknown]
    · have out' : name ∉ (o.region i).props := by
        cases i with
        | props artifact =>
          simp only [Outline.region, mem_singleton]
          rintro rfl
          exact here rfl
        | _ => exact not_mem_nil
      have new' : .props name ∉ (s.begin i).started := fun begun =>
        (List.mem_cons.mp begun).elim (fun same => here same.symm) new
      rcases ihInner size out' new' unknown with ⟨untouched, still⟩ | ⟨begun, listed⟩
      · exact ihRest size₁ out untouched still
      · exact .inr (kept begun listed)

end Properties

/-! ### What follows the checks -/

theorem Outline.marked_memberKind (kind : ArtifactKind) (ref : ArtifactRef) (mutating : Bool) :
    (memberKind kind ref false).marked mutating = memberKind kind ref mutating := by
  cases kind <;> rfl

namespace Analysis

variable {o : Outline}

theorem judge_eq (mutating : List ProcId) (s : Analysis) (p : PendingReceiver) :
    ∃ errors, judge o mutating s p = { s with
      calls := markCall s.calls p.call.id (isMutating o mutating p.artifact p.method),
      errors } := by
  unfold judge
  dsimp only
  split
  · split
    · exact ⟨_, rfl⟩
    · exact ⟨s.errors, rfl⟩
  · exact ⟨s.errors, rfl⟩

theorem foldl_judge_eq (mutating : List ProcId) (ps : List PendingReceiver) (s : Analysis) :
    ∃ calls errors, ps.foldl (judge o mutating) s = { s with calls, errors } := by
  induction ps generalizing s with
  | nil => exact ⟨s.calls, s.errors, rfl⟩
  | cons p rest ih =>
    obtain ⟨errors, first⟩ := judge_eq (o := o) mutating s p
    obtain ⟨calls', errors', others⟩ := ih (judge o mutating s p)
    exact ⟨calls', errors', by rw [foldl_cons, others, first]⟩

/-- What is settled behind the check of a program. -/
theorem run_eq (o : Outline) (p : Program) : ∃ calls errors mutating,
    run o p = { (runAt (Check.program p) o (ofOutline o)).2 with
      calls, errors
      procs := (runAt (Check.program p) o (ofOutline o)).2.procs.map (markMethod mutating) } := by
  set s := (runAt (Check.program p) o (ofOutline o)).2
  set noted : Analysis := { s with errors := s.errors ++ s.containmentErrors o }
  obtain ⟨calls, errors, judged⟩ :=
    foldl_judge_eq (o := o) (noted.mutatingMethods o) noted.pending.toList noted
  refine ⟨calls, errors, noted.mutatingMethods o, ?_⟩
  change noted.settleMutation o = _
  unfold settleMutation
  dsimp only
  rw [judged]

end Analysis

/-! ### Tables of units -/

namespace CheckedUnit

def symbolAt (u : CheckedUnit) (n : NodeId) : SymbolInfo :=
  match u.declSymbols.get? n with
  | some i => u.symbols.getD i default
  | none => default

def procAt (u : CheckedUnit) (n : NodeId) : ProcInfo :=
  match u.procDecls.get? n with
  | some i => u.procs.getD i default
  | none => default

/-- A unit whose tables know what its program declares. -/
structure Tabulated (u : CheckedUnit) : Prop where
  names : (u.program.stmts.filterMap Stmt.declaredName?).Nodup
  members : ∀ a, .artifact a ∈ u.program.stmts → (a.members.map Member.name).Nodup
  procs : ∀ n i, u.procDecls.get? n = some i → ∃ p, u.procs[i]? = some p ∧ p.id = i ∧ p.decl = n
  var : ∀ v, .var v ∈ u.program.stmts → (u.symbolAt v.node.id).name = v.name.value
  topLevel : ∀ d, .proc d ∈ u.program.stmts →
    (u.procAt d.node.id).path = [d.name.value] ∧ (u.procAt d.node.id).kind = .topLevel
  member : ∀ a, .artifact a ∈ u.program.stmts → ∀ d ∈ a.procs,
    (u.procAt d.node.id).path = [a.name.value, d.name.value] ∧
      ∃ mutating, (u.procAt d.node.id).kind =
        Outline.memberKind a.kind ⟨u.module, a.name.value⟩ mutating
  published : ∀ info ∈ u.interface.artifacts.values, info.module = u.module ∧
    ∃ a, .artifact a ∈ u.program.stmts ∧ info.name = a.name.value ∧ info.kind = a.kind ∧
      info.cases.map Prod.fst = a.cases.map (·.name.value) ∧
      info.props.map PropInfo.name <+: a.props.map (·.name.value)

end CheckedUnit

section Tables

open Analysis

variable {o : Outline} {p : Program} {n : NodeId}

theorem Outline.procAt_run {sites : NodeId → Site} (hs : (run o p).Coherent o sites)
    {proc : LocalProc} (mem : proc ∈ o.procs) :
    (((run o p).unit o p).procAt proc.decl.node.id).path = proc.path ∧
      ∃ mutating, (((run o p).unit o p).procAt proc.decl.node.id).kind =
      proc.kind.marked mutating := by
  obtain ⟨i, found⟩ := Array.getElem?_of_mem mem
  have start : (ofOutline o).procs[i]? = some (procEntry i proc) := by
    rw [ofOutline, Array.getElem?_mapIdx, found, Option.map_some]
  obtain ⟨q, checked, filled⟩ := (Check.trace_program o p).grows.procs i _ start
  obtain ⟨calls, errors, mutating, eq⟩ := run_eq o p
  have marked := markMethod_eq mutating q
  have final : (run o p).procs[i]? = some (markMethod mutating q) := by
    rw [eq, Array.getElem?_map, checked, Option.map_some]
  have decl : (markMethod mutating q).info.decl = proc.decl.node.id := by
    rw [marked, filled.info]
    rfl
  have procAt : ((run o p).unit o p).procAt proc.decl.node.id = (markMethod mutating q).info := by
    have declared : ((run o p).unit o p).procDecls.get? proc.decl.node.id = some i :=
      decl ▸ hs.procDecl i _ final
    rw [CheckedUnit.procAt, declared]
    simp [Analysis.unit, Array.getD_eq_getD_getElem?, final]
  rw [procAt, marked]
  exact ⟨by rw [filled.info]; rfl, mutating.contains q.info.id, by rw [filled.info]; rfl⟩

theorem Outline.Lists.varNodes {stmts : List Stmt} (h : o.Lists stmts stmts) :
    o.globals.toList.map (·.decl.node.id) = stmts.flatMap Stmt.varNode := by
  have vars (ss : List Stmt) :
      (ss.filterMap Stmt.var?).map (·.node.id) = ss.flatMap Stmt.varNode := by
    induction ss with
    | nil => rfl
    | cons s rest ih => cases s <;> simp [Stmt.var?, Stmt.varNode, filterMap_cons, ih]
  rw [← vars, ← h.globals, map_map]
  rfl

theorem Outline.symbolAt_run {module : ModuleId} {r : Resolver} (distinct : p.ids.Nodup)
    (ho : o = .ofProgram module r p) (h : o.Lists p.stmts p.stmts) {v : VarDecl}
    (mem : .var v ∈ p.stmts) :
    (((run o p).unit o p).symbolAt v.node.id).name = v.name.value := by
  have listed : v ∈ o.globals.toList.map LocalGlobal.decl := by
    rw [h.globals]
    exact List.mem_filterMap.mpr ⟨_, mem, rfl⟩
  obtain ⟨g, hg, rfl⟩ := List.mem_map.mp listed
  obtain ⟨i, hi, rfl⟩ := Array.mem_iff_getElem.mp (Array.mem_toList_iff.mp hg)
  have node : o.globals[i].decl.node.id ∈ p.stmts.flatMap Stmt.varNode :=
    List.mem_flatMap.mpr ⟨_, mem, mem_singleton_self _⟩
  -- the table has the variable at first, and nothing else is written at its node
  have start : (ofOutline o).declSymbols.get? o.globals[i].decl.node.id = some i := by
    refine get?_ofList_of_mem ?_ (Array.mem_toList_iff.mpr (Array.mem_mapIdx.mpr ⟨i, hi, rfl⟩))
    have nodes : (o.globals.mapIdx fun id g => (g.decl.node.id, id)).toList.map Prod.fst =
        p.stmts.flatMap Stmt.varNode := by
      rw [← h.varNodes, Array.toList_mapIdx]
      exact ext_getElem? fun i => by simp [Function.comp_def]
    rw [nodes]
    exact Outline.nodup_varNode distinct
  obtain ⟨item, top⟩ : o.globals[i].decl.node.id ∉ (Outline.ofProgram module r p).nodes ∧
      o.globals[i].decl.node.id ∉ p.stmts.flatMap Stmt.topCode :=
    Outline.not_mem_of_mem_varNode distinct node
  have same := (Check.trace_program o p).sameAt_of_held top fun j _ inside =>
    item (ho ▸ mem_append_right _ (mem_ids_of_mem_code inside))
  have symbol : (ofOutline o).symbols[i]? = some (globalSymbol i o.globals[i]) := by
    rw [ofOutline, Array.getElem?_mapIdx, Array.getElem?_eq_getElem hi, Option.map_some]
  obtain ⟨type, found⟩ := (Check.trace_program o p).grows.symbols i _ symbol
  obtain ⟨calls, errors, mutating, eq⟩ := run_eq o p
  have declared : ((run o p).unit o p).declSymbols.get? o.globals[i].decl.node.id = some i := by
    rw [eq]
    exact same.declSymbol.trans start
  rw [CheckedUnit.symbolAt, declared, eq]
  simp [Analysis.unit, Array.getD_eq_getD_getElem?, found, globalSymbol]

theorem Analysis.exists_of_mem_artifacts (s : Analysis) {info : ArtifactInfo}
    (mem : info ∈ (s.interface o).artifacts.values) :
    ∃ a ∈ o.artifacts, info = s.artifactInfo o a := by
  have added {α : Type} (name : String) (x : α) (entries : List (String × α)) :
      ∀ y ∈ NameTable.insertEntry name x entries, y = (name, x) ∨ y ∈ entries := by
    intro y
    fun_induction NameTable.insertEntry name x entries with
    | case1 => simp
    | case2 => grind
    | case3 => simp
    | case4 => grind
  have all (as : List LocalArtifact) (table : NameTable ArtifactInfo)
      (mem : info ∈ (as.foldl (fun table a => table.insert a.name (s.artifactInfo o a))
        table).values) :
      info ∈ table.values ∨ ∃ a ∈ as, info = s.artifactInfo o a := by
    induction as generalizing table with
    | nil => exact .inl mem
    | cons a rest ih =>
      rcases ih _ mem with earlier | ⟨b, hb, same⟩
      · obtain ⟨entry, entered, rfl⟩ := List.mem_map.mp earlier
        rcases added _ _ _ entry entered with rfl | old
        · exact .inr ⟨a, mem_cons_self, rfl⟩
        · exact .inl (mem_map_of_mem old)
      · exact .inr ⟨b, mem_cons_of_mem _ hb, same⟩
  rcases all o.artifacts {} mem with none | found
  · cases none
  · exact found

theorem Outline.propNames_run {sites : NodeId → Site} (built : o.Built sites) {a : LocalArtifact}
    (mem : a ∈ o.artifacts) :
    (run o p).propNames a.name <+: a.decl.props.map (·.name.value) := by
  have found : o.artifacts.find? (·.name == a.name) = some a := by
    cases found : o.artifacts.find? (·.name == a.name) with
    | none => simpa using List.find?_eq_none.mp found a mem
    | some b =>
      have named : b.name = a.name := by simpa using find?_some found
      rw [built.artifactNames b (mem_of_find?_eq_some found) a mem named]
  have size : o.procs.size ≤ (ofOutline o).procs.size := by simp [ofOutline]
  have checked := (Check.trace_program o p).propNames found size not_mem_nil not_mem_nil rfl
  obtain ⟨calls, errors, mutating, eq⟩ := run_eq o p
  rw [eq]
  rcases checked with ⟨-, unknown⟩ | ⟨-, listed⟩
  · simp [Analysis.propNames, unknown]
  · exact listed ▸ prefix_rfl

end Tables

/-- The tables of an accepted unit list its declarations. -/
theorem tabulated_of_analyze {module : ModuleId} {r : Resolver} {p : Program} {unit : CheckedUnit}
    (distinct : p.ids.Nodup) (hr : r.Accepted) (accepted : analyze module r p = .ok unit) :
    unit.Tabulated := by
  obtain ⟨rfl, free⟩ := eq_unit_of_analyze accepted
  have hs : (Analysis.run (.ofProgram module r p) p).Coherent (.ofProgram module r p) p.siteOf :=
    Analysis.coherent_run distinct hr.tame
  have built : (Outline.ofProgram module r p).Built p.siteOf :=
    Outline.built_ofProgram distinct
  have lists := Outline.lists_of_run free
  generalize ho : Outline.ofProgram module r p = o at free hs built lists ⊢
  have listed {h : ProcHead} (mem : h ∈ (p.stmts.filterMap Stmt.artifact?).flatMap
      (Outline.memberHeads o.module) ++ (p.stmts.filterMap Stmt.proc?).map Outline.topHead) :
      let proc := ((Analysis.run o p).unit o p).procAt h.decl.node.id
      proc.path = h.path ∧ ∃ mutating, proc.kind = h.kind.marked mutating := by
    rw [← lists.procs] at mem
    obtain ⟨proc, hproc, rfl⟩ := List.mem_map.mp mem
    exact Outline.procAt_run hs (Array.mem_toList_iff.mp hproc)
  refine ⟨lists.nodup_declared, lists.members, ?_, ?_, ?_, ?_, ?_⟩
  · intro n i found
    obtain ⟨q, at_, decl⟩ := hs.procDecls n i found
    refine ⟨q.info, ?_, hs.procIds i q at_, decl⟩
    simp [Analysis.unit, at_]
  · exact fun v mem => Outline.symbolAt_run distinct ho.symm lists mem
  · intro d mem
    obtain ⟨path, mutating, kind⟩ := listed (mem_append_right _
      (mem_map_of_mem (f := Outline.topHead) (List.mem_filterMap.mpr ⟨.proc d, mem, rfl⟩)))
    exact ⟨path, kind⟩
  · intro a mem d hd
    have heads : Outline.memberHead o.module a d ∈ Outline.memberHeads o.module a :=
      mem_map_of_mem hd
    obtain ⟨path, mutating, kind⟩ := listed (mem_append_left _
      (List.mem_flatMap.mpr ⟨a, List.mem_filterMap.mpr ⟨.artifact a, mem, rfl⟩, heads⟩))
    exact ⟨path, mutating, kind.trans (Outline.marked_memberKind _ _ _)⟩
  · intro info mem
    obtain ⟨a, ha, rfl⟩ := Analysis.exists_of_mem_artifacts _ mem
    have decl : (a.decl, a.cases) ∈ (p.stmts.filterMap Stmt.artifact?).map
        fun a => (a, EnumCase.valuesFrom 0 a.cases) :=
      lists.artifacts ▸ mem_map_of_mem (f := fun a => (a.decl, a.cases)) ha
    obtain ⟨b, hb, same⟩ := List.mem_map.mp decl
    obtain ⟨rfl, cases'⟩ := Prod.mk.inj same
    obtain ⟨s, mem, found⟩ := List.mem_filterMap.mp hb
    cases s with
    | artifact c =>
      cases found
      refine ⟨rfl, a.decl, mem, rfl, rfl, ?_, Outline.propNames_run built ha⟩
      exact (congrArg (List.map Prod.fst) cases'.symm).trans (EnumCase.map_fst_valuesFrom 0 _)
    | _ => cases found

end ArkLang
