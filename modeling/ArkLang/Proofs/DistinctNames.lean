import ArkLang.Proofs.CheckedPrograms
import ArkLang.Proofs.UnitNames

/-!
# Names of a program do not clash

What a unit adds to a program belongs to its declarations: to the path of a declaration, or to the
node of a procedure in a block. Different declarations have different paths, since an accepted unit
declares no name twice, and different nodes. So a unit gives no name two meanings.
-/

namespace ArkLang

open List
open C (Entry functionEntries Root Ending)

/-- A name of a unit belongs to one of some paths, or to a procedure that one of some nodes declares
in a block. -/
def C.Root.BelongsTo (u : CheckedUnit) (paths : List (List String)) (ids : List NodeId) :
    Root → Prop
  | .member path => path ∈ paths
  | .nested i | .environment i => (u.procs.getD i default).decl ∈ ids
  | .start | .finish => False

/-- What an entry gives a meaning. A prototype only announces a function. -/
def C.Entry.defined? (e : Entry) : Option (Root × Ending) :=
  match e.part with
  | .prototype _ => none
  | _ => some (e.root, e.ending)

namespace C

theorem root_of_defined? {e : Entry} {x : Root × Ending} (defined : e.defined? = some x) :
    e.root = x.1 := by
  unfold Entry.defined? at defined
  split at defined
  · cases defined
  · cases defined
    rfl

theorem defined_functions (root : Root) (forms : List (Ending × Nat)) :
    (forms.flatMap (functionEntries root)).filterMap Entry.defined? =
      forms.map fun form => (root, form.1) := by
  induction forms with
  | nil => rfl
  | cons form rest ih =>
    rw [flatMap_cons, filterMap_append, ih]
    rfl

theorem root_of_mem_functions {root : Root} {forms : List (Ending × Nat)} {e : Entry}
    (mem : e ∈ forms.flatMap (functionEntries root)) : e.root = root := by
  obtain ⟨form, -, mem⟩ := List.mem_flatMap.mp mem
  simp only [functionEntries, mem_cons, not_mem_nil, or_false] at mem
  rcases mem with rfl | rfl <;> rfl

theorem Root.BelongsTo.mono {u : CheckedUnit} {paths paths' : List (List String)}
    {ids ids' : List NodeId} {root : Root} (h : root.BelongsTo u paths ids) (sub : paths ⊆ paths')
    (sub' : ids ⊆ ids') : root.BelongsTo u paths' ids' := by
  cases root with
  | member path => exact sub h
  | nested i => exact sub' h
  | environment i => exact sub' h
  | start => exact h
  | finish => exact h

theorem Root.BelongsTo.false_of_disjoint {u : CheckedUnit} {paths paths' : List (List String)}
    {ids ids' : List NodeId} {root : Root} (h : root.BelongsTo u paths ids)
    (h' : root.BelongsTo u paths' ids') (apart : paths.Disjoint paths')
    (apart' : ids.Disjoint ids') : False := by
  cases root with
  | member path => exact apart h h'
  | nested i => exact apart' h h'
  | environment i => exact apart' h h'
  | start => exact h
  | finish => exact h

end C

namespace CheckedUnit

variable {u : CheckedUnit} {paths paths' : List (List String)} {ids ids' : List NodeId}
variable {E E' : List Entry}

/-- Entries that belong to given declarations, and that give no name two meanings. -/
structure Apart (u : CheckedUnit) (paths : List (List String)) (ids : List NodeId)
    (E : List Entry) : Prop where
  nodup : (E.filterMap Entry.defined?).Nodup
  within : ∀ e ∈ E, e.root.BelongsTo u paths ids

namespace Apart

theorem nil : u.Apart paths ids [] :=
  ⟨nodup_nil, fun _ mem => by cases mem⟩

theorem mono (h : u.Apart paths ids E) (sub : paths ⊆ paths') (sub' : ids ⊆ ids') :
    u.Apart paths' ids' E :=
  ⟨h.nodup, fun e mem => (h.within e mem).mono sub sub'⟩

theorem perm (h : u.Apart paths ids E) (same : E.Perm E') : u.Apart paths ids E' :=
  ⟨(same.filterMap _).nodup_iff.mp h.nodup, fun e mem => h.within e (same.mem_iff.mpr mem)⟩

theorem mono_nodes (h : u.Apart paths ids E) (sub : ids ⊆ ids') : u.Apart paths ids' E :=
  h.mono (List.Subset.refl _) sub

/-- Entries of different declarations stay apart. -/
theorem append (h : u.Apart paths ids E) (h' : u.Apart paths' ids' E')
    (apart : paths.Disjoint paths') (apart' : ids.Disjoint ids') :
    u.Apart (paths ++ paths') (ids ++ ids') (E ++ E') := by
  have left := h.mono (subset_append_left paths paths') (subset_append_left ids ids')
  have right := h'.mono (subset_append_right paths paths') (subset_append_right ids ids')
  refine ⟨?_, List.forall_mem_append.mpr ⟨left.within, right.within⟩⟩
  rw [filterMap_append]
  refine h.nodup.append h'.nodup fun x mem mem' => ?_
  obtain ⟨e, he, defined⟩ := List.mem_filterMap.mp mem
  obtain ⟨e', he', defined'⟩ := List.mem_filterMap.mp mem'
  have here := h.within e he
  have here' := h'.within e' he'
  rw [C.root_of_defined? defined] at here
  rw [C.root_of_defined? defined'] at here'
  exact here.false_of_disjoint here' apart apart'

theorem append_nodes (h : u.Apart [] ids E) (h' : u.Apart [] ids' E')
    (distinct : (ids ++ ids').Nodup) : u.Apart [] (ids ++ ids') (E ++ E') :=
  h.append h' (disjoint_nil_left _) distinct.disjoint

theorem flatMap {α : Type} {l : List α} {path : α → List (List String)} {nodes : α → List NodeId}
    {entries : α → List Entry} (h : ∀ x ∈ l, u.Apart (path x) (nodes x) (entries x))
    (apart : l.Pairwise fun x y => (path x).Disjoint (path y) ∧ (nodes x).Disjoint (nodes y)) :
    u.Apart (l.flatMap path) (l.flatMap nodes) (l.flatMap entries) := by
  induction l with
  | nil => exact .nil
  | cons x rest ih =>
    obtain ⟨first, others⟩ := List.forall_mem_cons.mp h
    obtain ⟨here, later⟩ := List.pairwise_cons.mp apart
    refine first.append (ih others later) (fun o mem mem' => ?_) fun o mem mem' => ?_
    · obtain ⟨y, hy, mem'⟩ := List.mem_flatMap.mp mem'
      exact (here y hy).1 mem mem'
    · obtain ⟨y, hy, mem'⟩ := List.mem_flatMap.mp mem'
      exact (here y hy).2 mem mem'

theorem members (a : String) {α : Type} {l : List α} {f : α → String} (distinct : (l.map f).Nodup)
    (part : C.Part)
    (defines : ∀ root ending, Entry.defined? ⟨part, root, ending⟩ = some (root, ending)) :
    u.Apart ((l.map f).map fun x => [a, x]) []
      (l.map fun x => ⟨part, .member [a, f x], .plain⟩) := by
  refine ⟨?_, fun e mem => ?_⟩
  · have all : (l.map fun x => (⟨part, .member [a, f x], .plain⟩ : Entry)).filterMap
        Entry.defined? = (l.map f).map fun x => (.member [a, x], .plain) := by
      simp [filterMap_map, defines]
    rw [all]
    exact distinct.map fun x y same => by simpa using same
  · obtain ⟨x, hx, rfl⟩ := List.mem_map.mp mem
    exact mem_map_of_mem (f := fun x => [a, x]) (mem_map_of_mem hx)

theorem functions {root : Root} {forms : List (Ending × Nat)} (here : root.BelongsTo u paths ids)
    (distinct : (forms.map Prod.fst).Nodup) :
    u.Apart paths ids (forms.flatMap (functionEntries root)) := by
  refine ⟨?_, fun e mem => ?_⟩
  · rw [C.defined_functions]
    refine List.Nodup.of_map Prod.snd ?_
    rwa [map_map]
  · rw [C.root_of_mem_functions mem]
    exact here

end Apart

end CheckedUnit

/-! ### Procedures -/

theorem nodup_omitting (first last : Nat) (f : Nat → Ending) (inj : Function.Injective f) :
    ((Lower.numbersFrom first last).map fun keep => f (last - keep)).Nodup := by
  rw [Lower.numbersFrom, map_map]
  refine List.Nodup.map_on (fun i hi j hj same => ?_) nodup_range
  have counts : last - (first + i) = last - (first + j) := inj same
  have := List.mem_range.mp hi
  have := List.mem_range.mp hj
  omega

theorem ProcInfo.nodup_forms (p : ProcInfo) : (p.forms.map Prod.fst).Nodup := by
  have counts := nodup_omitting p.sig.required p.params.length .omitting
    fun m n same => Ending.omitting.inj same
  have values : ((if Lower.hasValueForm p.kind then
      [(Ending.viaValue, p.params.length + 1)] else []).map Prod.fst).Nodup := by
    split <;> simp
  have last (e : Ending) (mem : e ∈ (if Lower.hasValueForm p.kind then
      [(Ending.viaValue, p.params.length + 1)] else []).map Prod.fst) : e = .viaValue := by
    split at mem
    · simpa using mem
    · cases mem
  rw [forms, map_append, map_cons, map_map, cons_append, nodup_cons]
  refine ⟨fun mem => ?_, List.Nodup.append counts values fun e mem mem' => ?_⟩
  · rcases List.mem_append.mp mem with mem | mem
    · simp at mem
    · cases last _ mem
  · rw [last e mem'] at mem
    simp at mem

theorem nodup_recordForms (props : Nat) :
    (.plain :: (recordForms props).map Prod.fst : List Ending).Nodup := by
  have counts := nodup_omitting 1 props .shortConstructor
    fun m n same => Ending.shortConstructor.inj same
  rw [recordForms, map_append, map_cons, map_map, cons_append, nodup_cons,
    nodup_cons]
  refine ⟨by simp, by simp,
    List.Nodup.append counts (nodup_singleton _) fun e mem mem' => ?_⟩
  rw [List.mem_singleton.mp mem'] at mem
  simp at mem

namespace CheckedUnit

variable {u : CheckedUnit}

theorem apart_entries {p : ProcInfo} (outer : p.isNested = false) :
    u.Apart [p.path] [] p.entries := by
  have none : p.environment = [] := by simp [ProcInfo.environment, outer]
  have root : p.root = .member p.path := by simp [ProcInfo.root, outer]
  rw [ProcInfo.entries, none, root, nil_append]
  exact .functions (mem_cons_self : p.path ∈ [p.path]) p.nodup_forms

theorem procAt_of_nested (h : u.Tabulated) {n : NodeId} (nested : (u.procAt n).isNested = true) :
    u.procs.getD (u.procAt n).id default = u.procAt n ∧ (u.procAt n).decl = n := by
  cases found : u.procDecls.get? n with
  | none =>
    rw [procAt, found] at nested
    cases nested
  | some i =>
    obtain ⟨p, here, number, decl⟩ := h.procs n i found
    have same : u.procAt n = p := by
      rw [procAt, found]
      simp [Array.getD_eq_getD_getElem?, here]
    rw [same, number, Array.getD_eq_getD_getElem?, here]
    exact ⟨rfl, decl⟩

theorem apart_entries_nested (h : u.Tabulated) {n : NodeId}
    (nested : (u.procAt n).isNested = true) :
    u.Apart [] [n] (u.procAt n).entries := by
  obtain ⟨known, decl⟩ := procAt_of_nested h nested
  have node : (u.procs.getD (u.procAt n).id default).decl ∈ [n] := by
    rw [known, decl]
    exact mem_singleton_self n
  have root : (u.procAt n).root = .nested (u.procAt n).id := by simp [ProcInfo.root, nested]
  have functions : u.Apart [] [n]
      ((u.procAt n).forms.flatMap (functionEntries (u.procAt n).root)) := by
    rw [root]
    exact .functions node (u.procAt n).nodup_forms
  have environment (e : Entry) (mem : e ∈ (u.procAt n).environment) :
      e = ⟨.environment, .environment (u.procAt n).id, .plain⟩ := by
    unfold ProcInfo.environment at mem
    split at mem
    · exact List.mem_singleton.mp mem
    · cases mem
  refine ⟨?_, fun e mem => ?_⟩
  · rw [ProcInfo.entries, filterMap_append]
    refine List.Nodup.append ?_ functions.nodup fun x mem mem' => ?_
    · unfold ProcInfo.environment
      split
      · exact nodup_singleton _
      · exact nodup_nil
    -- the environment is a type, which goes by a name of its own
    · obtain ⟨e, he, defined⟩ := List.mem_filterMap.mp mem
      rw [environment e he] at defined
      cases defined
      rw [C.defined_functions, root] at mem'
      simp at mem'
  · rcases List.mem_append.mp mem with mem | mem
    · rw [environment e mem]
      exact node
    · exact functions.within e mem

/-! ### Statements -/

mutual

/-- Nested procedures are told apart by their nodes. -/
theorem apart_stmt (h : u.Tabulated) : (s : Stmt) → s.ids.Nodup →
    u.Apart [] s.ids (u.stmtEntries s)
  | .proc ⟨node, _, params, _, ⟨_, code⟩⟩, distinct => by
    unfold stmtEntries
    split
    · next nested =>
      obtain ⟨out, distinct⟩ := List.nodup_cons.mp distinct
      have body := apart_code h code distinct.of_append_right
      refine ((apart_entries_nested h nested).append_nodes body ?_).mono_nodes ?_
      · exact List.nodup_cons.mpr
          ⟨fun mem => out (mem_append_right _ mem), distinct.of_append_right⟩
      · exact cons_subset_cons _ (subset_append_right _ _)
    · exact .nil
  | .chain _ arms none, distinct =>
    (apart_arms h arms distinct.of_append_left).append_nodes .nil distinct
  | .chain _ arms (some ⟨_, body⟩), distinct =>
    (apart_arms h arms distinct.of_append_left).append_nodes
      (apart_code h body distinct.of_append_right) distinct
  | .cond ⟨_, _, ⟨_, body⟩⟩, distinct
  | .whileLoop ⟨_, _, ⟨_, body⟩⟩, distinct
  | .rangeLoop _ _ _ _ ⟨_, body⟩, distinct =>
    (apart_code h body distinct.of_append_right).mono_nodes (subset_append_right _ _)
  | .block ⟨_, body⟩, distinct => apart_code h body distinct
  | .importUnit _, _ | .var _, _ | .artifact _, _ | .assign .., _ | .breakLoop _, _ | .skipTurn _, _
  | .ret .., _ | .expr _, _ => .nil

theorem apart_code (h : u.Tabulated) : (ss : List Stmt) → (Stmt.idsAll ss).Nodup →
    u.Apart [] (Stmt.idsAll ss) (u.codeEntries ss)
  | [], _ => .nil
  | s :: rest, distinct => (apart_stmt h s distinct.of_append_left).append_nodes
    (apart_code h rest distinct.of_append_right) distinct

theorem apart_arms (h : u.Tabulated) : (arms : List Guarded) → (Guarded.idsAll arms).Nodup →
    u.Apart [] (Guarded.idsAll arms) (u.armEntries arms)
  | [], _ => .nil
  | ⟨_, cond, ⟨_, body⟩⟩ :: rest, distinct => by
    have first := (apart_code h body distinct.of_append_left.of_append_right).mono_nodes
      (subset_append_right cond.ids _)
    exact first.append_nodes (apart_arms h rest distinct.of_append_right) distinct

end

end CheckedUnit

/-! ### Declarations -/

theorem Member.sublist_names {α : Type} {f : Member → Option α} {name : α → String}
    (same : ∀ m x, f m = some x → name x = m.name) (members : List Member) :
    ((members.filterMap f).map name).Sublist (members.map Member.name) := by
  induction members with
  | nil => exact .slnil
  | cons m rest ih =>
    rw [filterMap_cons, map_cons]
    cases found : f m with
    | none => exact ih.cons _
    | some x =>
      rw [map_cons, same m x found]
      exact ih.cons_cons _

theorem ArtifactDecl.sublist_cases (a : ArtifactDecl) :
    (a.cases.map (·.name.value)).Sublist (a.members.map Member.name) :=
  Member.sublist_names (fun m x found => by cases m <;> cases found; rfl) a.members

theorem ArtifactDecl.sublist_props (a : ArtifactDecl) :
    (a.props.map (·.name.value)).Sublist (a.members.map Member.name) :=
  Member.sublist_names (fun m x found => by cases m <;> cases found; rfl) a.members

theorem Stmt.idsAll_eq_flatMap (ss : List Stmt) : Stmt.idsAll ss = ss.flatMap Stmt.ids := by
  induction ss with
  | nil => rfl
  | cons s ss ih => rw [Stmt.idsAll, ih, flatMap_cons]

theorem Member.idsAll_eq_flatMap (ms : List Member) : Member.idsAll ms = ms.flatMap Member.ids := by
  induction ms with
  | nil => rfl
  | cons m ms ih => rw [Member.idsAll, ih, flatMap_cons]

/-- The paths that a statement declares in the module. -/
def Stmt.paths : Stmt → List (List String)
  | .artifact a => [a.name.value] :: a.members.map fun m => [a.name.value, m.name]
  | .proc d => [[d.name.value]]
  | .var v => [[v.name.value]]
  | _ => []

namespace ArtifactDecl

variable (a : ArtifactDecl)

/-- The paths that the kind of an artifact declares, next to its procedures. -/
def kindPaths : List (List String) :=
  match a.kind with
  | .enumeration => [a.name.value] :: (a.cases.map (·.name.value)).map fun x => [a.name.value, x]
  | .namespaced => [a.name.value] :: (a.props.map (·.name.value)).map fun x => [a.name.value, x]
  | .record => [[a.name.value]]

theorem kindPaths_subset : a.kindPaths ⊆ (Stmt.artifact a).paths := by
  have named {α : Type} {f : Member → Option α} {name : α → String}
      (same : ∀ m x, f m = some x → name x = m.name) :
      [a.name.value] :: ((a.members.filterMap f).map name).map (fun x => [a.name.value, x]) ⊆
        (Stmt.artifact a).paths := by
    have sub := map_subset (fun x => [a.name.value, x])
      (Member.sublist_names same a.members).subset
    rw [map_map (l := a.members)] at sub
    exact cons_subset_cons _ sub
  unfold kindPaths
  cases a.kind with
  | enumeration | namespaced => exact named fun m x found => by cases m <;> cases found; rfl
  | record => exact cons_subset_cons _ (nil_subset _)

theorem procPaths_subset :
    (a.procs.flatMap fun d => [[a.name.value, d.name.value]]) ⊆ (Stmt.artifact a).paths := by
  intro path mem
  obtain ⟨d, hd, mem⟩ := List.mem_flatMap.mp mem
  obtain rfl := List.mem_singleton.mp mem
  exact mem_cons_of_mem _ (mem_map_of_mem (f := fun m => [a.name.value, m.name])
    (a.mem_procs.mp hd))

theorem procIds_subset : a.procs.flatMap ProcDecl.ids ⊆ a.ids := by
  intro n mem
  obtain ⟨d, hd, here⟩ := List.mem_flatMap.mp mem
  have member := a.mem_procs.mp hd
  obtain ⟨node, name, kind, members⟩ := a
  exact mem_cons_of_mem _ ((Member.ids_sublist_idsAll member).subset here)

theorem disjoint_kindPaths (distinct : (a.members.map Member.name).Nodup) :
    a.kindPaths.Disjoint (a.procs.flatMap fun d => [[a.name.value, d.name.value]]) := by
  intro path mem mem'
  obtain ⟨d, hd, mem'⟩ := List.mem_flatMap.mp mem'
  obtain rfl := List.mem_singleton.mp mem'
  -- a member of the name of a procedure is the procedure
  have only (m : Member) (hm : m ∈ a.members) (name : m.name = d.name.value) : m = .proc d :=
    inj_on_of_nodup_map distinct hm (a.mem_procs.mp hd) name
  unfold kindPaths at mem
  cases kind : a.kind with
  | enumeration =>
    simp only [kind, map_map, mem_cons, mem_map, Function.comp_apply,
      List.cons.injEq, reduceCtorEq, and_false, and_true, true_and, false_or] at mem
    obtain ⟨c, hc, name⟩ := mem
    cases only (.enumCase c) (a.mem_cases.mp hc) name
  | namespaced =>
    simp only [kind, map_map, mem_cons, mem_map, Function.comp_apply,
      List.cons.injEq, reduceCtorEq, and_false, and_true, true_and, false_or] at mem
    obtain ⟨v, hv, name⟩ := mem
    cases only (.prop v) (a.mem_props.mp hv) name
  | record =>
    rw [kind] at mem
    cases List.mem_singleton.mp mem

end ArtifactDecl

namespace CheckedUnit

variable {u : CheckedUnit} {table : ArtifactTable}

theorem apart_procEntries (h : u.Tabulated) {d : ProcDecl} (distinct : d.ids.Nodup)
    (outer : (u.procAt d.node.id).isNested = false) :
    u.Apart [(u.procAt d.node.id).path] d.ids (u.procEntries d) := by
  obtain ⟨node, name, params, ret, ⟨span, code⟩⟩ := d
  have body := apart_code h code (List.nodup_cons.mp distinct).2.of_append_right
  refine ((apart_entries outer).append body (disjoint_nil_right _)
    (disjoint_nil_left _)).mono_nodes ?_
  exact List.Subset.trans (subset_append_right _ _) (subset_cons_self _ _)

theorem apart_artifactProcs (h : u.Tabulated) {a : ArtifactDecl}
    (mem : .artifact a ∈ u.program.stmts) (distinct : a.ids.Nodup) :
    u.Apart (a.procs.flatMap fun d => [[a.name.value, d.name.value]]) (a.procs.flatMap ProcDecl.ids)
      (a.procs.flatMap u.procEntries) := by
  have apart : a.members.Pairwise fun m m' => m.name ≠ m'.name ∧ m.ids.Disjoint m'.ids := by
    refine (List.pairwise_map.mp (h.members a mem)).and ?_
    obtain ⟨node, name, kind, members⟩ := a
    have distinct := (List.nodup_cons.mp distinct).2
    rw [Member.idsAll_eq_flatMap] at distinct
    exact (List.nodup_flatMap.mp distinct).2
  refine .flatMap (fun d hd => ?_) (apart.filterMap Member.proc? fun m m' apart d hd d' hd' => ?_)
  · obtain ⟨path, mutating, kind⟩ := h.member a mem d hd
    rw [← path]
    refine apart_procEntries h ?_ ?_
    · have member := a.mem_procs.mp hd
      obtain ⟨node, name, kind, members⟩ := a
      exact (Member.ids_sublist_idsAll member).nodup (List.nodup_cons.mp distinct).2
    · rw [ProcInfo.isNested, kind]
      cases a.kind <;> rfl
  · obtain rfl : m = .proc d := by cases m <;> cases hd; rfl
    obtain rfl : m' = .proc d' := by cases m' <;> cases hd'; rfl
    refine ⟨fun path here here' => apart.1 ?_, apart.2⟩
    rw [List.mem_singleton.mp here, mem_singleton] at here'
    exact (List.cons.inj (List.cons.inj here').2).1

/-- A table that knows of an artifact no case and no property but those that it declares. -/
structure Knows (table : ArtifactTable) (u : CheckedUnit) (a : ArtifactDecl) : Prop where
  cases : (u.artifactOf table a).cases.map Prod.fst <+: a.cases.map (·.name.value)
  props : (u.artifactOf table a).props.map PropInfo.name <+: a.props.map (·.name.value)

def typeEntry (a : ArtifactDecl) : Entry :=
  ⟨.record, .member [a.name.value], .plain⟩

def typeEntries : Stmt → List Entry
  | .artifact a => [typeEntry a]
  | _ => []

theorem apart_type (a : ArtifactDecl) : u.Apart [[a.name.value]] [] [typeEntry a] :=
  ⟨nodup_singleton _, fun e mem => by
    rw [List.mem_singleton.mp mem]
    exact mem_singleton_self _⟩

theorem apart_kind {a : ArtifactDecl} (knows : Knows table u a)
    (distinct : (a.members.map Member.name).Nodup) :
    u.Apart a.kindPaths [] (typeEntry a :: a.entries (u.artifactOf table a)) := by
  have type (names : List String) :
      [[a.name.value]].Disjoint (names.map fun x => [a.name.value, x]) := by
    simp
  unfold ArtifactDecl.entries ArtifactDecl.kindPaths
  cases a.kind with
  | enumeration =>
    have names := knows.cases.sublist.nodup (a.sublist_cases.nodup distinct)
    have cases := (Apart.members (u := u) a.name.value names .enumCase fun _ _ => rfl).mono
      (map_subset _ knows.cases.subset) (List.Subset.refl [])
    exact (apart_type a).append cases (type _) (disjoint_nil_left _)
  | namespaced =>
    -- no property is known that is not declared, so none is lost in the pairs
    have count : (u.artifactOf table a).props.length ≤ a.props.length := by
      simpa using knows.props.length_le
    have listed : ((u.artifactOf table a).props.zip a.props).map (fun prop => prop.1.name) =
        (u.artifactOf table a).props.map PropInfo.name := by
      conv => rhs; rw [← map_fst_zip count, map_map]
      rfl
    have names := knows.props.sublist.nodup (a.sublist_props.nodup distinct)
    rw [← listed] at names
    have props := Apart.members (u := u) a.name.value names .global fun _ _ => rfl
    rw [listed] at props
    have props := props.mono (map_subset _ knows.props.subset) (List.Subset.refl [])
    exact (apart_type a).append props (type _) (disjoint_nil_left _)
  | record =>
    obtain ⟨other, distinct⟩ :=
      List.nodup_cons.mp (nodup_recordForms (u.artifactOf table a).props.length)
    have forms : u.Apart [[a.name.value]] []
        ((recordForms (u.artifactOf table a).props.length).flatMap
          (functionEntries (.member [a.name.value]))) :=
      .functions (mem_singleton_self _) distinct
    refine ⟨?_, List.forall_mem_cons.mpr ⟨mem_singleton_self _, forms.within⟩⟩
    refine List.nodup_cons.mpr ⟨fun mem => other ?_, forms.nodup⟩
    rw [C.defined_functions] at mem
    obtain ⟨form, hf, eq⟩ := List.mem_map.mp mem
    exact List.mem_map.mpr ⟨form, hf, congrArg Prod.snd eq⟩

theorem apart_decl (h : u.Tabulated) (knows : ∀ a, .artifact a ∈ u.program.stmts → Knows table u a)
    {s : Stmt} (mem : s ∈ u.program.stmts) (distinct : s.ids.Nodup) :
    u.Apart s.paths s.ids (typeEntries s ++ u.declEntries table s) := by
  cases s with
  | artifact a =>
    have names := h.members a mem
    have apart := (apart_kind (knows a mem) names).append (apart_artifactProcs h mem distinct)
      (a.disjoint_kindPaths names) (disjoint_nil_left _)
    exact apart.mono (List.append_subset.mpr ⟨a.kindPaths_subset, a.procPaths_subset⟩)
      a.procIds_subset
  | proc d =>
    obtain ⟨path, kind⟩ := h.topLevel d mem
    have outer : (u.procAt d.node.id).isNested = false := by
      rw [ProcInfo.isNested, kind]
    have apart := apart_procEntries h distinct outer
    rw [path] at apart
    rw [declEntries, if_pos kind]
    exact apart
  | var v =>
    have name := h.var v mem
    simp only [typeEntries, nil_append, declEntries, name]
    refine ⟨nodup_singleton _, fun e here => ?_⟩
    rw [List.mem_singleton.mp here]
    exact mem_singleton_self _
  | _ => exact .nil

theorem apart_moduleStmt (h : u.Tabulated)
    (knows : ∀ a, .artifact a ∈ u.program.stmts → Knows table u a) {s : Stmt}
    (mem : s ∈ u.program.stmts) (distinct : s.ids.Nodup) :
    u.Apart s.paths s.ids (typeEntries s ++ u.declEntries table s ++ u.stmtEntries s) := by
  cases s with
  | proc d =>
    have apart := apart_decl h knows mem distinct
    have outer : (u.procAt d.node.id).isNested = false := by
      rw [ProcInfo.isNested, (h.topLevel d mem).2]
    obtain ⟨node, name, params, ret, ⟨span, code⟩⟩ := d
    rwa [stmtEntries, if_neg (by simpa using outer), append_nil]
  | artifact | var =>
    simpa only [stmtEntries, append_nil] using apart_decl h knows mem distinct
  | _ => exact apart_stmt h _ distinct

theorem exists_of_mem_paths {s : Stmt} {path : List String} (mem : path ∈ s.paths) :
    ∃ name, s.declaredName? = some name ∧ path.head? = some name := by
  cases s with
  | artifact a =>
    refine ⟨a.name.value, rfl, ?_⟩
    rcases List.mem_cons.mp mem with rfl | mem
    · rfl
    · obtain ⟨m, -, rfl⟩ := List.mem_map.mp mem
      rfl
  | proc d | var d => exact ⟨d.name.value, rfl, by rw [List.mem_singleton.mp mem]; rfl⟩
  | _ => cases mem

theorem codeEntries_eq_flatMap (u : CheckedUnit) (ss : List Stmt) :
    u.codeEntries ss = ss.flatMap u.stmtEntries := by
  induction ss with
  | nil => rfl
  | cons s rest ih => rw [codeEntries, ih, flatMap_cons]

theorem apart_stmts (h : u.Tabulated) (knows : ∀ a, .artifact a ∈ u.program.stmts → Knows table u a)
    (distinct : u.program.ids.Nodup) :
    u.Apart (u.program.stmts.flatMap Stmt.paths) (u.program.stmts.flatMap Stmt.ids)
      (u.program.stmts.flatMap typeEntries ++ u.program.stmts.flatMap (u.declEntries table) ++
        u.codeEntries u.program.stmts) := by
  rw [Program.ids, Stmt.idsAll_eq_flatMap] at distinct
  obtain ⟨each, apart⟩ := List.nodup_flatMap.mp distinct
  have names := List.pairwise_filterMap.mp h.names
  rw [codeEntries_eq_flatMap]
  have order : (u.program.stmts.flatMap fun s => typeEntries s ++ u.declEntries table s ++
      u.stmtEntries s).Perm (u.program.stmts.flatMap typeEntries ++
        u.program.stmts.flatMap (u.declEntries table) ++ u.program.stmts.flatMap u.stmtEntries) :=
    (flatMap_append_perm _ _ _).symm.trans
      ((flatMap_append_perm _ _ _).symm.append_right _)
  refine Apart.perm ?_ order
  refine .flatMap (fun s hs => apart_moduleStmt h knows hs (each s hs))
    ((names.and apart).imp fun {s s'} both => ⟨fun path mem mem' => ?_, both.2⟩)
  obtain ⟨name, declared, first⟩ := exists_of_mem_paths mem
  obtain ⟨name', declared', first'⟩ := exists_of_mem_paths mem'
  refine both.1 name declared name' declared' ?_
  exact Option.some.inj (first.symm.trans first')

/-- The types of a unit and what it adds to a program. -/
def meanings (table : ArtifactTable) (u : CheckedUnit) : List (Root × Ending) :=
  (u.program.stmts.flatMap typeEntries ++ u.entries table).filterMap Entry.defined?

theorem meanings_eq (table : ArtifactTable) (u : CheckedUnit) : u.meanings table =
    (u.program.stmts.flatMap typeEntries ++ u.program.stmts.flatMap (u.declEntries table) ++
      u.codeEntries u.program.stmts).filterMap Entry.defined? ++
      [(.start, .plain), (.finish, .plain)] := by
  rw [meanings, entries, ← append_assoc, ← append_assoc, ← append_assoc,
    filterMap_append, filterMap_append, append_assoc]
  rfl

/-- A unit gives no name two meanings. -/
theorem nodup_meanings (h : u.Tabulated)
    (knows : ∀ a, .artifact a ∈ u.program.stmts → Knows table u a)
    (distinct : u.program.ids.Nodup) : (u.meanings table).Nodup := by
  have apart := apart_stmts h knows distinct
  rw [meanings_eq]
  refine apart.nodup.append (by decide) fun x mem mem' => ?_
  obtain ⟨e, he, defined⟩ := List.mem_filterMap.mp mem
  have here := apart.within e he
  rw [C.root_of_defined? defined] at here
  simp only [mem_cons, not_mem_nil, or_false] at mem'
  rcases mem' with rfl | rfl <;> exact here

end CheckedUnit

end ArkLang
