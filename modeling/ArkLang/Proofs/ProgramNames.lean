import ArkLang.Proofs.Containment
import ArkLang.Proofs.DistinctNames

/-!
# Names of programs

The names of a program are those of its units, of the records that it defines and of the library
that it is linked with. If the modules of the units differ and consist of names, all of them differ:
a name says which module it belongs to, and within a module what it stands for, while no name of the
library starts like one of a module.
-/

namespace ArkLang

open List
open C (Entry Root Ending)

/-- Accepted units of different modules. -/
structure Separate (units : List CheckedUnit) : Prop where
  accepted : ∀ u ∈ units, u.Accepted
  modules : (units.map CheckedUnit.module).Nodup

/-- Accepted units of different modules whose paths consist of names. -/
structure WellNamed (units : List CheckedUnit) : Prop where
  accepted : ∀ u ∈ units, u.Accepted
  modules : (units.map CheckedUnit.module).Nodup
  plain : ∀ u ∈ units, u.module.IsPlain

/-- If values are given once, each is given by one element only. -/
theorem eq_of_nodup_filterMap {α β : Type} {f : α → Option β} {l : List α} {x y : α} {b : β}
    (once : (l.filterMap f).Nodup) (hx : x ∈ l) (hy : y ∈ l) (fx : f x = some b)
    (fy : f y = some b) : x = y := by
  induction l with
  | nil => cases hx
  | cons z rest ih =>
    have given {w : α} (hw : w ∈ rest) (fw : f w = some b) : b ∈ rest.filterMap f :=
      List.mem_filterMap.mpr ⟨w, hw, fw⟩
    have others : (rest.filterMap f).Nodup :=
      once.sublist ((sublist_cons_self z rest).filterMap f)
    have first (fz : f z = some b) : b ∉ rest.filterMap f := by
      rw [filterMap_cons_some fz, nodup_cons] at once
      exact once.1
    rcases List.mem_cons.mp hx with rfl | inRest
    · rcases List.mem_cons.mp hy with rfl | inRest
      · rfl
      · exact absurd (given inRest fy) (first fx)
    · rcases List.mem_cons.mp hy with rfl | inRest'
      · exact absurd (given inRest fx) (first fy)
      · exact ih others inRest inRest'

theorem WellNamed.separate {units : List CheckedUnit} (h : WellNamed units) : Separate units :=
  ⟨h.accepted, h.modules⟩

namespace Separate

variable {units : List CheckedUnit} {u : CheckedUnit} {ref : ArtifactRef} {info : ArtifactInfo}

/-! ### Artifacts of a program -/

theorem exists_declared (h : Separate units)
    (found : (ArtifactTable.ofUnits units).get? ref = some info) :
    ∃ u ∈ units, ∃ a, .artifact a ∈ u.program.stmts ∧ ref = ⟨u.module, a.name.value⟩ ∧
      info.kind = a.kind ∧ info.cases.map Prod.fst = a.cases.map (·.name.value) ∧
      info.props.map PropInfo.name <+: a.props.map (·.name.value) := by
  obtain ⟨u, hu, published, rfl⟩ := ArtifactTable.exists_unit_of_get? found
  obtain ⟨module, a, ha, name, rest⟩ := (h.accepted u hu).tabulated.published info published
  exact ⟨u, hu, a, ha, by rw [module, name], rest⟩

theorem declared (h : Separate units) (hu : u ∈ units) {a : ArtifactDecl}
    (ha : .artifact a ∈ u.program.stmts)
    (found : (ArtifactTable.ofUnits units).get? ⟨u.module, a.name.value⟩ = some info) :
    info.kind = a.kind ∧ info.cases.map Prod.fst = a.cases.map (·.name.value) ∧
      info.props.map PropInfo.name <+: a.props.map (·.name.value) := by
  obtain ⟨u', hu', a', ha', ref, known⟩ := h.exists_declared found
  obtain ⟨module, name⟩ := ArtifactRef.mk.inj ref
  obtain rfl : u = u' := inj_on_of_nodup_map h.modules hu hu' module
  have names := (h.accepted u hu).tabulated.names
  obtain ⟨⟩ : Stmt.artifact a' = .artifact a :=
    eq_of_nodup_filterMap names ha' ha (congrArg some name.symm) rfl
  exact known

theorem knows (h : Separate units) (hu : u ∈ units) {a : ArtifactDecl}
    (ha : .artifact a ∈ u.program.stmts) : CheckedUnit.Knows (.ofUnits units) u a := by
  cases found : (ArtifactTable.ofUnits units).get? ⟨u.module, a.name.value⟩ with
  | none =>
    have unknown : u.artifactOf (.ofUnits units) a = default := by
      rw [CheckedUnit.artifactOf, found]
      rfl
    constructor <;> rw [unknown] <;> exact nil_prefix
  | some info =>
    have known : u.artifactOf (.ofUnits units) a = info := by
      rw [CheckedUnit.artifactOf, found]
      rfl
    obtain ⟨-, cases, props⟩ := h.declared hu ha found
    constructor <;> rw [known]
    · exact cases ▸ prefix_rfl
    · exact props

theorem fits (h : Separate units) (hu : u ∈ units) : u.Fits (.ofUnits units) where
  procs n i found := by
    obtain ⟨p, here, number, -⟩ := (h.accepted u hu).tabulated.procs n i found
    exact ⟨p, here, number⟩
  records a ha record := by
    rw [ArtifactTable.isEnum]
    cases found : (ArtifactTable.ofUnits units).get? ⟨u.module, a.name.value⟩ with
    | none => rfl
    | some info =>
      rw [Option.any_some, (h.declared hu ha found).1, record]
      rfl

end Separate

/-! ### Names in paths -/

theorem Stmt.legible_of_mem {d : Dialect} {top after : Bool} {s : Stmt} {ss : List Stmt}
    (legible : Stmt.AllLegible d top after ss) (mem : s ∈ ss) : s.Legible d top := by
  induction ss generalizing after with
  | nil => cases mem
  | cons s' ss ih =>
    rw [Stmt.AllLegible] at legible
    rcases List.mem_cons.mp mem with rfl | mem
    · exact legible.1
    · exact ih legible.2.2 mem

theorem Member.legible_of_mem {d : Dialect} {m : Member} {ms : List Member}
    (legible : Member.AllLegible d ms) (mem : m ∈ ms) : m.Legible d := by
  induction ms with
  | nil => cases mem
  | cons m' ms ih =>
    rw [Member.AllLegible] at legible
    rcases List.mem_cons.mp mem with rfl | mem
    · exact legible.1
    · exact ih legible.2 mem

theorem Member.isName_of_legible {d : Dialect} {m : Member} (legible : m.Legible d) :
    IsName m.name := by
  cases m with
  | prop v => exact legible.1
  | proc p =>
    obtain ⟨node, name, params, ret, body⟩ := p
    rw [Member.Legible, ProcDecl.Legible] at legible
    exact legible.1
  | enumCase c => exact legible.1

theorem Stmt.isName_of_mem_paths {d : Dialect} {top : Bool} {s : Stmt} (legible : s.Legible d top)
    {path : List String} (mem : path ∈ s.paths) : ∀ name ∈ path, IsName name := by
  cases s with
  | artifact a =>
    obtain ⟨node, name, kind, members⟩ := a
    rw [Stmt.Legible, ArtifactDecl.Legible] at legible
    obtain ⟨-, own, -, -, all⟩ := legible
    rcases List.mem_cons.mp mem with rfl | mem
    · simpa using own
    · obtain ⟨m, hm, rfl⟩ := List.mem_map.mp mem
      simpa using ⟨own, Member.isName_of_legible (Member.legible_of_mem all hm)⟩
  | proc p =>
    obtain ⟨node, name, params, ret, body⟩ := p
    rw [Stmt.Legible, ProcDecl.Legible] at legible
    rw [List.mem_singleton.mp mem]
    simpa using legible.1
  | var v =>
    rw [List.mem_singleton.mp mem]
    simpa using (show IsName v.name.value from legible.1)
  | _ => cases mem

/-! ### Names of units -/

theorem C.Root.BelongsTo.isPlain {u : CheckedUnit} {paths : List (List String)} {ids : List NodeId}
    {root : Root} (h : root.BelongsTo u paths ids)
    (plain : ∀ path ∈ paths, (Root.member path).IsPlain) : root.IsPlain := by
  cases root with
  | member path => exact plain path h
  | _ => trivial

namespace CheckedUnit

variable {u : CheckedUnit} {table : ArtifactTable}

/-- The name of what a unit gives a meaning. -/
def nameOf (u : CheckedUnit) (x : Root × Ending) : C.Name :=
  C.Key.name (fun _ => u.called) ⟨u.module, x.1, x.2⟩

theorem isPlain_of_mem_meanings (h : u.Accepted)
    (knows : ∀ a, .artifact a ∈ u.program.stmts → Knows table u a) {x : Root × Ending}
    (mem : x ∈ u.meanings table) : x.1.IsPlain := by
  obtain ⟨d, legible⟩ := h.legible
  rw [meanings_eq, mem_append] at mem
  rcases mem with mem | mem
  · obtain ⟨e, he, defined⟩ := List.mem_filterMap.mp mem
    rw [← C.root_of_defined? defined]
    refine ((apart_stmts h.tabulated knows h.distinct).within e he).isPlain fun path mem => ?_
    obtain ⟨s, hs, mem⟩ := List.mem_flatMap.mp mem
    have names := Stmt.isName_of_mem_paths (Stmt.legible_of_mem legible hs) mem
    refine ⟨?_, fun name hn => (names name hn).1⟩
    obtain ⟨first, -, head⟩ := exists_of_mem_paths mem
    rintro rfl
    cases head
  · simp only [mem_cons, not_mem_nil, or_false] at mem
    rcases mem with rfl | rfl <;> trivial

end CheckedUnit

namespace WellNamed

variable {units : List CheckedUnit}

theorem nodup_texts (h : WellNamed units) : (units.flatMap fun u =>
    (u.meanings (.ofUnits units)).map fun x => (u.nameOf x).text).Nodup := by
  have plain {u : CheckedUnit} (hu : u ∈ units) {x : Root × Ending}
      (hx : x ∈ u.meanings (.ofUnits units)) : x.1.IsPlain :=
    CheckedUnit.isPlain_of_mem_meanings (h.accepted u hu) (fun _ ha => h.separate.knows hu ha) hx
  refine List.nodup_flatMap.mpr ⟨fun u hu => ?_, ?_⟩
  · have accepted := h.accepted u hu
    refine (CheckedUnit.nodup_meanings accepted.tabulated (fun _ ha => h.separate.knows hu ha)
      accepted.distinct).map_on fun x hx y hy same => ?_
    obtain ⟨-, root, ending⟩ := C.Key.mk.inj
      (C.Key.text_injective ⟨h.plain u hu, plain hu hx⟩ ⟨h.plain u hu, plain hu hy⟩ same)
    exact Prod.ext root ending
  -- names of different modules say so
  · refine (List.pairwise_map.mp h.modules).imp_of_mem fun {u u'} hu hu' other => ?_
    intro text mem mem'
    obtain ⟨x, hx, rfl⟩ := List.mem_map.mp mem
    obtain ⟨y, hy, same⟩ := List.mem_map.mp mem'
    rw [CheckedUnit.nameOf, CheckedUnit.nameOf] at same
    refine other (C.Key.module_eq_of_text_eq ?_ ?_ same).1.symm
    · exact h.plain u' hu'
    · exact h.plain u hu

end WellNamed

/-! ### Names of programs -/

namespace C

theorem artifactName_eq (ref : ArtifactRef) : artifactName ref =
    Key.name (fun _ _ => "") ⟨ref.module, .member [ref.name], .plain⟩ := rfl

/-- What a part of a program gives a meaning. -/
def meaning? : Part × Name → Option Name
  | (.prototype _, _) => none
  | (_, name) => some name

def Sections.names (s : Sections) : List Name :=
  s.environments.toList.map (·.name) ++ s.enumCases.toList.map Prod.fst ++
    s.globals.toList.map (·.name) ++ s.functions.toList.map (·.sig.name)

theorem Sections.names_perm {s : Sections} {parts : List (Part × Name)}
    (same : s.parts = .ofList parts) : s.names.Perm (parts.filterMap meaning?) := by
  have listed := Multiset.coe_eq_coe.mp same
  refine List.Perm.trans (List.Perm.of_eq ?_) (listed.filterMap meaning?)
  simp [names, meaning?, filterMap_map, Function.comp_def]

end C

theorem CheckedUnit.meaning?_declares (u : CheckedUnit) (e : Entry) :
    C.meaning? (u.declares e) = e.defined?.map u.nameOf := by
  obtain ⟨part, root, ending⟩ := e
  cases part <;> rfl

def TypeOrder.records (s : TypeOrder) : List ArtifactRef :=
  s.order.toList.filterMap fun
    | .artifact ref => some ref
    | _ => none

/-- The names of a program: of its records, of the environments of its procedures, and of its cases,
variables, constants and functions. -/
def LowerState.names (s : LowerState) : List C.Name :=
  s.types.records.map C.artifactName ++ s.sections.names

theorem WellNamed.names_perm {units : List CheckedUnit} (h : WellNamed units) {state : LowerState}
    (lowered : lowerUnits (.ofUnits units) {} units = .ok state) :
    state.sections.names.Perm (units.flatMap fun u =>
      ((u.entries (.ofUnits units)).filterMap Entry.defined?).map u.nameOf) := by
  obtain ⟨parts, -⟩ := parts_lowerUnits (fun u hu => h.separate.fits hu) lowered
  have empty : (LowerState.sections {}).parts = 0 := rfl
  rw [empty, zero_add] at parts
  refine (C.Sections.names_perm parts).trans (List.Perm.of_eq ?_)
  rw [filterMap_flatMap]
  congr
  funext u
  rw [filterMap_map, map_filterMap]
  congr
  funext e
  exact u.meaning?_declares e

/-! ### Words of the library -/

namespace C

/-- Whether a word starts like a name of a module: with what such names start with and a digit. -/
def startsLikeName (word : List Char) : Bool :=
  [Root.start.lead, (Root.environment 0).lead].any fun lead =>
    lead.isPrefixOf word && (word.drop lead.length).head?.any Char.isDigit

theorem Key.startsLikeName_text (called : ModuleId → ProcId → String) (k : Key) :
    startsLikeName (k.name called).text.toList = true := by
  obtain ⟨d, ds, eq, digit⟩ := exists_modulePart_eq_cons k.module
    (k.root.tail (called k.module) ++ k.ending.tail)
  rw [Key.toList_text, eq, startsLikeName, any_cons, any_cons]
  cases k.root <;> simp [Root.lead, digit]

namespace Support

def wordsOf (line : List Char) : List (List Char) :=
  line.splitOnP fun c => !isNameChar c

/-- The words of the library's header, its names among them. -/
def words : List String :=
  header.flatMap fun line => (wordsOf line.toList).map String.ofList

/-- A line whose words do not start like a name of a module. -/
def IsQuiet (line : String) : Prop :=
  ∀ word ∈ wordsOf line.toList, startsLikeName word = false

-- a literal is read as the list of its characters here, which is far cheaper than `String.toList`
theorem isQuiet_ofList (line : List Char) (h : ∀ word ∈ wordsOf line, startsLikeName word = false) :
    IsQuiet (String.ofList line) := by
  rw [IsQuiet, String.toList_ofList]
  exact h

theorem isQuiet_header : ∀ line ∈ header, IsQuiet line := by
  simp only [header, paragraphs, declarations, intercalate_cons_cons,
    intercalate_singleton, forall_mem_append, forall_mem_cons, not_mem_nil,
    and_true, false_implies, implies_true]
  repeat' apply And.intro
  all_goals exact isQuiet_ofList _ (by decide +kernel)

theorem startsLikeName_words {word : String} (mem : word ∈ words) :
    startsLikeName word.toList = false := by
  obtain ⟨line, hl, mem⟩ := List.mem_flatMap.mp mem
  obtain ⟨w, hw, rfl⟩ := List.mem_map.mp mem
  rw [String.toList_ofList]
  exact isQuiet_header line hl w hw

end Support

end C

/-! ### Records of programs -/

namespace ArtifactTable

variable {table : ArtifactTable}

theorem exists_of_forTypes {f : Ty → Except LowerFault C.Lines} {types : List Ty} {lines : C.Lines}
    (ok : forTypes f types = .ok lines) {t : Ty} (mem : t ∈ types) : ∃ part, f t = .ok part := by
  induction types generalizing lines with
  | nil => cases mem
  | cons t' types ih =>
    obtain ⟨part, first, ok⟩ := exists_of_bind_eq_ok ok
    obtain ⟨rest, others, -⟩ := exists_of_bind_eq_ok ok
    rcases List.mem_cons.mp mem with rfl | mem
    · exact ⟨part, first⟩
    · exact ih others mem

theorem exists_get?_of_definitions {types : List Ty} {lines : C.Lines}
    (ok : table.definitions types = .ok lines) {ref : ArtifactRef} (mem : .artifact ref ∈ types) :
    ∃ info, table.get? ref = some info := by
  obtain ⟨declarations, -, ok⟩ := exists_of_bind_eq_ok ok
  obtain ⟨parts, defined, -⟩ := exists_of_bind_eq_ok ok
  obtain ⟨part, own⟩ := exists_of_forTypes defined mem
  obtain ⟨name, -, own⟩ := exists_of_bind_eq_ok own
  obtain ⟨info, found, -⟩ := exists_of_bind_eq_ok own
  rw [find] at found
  cases known : table.get? ref with
  | some info => exact ⟨info, rfl⟩
  | none =>
    rw [known] at found
    cases found

end ArtifactTable

theorem TypeOrder.nodup_records {s : TypeOrder} (once : s.order.toList.Nodup) :
    s.records.Nodup := by
  refine once.filterMap fun t t' ref ht ht' => ?_
  cases t <;> cases ht
  cases t' <;> cases ht'
  rfl

theorem TypeOrder.mem_of_mem_records {s : TypeOrder} {ref : ArtifactRef} (mem : ref ∈ s.records) :
    .artifact ref ∈ s.order.toList := by
  obtain ⟨t, ht, found⟩ := List.mem_filterMap.mp mem
  cases t <;> cases found
  exact ht

namespace WellNamed

variable {units : List CheckedUnit}

theorem exists_meaning (h : WellNamed units) {ref : ArtifactRef} {info : ArtifactInfo}
    (found : (ArtifactTable.ofUnits units).get? ref = some info) :
    ∃ u ∈ units, u.module = ref.module ∧ (.member [ref.name], .plain) ∈
      (u.program.stmts.flatMap CheckedUnit.typeEntries).filterMap Entry.defined? := by
  obtain ⟨u, hu, a, ha, rfl, -⟩ := h.separate.exists_declared found
  refine ⟨u, hu, rfl, List.mem_filterMap.mpr ⟨CheckedUnit.typeEntry a, ?_, rfl⟩⟩
  exact List.mem_flatMap.mpr ⟨_, ha, mem_singleton_self _⟩

theorem isPlain_record (h : WellNamed units) {ref : ArtifactRef} {info : ArtifactInfo}
    (found : (ArtifactTable.ofUnits units).get? ref = some info) :
    ref.module.IsPlain ∧ (Root.member [ref.name]).IsPlain := by
  obtain ⟨u, hu, module, here⟩ := h.exists_meaning found
  refine ⟨module ▸ h.plain u hu, ?_⟩
  refine CheckedUnit.isPlain_of_mem_meanings (h.accepted u hu) (fun _ ha => h.separate.knows hu ha)
    (x := (.member [ref.name], .plain)) ?_
  rw [CheckedUnit.meanings, filterMap_append]
  exact mem_append_left _ here

theorem nodup_names (h : WellNamed units) {state : LowerState}
    (lowered : lowerUnits (.ofUnits units) {} units = .ok state)
    (known : ∀ ref ∈ state.types.records,
      ∃ info, (ArtifactTable.ofUnits units).get? ref = some info) :
    (state.names.map C.Name.text).Nodup := by
  have apart : (units.flatMap (fun u => ((u.program.stmts.flatMap CheckedUnit.typeEntries).filterMap
      Entry.defined?).map fun x => (u.nameOf x).text) ++ units.flatMap fun u =>
        ((u.entries (.ofUnits units)).filterMap Entry.defined?).map
          fun x => (u.nameOf x).text).Nodup := by
    refine (flatMap_append_perm _ _ _).nodup_iff.mpr ?_
    simpa only [CheckedUnit.meanings, filterMap_append, map_append] using h.nodup_texts
  have sections := (h.names_perm lowered).map C.Name.text
  rw [map_flatMap] at sections
  simp only [map_map, Function.comp_def] at sections
  obtain ⟨-, once, others⟩ := List.nodup_append'.mp apart
  rw [LowerState.names, map_append, map_map]
  refine List.Nodup.append ?_ (sections.nodup_iff.mpr once) fun text mem mem' => ?_
  · have once := (parts_lowerUnits (fun u hu => h.separate.fits hu) lowered).2.nodup
    refine (TypeOrder.nodup_records once).map_on ?_
    intro ref hr ref' hr' same
    obtain ⟨info, found⟩ := known ref hr
    obtain ⟨info', found'⟩ := known ref' hr'
    simp only [Function.comp_apply, C.artifactName_eq] at same
    have key : (⟨ref.module, .member [ref.name], .plain⟩ : C.Key) =
        ⟨ref'.module, .member [ref'.name], .plain⟩ :=
      C.Key.text_injective (h.isPlain_record found) (h.isPlain_record found') same
    obtain ⟨m, n⟩ := ref
    obtain ⟨m', n'⟩ := ref'
    cases key
    rfl
  · obtain ⟨ref, hr, rfl⟩ := List.mem_map.mp mem
    obtain ⟨info, found⟩ := known ref hr
    obtain ⟨u, hu, module, here⟩ := h.exists_meaning found
    have name : u.nameOf (.member [ref.name], .plain) = C.artifactName ref :=
      congrArg (C.Name.member · [ref.name]) module
    refine others (List.mem_flatMap.mpr ⟨u, hu, List.mem_map.mpr ⟨_, here, ?_⟩⟩)
      (sections.mem_iff.mp mem')
    rw [name, Function.comp_apply]

theorem startsLikeName_names (h : WellNamed units) {state : LowerState}
    (lowered : lowerUnits (.ofUnits units) {} units = .ok state) {name : C.Name}
    (mem : name ∈ state.names) : C.startsLikeName name.text.toList = true := by
  rcases List.mem_append.mp mem with mem | mem
  · obtain ⟨ref, -, rfl⟩ := List.mem_map.mp mem
    rw [C.artifactName_eq]
    exact C.Key.startsLikeName_text _ _
  · obtain ⟨u, -, mem⟩ := List.mem_flatMap.mp ((h.names_perm lowered).mem_iff.mp mem)
    obtain ⟨x, -, rfl⟩ := List.mem_map.mp mem
    exact C.Key.startsLikeName_text _ _

end WellNamed

theorem lowerProgram_eq_ok {units : List CheckedUnit} {lines : C.Lines}
    (lowered : lowerProgram units = .ok lines) : ∃ state definitions helpers,
      lowerUnits (.ofUnits units) {} units = .ok state ∧
      (ArtifactTable.ofUnits units).definitions state.types.order.toList = .ok definitions ∧
      (ArtifactTable.ofUnits units).helpers state.types.order.toList = .ok helpers ∧
      lines = state.sections.lines definitions helpers := by
  rw [lowerProgram] at lowered
  split at lowered
  · cases lowered
  · obtain ⟨state, run, lowered⟩ := exists_of_bind_eq_ok lowered
    obtain ⟨definitions, defined, lowered⟩ := exists_of_bind_eq_ok lowered
    obtain ⟨helpers, helped, lowered⟩ := exists_of_bind_eq_ok lowered
    cases lowered
    exact ⟨state, definitions, helpers, run, defined, helped, rfl⟩

/-- The functions, variables, constants, enumeration cases, records and environments of a program
are all called differently, and none as something that the header of the library names. -/
theorem nodup_names_of_lowerProgram {sources : Sources} {settings : Settings} {entry : Path}
    {units : List CheckedUnit} {lines : C.Lines}
    (accepted : check sources settings entry = .ok units)
    (modules : (units.map CheckedUnit.module).Nodup) (plain : ∀ u ∈ units, u.module.IsPlain)
    (lowered : lowerProgram units = .ok lines) : ∃ state definitions helpers,
      lowerUnits (.ofUnits units) {} units = .ok state ∧
      (ArtifactTable.ofUnits units).definitions state.types.order.toList = .ok definitions ∧
      lines = state.sections.lines definitions helpers ∧
      (state.names.map C.Name.text).Nodup ∧
      ∀ name ∈ state.names, name.text ∉ C.Support.words := by
  have h : WellNamed units := ⟨accepted_of_check accepted, modules, plain⟩
  obtain ⟨state, definitions, helpers, units, types, -, rfl⟩ := lowerProgram_eq_ok lowered
  refine ⟨state, definitions, helpers, units, types, rfl, ?_, fun name mem word => ?_⟩
  · exact h.nodup_names units fun ref mem =>
      ArtifactTable.exists_get?_of_definitions types (TypeOrder.mem_of_mem_records mem)
  · have starts := h.startsLikeName_names units mem
    rw [C.Support.startsLikeName_words word] at starts
    cases starts

/-- Two modules that call their variables and procedures alike. -/
def namesakes : Sources :=
  .ofFiles [(⟨"main.ark"⟩,
      .text "Mod util\nx := util.f(1)\nf(n: int): int \x7b\n    return util.x\n\x7d\n"),
    (⟨"util.ark"⟩, .text "x := 1\nf(n: int): int \x7b\n    return n\n\x7d\n")]

/-- The names of the two modules are told apart. -/
theorem nodup_names_of_namesakes : ∃ units lines state definitions helpers,
    check namesakes {} ⟨"main.ark"⟩ = .ok units ∧ (units.map CheckedUnit.module).Nodup ∧
      (∀ u ∈ units, u.module.IsPlain) ∧ lowerProgram units = .ok lines ∧
      lowerUnits (.ofUnits units) {} units = .ok state ∧
      lines = state.sections.lines definitions helpers ∧ (state.names.map C.Name.text).Nodup ∧
      ∀ name ∈ state.names, name.text ∉ C.Support.words := by
  have evaluated : (check namesakes {} ⟨"main.ark"⟩).toOption.any (fun units =>
      decide ((units.map CheckedUnit.module).Nodup) && decide (∀ u ∈ units, u.module.IsPlain) &&
        (lowerProgram units).toOption.isSome) = true := by
    decide +kernel
  cases accepted : check namesakes {} ⟨"main.ark"⟩ with
  | error e => simp [accepted, Except.toOption] at evaluated
  | ok units =>
    simp only [accepted, Except.toOption, Option.any_some, Bool.and_eq_true, decide_eq_true_eq]
      at evaluated
    obtain ⟨⟨modules, plain⟩, lowers⟩ := evaluated
    cases lowered : lowerProgram units with
    | error e => simp [lowered] at lowers
    | ok lines =>
      obtain ⟨state, definitions, helpers, run, -, text, names⟩ :=
        nodup_names_of_lowerProgram accepted modules plain lowered
      exact ⟨units, lines, state, definitions, helpers, rfl, modules, plain, lowered, run, text,
        names⟩

/-! ### Programs whose types can be computed -/

theorem exists_of_any_toOption {ε α : Type} {x : Except ε α} {P : α → Bool}
    (h : x.toOption.any P = true) : ∃ a, x = .ok a ∧ P a = true := by
  cases x with
  | error e => cases h
  | ok a => exact ⟨a, rfl, h⟩

theorem exists_of_computed (sources : Sources) (settings : Settings) (entry : Path)
    (P : ArtifactTable → List Ty → Bool)
    (computed : (check sources settings entry).toOption.any (fun units =>
      decide ((units.map CheckedUnit.module).Nodup ∧ ∀ u ∈ units, u.module.IsPlain) &&
        (lowerProgram units).toOption.isSome &&
        (lowerUnits (.ofUnits units) {} units).toOption.any fun state =>
          P (.ofUnits units) state.types.order.toList) = true) :
    ∃ units lines state, check sources settings entry = .ok units ∧
      (units.map CheckedUnit.module).Nodup ∧ (∀ u ∈ units, u.module.IsPlain) ∧
      lowerProgram units = .ok lines ∧ lowerUnits (.ofUnits units) {} units = .ok state ∧
      P (.ofUnits units) state.types.order.toList = true := by
  obtain ⟨units, accepted, computed⟩ := exists_of_any_toOption computed
  simp only [Bool.and_eq_true, decide_eq_true_eq, ← Option.any_true] at computed
  obtain ⟨⟨⟨modules, plain⟩, lowers⟩, types⟩ := computed
  obtain ⟨lines, lowered, -⟩ := exists_of_any_toOption lowers
  obtain ⟨state, run, holds⟩ := exists_of_any_toOption types
  exact ⟨units, lines, state, accepted, modules, plain, lowered, run, holds⟩

end ArkLang
