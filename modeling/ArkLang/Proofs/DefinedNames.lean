import ArkLang.Proofs.ProgramNames

/-!
# The names that definitions of types give

The definitions of the types of a program and the functions that belong to them are read back line
by line. A type gives its own name, and that name with an ending for each of its functions. The name
of a type spells it without its enumerations, so that all names differ exactly if the types still do
when enumerations count as integers.
-/

namespace ArkLang

open List

namespace C

/-! ### Reading lines -/

/-- The words of a line: its longest runs of characters that names have. -/
def lineWords (line : List Char) : List (List Char) :=
  (line.splitOnP fun c => !isNameChar c).filter fun word => !word.isEmpty

/-- The name that a line defines: that of a structure with its fields, or of a function. What is
indented belongs to a line before it. -/
def definedName? (line : String) : Option String :=
  if line.toList.head? = some ' ' then none
  else match (lineWords line.toList).map String.ofList with
    | "typedef" :: "struct" :: name :: _ => if '\x7b' ∈ line.toList then some name else none
    | "struct" :: name :: _ => some name
    | "static" :: "inline" :: _ :: name :: _ => some name
    | _ => none

def definedNames (lines : Lines) : List String :=
  lines.filterMap definedName?

theorem definedNames_append (lines lines' : Lines) :
    definedNames (lines ++ lines') = definedNames lines ++ definedNames lines' :=
  filterMap_append

theorem lineWords_gap {gap : List Char} (h : gap.all (fun c => !isNameChar c) = true)
    (line : List Char) : lineWords (gap ++ line) = lineWords line := by
  induction gap with
  | nil => rfl
  | cons c gap ih =>
    rw [all_cons, Bool.and_eq_true] at h
    have first : ([] ++ c :: (gap ++ line)).splitOnP (fun c => !isNameChar c) =
        [] :: (gap ++ line).splitOnP fun c => !isNameChar c :=
      splitOnP_append_cons_of_forall_mem (by simp) c h.1 _
    rw [nil_append] at first
    rw [cons_append, lineWords, first, filter_cons_of_neg (by simp)]
    exact ih h.2

theorem lineWords_word {word : String} (h : IsWord word) {c : Char} (other : isNameChar c = false)
    (line : List Char) : lineWords (word.toList ++ c :: line) = word.toList :: lineWords line := by
  have first : (word.toList ++ c :: line).splitOnP (fun c => !isNameChar c) =
      word.toList :: line.splitOnP fun c => !isNameChar c :=
    splitOnP_append_cons_of_forall_mem (fun d mem => by simp [h.isNameChar_of_mem mem]) c
      (by simp [other]) line
  have nonempty : word.toList.isEmpty = false := by simpa using h.nonempty
  rw [lineWords, first, filter_cons_of_pos (by simp [nonempty])]
  rfl

/-! ### Lines -/

theorem definedName?_typedef {line name : String} (rest : List Char) (h : IsWord name)
    (shape : line.toList = "typedef".toList ++ ' ' :: ("struct".toList ++ ' ' ::
      (name.toList ++ ' ' :: rest))) :
    definedName? line = if '\x7b' ∈ rest then some name else none := by
  have first : IsWord "typedef" := ⟨by decide, by decide⟩
  have second : IsWord "struct" := ⟨by decide, by decide⟩
  have words : lineWords line.toList =
      "typedef".toList :: "struct".toList :: name.toList :: lineWords rest := by
    rw [shape, lineWords_word first (by decide), lineWords_word second (by decide),
      lineWords_word h (by decide)]
  have start : line.toList.head? ≠ some ' ' := by simp [shape]
  have braces : '\x7b' ∈ line.toList ↔ '\x7b' ∈ rest := by
    simp [shape, h.not_mem (c := '\x7b') (by decide)]
  rw [definedName?, if_neg start, words]
  simp [braces]

theorem definedName?_struct {line name : String} (rest : List Char) (h : IsWord name)
    (shape : line.toList = "struct".toList ++ ' ' :: (name.toList ++ ' ' :: rest)) :
    definedName? line = some name := by
  have first : IsWord "struct" := ⟨by decide, by decide⟩
  have words : lineWords line.toList = "struct".toList :: name.toList :: lineWords rest := by
    rw [shape, lineWords_word first (by decide), lineWords_word h (by decide)]
  have start : line.toList.head? ≠ some ' ' := by simp [shape]
  rw [definedName?, if_neg start, words]
  simp

theorem definedName?_function {line ret name : String} (star rest : List Char) (hret : IsWord ret)
    (hname : IsWord name) (hstar : star.all (fun c => !isNameChar c) = true)
    (shape : line.toList = "static".toList ++ ' ' :: ("inline".toList ++ ' ' ::
      (ret.toList ++ ' ' :: (star ++ (name.toList ++ '(' :: rest))))) :
    definedName? line = some name := by
  have first : IsWord "static" := ⟨by decide, by decide⟩
  have second : IsWord "inline" := ⟨by decide, by decide⟩
  have words : lineWords line.toList = "static".toList :: "inline".toList :: ret.toList ::
      name.toList :: lineWords rest := by
    rw [shape, lineWords_word first (by decide), lineWords_word second (by decide),
      lineWords_word hret (by decide), lineWords_gap hstar, lineWords_word hname (by decide)]
  have start : line.toList.head? ≠ some ' ' := by simp [shape]
  rw [definedName?, if_neg start, words]
  simp

theorem definedNames_indent (lines : Lines) : definedNames (indent lines) = [] := by
  refine List.filterMap_eq_nil_iff.mpr fun line mem => ?_
  obtain ⟨inner, -, rfl⟩ := List.mem_map.mp mem
  rw [definedName?, if_pos (by simp [String.toList_append])]

theorem definedNames_blockThen {head tail : String} (body : Lines)
    (quiet : definedName? (closing ++ tail) = none) :
    definedNames (blockThen head body tail) = (definedName? (head ++ " " ++ opening)).toList := by
  rw [blockThen, ← singleton_append, definedNames_append, definedNames_append,
    definedNames_indent]
  cases heading : definedName? (head ++ " " ++ opening) <;> simp [definedNames, quiet, heading]

section Functions

variable {ret name : String} (hret : IsWord ret) (hname : IsWord name) (params : String)
variable (body : Lines)

include hret hname

theorem definedNames_inlineFunction :
    definedNames (ArtifactTable.inlineFunction ret name params body) = [name] := by
  rw [ArtifactTable.inlineFunction, block, definedNames_append,
    definedNames_blockThen _ rfl,
    definedName?_function [] (params ++ ") " ++ opening).toList hret hname rfl
      (by simp [String.toList_append])]
  rfl

theorem definedNames_inlineFunction_pointer :
    definedNames (ArtifactTable.inlineFunction ret ("*" ++ name) params body) = [name] := by
  rw [ArtifactTable.inlineFunction, block, definedNames_append,
    definedNames_blockThen _ rfl,
    definedName?_function ['*'] (params ++ ") " ++ opening).toList hret hname (by decide)
      (by simp [String.toList_append])]
  rfl

end Functions

theorem definedNames_structLine {name : String} (h : IsWord name) (fields : String) :
    definedNames (ArtifactTable.structLine name fields) = [name] := by
  have line : definedName?
      ("typedef struct " ++ name ++ " " ++ braced fields ++ " " ++ name ++ ";") = some name := by
    rw [definedName?_typedef (braced fields ++ " " ++ name ++ ";").toList h
      (by simp [String.toList_append]), if_pos]
    simp [braced, opening, String.toList_append]
  have blank : definedName? "" = none := rfl
  simp [definedNames, ArtifactTable.structLine, line, blank]

theorem definedNames_record {name : String} (h : IsWord name) (fields : Lines) :
    definedNames (blockThen ("struct " ++ name) fields ";" ++ [""]) = [name] := by
  have blank : definedNames [""] = [] := rfl
  rw [definedNames_append, definedNames_blockThen _ rfl,
    definedName?_struct opening.toList h (by simp [String.toList_append]), blank]
  rfl

theorem definedName?_declaration {name : String} (h : IsWord name) :
    definedName? ("typedef struct " ++ name ++ " " ++ name ++ ";") = none := by
  rw [definedName?_typedef (name ++ ";").toList h (by simp [String.toList_append]), if_neg]
  simp [String.toList_append, h.not_mem (c := '\x7b') (by decide)]

end C

/-! ### Names of types -/

namespace Ty

/-- What the names of the functions of a type end with. -/
def helperEndings : Ty → List String
  | .list _ => ["_empty", "_free", "_drop", "_assign", "_push", "_pop", "_at", "_from", "_clone",
      "_len_take", "_get_take"]
  | .array _ _ => ["_default"]
  | .proc _ _ => ["_call"]
  | _ => []

/-- The name of a type without enumerations that is defined. -/
def name (t : Ty) : String :=
  .ofList t.spelling

def helperNames (t : Ty) : List String :=
  t.helperEndings.map (t.name ++ ·)

theorem toList_name (t : Ty) : t.name.toList = t.spelling :=
  String.toList_ofList

theorem nodup_helperEndings (t : Ty) : t.helperEndings.Nodup := by
  cases t <;> simp [helperEndings]

theorem ne_empty_of_mem_helperEndings {t : Ty} {ending : String} (mem : ending ∈ t.helperEndings) :
    ending ≠ "" := by
  rintro rfl
  cases t <;> simp [helperEndings] at mem

theorem name_append_inj {t t' : Ty} (h : t.IsSpelled) (h' : t'.IsSpelled) {x y : String}
    (same : t.name ++ x = t'.name ++ y) : t = t' ∧ x = y := by
  have chars := congrArg String.toList same
  rw [String.toList_append, String.toList_append, toList_name, toList_name] at chars
  obtain ⟨types, rest⟩ := spelling_append_inj h h' chars
  exact ⟨types, String.toList_inj.mp rest⟩

theorem name_inj {t t' : Ty} (h : t.IsSpelled) (h' : t'.IsSpelled) (same : t.name = t'.name) :
    t = t' := by
  have same : t.name ++ "" = t'.name ++ "" := by rw [same]
  exact (name_append_inj h h' same).1

theorem nodup_names_iff {ts : List Ty} (spelled : ∀ t ∈ ts, t.IsSpelled) :
    (ts.map name ++ ts.flatMap helperNames).Nodup ↔ ts.Nodup := by
  constructor
  · intro names
    exact names.of_append_left.of_map name
  · intro types
    refine List.Nodup.append ?_ (List.nodup_flatMap.mpr ⟨fun t _ => ?_, ?_⟩) ?_
    · exact types.map_on fun t ht t' ht' same => name_inj (spelled t ht) (spelled t' ht') same
    · exact (nodup_helperEndings t).map fun x y same => String.append_right_inj _ |>.mp same
    -- functions of different types
    · refine types.imp_of_mem fun {t t'} ht ht' other text mem mem' => other ?_
      obtain ⟨x, -, rfl⟩ := List.mem_map.mp mem
      obtain ⟨y, -, same⟩ := List.mem_map.mp mem'
      exact (name_append_inj (spelled t ht) (spelled t' ht') same.symm).1
    -- a type and a function
    · intro text mem mem'
      obtain ⟨t, ht, rfl⟩ := List.mem_map.mp mem
      obtain ⟨t', ht', mem'⟩ := List.mem_flatMap.mp mem'
      obtain ⟨ending, he, same⟩ := List.mem_map.mp mem'
      have same : t'.name ++ ending = t.name ++ "" := by rw [same, String.append_empty]
      exact ne_empty_of_mem_helperEndings he
        (name_append_inj (spelled t' ht') (spelled t ht) same).2

end Ty

namespace ArtifactTable

open C (IsWord definedNames definedNames_append definedNames_inlineFunction)

variable {table : ArtifactTable} {t : Ty}

theorem name_erase {name : String} (defined : table.isDefined t = true)
    (ok : table.typeName t = .ok name) : (table.erase t).name = name := by
  rw [Ty.name, ← toList_typeName defined ok, String.ofList_toList]

theorem helperEndings_erase (defined : table.isDefined t = true) :
    (table.erase t).helperEndings = t.helperEndings := by
  cases t with
  | artifact ref =>
    have record : table.isEnum ref = false := by simpa [isDefined] using defined
    simp [erase, record, Ty.helperEndings]
  | _ => rfl

/-! ### Names in definitions -/

variable {lines : C.Lines} {types : List Ty}

theorem definedNames_forTypes {f : Ty → Except LowerFault C.Lines} {names : Ty → List String}
    (each : ∀ t ∈ types, ∀ part, f t = .ok part → definedNames part = names t)
    (ok : forTypes f types = .ok lines) : definedNames lines = types.flatMap names := by
  induction types generalizing lines with
  | nil =>
    cases ok
    rfl
  | cons t types ih =>
    obtain ⟨part, first, ok⟩ := exists_of_bind_eq_ok ok
    obtain ⟨rest, others, ok⟩ := exists_of_bind_eq_ok ok
    cases ok
    rw [definedNames_append, each t mem_cons_self part first,
      ih (fun u mem => each u (mem_cons_of_mem _ mem)) others, flatMap_cons]

theorem definedNames_declaration (ok : declaration t = .ok lines) :
    definedNames lines = [] := by
  cases t with
  | artifact ref =>
    cases ok
    simp [definedNames, C.definedName?_declaration (Ty.isWord_artifactName ref)]
  | _ =>
    cases ok
    rfl

theorem definedNames_definition (defined : table.isDefined t = true)
    (ok : table.definition t = .ok lines) : definedNames lines = [(table.erase t).name] := by
  obtain ⟨name, named, ok⟩ := exists_of_bind_eq_ok ok
  rw [name_erase defined named]
  have word := isWord_typeName named
  cases t with
  | artifact ref =>
    obtain ⟨a, -, ok⟩ := exists_of_bind_eq_ok ok
    obtain ⟨fields, -, ok⟩ := exists_of_bind_eq_ok ok
    cases ok
    exact C.definedNames_record word fields
  | array elem size | list elem =>
    obtain ⟨held, -, ok⟩ := exists_of_bind_eq_ok ok
    cases ok
    exact C.definedNames_structLine word _
  | proc params ret =>
    obtain ⟨args, -, ok⟩ := exists_of_bind_eq_ok ok
    obtain ⟨result, -, ok⟩ := exists_of_bind_eq_ok ok
    cases ok
    exact C.definedNames_structLine word _
  | _ => cases defined

theorem definedNames_definitions
    (defined : ∀ t ∈ types, table.isDefined t = true)
    (ok : table.definitions types = .ok lines) :
    definedNames lines = (types.map table.erase).map Ty.name := by
  obtain ⟨declarations, declared, ok⟩ := exists_of_bind_eq_ok ok
  obtain ⟨parts, given, ok⟩ := exists_of_bind_eq_ok ok
  cases ok
  have blank : definedNames [""] = [] := rfl
  have none : definedNames declarations = types.flatMap fun _ => [] :=
    definedNames_forTypes (fun t _ part ok => definedNames_declaration ok) declared
  have rest : definedNames parts = types.flatMap fun t => [(table.erase t).name] :=
    definedNames_forTypes (fun t mem part ok => definedNames_definition (defined t mem) ok) given
  rw [definedNames_append, definedNames_append, none, blank, rest,
    List.flatMap_eq_nil_iff.mpr fun _ _ => rfl, map_map, map_eq_flatMap]
  rfl

/-! ### Names of functions -/

theorem definedNames_listHelpers {l t : String} (hl : IsWord l) (ht : IsWord t) (nested : Bool)
    (elem : Ty) :
    definedNames (listHelpers l t nested) = (Ty.list elem).helperEndings.map (l ++ ·) := by
  have void : IsWord "void" := ⟨by decide, by decide⟩
  have int : IsWord "int64_t" := ⟨by decide, by decide⟩
  have function {ret ending : String} (hret : IsWord ret)
      (chars : ending.toList.all C.isNameChar = true) (params : String) (body : C.Lines) :
      definedNames (inlineFunction ret (l ++ ending) params body) = [l ++ ending] :=
    definedNames_inlineFunction hret (hl.append chars) params body
  -- one function gives a pointer, and its name is written behind a star
  have pointer (params : String) (body : C.Lines) :
      definedNames (inlineFunction t ("*" ++ l ++ "_at") params body) = [l ++ "_at"] := by
    rw [String.append_assoc]
    exact C.definedNames_inlineFunction_pointer ht (hl.append (by decide)) params body
  simp (disch := decide) only [listHelpers, definedNames_append, function hl, function ht,
    function void, function int, pointer]
  rfl

theorem definedNames_helper (defined : table.isDefined t = true)
    (ok : table.helper t = .ok lines) : definedNames lines = (table.erase t).helperNames := by
  rw [Ty.helperNames, helperEndings_erase defined]
  cases t with
  | list elem =>
    obtain ⟨name, named, ok⟩ := exists_of_bind_eq_ok ok
    obtain ⟨held, inner, ok⟩ := exists_of_bind_eq_ok ok
    cases ok
    rw [name_erase defined named]
    exact definedNames_listHelpers (isWord_typeName named) (isWord_typeName inner) _ elem
  | array elem size =>
    obtain ⟨name, named, ok⟩ := exists_of_bind_eq_ok ok
    obtain ⟨held, -, ok⟩ := exists_of_bind_eq_ok ok
    obtain ⟨value, -, ok⟩ := exists_of_bind_eq_ok ok
    cases ok
    rw [name_erase defined named]
    have word := isWord_typeName named
    exact definedNames_inlineFunction word (word.append (by decide)) _ _
  | proc params ret =>
    obtain ⟨name, named, ok⟩ := exists_of_bind_eq_ok ok
    obtain ⟨result, inner, ok⟩ := exists_of_bind_eq_ok ok
    obtain ⟨args, -, ok⟩ := exists_of_bind_eq_ok ok
    cases ok
    rw [name_erase defined named]
    exact definedNames_inlineFunction (isWord_typeName inner)
      ((isWord_typeName named).append (by decide)) _ _
  | _ =>
    cases ok
    rfl

theorem definedNames_helpers
    (defined : ∀ t ∈ types, table.isDefined t = true) (ok : table.helpers types = .ok lines) :
    definedNames lines = (types.map table.erase).flatMap Ty.helperNames := by
  have each : definedNames lines = types.flatMap fun t => (table.erase t).helperNames :=
    definedNames_forTypes (fun t mem part ok => definedNames_helper (defined t mem) ok) ok
  rw [each, flatMap_map]

/-! ### Types of a program -/

/-- Types of which every one has what it needs, and whose records and their modules have names. -/
structure Complete (table : ArtifactTable) (types : List Ty) : Prop where
  needs : ∀ t ∈ types, ∀ u ∈ table.needs t, table.isDefined u = true → u ∈ types
  plain : ∀ ref, .artifact ref ∈ types → (Ty.artifact ref).IsSpelled

mutual

theorem Complete.isSpelled {types : List Ty} (h : table.Complete types) :
    (t : Ty) → (table.isDefined t = true → t ∈ types) → {tag : String} →
      table.typeTag t = .ok tag → (table.erase t).IsSpelled
  | .int, _, _, _ | .float, _, _, _ | .string, _, _, _ | .bool, _, _, _ | .void, _, _, _ => trivial
  | .unknown, _, _, ok => by cases ok
  | .artifact ref, mem, _, _ => by
    by_cases enum : table.isEnum ref = true
    · rw [erase, if_pos enum]
      trivial
    · rw [erase, if_neg enum]
      exact h.plain ref (mem (by simpa [isDefined] using enum))
  | .array elem size, mem, _, ok => by
    obtain ⟨tag, inner, -⟩ := exists_of_bind_eq_ok ok
    exact h.isSpelled elem (h.needs _ (mem rfl) elem (mem_singleton_self _)) inner
  | .list elem, mem, _, ok => by
    obtain ⟨tag, inner, -⟩ := exists_of_bind_eq_ok ok
    exact h.isSpelled elem (h.needs _ (mem rfl) elem (mem_singleton_self _)) inner
  | .proc params ret, mem, _, ok => by
    obtain ⟨tags, inner, ok⟩ := exists_of_bind_eq_ok ok
    obtain ⟨tag, result, -⟩ := exists_of_bind_eq_ok ok
    have needs := h.needs _ (mem rfl)
    exact ⟨h.allSpelled params (fun u hu => needs u (mem_append_left _ hu)) inner,
      h.isSpelled ret (needs ret (mem_append_right _ (mem_singleton_self _))) result⟩

theorem Complete.allSpelled {types : List Ty} (h : table.Complete types) :
    (ts : List Ty) → (∀ t ∈ ts, table.isDefined t = true → t ∈ types) → {tags : List String} →
      table.typeTags ts = .ok tags → Ty.AllSpelled (table.eraseAll ts)
  | [], _, _, _ => trivial
  | t :: ts, mem, _, ok => by
    obtain ⟨tag, first, ok⟩ := exists_of_bind_eq_ok ok
    obtain ⟨rest, others, -⟩ := exists_of_bind_eq_ok ok
    exact ⟨h.isSpelled t (mem t mem_cons_self) first,
      h.allSpelled ts (fun u hu => mem u (mem_cons_of_mem _ hu)) others⟩

end

theorem exists_typeTag_of_typeName {name : String} (ok : table.typeName t = .ok name) :
    ∃ tag, table.typeTag t = .ok tag := by
  cases t with
  | unknown => cases ok
  | artifact ref =>
    rw [typeTag]
    split <;> exact ⟨_, rfl⟩
  | array elem size | list elem | proc params ret =>
    obtain ⟨tag, inner, -⟩ := exists_of_bind_eq_ok ok
    exact ⟨tag, inner⟩
  | _ => exact ⟨_, rfl⟩

theorem exists_typeName_of_definitions {types : List Ty} {lines : C.Lines}
    (ok : table.definitions types = .ok lines) (mem : t ∈ types) :
    ∃ name, table.typeName t = .ok name := by
  obtain ⟨declarations, -, ok⟩ := exists_of_bind_eq_ok ok
  obtain ⟨parts, given, -⟩ := exists_of_bind_eq_ok ok
  obtain ⟨part, own⟩ := exists_of_forTypes given mem
  obtain ⟨name, named, -⟩ := exists_of_bind_eq_ok own
  exact ⟨name, named⟩

end ArtifactTable

theorem TypeOrder.Extends.mem_of_needs {table : ArtifactTable} {s : TypeOrder}
    (h : TypeOrder.Extends table {} s) {t u : Ty} (mem : t ∈ s.order.toList)
    (need : u ∈ table.needs t) (defined : table.isDefined u = true) : u ∈ s.order.toList := by
  obtain ⟨before, after, split⟩ := append_of_mem mem
  rcases h.behind split need defined with earlier | ⟨listed, -⟩
  · exact split ▸ mem_append_left _ earlier
  · exact listed

theorem WellNamed.nodup_definedNames_iff {units : List CheckedUnit} (h : WellNamed units)
    {state : LowerState} {definitions helpers : C.Lines}
    (lowered : lowerUnits (.ofUnits units) {} units = .ok state)
    (defined : (ArtifactTable.ofUnits units).definitions state.types.order.toList = .ok definitions)
    (helped : (ArtifactTable.ofUnits units).helpers state.types.order.toList = .ok helpers) :
    (C.definedNames definitions ++ C.definedNames helpers).Nodup ↔
      (state.types.order.toList.map (ArtifactTable.ofUnits units).erase).Nodup := by
  have registered := (parts_lowerUnits (fun u hu => h.separate.fits hu) lowered).2
  -- a record that a type mentions is defined as well, so that a unit declares it with a name
  have complete : (ArtifactTable.ofUnits units).Complete state.types.order.toList := by
    refine ⟨fun t mem u need known => registered.mem_of_needs mem need known, fun ref mem => ?_⟩
    obtain ⟨info, found⟩ := ArtifactTable.exists_get?_of_definitions defined mem
    obtain ⟨module, name⟩ := h.isPlain_record found
    exact ⟨module, name.2 _ (mem_singleton_self _)⟩
  rw [ArtifactTable.definedNames_definitions registered.grows.defined defined,
    ArtifactTable.definedNames_helpers registered.grows.defined helped]
  refine Ty.nodup_names_iff fun u mem => ?_
  obtain ⟨t, ht, rfl⟩ := List.mem_map.mp mem
  obtain ⟨name, named⟩ := ArtifactTable.exists_typeName_of_definitions defined ht
  obtain ⟨tag, tagged⟩ := ArtifactTable.exists_typeTag_of_typeName named
  exact complete.isSpelled t (fun _ => ht) tagged

/-- The types of a program are defined once each. The names that their definitions and functions
give differ, except for types that differ in enumerations and integers only. -/
theorem nodup_definedNames_of_lowerProgram {sources : Sources} {settings : Settings} {entry : Path}
    {units : List CheckedUnit} {lines : C.Lines}
    (accepted : check sources settings entry = .ok units)
    (modules : (units.map CheckedUnit.module).Nodup) (plain : ∀ u ∈ units, u.module.IsPlain)
    (lowered : lowerProgram units = .ok lines) : ∃ state definitions helpers,
      lowerUnits (.ofUnits units) {} units = .ok state ∧
      (ArtifactTable.ofUnits units).definitions state.types.order.toList = .ok definitions ∧
      (ArtifactTable.ofUnits units).helpers state.types.order.toList = .ok helpers ∧
      lines = state.sections.lines definitions helpers ∧ state.types.order.toList.Nodup ∧
      ((C.definedNames definitions ++ C.definedNames helpers).Nodup ↔
        (state.types.order.toList.map (ArtifactTable.ofUnits units).erase).Nodup) := by
  have h : WellNamed units := ⟨accepted_of_check accepted, modules, plain⟩
  obtain ⟨state, definitions, helpers, run, defined, helped, rfl⟩ := lowerProgram_eq_ok lowered
  refine ⟨state, definitions, helpers, run, defined, helped, rfl, ?_, ?_⟩
  · exact (parts_lowerUnits (fun u hu => h.separate.fits hu) run).2.nodup
  · exact h.nodup_definedNames_iff run defined helped

/-- An array and a list of integers. -/
def integers : Sources :=
  .ofFiles [(⟨"main.ark"⟩,
    .text "xs := [1, 2]\nys: [int] = [3]\nprint(len(xs) + len(ys))\n")]

/-- The types of the program give different names. -/
theorem nodup_definedNames_of_integers : ∃ units lines state definitions helpers,
    check integers {} ⟨"main.ark"⟩ = .ok units ∧ (units.map CheckedUnit.module).Nodup ∧
      (∀ u ∈ units, u.module.IsPlain) ∧ lowerProgram units = .ok lines ∧
      lowerUnits (.ofUnits units) {} units = .ok state ∧
      lines = state.sections.lines definitions helpers ∧
      (C.definedNames definitions ++ C.definedNames helpers).Nodup := by
  obtain ⟨units, lines, state, accepted, modules, plain, lowered, run, types⟩ :=
    exists_of_computed integers {} ⟨"main.ark"⟩ (fun _ types => types = [.array .int 2, .list .int])
      (by decide +kernel)
  obtain ⟨state', definitions, helpers, run', -, -, text, -, names⟩ :=
    nodup_definedNames_of_lowerProgram accepted modules plain lowered
  obtain rfl : state' = state := Except.ok.inj (run'.symm.trans run)
  refine ⟨units, lines, state', definitions, helpers, accepted, modules, plain, lowered, run, text,
    names.mpr ?_⟩
  rw [of_decide_eq_true types]
  exact of_decide_eq_true rfl

/-- An array of integers and one of an enumeration. -/
def colors : Sources :=
  .ofFiles [(⟨"main.ark"⟩, .text ("Color :: \x7b\n    red\n    green\n\x7d\nxs := [1, 2]\n" ++
    "ys := [Color.red, Color.green]\nprint(len(xs) + len(ys))\n"))]

/-- The two arrays are named alike, and so are their functions. -/
theorem not_nodup_definedNames_of_colors : ∃ units lines state definitions helpers,
    check colors {} ⟨"main.ark"⟩ = .ok units ∧ (units.map CheckedUnit.module).Nodup ∧
      (∀ u ∈ units, u.module.IsPlain) ∧ lowerProgram units = .ok lines ∧
      lowerUnits (.ofUnits units) {} units = .ok state ∧
      (ArtifactTable.ofUnits units).definitions state.types.order.toList = .ok definitions ∧
      (ArtifactTable.ofUnits units).helpers state.types.order.toList = .ok helpers ∧
      lines = state.sections.lines definitions helpers ∧
      ¬(C.definedNames definitions ++ C.definedNames helpers).Nodup := by
  obtain ⟨units, lines, state, accepted, modules, plain, lowered, run, types⟩ :=
    exists_of_computed colors {} ⟨"main.ark"⟩ (fun table types => ¬(types.map table.erase).Nodup)
      (by decide +kernel)
  have h : WellNamed units := ⟨accepted_of_check accepted, modules, plain⟩
  obtain ⟨state', definitions, helpers, run', defined, helped, text⟩ := lowerProgram_eq_ok lowered
  obtain rfl : state' = state := Except.ok.inj (run'.symm.trans run)
  refine ⟨units, lines, state', definitions, helpers, accepted, modules, plain, lowered, run,
    defined, helped, text, fun names => ?_⟩
  exact of_decide_eq_true types ((h.nodup_definedNames_iff run defined helped).mp names)

end ArkLang
