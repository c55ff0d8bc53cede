import ArkLang.Proofs.NameSpelling
import ArkLang.Proofs.TypeOrders

/-!
# How types are told apart

The name of a type spells the type out. Each part starts with a letter that says what it is, a
number ends where no digit follows, and the names of records start with their lengths, so a reader
of the spelling knows where each part ends. An enumeration is spelled as an integer: types that
differ in enumerations and integers only share their names.
-/

namespace ArkLang

open List

variable {c : Char} {name : String} {x y : List Char} {t : Ty}

/-! ### Words -/

namespace C

/-- A text that is one word. -/
structure IsWord (text : String) : Prop where
  nonempty : text.toList ≠ []
  chars : text.toList.all isNameChar = true

instance (text : String) : Decidable (IsWord text) :=
  decidable_of_iff (text.toList ≠ [] ∧ text.toList.all isNameChar = true)
    ⟨fun h => ⟨h.1, h.2⟩, fun h => ⟨h.nonempty, h.chars⟩⟩

namespace IsWord

variable {text more : String}

theorem isNameChar_of_mem (h : IsWord text) (mem : c ∈ text.toList) :
    isNameChar c = true :=
  List.all_eq_true.mp h.chars c mem

theorem not_mem (h : IsWord text) (other : isNameChar c = false) : c ∉ text.toList := by
  intro mem
  rw [h.isNameChar_of_mem mem] at other
  cases other

theorem append (h : IsWord text) (chars : more.toList.all isNameChar = true) :
    IsWord (text ++ more) where
  nonempty := by simp [String.toList_append, h.nonempty]
  chars := by rw [String.toList_append, all_append, h.chars, chars, Bool.and_self]

end IsWord

end C

/-! ### Types without enumerations -/

namespace ArtifactTable

variable (table : ArtifactTable)

mutual

/-- A type with integers for enumerations. -/
def erase : Ty → Ty
  | .artifact ref => if table.isEnum ref then .int else .artifact ref
  | .array elem size => .array (erase elem) size
  | .list elem => .list (erase elem)
  | .proc params ret => .proc (eraseAll params) (erase ret)
  | t => t

def eraseAll : List Ty → List Ty
  | [] => []
  | t :: ts => erase t :: eraseAll ts

end

theorem length_eraseAll (ts : List Ty) : (table.eraseAll ts).length = ts.length := by
  induction ts with
  | nil => rfl
  | cons t ts ih => rw [eraseAll, length_cons, length_cons, ih]

end ArtifactTable

namespace Ty

mutual

/-- A type without enumerations inside the name of another one. -/
def tag : Ty → List Char
  | .int => ['i']
  | .float => ['f']
  | .string => ['s']
  | .bool => ['b']
  | .void => ['v']
  | .unknown => []
  | .artifact ref => 'R' :: ((C.modulePart ref.module).toList ++ '_' :: (C.segment ref.name).toList)
  | .array elem size => 'A' :: (Nat.toDigits 10 size ++ tag elem)
  | .list elem => 'L' :: tag elem
  | .proc params ret => 'P' :: (Nat.toDigits 10 params.length ++ (tags params ++ '_' :: tag ret))

def tags : List Ty → List Char
  | [] => []
  | t :: ts => tag t ++ tags ts

end

mutual

/-- A type whose parts are known, and whose records and their modules have names. -/
def IsSpelled : Ty → Prop
  | .unknown => False
  | .artifact ref => ref.module.IsPlain ∧ isNameText ref.name.toList = true
  | .array elem _ => elem.IsSpelled
  | .list elem => elem.IsSpelled
  | .proc params ret => AllSpelled params ∧ ret.IsSpelled
  | .int | .float | .string | .bool | .void => True

def AllSpelled : List Ty → Prop
  | [] => True
  | t :: ts => t.IsSpelled ∧ AllSpelled ts

end

/-! ### Reading a type -/

open C (NoDigit noDigit_cons toDigits_append_inj modulePart_append_inj segment_append_inj)

theorem noDigit_tag (h : t.IsSpelled) (x : List Char) : NoDigit (t.tag ++ x) := by
  cases t <;> simp [tag, IsSpelled] at h ⊢

theorem noDigit_tags {ts : List Ty} (h : AllSpelled ts) {x : List Char} (hx : NoDigit x) :
    NoDigit (tags ts ++ x) := by
  cases ts with
  | nil => exact hx
  | cons t ts =>
    rw [tags, append_assoc]
    exact noDigit_tag h.1 _

theorem ref_append_inj {ref ref' : ArtifactRef}
    (h : (artifact ref).IsSpelled) (h' : (artifact ref').IsSpelled)
    (same : (C.modulePart ref.module).toList ++ '_' :: ((C.segment ref.name).toList ++ x) =
      (C.modulePart ref'.module).toList ++ '_' :: ((C.segment ref'.name).toList ++ y)) :
    ref = ref' ∧ x = y := by
  obtain ⟨module, rest⟩ := modulePart_append_inj h.1 h'.1 (by simp) (by simp) same
  obtain ⟨name, behind⟩ := segment_append_inj h.2 h'.2 (List.cons.inj rest).2
  obtain ⟨m, n⟩ := ref
  obtain ⟨m', n'⟩ := ref'
  obtain ⟨rfl, rfl⟩ : m = m' ∧ n = n' := ⟨module, name⟩
  exact ⟨rfl, behind⟩

mutual

theorem tag_append_inj : {t t' : Ty} → t.IsSpelled → t'.IsSpelled → {x y : List Char} →
    t.tag ++ x = t'.tag ++ y → t = t' ∧ x = y
  | .int, t', _, h', x, y, same
  | .float, t', _, h', x, y, same
  | .string, t', _, h', x, y, same
  | .bool, t', _, h', x, y, same
  | .void, t', _, h', x, y, same => by
    cases t' <;> simp [tag, IsSpelled] at same h' ⊢
    exact same
  | .artifact ref, t', h, h', x, y, same => by
    cases t' with
    | artifact ref' =>
      simp only [tag, cons_append, append_assoc, List.cons.injEq, true_and] at same
      obtain ⟨rfl, behind⟩ := ref_append_inj h h' same
      exact ⟨rfl, behind⟩
    | unknown => exact h'.elim
    | _ => simp [tag] at same
  | .array elem size, t', h, h', x, y, same => by
    cases t' with
    | array elem' size' =>
      simp only [tag, cons_append, append_assoc, List.cons.injEq, true_and] at same
      have he : elem.IsSpelled := h
      have he' : elem'.IsSpelled := h'
      -- the size ends where the element type starts
      obtain ⟨rfl, rest⟩ := toDigits_append_inj (noDigit_tag he _) (noDigit_tag he' _) same
      obtain ⟨rfl, behind⟩ := tag_append_inj he he' rest
      exact ⟨rfl, behind⟩
    | unknown => exact h'.elim
    | _ => simp [tag] at same
  | .list elem, t', h, h', x, y, same => by
    cases t' with
    | list elem' =>
      have he : elem.IsSpelled := h
      have he' : elem'.IsSpelled := h'
      obtain ⟨rfl, behind⟩ := tag_append_inj he he' (List.cons.inj same).2
      exact ⟨rfl, behind⟩
    | unknown => exact h'.elim
    | _ => simp [tag] at same
  | .proc params ret, t', h, h', x, y, same => by
    cases t' with
    | proc params' ret' =>
      simp only [tag, cons_append, append_assoc, List.cons.injEq, true_and] at same
      -- the parameters are counted, so the list of them ends where it does in the other type
      obtain ⟨count, parts⟩ := toDigits_append_inj (noDigit_tags h.1 (by simp))
        (noDigit_tags h'.1 (by simp)) same
      obtain ⟨rfl, result⟩ := tags_append_inj h.1 h'.1 count parts
      obtain ⟨rfl, behind⟩ := tag_append_inj h.2 h'.2 (List.cons.inj result).2
      exact ⟨rfl, behind⟩
    | unknown => exact h'.elim
    | _ => simp [tag] at same

theorem tags_append_inj : {ts ts' : List Ty} → AllSpelled ts → AllSpelled ts' →
    ts.length = ts'.length → {x y : List Char} → tags ts ++ x = tags ts' ++ y → ts = ts' ∧ x = y
  | [], [], _, _, _, x, y, same => ⟨rfl, same⟩
  | t :: ts, t' :: ts', h, h', length, x, y, same => by
    rw [tags, tags, append_assoc, append_assoc] at same
    obtain ⟨rfl, rest⟩ := tag_append_inj h.1 h'.1 same
    obtain ⟨rfl, behind⟩ := tags_append_inj h.2 h'.2 (Nat.succ.inj length) rest
    exact ⟨rfl, behind⟩

end

/-- The name of a type that is defined. -/
def spelling : Ty → List Char
  | .artifact ref => (C.artifactName ref).text.toList
  | t => ['a', 'r', 'k', '_', 't', '_'] ++ t.tag

theorem spelling_eq (other : ∀ ref, t ≠ .artifact ref) :
    t.spelling = ['a', 'r', 'k', '_', 't', '_'] ++ t.tag := by
  cases t with
  | artifact ref => exact absurd rfl (other ref)
  | _ => rfl

theorem toList_artifactName (ref : ArtifactRef) : (C.artifactName ref).text.toList =
    ['a', 'r', 'k', '_'] ++ ((C.modulePart ref.module).toList ++
      '_' :: (C.segment ref.name).toList) := by
  simp [C.artifactName, C.Name.text, C.segments, String.toList_append]

/-- Records are named differently from other types: a module starts with a digit. -/
theorem artifactName_append_ne (ref : ArtifactRef) (x y : List Char) :
    (C.artifactName ref).text.toList ++ x ≠ ['a', 'r', 'k', '_', 't', '_'] ++ y := by
  intro same
  obtain ⟨d, ds, eq, digit⟩ := C.exists_modulePart_eq_cons ref.module
    ('_' :: (C.segment ref.name).toList ++ x)
  rw [toList_artifactName, append_assoc, append_assoc, eq] at same
  simp only [cons_append, nil_append, List.cons.injEq, true_and] at same
  obtain ⟨rfl, -⟩ := same
  exact absurd digit (by decide)

theorem spelling_append_inj {t t' : Ty} (h : t.IsSpelled) (h' : t'.IsSpelled)
    (same : t.spelling ++ x = t'.spelling ++ y) : t = t' ∧ x = y := by
  by_cases record : ∃ ref, t = .artifact ref
  · obtain ⟨ref, rfl⟩ := record
    by_cases record' : ∃ ref, t' = .artifact ref
    · obtain ⟨ref', rfl⟩ := record'
      simp only [spelling, toList_artifactName, append_assoc] at same
      obtain ⟨rfl, behind⟩ := ref_append_inj h h' (append_cancel_left same)
      exact ⟨rfl, behind⟩
    · rw [spelling_eq (not_exists.mp record'), append_assoc] at same
      exact absurd same (artifactName_append_ne ref x _)
  · rw [spelling_eq (not_exists.mp record), append_assoc] at same
    by_cases record' : ∃ ref, t' = .artifact ref
    · obtain ⟨ref', rfl⟩ := record'
      exact absurd same.symm (artifactName_append_ne ref' y _)
    · rw [spelling_eq (not_exists.mp record'), append_assoc] at same
      exact tag_append_inj h h' (append_cancel_left same)

/-! ### Characters of names -/

theorem isNameChar_of_isDigit (h : c.isDigit = true) : C.isNameChar c = true := by
  simp [C.isNameChar, Char.isAlphanum, h]

theorem isNameChar_of_mem_cleaned (mem : c ∈ (C.cleaned name).toList) :
    C.isNameChar c = true := by
  rw [C.cleaned, String.toList_ofList, mem_map] at mem
  obtain ⟨d, -, rfl⟩ := mem
  by_cases plain : C.isNameChar d = true
  · rwa [if_pos plain]
  · rw [if_neg plain]
    decide

theorem isNameChar_of_mem_segment (mem : c ∈ (C.segment name).toList) :
    C.isNameChar c = true := by
  rw [C.segment, String.toList_append, C.toList_toString, mem_append] at mem
  rcases mem with mem | mem
  · exact isNameChar_of_isDigit (isDigit_of_mem_toDigits mem)
  · exact isNameChar_of_mem_cleaned mem

theorem isNameChar_of_mem_segments {names : List String}
    (mem : c ∈ (C.segments names).toList) : C.isNameChar c = true := by
  rw [C.segments, String.toList_join, flatMap_map] at mem
  obtain ⟨name, -, mem⟩ := List.mem_flatMap.mp mem
  exact isNameChar_of_mem_segment mem

theorem isNameChar_of_mem_modulePart {m : ModuleId}
    (mem : c ∈ (C.modulePart m).toList) : C.isNameChar c = true :=
  isNameChar_of_mem_segments mem

theorem isNameChar_of_mem_ref {ref : ArtifactRef}
    (mem : c ∈ (C.modulePart ref.module).toList ++ '_' :: (C.segment ref.name).toList) :
    C.isNameChar c = true := by
  rcases List.mem_append.mp mem with mem | mem
  · exact isNameChar_of_mem_modulePart mem
  · rcases List.mem_cons.mp mem with rfl | mem
    · decide
    · exact isNameChar_of_mem_segment mem

theorem isWord_artifactName (ref : ArtifactRef) : C.IsWord (C.artifactName ref).text := by
  refine ⟨by simp [toList_artifactName], ?_⟩
  rw [toList_artifactName, all_append, Bool.and_eq_true]
  exact ⟨by decide, List.all_eq_true.mpr fun c mem => isNameChar_of_mem_ref mem⟩

mutual

theorem isNameChar_of_mem_tag : {t : Ty} → {c : Char} → c ∈ t.tag → C.isNameChar c = true
  | .int, _, mem | .float, _, mem | .string, _, mem | .bool, _, mem | .void, _, mem => by
    obtain rfl := List.mem_singleton.mp mem
    decide
  | .artifact ref, _, mem => by
    rcases List.mem_cons.mp mem with rfl | mem
    · decide
    · exact isNameChar_of_mem_ref mem
  | .array elem size, _, mem => by
    rcases List.mem_cons.mp mem with rfl | mem
    · decide
    · rcases List.mem_append.mp mem with mem | mem
      · exact isNameChar_of_isDigit (isDigit_of_mem_toDigits mem)
      · exact isNameChar_of_mem_tag mem
  | .list elem, _, mem => by
    rcases List.mem_cons.mp mem with rfl | mem
    · decide
    · exact isNameChar_of_mem_tag mem
  | .proc params ret, _, mem => by
    simp only [tag, mem_cons, mem_append] at mem
    rcases mem with rfl | mem | mem | rfl | mem
    · decide
    · exact isNameChar_of_isDigit (isDigit_of_mem_toDigits mem)
    · exact isNameChar_of_mem_tags mem
    · decide
    · exact isNameChar_of_mem_tag mem

theorem isNameChar_of_mem_tags : {ts : List Ty} → {c : Char} → c ∈ tags ts → C.isNameChar c = true
  | t :: ts, _, mem => by
    rcases List.mem_append.mp mem with mem | mem
    · exact isNameChar_of_mem_tag mem
    · exact isNameChar_of_mem_tags mem

end

end Ty

namespace ArtifactTable

variable {table : ArtifactTable}

mutual

theorem toList_typeTag : {t : Ty} → {name : String} → table.typeTag t = .ok name →
    name.toList = (table.erase t).tag
  | .int, _, rfl | .float, _, rfl | .string, _, rfl | .bool, _, rfl | .void, _, rfl => by
    simp [erase, Ty.tag]
  | .artifact ref, _, ok => by
    by_cases enum : table.isEnum ref = true
    · simp only [typeTag, if_pos enum] at ok
      cases ok
      simp [erase, enum, Ty.tag]
    · simp only [typeTag, if_neg enum] at ok
      cases ok
      simp [erase, enum, Ty.tag, String.toList_append]
  | .array elem size, _, ok => by
    obtain ⟨tag, inner, ok⟩ := exists_of_bind_eq_ok ok
    cases ok
    simp [erase, Ty.tag, String.toList_append, toList_typeTag inner]
  | .list elem, _, ok => by
    obtain ⟨tag, inner, ok⟩ := exists_of_bind_eq_ok ok
    cases ok
    simp [erase, Ty.tag, String.toList_append, toList_typeTag inner]
  | .proc params ret, _, ok => by
    obtain ⟨tags, inner, ok⟩ := exists_of_bind_eq_ok ok
    obtain ⟨tag, result, ok⟩ := exists_of_bind_eq_ok ok
    cases ok
    simp [erase, Ty.tag, String.toList_append, length_eraseAll, String.toList_join,
      toList_typeTags inner, toList_typeTag result]

theorem toList_typeTags : {ts : List Ty} → {names : List String} → table.typeTags ts = .ok names →
    names.flatMap String.toList = Ty.tags (table.eraseAll ts)
  | [], _, rfl => rfl
  | t :: ts, _, ok => by
    obtain ⟨tag, first, ok⟩ := exists_of_bind_eq_ok ok
    obtain ⟨rest, others, ok⟩ := exists_of_bind_eq_ok ok
    cases ok
    rw [flatMap_cons, toList_typeTag first, toList_typeTags others]
    rfl

end

theorem toList_typeName (defined : table.isDefined t = true)
    (ok : table.typeName t = .ok name) : name.toList = (table.erase t).spelling := by
  cases t with
  | artifact ref =>
    have record : table.isEnum ref = false := by simpa [isDefined] using defined
    simp only [typeName, record] at ok
    cases ok
    simp [erase, record, Ty.spelling]
  | array elem size | list elem | proc params ret =>
    obtain ⟨tag, inner, ok⟩ := exists_of_bind_eq_ok ok
    cases ok
    rw [String.toList_append, toList_typeTag inner]
    rfl
  | _ => cases defined

theorem isWord_typeName (ok : table.typeName t = .ok name) : C.IsWord name := by
  have composite {tag : String} (inner : table.typeTag t = .ok tag) :
    C.IsWord ("ark_t_" ++ tag) := by
    refine C.IsWord.append ⟨by decide, by decide⟩ ?_
    rw [toList_typeTag inner]
    exact List.all_eq_true.mpr fun c mem => Ty.isNameChar_of_mem_tag mem
  cases t with
  | int | float | string | bool | void =>
    cases ok
    exact ⟨by decide, by decide⟩
  | unknown => cases ok
  | artifact ref =>
    by_cases enum : table.isEnum ref = true
    · simp only [typeName, if_pos enum] at ok
      cases ok
      exact ⟨by decide, by decide⟩
    · simp only [typeName, if_neg enum] at ok
      cases ok
      exact Ty.isWord_artifactName ref
  | array elem size | list elem | proc params ret =>
    obtain ⟨tag, inner, ok⟩ := exists_of_bind_eq_ok ok
    cases ok
    exact composite inner

end ArtifactTable

end ArkLang
