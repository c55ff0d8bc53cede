import ArkLang.Proofs.TypeTags

/-!
# Names of all types

Scalars have names of their own, and every other type is spelled out. Two types have one name
exactly if they are the same once enumerations count as integers, whatever artifacts there are.
-/

namespace ArkLang

namespace Ty

def isComposite : Ty → Bool
  | .artifact _ | .array _ _ | .list _ | .proc _ _ => true
  | _ => false

/-- The name of a type without enumerations. -/
def word : Ty → List Char
  | .int => ['i', 'n', 't', '6', '4', '_', 't']
  | .float => ['d', 'o', 'u', 'b', 'l', 'e']
  | .string => ['a', 'r', 'k', '_', 's', 't', 'r']
  | .bool => ['b', 'o', 'o', 'l']
  | .void => ['v', 'o', 'i', 'd']
  | t => t.spelling

theorem word_eq_spelling {t : Ty} (h : t.isComposite = true) : t.word = t.spelling := by
  cases t with
  | artifact | array | list | proc => rfl
  | _ => cases h

theorem exists_spelling_eq {t : Ty} (h : t.isComposite = true) :
    ∃ c cs, t.spelling = 'a' :: 'r' :: 'k' :: '_' :: c :: cs ∧ c ≠ 's' := by
  cases t with
  | artifact ref =>
    obtain ⟨d, ds, eq, digit⟩ := C.exists_modulePart_eq_cons ref.module
      ('_' :: (C.segment ref.name).toList)
    refine ⟨d, ds, ?_, ?_⟩
    · rw [spelling, toList_artifactName, eq]
      rfl
    · rintro rfl
      exact absurd digit (by decide)
  | array | list | proc => exact ⟨'t', _, rfl, by decide⟩
  | _ => cases h

theorem word_ne_of_composite {t t' : Ty} (h : t.isComposite = true) (h' : t'.isComposite = false)
    (known : t'.IsSpelled) : t.word ≠ t'.word := by
  obtain ⟨c, cs, eq, other⟩ := exists_spelling_eq h
  rw [word_eq_spelling h, eq]
  cases t' with
  | unknown => exact known.elim
  | artifact | array | list | proc => cases h'
  | string =>
    intro same
    simp only [word, List.cons.injEq] at same
    exact other same.2.2.2.2.1
  | _ => simp [word]

theorem word_inj {t t' : Ty} (h : t.IsSpelled) (h' : t'.IsSpelled) (same : t.word = t'.word) :
    t = t' := by
  cases left : t.isComposite <;> cases right : t'.isComposite
  · cases t <;> cases t' <;> simp_all [word, isComposite, IsSpelled]
  · exact absurd same.symm (word_ne_of_composite right left h)
  · exact absurd same (word_ne_of_composite left right h')
  · rw [word_eq_spelling left, word_eq_spelling right] at same
    have same : t.spelling ++ [] = t'.spelling ++ [] := by rw [same]
    exact (spelling_append_inj h h' same).1

end Ty

namespace ArtifactTable

variable (table : ArtifactTable)

mutual

theorem isSpelled_erase : {t : Ty} → t.IsSpelled → (table.erase t).IsSpelled
  | .int, _ | .float, _ | .string, _ | .bool, _ | .void, _ => trivial
  | .artifact ref, h => by
    rw [erase]
    split
    · trivial
    · exact h
  | .array elem _, h | .list elem, h => isSpelled_erase (t := elem) h
  | .proc _ _, h => ⟨allSpelled_eraseAll h.1, isSpelled_erase h.2⟩

theorem allSpelled_eraseAll : {ts : List Ty} → Ty.AllSpelled ts → Ty.AllSpelled (table.eraseAll ts)
  | [], _ => trivial
  | _ :: _, h => ⟨isSpelled_erase h.1, allSpelled_eraseAll h.2⟩

end

mutual

theorem exists_typeTag : {t : Ty} → t.IsSpelled → ∃ tag, table.typeTag t = .ok tag
  | .int, _ | .float, _ | .string, _ | .bool, _ | .void, _ => ⟨_, rfl⟩
  | .artifact ref, _ => by
    rw [typeTag]
    split <;> exact ⟨_, rfl⟩
  | .array elem _, h | .list elem, h => by
    obtain ⟨tag, ok⟩ := exists_typeTag (t := elem) h
    rw [typeTag, ok]
    exact ⟨_, rfl⟩
  | .proc _ _, h => by
    obtain ⟨tags, params⟩ := exists_typeTags h.1
    obtain ⟨tag, ret⟩ := exists_typeTag h.2
    rw [typeTag, params]
    exact ⟨_, by rw [ret]; rfl⟩

theorem exists_typeTags : {ts : List Ty} → Ty.AllSpelled ts → ∃ tags, table.typeTags ts = .ok tags
  | [], _ => ⟨_, rfl⟩
  | _ :: _, h => by
    obtain ⟨tag, first⟩ := exists_typeTag h.1
    obtain ⟨tags, rest⟩ := exists_typeTags h.2
    rw [typeTags, first]
    exact ⟨_, by rw [rest]; rfl⟩

end

theorem typeName_eq_word {t : Ty} (h : t.IsSpelled) :
    table.typeName t = .ok (String.ofList (table.erase t).word) := by
  cases t with
  | unknown => exact h.elim
  | artifact ref =>
    by_cases enum : table.isEnum ref = true
    · simp only [typeName, erase, enum, if_true, Ty.word]
    · simp only [typeName, erase, enum, Bool.false_eq_true, if_false, Ty.word, Ty.spelling,
        String.ofList_toList]
  | array | list | proc =>
    obtain ⟨tag, ok⟩ := exists_typeTag table h
    rw [typeName, ok]
    refine congrArg Except.ok (String.toList_inj.mp ?_)
    rw [String.toList_append, toList_typeTag ok]
    exact String.toList_ofList.symm
  | _ => rfl

/-- Types are named alike exactly if they are the same with integers for their enumerations. -/
theorem typeName_eq_iff {a b : Ty} (ha : a.IsSpelled) (hb : b.IsSpelled) :
    ∃ name name', table.typeName a = .ok name ∧ table.typeName b = .ok name' ∧
      (name = name' ↔ table.erase a = table.erase b) := by
  refine ⟨_, _, table.typeName_eq_word ha, table.typeName_eq_word hb, ?_, fun same => by rw [same]⟩
  intro same
  exact Ty.word_inj (table.isSpelled_erase ha) (table.isSpelled_erase hb)
    (String.ofList_inj.mp same)

theorem typeName_eq_iff_of_colors :
    let table : ArtifactTable := ⟨[⟨"Color", ⟨"main"⟩, .enumeration, [], [], [("red", 0)]⟩]⟩
    let color : Ty := .artifact ⟨⟨"main"⟩, "Color"⟩
    let point : Ty := .artifact ⟨⟨"geo/flat"⟩, "Point"⟩
    let a : Ty := .proc [color, .array .int 3] (.list point)
    let b : Ty := .proc [.int, .array color 3] (.list point)
    a.IsSpelled ∧ b.IsSpelled ∧ ∃ name name', table.typeName a = .ok name ∧
      table.typeName b = .ok name' ∧ (name = name' ↔ table.erase a = table.erase b) := by
  intro table color point a b
  have hcolor : color.IsSpelled := ⟨by decide, by decide⟩
  have hpoint : point.IsSpelled := ⟨by decide, by decide⟩
  have ha : a.IsSpelled := ⟨⟨hcolor, trivial, trivial⟩, hpoint⟩
  have hb : b.IsSpelled := ⟨⟨trivial, hcolor, trivial⟩, hpoint⟩
  exact ⟨ha, hb, table.typeName_eq_iff ha hb⟩

end ArtifactTable

end ArkLang
