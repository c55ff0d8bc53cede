/-!
# Tables keyed by name

A table holds at most one value for each name and keeps its entries in the order of the names. Two
tables with the same entries are therefore equal, in whatever order they were filled.
-/

namespace ArkLang

/-- Values under names, in the order of the names. -/
structure NameTable (α : Type) where
  entries : List (String × α) := []
  deriving Repr, Inhabited

namespace NameTable

variable {α : Type}

/-- Puts a value among ordered entries, in place of the value its name had before. -/
def insertEntry (name : String) (value : α) : List (String × α) → List (String × α)
  | [] => [(name, value)]
  | (key, old) :: rest =>
    if name = key then (name, value) :: rest
    else if name < key then (name, value) :: (key, old) :: rest
    else (key, old) :: insertEntry name value rest

def insert (t : NameTable α) (name : String) (value : α) : NameTable α :=
  ⟨insertEntry name value t.entries⟩

def get? (t : NameTable α) (name : String) : Option α :=
  t.entries.lookup name

def contains (t : NameTable α) (name : String) : Bool :=
  (t.get? name).isSome

def values (t : NameTable α) : List α :=
  t.entries.map Prod.snd

/-- Looking a name up asks the first entry and then the rest. -/
theorem lookup_entry (key name : String) (value : α) (rest : List (String × α)) :
    ((name, value) :: rest).lookup key = if key = name then some value else rest.lookup key := by
  by_cases h : key = name
  · simp [h]
  · simp [List.lookup_cons, h, beq_eq_false_iff_ne.2 h]

theorem lookup_insertEntry (name key : String) (value : α) (entries : List (String × α)) :
    (insertEntry name value entries).lookup key =
      if key = name then some value else entries.lookup key := by
  induction entries with
  | nil => simp only [insertEntry, lookup_entry]
  | cons entry rest ih =>
    obtain ⟨other, old⟩ := entry
    simp only [insertEntry]
    split
    · next h =>
      subst h
      simp only [lookup_entry]
      split <;> rfl
    · split
      · simp only [lookup_entry]
      · next hne _ =>
        simp only [lookup_entry, ih]
        split
        · next h =>
          subst h
          simp [Ne.symm hne]
        · rfl

/-- A table answers the value last written under a name. -/
@[simp]
theorem get?_insert (t : NameTable α) (name key : String) (value : α) :
    (t.insert name value).get? key = if key = name then some value else t.get? key :=
  lookup_insertEntry name key value t.entries

end NameTable

end ArkLang
