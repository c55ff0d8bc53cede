import ArkLang.Build.Check
import ArkLang.C.Name
import ArkLang.Proofs.Legible

/-!
# How names are told apart

The spelling of a name says which module it belongs to, what it stands for there and in which form.
A segment starts with its length, and a name of the language does not start with a digit, so a
reader of the spelling knows where each segment ends. What follows the segments starts with an
underscore.

Modules whose paths hold other characters can share their spelling.
-/

namespace ArkLang

open List

/-- A module whose path consists of names. -/
def ModuleId.IsPlain (m : ModuleId) : Prop :=
  ∀ name ∈ C.moduleSegments m, isNameText name.toList = true

instance (m : ModuleId) : Decidable m.IsPlain :=
  inferInstanceAs (Decidable (∀ name ∈ C.moduleSegments m, isNameText name.toList = true))

namespace C

/-! ### Numbers in names -/

def NoDigit (cs : List Char) : Prop :=
  ∀ c ∈ cs.head?, c.isDigit = false

@[simp] theorem noDigit_nil : NoDigit [] := by
  simp [NoDigit]

@[simp] theorem noDigit_cons {c : Char} {cs : List Char} :
    NoDigit (c :: cs) ↔ c.isDigit = false := by
  simp [NoDigit]

theorem takeWhile_toDigits_append (n : Nat) {x : List Char} (hx : NoDigit x) :
    (Nat.toDigits 10 n ++ x).takeWhile Char.isDigit = Nat.toDigits 10 n := by
  rw [takeWhile_append_of_pos fun _ => isDigit_of_mem_toDigits]
  cases x with
  | nil => simp
  | cons c cs => simp [noDigit_cons.mp hx]

variable {x y : List Char} {m m' : ModuleId}

theorem toDigits_append_inj {m n : Nat} (hx : NoDigit x) (hy : NoDigit y)
    (h : Nat.toDigits 10 m ++ x = Nat.toDigits 10 n ++ y) : m = n ∧ x = y := by
  have digits : Nat.toDigits 10 m = Nat.toDigits 10 n := by
    rw [← takeWhile_toDigits_append m hx, h, takeWhile_toDigits_append n hy]
  constructor
  · rw [← decimalValue_toDigits m, digits, decimalValue_toDigits]
  · rw [digits] at h
    exact append_cancel_left h

theorem exists_toDigits_eq_cons (n : Nat) : ∃ d ds,
    Nat.toDigits 10 n = d :: ds ∧ d.isDigit = true := by
  obtain ⟨d, ds, eq⟩ := exists_cons_of_ne_nil (toDigits_ne_nil n)
  exact ⟨d, ds, eq, isDigit_of_mem_toDigits (eq ▸ mem_cons_self)⟩

theorem toList_toString (n : Nat) : (toString n).toList = Nat.toDigits 10 n :=
  Nat.toList_repr

/-! ### Segments -/

theorem noDigit_of_isNameText {cs x : List Char} (h : isNameText cs = true) :
    NoDigit (cs ++ x) := by
  cases cs with
  | nil => simp [isNameText] at h
  | cons c cs =>
    simp only [isNameText, Bool.and_eq_true] at h
    rw [cons_append, noDigit_cons]
    by_contra digit
    rw [Bool.not_eq_false] at digit
    exact absurd h.1 (by rw [isNameStart_of_isDigit digit]; decide)

theorem cleaned_eq {name : String} (h : isNameText name.toList = true) : cleaned name = name := by
  rw [← String.toList_inj, cleaned, String.toList_ofList]
  cases chars : name.toList with
  | nil => rfl
  | cons c cs =>
    rw [chars] at h
    simp only [isNameText, isNameStart, Bool.and_eq_true, Bool.or_eq_true, decide_eq_true_eq,
      all_eq_true] at h
    have first : isNameChar c = true := by
      rcases h.1 with letter | rfl
      · simp [isNameChar, Char.isAlphanum, letter]
      · decide
    have others : ∀ d ∈ cs, isNameChar d = true := h.2
    have same : ∀ d ∈ c :: cs, (if isNameChar d then d else '_') = d := fun d mem =>
      if_pos ((List.mem_cons.mp mem).elim (fun eq => eq ▸ first) (others d))
    exact (map_congr_left same).trans (map_id' _)

theorem toList_segment {name : String} (h : isNameText name.toList = true) :
    (segment name).toList = Nat.toDigits 10 name.length ++ name.toList := by
  rw [segment, cleaned_eq h, String.toList_append, toList_toString]

theorem segment_append_inj {a b : String} (ha : isNameText a.toList = true)
    (hb : isNameText b.toList = true) (h : (segment a).toList ++ x = (segment b).toList ++ y) :
    a = b ∧ x = y := by
  rw [toList_segment ha, toList_segment hb, append_assoc, append_assoc] at h
  obtain ⟨size, rest⟩ :=
    toDigits_append_inj (noDigit_of_isNameText ha) (noDigit_of_isNameText hb) h
  obtain ⟨name, behind⟩ := append_inj rest size
  exact ⟨String.toList_inj.mp name, behind⟩

theorem toList_segments_cons (name : String) (names : List String) :
    (segments (name :: names)).toList = (segment name).toList ++ (segments names).toList := by
  simp [segments, String.toList_join]

theorem exists_segments_eq_cons {names : List String} (nonempty : names ≠ []) (x : List Char) :
    ∃ d ds, (segments names).toList ++ x = d :: ds ∧ d.isDigit = true := by
  obtain ⟨name, names, rfl⟩ := exists_cons_of_ne_nil nonempty
  obtain ⟨d, ds, eq, digit⟩ := exists_toDigits_eq_cons name.length
  rw [toList_segments_cons, segment, String.toList_append, toList_toString, eq]
  exact ⟨d, _, rfl, digit⟩

theorem segments_append_inj {as bs : List String}
    (has : ∀ a ∈ as, isNameText a.toList = true) (hbs : ∀ b ∈ bs, isNameText b.toList = true)
    (hx : NoDigit x) (hy : NoDigit y) (h : (segments as).toList ++ x = (segments bs).toList ++ y) :
    as = bs ∧ x = y := by
  have apart {names : List String} {x y : List Char} (nonempty : names ≠ []) (hy : NoDigit y) :
      (segments names).toList ++ x ≠ y := by
    rintro rfl
    obtain ⟨d, ds, eq, digit⟩ := exists_segments_eq_cons nonempty x
    rw [eq, noDigit_cons, digit] at hy
    cases hy
  induction as generalizing bs with
  | nil =>
    cases bs with
    | nil => exact ⟨rfl, h⟩
    | cons b bs => exact absurd h.symm (apart (cons_ne_nil b bs) hx)
  | cons a as ih =>
    cases bs with
    | nil => exact absurd h (apart (cons_ne_nil a as) hy)
    | cons b bs =>
      rw [toList_segments_cons, toList_segments_cons, append_assoc, append_assoc] at h
      obtain ⟨rfl, rest⟩ :=
        segment_append_inj (has a mem_cons_self) (hbs b mem_cons_self) h
      obtain ⟨rfl, behind⟩ := ih (fun a mem => has a (mem_cons_of_mem _ mem))
        (fun b mem => hbs b (mem_cons_of_mem _ mem)) rest
      exact ⟨rfl, behind⟩

/-! ### Modules -/

theorem moduleSegments_ne_nil (m : ModuleId) : moduleSegments m ≠ [] := by
  simp [moduleSegments, splitOn_ne_nil]

theorem moduleSegments_inj (h : moduleSegments m = moduleSegments m') : m = m' := by
  have name : m.name.toList = m'.name.toList := by
    rw [← intercalate_pathSegmentsOf m.name, ← intercalate_pathSegmentsOf m'.name]
    exact congrArg (fun names => ['/'].intercalate (names.map String.toList)) h
  cases m
  cases m'
  exact congrArg ModuleId.mk (String.toList_inj.mp name)

theorem modulePart_append_inj (hm : m.IsPlain)
    (hm' : m'.IsPlain) (hx : NoDigit x) (hy : NoDigit y)
    (h : (modulePart m).toList ++ x = (modulePart m').toList ++ y) : m = m' ∧ x = y := by
  obtain ⟨same, behind⟩ := segments_append_inj hm hm' hx hy h
  exact ⟨moduleSegments_inj same, behind⟩

theorem exists_modulePart_eq_cons (m : ModuleId) (x : List Char) :
    ∃ d ds, (modulePart m).toList ++ x = d :: ds ∧ d.isDigit = true :=
  exists_segments_eq_cons (moduleSegments_ne_nil m) x

/-! ### What a name stands for -/

/-- What a name of a module stands for. -/
inductive Root where
  /-- A variable, procedure, constant, enumeration case, record or method by its path. -/
  | member (path : List String)
  /-- A procedure that is declared in a block. -/
  | nested (proc : ProcId)
  /-- What runs the module-level code. -/
  | start
  /-- What releases the lists of the module. -/
  | finish
  /-- The type of the environment of a procedure. -/
  | environment (proc : ProcId)
  deriving DecidableEq, Repr

/-- The forms of a name. -/
inductive Ending where
  | plain
  /-- A procedure called with a number of arguments left out. -/
  | omitting (count : Nat)
  /-- A procedure as it is called through a value. -/
  | viaValue
  /-- The constructor of a record. -/
  | constructor
  /-- The constructor of a record called with a number of arguments left out. -/
  | shortConstructor (count : Nat)
  /-- The record with all properties at their defaults. -/
  | defaultRecord
  deriving DecidableEq, Repr

/-- What the spelling of a name says. -/
structure Key where
  module : ModuleId
  root : Root
  ending : Ending
  deriving DecidableEq, Repr

/-- The name of what a module holds. `called` gives the names of procedures in blocks, which their
numbers tell apart already. -/
def Root.name (called : ProcId → String) (m : ModuleId) : Root → Name
  | member path => .member m path
  | nested proc => .nested m proc (called proc)
  | start => .moduleStart m
  | finish => .moduleEnd m
  | environment proc => .environment m proc

def Ending.apply (base : Name) : Ending → Name
  | plain => base
  | omitting count => .omitting base count
  | viaValue => .viaValue base
  | constructor => .constructor base.text
  | shortConstructor count => .omitting (.constructor base.text) count
  | defaultRecord => .defaultRecord base.text

/-- The name of a key. `called` gives the names of procedures in blocks. -/
def Key.name (called : ModuleId → ProcId → String) (k : Key) : Name :=
  k.ending.apply (k.root.name (called k.module) k.module)

def Root.lead : Root → List Char
  | environment _ => ['a', 'r', 'k', '_', 'e', 'n', 'v', '_']
  | _ => ['a', 'r', 'k', '_']

/-- What stands behind the module in a name. -/
def Root.tail (called : ProcId → String) : Root → List Char
  | member path => '_' :: (segments path).toList
  | nested proc =>
    '_' :: '_' :: 'n' :: (Nat.toDigits 10 proc ++ '_' :: (cleaned (called proc)).toList)
  | start => ['_', '_', 'i', 'n', 'i', 't']
  | finish => ['_', '_', 'f', 'i', 'n', 'i']
  | environment proc => '_' :: Nat.toDigits 10 proc

/-- What a form of a name ends with. -/
def Ending.tail : Ending → List Char
  | plain => []
  | omitting count => '_' :: '_' :: 'a' :: Nat.toDigits 10 count
  | viaValue => ['_', '_', 'v']
  | constructor => ['_', '_', 'n', 'e', 'w']
  | shortConstructor count => ['_', '_', 'n', 'e', 'w'] ++ '_' :: '_' :: 'a' ::
      Nat.toDigits 10 count
  | defaultRecord => ['_', '_', 'd', 'e', 'f', 'a', 'u', 'l', 't']

theorem toList_text_root (called : ProcId → String) (m : ModuleId) (r : Root) :
    (r.name called m).text.toList = r.lead ++ ((modulePart m).toList ++ r.tail called) := by
  cases r <;> simp [Root.name, Name.text, Root.lead, Root.tail, String.toList_append]

theorem toList_text_apply (base : Name) (e : Ending) :
    (e.apply base).text.toList = base.text.toList ++ e.tail := by
  cases e <;> simp [Ending.apply, Name.text, Ending.tail, String.toList_append]

theorem Key.toList_text (called : ModuleId → ProcId → String) (k : Key) :
    (k.name called).text.toList = k.root.lead ++
      ((modulePart k.module).toList ++ (k.root.tail (called k.module) ++ k.ending.tail)) := by
  rw [Key.name, toList_text_apply, toList_text_root, append_assoc, append_assoc]

/-! ### Reading a name -/

theorem noDigit_tail (e : Ending) : NoDigit e.tail := by
  cases e <;> simp [Ending.tail]

theorem noDigit_tail_append (called : ProcId → String) (r : Root) (x : List Char) :
    NoDigit (r.tail called ++ x) := by
  cases r <;> simp [Root.tail]

theorem Ending.tail_inj {e e' : Ending} (h : e.tail = e'.tail) : e = e' := by
  have counts {m n : Nat} (same : Nat.toDigits 10 m = Nat.toDigits 10 n) : m = n :=
    (toDigits_append_inj noDigit_nil noDigit_nil (congrArg (· ++ []) same)).1
  cases e <;> cases e' <;> simp [Ending.tail] at h ⊢ <;> exact counts h

theorem lead_append_inj {r r' : Root}
    (h : r.lead ++ ((modulePart m).toList ++ x) = r'.lead ++ ((modulePart m').toList ++ y)) :
    r.lead = r'.lead ∧ (modulePart m).toList ++ x = (modulePart m').toList ++ y := by
  obtain ⟨d, ds, eq, digit⟩ := exists_modulePart_eq_cons m x
  obtain ⟨d', ds', eq', digit'⟩ := exists_modulePart_eq_cons m' y
  have leads (r : Root) : r.lead = ['a', 'r', 'k', '_'] ∨
      r.lead = ['a', 'r', 'k', '_', 'e', 'n', 'v', '_'] := by
    cases r <;> simp [Root.lead]
  rw [eq, eq'] at h ⊢
  -- a module starts with a digit, where `ark_env_` goes on with a letter
  rcases leads r with plain | env <;> rcases leads r' with plain' | env'
  · rw [plain, plain'] at h ⊢
    exact ⟨rfl, append_cancel_left h⟩
  · rw [plain, env'] at h
    obtain ⟨rfl, -⟩ := List.cons.inj (append_cancel_left h)
    exact absurd digit (by decide)
  · rw [env, plain'] at h
    obtain ⟨rfl, -⟩ := List.cons.inj (append_cancel_left h.symm)
    exact absurd digit' (by decide)
  · rw [env, env'] at h ⊢
    exact ⟨rfl, append_cancel_left h⟩

/-- A name says which module it belongs to. -/
theorem Key.module_eq_of_text_eq {called called' : ModuleId → ProcId → String} {k k' : Key}
    (hk : k.module.IsPlain) (hk' : k'.module.IsPlain)
    (h : (k.name called).text = (k'.name called').text) :
    k.module = k'.module ∧ k.root.lead = k'.root.lead ∧
      k.root.tail (called k.module) ++ k.ending.tail =
        k'.root.tail (called' k'.module) ++ k'.ending.tail := by
  rw [← String.toList_inj, Key.toList_text, Key.toList_text] at h
  obtain ⟨lead, rest⟩ := lead_append_inj h
  obtain ⟨module, tail⟩ := modulePart_append_inj hk hk' (noDigit_tail_append _ _ _)
    (noDigit_tail_append _ _ _) rest
  exact ⟨module, lead, tail⟩

/-- The path of what a name stands for consists of names. -/
def Root.IsPlain : Root → Prop
  | .member path => path ≠ [] ∧ ∀ name ∈ path, isNameText name.toList = true
  | _ => True

theorem member_tail_ne {path : List String} (nonempty : path ≠ []) (x y : List Char) :
    (segments path).toList ++ x ≠ '_' :: y := by
  obtain ⟨d, ds, eq, digit⟩ := exists_segments_eq_cons nonempty x
  rw [eq]
  rintro ⟨⟩
  exact absurd digit (by decide)

/-- What a name of a module stands for, and in which form, follows from what stands behind the
module. -/
theorem tail_append_inj {called : ProcId → String} {r r' : Root} {e e' : Ending} (hr : r.IsPlain)
    (hr' : r'.IsPlain) (lead : r.lead = r'.lead)
    (h : r.tail called ++ e.tail = r'.tail called ++ e'.tail) : r = r' ∧ e = e' := by
  cases r with
  | member path =>
    cases r' with
    | member path' =>
      obtain ⟨rfl, rest⟩ := segments_append_inj hr.2 hr'.2 (noDigit_tail e) (noDigit_tail e')
        (List.cons.inj h).2
      exact ⟨rfl, Ending.tail_inj rest⟩
    | environment => simp [Root.lead] at lead
    | _ => exact absurd (List.cons.inj h).2 (member_tail_ne hr.1 _ _)
  | nested proc =>
    cases r' with
    | member path' => exact absurd (List.cons.inj h).2.symm (member_tail_ne hr'.1 _ _)
    | nested proc' =>
      simp only [Root.tail, cons_append, append_assoc, List.cons.injEq, true_and] at h
      obtain ⟨rfl, rest⟩ := toDigits_append_inj (by simp) (by simp) h
      exact ⟨rfl, Ending.tail_inj (append_cancel_left (List.cons.inj rest).2)⟩
    | environment => simp [Root.lead] at lead
    | _ => simp [Root.tail] at h
  | start =>
    cases r' with
    | member path' => exact absurd (List.cons.inj h).2.symm (member_tail_ne hr'.1 _ _)
    | start => exact ⟨rfl, Ending.tail_inj (append_cancel_left h)⟩
    | environment => simp [Root.lead] at lead
    | _ => simp [Root.tail] at h
  | finish =>
    cases r' with
    | member path' => exact absurd (List.cons.inj h).2.symm (member_tail_ne hr'.1 _ _)
    | finish => exact ⟨rfl, Ending.tail_inj (append_cancel_left h)⟩
    | environment => simp [Root.lead] at lead
    | _ => simp [Root.tail] at h
  | environment proc =>
    cases r' with
    | environment proc' =>
      obtain ⟨rfl, rest⟩ :=
        toDigits_append_inj (noDigit_tail e) (noDigit_tail e') (List.cons.inj h).2
      exact ⟨rfl, Ending.tail_inj rest⟩
    | _ => simp [Root.lead] at lead

theorem Key.text_injective {called : ModuleId → ProcId → String} {k k' : Key}
    (hk : k.module.IsPlain ∧ k.root.IsPlain) (hk' : k'.module.IsPlain ∧ k'.root.IsPlain)
    (h : (k.name called).text = (k'.name called).text) : k = k' := by
  obtain ⟨module, lead, tail⟩ := module_eq_of_text_eq hk.1 hk'.1 h
  obtain ⟨m, r, e⟩ := k
  obtain ⟨m', r', e'⟩ := k'
  obtain rfl : m = m' := module
  obtain ⟨rfl, rfl⟩ := tail_append_inj hk.2 hk'.2 lead tail
  rfl

/-- Different modules whose paths consist of names are spelled differently, and so are all their
names: what runs a module and what releases its lists, its members and procedures in all their
forms, and the environments of its procedures. -/
theorem text_ne_of_module_ne {m m' : ModuleId} (hm : m.IsPlain) (hm' : m'.IsPlain)
    (different : m ≠ m') :
    modulePart m ≠ modulePart m' ∧
    (Name.moduleStart m).text ≠ (Name.moduleStart m').text ∧
    (Name.moduleEnd m).text ≠ (Name.moduleEnd m').text ∧
    ∀ (called called' : ModuleId → ProcId → String) (k k' : Key), k.module = m → k'.module = m' →
      (k.name called).text ≠ (k'.name called').text := by
  have apart (called called' : ModuleId → ProcId → String) (k k' : Key) (hk : k.module = m)
      (hk' : k'.module = m') : (k.name called).text ≠ (k'.name called').text := by
    intro same
    subst hk hk'
    exact different (Key.module_eq_of_text_eq hm hm' same).1
  have parts : modulePart m ≠ modulePart m' := by
    intro same
    have chars : (modulePart m).toList ++ [] = (modulePart m').toList ++ [] := by rw [same]
    exact different (modulePart_append_inj hm hm' noDigit_nil noDigit_nil chars).1
  let none (_ : ModuleId) (_ : ProcId) : String := ""
  exact ⟨parts, apart none none ⟨m, .start, .plain⟩ ⟨m', .start, .plain⟩ rfl rfl,
    apart none none ⟨m, .finish, .plain⟩ ⟨m', .finish, .plain⟩ rfl rfl, apart⟩

theorem text_ne_of_module_ne_lengths :
    ModuleId.IsPlain ⟨"a/b"⟩ ∧ ModuleId.IsPlain ⟨"a1b"⟩ ∧ modulePart ⟨"a/b"⟩ ≠ modulePart ⟨"a1b"⟩ ∧
      (Name.moduleStart ⟨"a/b"⟩).text ≠ (Name.moduleStart ⟨"a1b"⟩).text := by
  have plain : ModuleId.IsPlain ⟨"a/b"⟩ := by decide +kernel
  have plain' : ModuleId.IsPlain ⟨"a1b"⟩ := by decide +kernel
  obtain ⟨parts, starts, -⟩ := text_ne_of_module_ne plain plain' (by decide)
  exact ⟨plain, plain', parts, starts⟩

/-- Two modules whose paths differ in a character that no name has. -/
def lookalikes : Sources :=
  .ofFiles [(⟨"main.ark"⟩, .text "Mod \"a-b/m\"\nMod helper\nprint(m.x)\n"),
    (⟨"a-b/m.ark"⟩, .text "x := 1\n"), (⟨"helper.ark"⟩, .text "Mod a_b/m\n"),
    (⟨"a_b/m.ark"⟩, .text "x := 2\n")]

/-- The program is accepted, and two of its modules have the same names. -/
theorem text_eq_of_lookalikes :
    (check lookalikes {} ⟨"main.ark"⟩).toOption.map (·.map (·.module.name)) =
        some ["a-b/m", "a_b/m", "helper", "main"] ∧
      modulePart ⟨"a-b/m"⟩ = modulePart ⟨"a_b/m"⟩ ∧
      (Name.moduleStart ⟨"a-b/m"⟩).text = (Name.moduleStart ⟨"a_b/m"⟩).text := by
  have parts : modulePart ⟨"a-b/m"⟩ = modulePart ⟨"a_b/m"⟩ := by decide +kernel
  refine ⟨by decide +kernel, parts, ?_⟩
  simp only [Name.text, parts]

end C

end ArkLang
