import ArkLang.Files.Tree

/-!
# Where units come from

The units of a program are loaded by their normal paths. Only finitely many paths can be loaded, so
that following imports comes to an end.
-/

namespace ArkLang

/-- Why a unit cannot be loaded. -/
inductive LoadFault where
  | notFound (path : NormalPath)
  | circular (path : NormalPath)
  | unreadable (path : NormalPath) (reason : String)
  deriving DecidableEq, Repr, Inhabited

namespace LoadFault

/-- The class under which a fault is reported. -/
def kindName : LoadFault → String
  | notFound _ => "NotFound"
  | circular _ => "Circular"
  | unreadable _ _ => "Io"

def message : LoadFault → String
  | notFound path => "no module at " ++ path.text
  | circular path => path.text ++ " imports itself through its dependencies"
  | unreadable path reason => "failed to read " ++ path.text ++ ": " ++ reason

/-- Whether a fault is reported where the unit is imported, and not left to the analysis. -/
def isUnreadable : LoadFault → Bool
  | unreadable _ _ => true
  | _ => false

end LoadFault

/-- What is loaded under each path. -/
structure Sources where
  load : NormalPath → Except LoadFault String
  /-- The paths that can be loaded, and possibly others. -/
  loadable : List NormalPath
  mem_loadable : ∀ {path text}, load path = .ok text → path ∈ loadable

/-! ### Units in memory -/

/-- A unit held in memory. -/
inductive HeldFile where
  | text (text : String)
  /-- A unit that answers with a fault. -/
  | fault (fault : NormalPath → LoadFault)

namespace Sources

/-- Loads a unit from memory. The last file of a path counts. -/
def loadHeld (files : List (NormalPath × HeldFile)) (path : NormalPath) :
    Except LoadFault String :=
  match files.reverse.lookup path with
  | some (.text text) => .ok text
  | some (.fault fault) => .error (fault path)
  | none => .error (.notFound path)

theorem mem_of_lookup {α β : Type} [BEq α] [LawfulBEq α] {key : α} {value : β}
    {entries : List (α × β)} (h : entries.lookup key = some value) :
    key ∈ entries.map Prod.fst := by
  induction entries with
  | nil => simp at h
  | cons entry rest ih =>
    obtain ⟨k, v⟩ := entry
    by_cases hk : key = k
    · simp [hk]
    · simp only [List.lookup_cons, beq_eq_false_iff_ne.2 hk] at h
      simp [ih h]

/-- What memory loads is among its files. -/
theorem mem_of_loadHeld {files : List (NormalPath × HeldFile)} {path : NormalPath} {text : String}
    (h : loadHeld files path = .ok text) : path ∈ files.map Prod.fst := by
  cases hl : files.reverse.lookup path with
  | none => simp [loadHeld, hl] at h
  | some file =>
    have := mem_of_lookup hl
    simpa using this

/-- Units held in memory. -/
def ofFiles (files : List (Path × HeldFile)) : Sources :=
  let normal := files.map fun (path, file) => (path.normalize, file)
  { load := loadHeld normal
    loadable := normal.map Prod.fst
    mem_loadable := mem_of_loadHeld }

end Sources

/-! ### Units in a tree of files -/

namespace FileTree

def load (t : FileTree) (path : NormalPath) : Except LoadFault String :=
  match path.anchor with
  | .above _ => .error (.notFound path)
  | .root =>
    match path.path.permit >>= fun _ => t.readAt path.names with
    | .ok text => .ok text
    | .error .notFound => .error (.notFound path)
    | .error fault => .error (.unreadable path fault.message)

/-- What a tree reads is among its entries. -/
theorem mem_of_readAt {t : FileTree} {names : List String} {text : String}
    (h : t.readAt names = .ok text) : names ∈ t.entries.map Prod.fst := by
  cases hl : t.entries.lookup names with
  | some e => exact Sources.mem_of_lookup hl
  | none =>
    have he : t.entry names ≠ .ok (.file (some text)) := by
      simp only [entry, hl]
      split
      · simp
      · split <;> simp
    cases hn : t.entry names with
    | error fault => simp [readAt, hn, bind, Except.bind] at h
    | ok e =>
      cases e with
      | directory => simp [readAt, hn, bind, Except.bind, throw, throwThe, MonadExceptOf.throw] at h
      | file content =>
        cases content with
        | none => simp [readAt, hn, bind, Except.bind, throw, throwThe, MonadExceptOf.throw] at h
        | some found =>
          simp only [readAt, hn, bind, Except.bind, pure, Except.pure, Except.ok.injEq] at h
          exact absurd (h ▸ hn) he

/-- What a tree loads is among its entries. -/
theorem mem_of_load {t : FileTree} {path : NormalPath} {text : String}
    (h : t.load path = .ok text) : path ∈ t.entries.map fun entry => ⟨.root, entry.1⟩ := by
  obtain ⟨anchor, names⟩ := path
  cases anchor with
  | above levels => simp [load] at h
  | root =>
    have hr : t.readAt names = .ok text := by
      cases ha : (NormalPath.path ⟨.root, names⟩).permit with
      | error fault =>
        simp only [load, ha, bind, Except.bind] at h
        split at h <;> simp_all
      | ok _ =>
        simp only [load, ha, bind, Except.bind] at h
        split at h <;> simp_all
    have := mem_of_readAt hr
    simpa using this

def sources (t : FileTree) : Sources where
  load := t.load
  loadable := t.entries.map fun entry => ⟨.root, entry.1⟩
  mem_loadable := mem_of_load

end FileTree

end ArkLang
