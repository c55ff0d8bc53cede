import ArkLang.Proofs.CoherentUnits

/-!
# Where lists may stand

A list is owned by one variable, and copied and released with it. Code for that exists for lists
themselves, but not for arrays or records that hold lists, and a procedure that captures a variable
does not own it. So a list is never an element of an array, never held by a record and never
captured. Types come from annotations, literals, initial values, results and interfaces; all of them
obey.
-/

namespace ArkLang

open Scoped (Within)

/-! ### The parts of a type -/

mutual

/-- The types that occur in a type, the type itself among them. -/
def Ty.parts : Ty → List Ty
  | .array elem size => .array elem size :: elem.parts
  | .list elem => .list elem :: elem.parts
  | .proc params ret => .proc params ret :: Ty.partsAll params ++ ret.parts
  | t => [t]

def Ty.partsAll : List Ty → List Ty
  | [] => []
  | t :: ts => t.parts ++ Ty.partsAll ts

end

mutual

theorem Ty.Tame.parts : (t : Ty) → t.Tame → ∀ part ∈ t.parts, part.Tame
  | .array elem _, h, part, mem => by
    rcases List.mem_cons.mp mem with rfl | mem
    · exact h
    · exact Ty.Tame.parts elem h.2 part mem
  | .list elem, h, part, mem => by
    rcases List.mem_cons.mp mem with rfl | mem
    · exact h
    · exact Ty.Tame.parts elem h part mem
  | .proc params ret, h, part, mem => by
    rcases List.mem_append.mp mem with mem | mem
    · rcases List.mem_cons.mp mem with rfl | mem
      · exact h
      · exact Ty.AllTame.parts params h.1 part mem
    · exact Ty.Tame.parts ret h.2 part mem
  | .int, h, part, mem | .float, h, part, mem | .string, h, part, mem | .bool, h, part, mem
  | .void, h, part, mem | .unknown, h, part, mem | .artifact _, h, part, mem => by
    rw [List.mem_singleton.mp mem]
    exact h

theorem Ty.AllTame.parts : (ts : List Ty) → Ty.AllTame ts → ∀ part ∈ Ty.partsAll ts, part.Tame
  | [], _, _, mem => by cases mem
  | t :: ts, h, part, mem => by
    rcases List.mem_append.mp mem with mem | mem
    · exact Ty.Tame.parts t h.1 part mem
    · exact Ty.AllTame.parts ts h.2 part mem

end

/-! ### The types that a unit records -/

def ProcSig.Mentions (sig : ProcSig) (t : Ty) : Prop :=
  t = sig.ret ∨ ∃ q ∈ sig.params, t = q.type

/-- A type of a property, or in the signature of a method. -/
def ArtifactInfo.Mentions (a : ArtifactInfo) (t : Ty) : Prop :=
  (∃ q ∈ a.props, t = q.type) ∨ ∃ m ∈ a.methods, m.sig.Mentions t

/-- The types in an interface. -/
inductive Interface.Offers (i : Interface) : Ty → Prop
  | global {name : String} {g : GlobalInfo} (found : i.globals.get? name = some g) : Offers i g.type
  | proc {name : String} {sig : ProcSig} {t : Ty} (found : i.procs.get? name = some sig)
      (mentions : sig.Mentions t) : Offers i t
  | artifact {name : String} {a : ArtifactInfo} {t : Ty} (found : i.artifacts.get? name = some a)
      (mentions : a.Mentions t) : Offers i t

/-- The types that a unit records: of its symbols, expressions, procedures and artifacts, and in its
interface. -/
inductive CheckedUnit.Records (u : CheckedUnit) : Ty → Prop
  | symbol {sym : SymbolInfo} (mem : sym ∈ u.symbols) : Records u sym.type
  | expr {n : NodeId} {t : Ty} (found : u.exprTypes.get? n = some t) : Records u t
  | param {p : ProcInfo} {q : ParamInfo} (mem : p ∈ u.procs) (param : q ∈ p.params) :
      Records u q.type
  | result {p : ProcInfo} (mem : p ∈ u.procs) : Records u p.ret
  | artifact {n : NodeId} {a : ArtifactInfo} {t : Ty} (found : u.artifacts.get? n = some a)
      (mentions : a.Mentions t) : Records u t
  | interface {t : Ty} (offers : u.interface.Offers t) : Records u t

/-- An artifact of a unit, in its own table or in its interface. -/
def CheckedUnit.Declares (u : CheckedUnit) (a : ArtifactInfo) : Prop :=
  (∃ n, u.artifacts.get? n = some a) ∨ ∃ name, u.interface.artifacts.get? name = some a

theorem ProcSig.Mentions.tame {sig : ProcSig} {t : Ty} (h : sig.Mentions t)
    (tame : Within .tame sig) :
    t.Tame := by
  rcases h with rfl | ⟨q, mem, rfl⟩
  · exact tame.2
  · exact tame.1 q mem

theorem ArtifactInfo.Mentions.tame {a : ArtifactInfo} {t : Ty} (h : a.Mentions t)
    (tame : Within .tame a) :
    t.Tame := by
  rcases h with ⟨q, mem, rfl⟩ | ⟨m, mem, mentions⟩
  · exact tame.1 q mem
  · exact mentions.tame (tame.2 m mem)

theorem Interface.Offers.tame {i : Interface} {t : Ty} (h : i.Offers t) (tame : Within .tame i) :
    t.Tame := by
  obtain ⟨-, globals, procs, artifacts⟩ := tame
  cases h with
  | global found => exact globals _ _ found
  | proc found mentions => exact mentions.tame (procs _ _ found)
  | artifact found mentions => exact mentions.tame (artifacts _ _ found)

namespace Analysis.Coherent

variable {o : Outline} {sites : NodeId → Site} {s : Analysis} {p : Program}

theorem artifact_of_declares {a : ArtifactInfo} (h : (s.unit o p).Declares a) :
    ∃ b ∈ o.artifacts, a = s.artifactInfo o b := by
  rcases h with ⟨n, found⟩ | ⟨name, found⟩
  · obtain ⟨b, mem, same⟩ := List.mem_map.mp (mem_of_get?_ofList found)
    cases same
    exact ⟨b, mem, rfl⟩
  · have all : ∀ name a, (s.interface o).artifacts.get? name = some a →
        ∃ b ∈ o.artifacts, a = s.artifactInfo o b := by
      refine List.foldlRecOn (motive := fun table : NameTable ArtifactInfo =>
        ∀ name a, table.get? name = some a → ∃ b ∈ o.artifacts, a = s.artifactInfo o b)
        o.artifacts _ (by simp [NameTable.get?]) fun table ht b mem name a found => ?_
      rw [NameTable.get?_insert] at found
      split at found
      · cases found
        exact ⟨b, mem, rfl⟩
      · exact ht name a found
    exact all name a found

theorem tame_of_records (hs : s.Coherent o sites) {t : Ty} (h : (s.unit o p).Records t) :
    t.Tame := by
  cases h with
  | symbol mem => exact hs.symbolTypes _ mem
  | expr found => exact hs.exprTypes _ t found
  | param mem param =>
    obtain ⟨entry, present, rfl⟩ := Array.mem_map.mp mem
    exact (hs.procTypes entry present).1.1 _ param
  | result mem =>
    obtain ⟨entry, present, rfl⟩ := Array.mem_map.mp mem
    exact (hs.procTypes entry present).1.2
  | artifact found mentions =>
    obtain ⟨b, -, rfl⟩ := artifact_of_declares (p := p) (.inl ⟨_, found⟩)
    exact mentions.tame (artifactInfo_within hs.toTablesWithin b)
  | interface offers => exact offers.tame (interface_within hs.toTablesWithin trivial)

end Analysis.Coherent

/-- In an accepted unit no recorded type has a part that is an array of elements with lists, no
record has a property with lists, and no procedure captures a symbol with lists. So a recorded type
contains lists exactly if it is a list itself. -/
theorem lists_restricted (module : ModuleId) (r : Resolver) (p : Program) (unit : CheckedUnit)
    (distinct : p.ids.Nodup) (imports : r.Accepted) (accepted : analyze module r p = .ok unit) :
    (∀ t, unit.Records t →
      (∀ elem size, .array elem size ∈ t.parts → elem.containsList = false) ∧
        (t.containsList = true ↔ ∃ elem, t = .list elem)) ∧
    (∀ a, unit.Declares a → a.kind = .record → ∀ q ∈ a.props, q.type.containsList = false) ∧
    (∀ proc ∈ unit.procs, ∀ id ∈ proc.captures, ∃ sym, unit.symbols[id]? = some sym ∧
      sym.type.containsList = false) := by
  obtain ⟨o, s, rfl, hs, free⟩ := coherent_of_analyze distinct imports accepted
  refine ⟨fun t recorded => ?_, fun a declared record => ?_, fun proc mem id captured => ?_⟩
  · have tame := hs.tame_of_records recorded
    refine ⟨fun elem size mem => (Ty.Tame.parts t tame _ mem).1, ?_⟩
    rw [tame.containsList_eq]
    cases t <;> simp [Ty.isList]
  · obtain ⟨b, mem, rfl⟩ := Analysis.Coherent.artifact_of_declares declared
    exact hs.records free b mem record
  · obtain ⟨entry, present, rfl⟩ := Array.mem_map.mp mem
    obtain ⟨sym, found, -, noList, -⟩ := hs.captures entry present id captured
    exact ⟨sym, found, noList⟩

/-- A procedure with a list, and with a number that two procedures in it capture. -/
theorem lists_restricted_captured : ∃ p unit,
    parseProgram .inferred "f() {
      xs: [int] = [1]
      n := len(xs)
      g() {
        h() { return n }
        return h()
      }
      return g()
    }" = .ok p ∧ analyze ⟨"main"⟩ .silent p = .ok unit ∧
    unit.procs.map (·.captures) = #[[], [1], [1]] ∧
    ∀ proc ∈ unit.procs, ∀ id ∈ proc.captures, ∃ sym, unit.symbols[id]? = some sym ∧
      sym.type.containsList = false := by
  obtain ⟨p, unit, parsed, accepted, distinct, captures⟩ := exists_of_unitOfText "f() {
      xs: [int] = [1]
      n := len(xs)
      g() {
        h() { return n }
        return h()
      }
      return g()
    }" (fun unit => unit.procs.map (·.captures) = #[[], [1], [1]]) (by decide +kernel)
  exact ⟨p, unit, parsed, accepted, of_decide_eq_true captures,
    (lists_restricted _ _ p unit distinct Resolver.accepted_silent accepted).2.2⟩

end ArkLang
