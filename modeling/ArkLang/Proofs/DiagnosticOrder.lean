import ArkLang.Proofs.Discovery
import ArkLang.Proofs.Places
import ArkLang.Proofs.Positions
import ArkLang.Proofs.Stages

/-!
# The order of diagnostics

What is reported of a program is grouped by its units, in the order in which these were found. The
diagnostics of a unit come from its text, from its imports that cannot be read, or from its
analysis, and each kind is in the order of places. The analysis only runs if there is nothing else
to report. But an import that cannot be read is reported behind the errors of the text, wherever
these stand.
-/

namespace ArkLang

open List

/-! ### Diagnostics in order -/

namespace Diagnostic

theorem le_iff {a b : Diagnostic} : a.le b = true ↔ a.position.Le b.position := by
  simp [le, Position.Le]

def InOrder (ds : List Diagnostic) : Prop :=
  ds.Pairwise fun a b => a.le b = true

theorem inOrder_mergeSort (ds : List Diagnostic) : InOrder (ds.mergeSort le) := by
  refine pairwise_mergeSort (fun a b c => ?_) (fun a b => ?_) ds
  · simp only [le_iff, Position.Le]
    omega
  · rw [Bool.or_eq_true]
    simp only [le_iff, Position.Le]
    omega

/-- All places can be counted with thirty-two bits. -/
def InRange (ds : List Diagnostic) : Prop :=
  ∀ d ∈ ds, ∀ place ∈ d.place, place.span.offset < 0xFFFFFFFF

instance (ds : List Diagnostic) : Decidable (InRange ds) :=
  inferInstanceAs (Decidable (∀ d ∈ ds, ∀ place ∈ d.place, place.span.offset < 0xFFFFFFFF))

theorem InRange.of_append {ds ds' : List Diagnostic} (h : InRange (ds ++ ds')) :
    InRange ds ∧ InRange ds' :=
  ⟨fun d mem => h d (mem_append_left _ mem), fun d mem => h d (mem_append_right _ mem)⟩

/-- Problems at spans of a text, the second of them not further in front. -/
def SpansLe (label text : String) (a b : Diagnostic) : Prop :=
  ∃ s t p q, a = atSpan label (.ofText text) s p ∧ b = atSpan label (.ofText text) t q ∧
    s.offset ≤ t.offset

theorem inOrder_of_spans {label text : String} {ds : List Diagnostic}
    (h : ds.Pairwise (SpansLe label text)) (small : InRange ds) : InOrder ds := by
  refine h.imp_of_mem fun _ mem spans => ?_
  obtain ⟨s, t, p, q, rfl, rfl, le⟩ := spans
  exact le_iff.mpr (LineIndex.position_le text le (small _ mem _ rfl))

end Diagnostic

/-! ### The diagnostics of a unit -/

theorem Recovered.inOrder_diagnostics (r : Recovered) (label : String) :
    Diagnostic.InOrder (r.diagnostics label) :=
  Diagnostic.inOrder_mergeSort _

theorem Recovered.mem_diagnostics {r : Recovered} {label : String} {d : Diagnostic}
    (mem : d ∈ r.diagnostics label) : d.unit = label ∧ d.problem.phase ≠ .load := by
  simp only [diagnostics, mem_mergeSort] at mem
  split at mem
  all_goals
    obtain ⟨e, -, rfl⟩ := List.mem_map.mp mem
    exact ⟨rfl, nofun⟩

theorem ImportEdge.diagnostic?_eq_some {label : String} {index : LineIndex} {edge : ImportEdge}
    {d : Diagnostic} (h : edge.diagnostic? label index = some d) :
    ∃ fault, d = .atSpan label index edge.span (.load fault) := by
  unfold diagnostic? at h
  split at h
  · split at h <;> cases h
    exact ⟨_, rfl⟩
  · cases h

namespace LinkedUnit

variable {u : LinkedUnit} {errors : List SemanticError} {d : Diagnostic}

def loadErrors (u : LinkedUnit) : List Diagnostic :=
  u.imports.filterMap (·.diagnostic? u.label (.ofText u.text))

def semantic (u : LinkedUnit) (errors : List SemanticError) : List Diagnostic :=
  errors.map fun e => .atSpan u.label (.ofText u.text) e.span (.semantic e.fault)

theorem mem_loadErrors (mem : d ∈ u.loadErrors) : d.unit = u.label ∧ d.problem.phase = .load := by
  obtain ⟨edge, -, found⟩ := List.mem_filterMap.mp mem
  obtain ⟨fault, rfl⟩ := ImportEdge.diagnostic?_eq_some found
  exact ⟨rfl, rfl⟩

theorem mem_semantic (mem : d ∈ u.semantic errors) :
    d.unit = u.label ∧ d.problem.phase ≠ .load := by
  obtain ⟨e, -, rfl⟩ := List.mem_map.mp mem
  exact ⟨rfl, nofun⟩

theorem inOrder_loadErrors (h : u.imports.Pairwise fun a b => a.span.offset < b.span.offset)
    (small : Diagnostic.InRange u.loadErrors) : Diagnostic.InOrder u.loadErrors := by
  have spans : u.loadErrors.Pairwise (Diagnostic.SpansLe u.label u.text) := by
    rw [loadErrors, pairwise_filterMap]
    refine h.imp fun before d found d' found' => ?_
    obtain ⟨fault, rfl⟩ := ImportEdge.diagnostic?_eq_some found
    obtain ⟨fault', rfl⟩ := ImportEdge.diagnostic?_eq_some found'
    exact ⟨_, _, _, _, rfl, rfl, before.le⟩
  exact Diagnostic.inOrder_of_spans spans small

theorem inOrder_semantic (h : errors.Pairwise fun a b => a.span.offset ≤ b.span.offset)
    (small : Diagnostic.InRange (u.semantic errors)) :
    Diagnostic.InOrder (u.semantic errors) := by
  have spans : (u.semantic errors).Pairwise (Diagnostic.SpansLe u.label u.text) := by
    rw [semantic, pairwise_map]
    exact h.imp fun le => ⟨_, _, _, _, rfl, rfl, le⟩
  exact Diagnostic.inOrder_of_spans spans small

end LinkedUnit

/-- What is reported of a unit: errors of its text or of its analysis, and behind them its imports
that cannot be read, both in order. -/
structure Reported (unit : LinkedUnit) (ds : List Diagnostic) : Prop where
  unit : ∀ d ∈ ds, d.unit = unit.label
  parts : ∃ others loads, ds = others ++ loads ∧ (∀ d ∈ others, d.problem.phase ≠ .load) ∧
    (∀ d ∈ loads, d.problem.phase = .load) ∧ Diagnostic.InOrder others ∧ Diagnostic.InOrder loads

theorem Reported.inOrder {unit : LinkedUnit} {ds : List Diagnostic} (h : Reported unit ds)
    (alike : (∀ d ∈ ds, d.problem.phase ≠ .load) ∨ ∀ d ∈ ds, d.problem.phase = .load) :
    Diagnostic.InOrder ds := by
  obtain ⟨others, loads, rfl, notLoad, isLoad, sorted, sorted'⟩ := h.parts
  rcases alike with alike | alike
  · have none : loads = [] := List.eq_nil_iff_forall_not_mem.mpr fun d mem =>
      alike d (mem_append_right _ mem) (isLoad d mem)
    rwa [none, append_nil]
  · have none : others = [] := List.eq_nil_iff_forall_not_mem.mpr fun d mem =>
      notLoad d mem (alike d (mem_append_left _ mem))
    rwa [none, nil_append]

theorem pairwise_of_analyze {module : ModuleId} {resolver : Resolver} {p : Program}
    {errors : List SemanticError} (h : analyze module resolver p = .error errors) :
    errors.Pairwise fun a b => a.span.offset ≤ b.span.offset := by
  unfold analyze at h
  dsimp only at h
  split at h
  · cases h
  · cases h
    refine (pairwise_mergeSort (fun a b c => ?_) (fun a b => ?_) _).imp of_decide_eq_true
    · simpa using Nat.le_trans
    · simpa using Nat.le_total _ _

namespace UnitGraph

variable {g : UnitGraph} {u : Nat} {unit : LinkedUnit}

theorem semanticErrors_spec (hu : g.units[u]? = some unit) :
    (semanticErrors g.outcomes u).Pairwise (fun a b => a.span.offset ≤ b.span.offset) ∧
      (unit.diagnostics = [] ∨ semanticErrors g.outcomes u = []) := by
  unfold semanticErrors outcomes
  split
  · next errors found =>
    obtain ⟨before, behind, split, -⟩ := List.lookup_eq_some_iff.mp found
    have mem : (u, .error errors) ∈ g.outcomesFrom {} g.levels := by simp [split]
    obtain ⟨k, v, -, analyzed⟩ := mem_outcomesFrom.mp mem
    obtain ⟨unit', hv, clean, same⟩ := outcome?_eq_some.mp analyzed
    obtain ⟨rfl, outcome⟩ := Prod.mk.inj same
    obtain rfl : unit = unit' := by simpa [hu] using hv
    exact ⟨pairwise_of_analyze outcome.symm, .inl (List.isEmpty_iff.mp clean)⟩
  · exact ⟨.nil, .inr rfl⟩

section Unit

variable {sources : Sources} {layout : Layout} (reflects : g.Reflects sources layout)
  (hu : g.units[u]? = some unit)

include reflects hu

theorem Reflects.pairwise_imports :
    unit.imports.Pairwise fun a b => a.span.offset < b.span.offset := by
  obtain ⟨text, -, read⟩ := reflects.read hu
  have ordered : unit.program.imports.Pairwise fun i j => i.span.offset < j.span.offset := by
    rw [read]
    exact ArkLang.pairwise_imports _ text
  have offsets : unit.program.imports.map (·.span.offset) = unit.imports.map (·.span.offset) := by
    rw [← List.forall₂_eq_eq_eq, List.forall₂_map_left_iff, List.forall₂_map_right_iff]
    exact (reflects.edges hu).imp fun _ _ leads => by rw [leads.span]
  have sorted := List.pairwise_map.mpr ordered
  rw [offsets] at sorted
  exact List.pairwise_map.mp sorted

omit reflects in
theorem unitDiagnostics_eq (outcomes : List (Nat × Outcome)) : g.unitDiagnostics outcomes u =
    unit.readErrors ++ unit.loadErrors ++ unit.semantic (semanticErrors outcomes u) := by
  rw [unitDiagnostics, hu]
  rfl

theorem Reflects.readErrors : Diagnostic.InOrder unit.readErrors ∧
    ∀ d ∈ unit.readErrors, d.unit = unit.label ∧ d.problem.phase ≠ .load := by
  obtain ⟨text, -, read⟩ := reflects.read hu
  have same : unit.readErrors = (recoverProgram layout.dialect text).diagnostics unit.label := by
    rw [read]
    rfl
  rw [same]
  exact ⟨Recovered.inOrder_diagnostics _ _, fun d => Recovered.mem_diagnostics⟩

theorem Reflects.reported (small : Diagnostic.InRange (g.unitDiagnostics g.outcomes u)) :
    Reported unit (g.unitDiagnostics g.outcomes u) := by
  obtain ⟨readsInOrder, reads⟩ := reflects.readErrors hu
  obtain ⟨ordered, alone⟩ := semanticErrors_spec hu
  rw [unitDiagnostics_eq hu] at small ⊢
  obtain ⟨front, rear⟩ := small.of_append
  have loadsInOrder := LinkedUnit.inOrder_loadErrors (reflects.pairwise_imports hu)
    front.of_append.2
  have semanticInOrder := LinkedUnit.inOrder_semantic ordered rear
  refine ⟨fun d mem => ?_, ?_⟩
  · rcases List.mem_append.mp mem with mem | mem
    · rcases List.mem_append.mp mem with mem | mem
      · exact (reads d mem).1
      · exact (LinkedUnit.mem_loadErrors mem).1
    · exact (LinkedUnit.mem_semantic mem).1
  · rcases alone with clean | none
    · obtain ⟨noReads, noLoads⟩ := List.append_eq_nil_iff.mp clean
      refine ⟨unit.semantic (semanticErrors g.outcomes u), [], ?_, fun d mem => ?_, by simp,
        semanticInOrder, .nil⟩
      · rw [noReads, LinkedUnit.loadErrors, noLoads]
        simp
      · exact (LinkedUnit.mem_semantic mem).2
    · refine ⟨unit.readErrors, unit.loadErrors, by simp [none, LinkedUnit.semantic],
        fun d mem => (reads d mem).2, fun d mem => ?_, readsInOrder, loadsInOrder⟩
      exact (LinkedUnit.mem_loadErrors mem).2

end Unit

theorem Reflects.reported_units {sources : Sources} {layout : Layout}
    (reflects : g.Reflects sources layout) (small : Diagnostic.InRange (g.diagnostics g.outcomes)) :
    List.Forall₂ Reported g.units
      ((List.range g.units.length).map (g.unitDiagnostics g.outcomes)) := by
  refine List.forall₂_iff_get.mpr ⟨by simp, fun u inside _ => ?_⟩
  have hu : g.units[u]? = some (g.units.get ⟨u, inside⟩) := by simp [inside]
  have part : Diagnostic.InRange (g.unitDiagnostics g.outcomes u) := fun d mem =>
    small d (List.mem_flatMap.mpr ⟨u, List.mem_range.mpr inside, mem⟩)
  simpa using reflects.reported hu part

theorem checked_eq_error {ds : List Diagnostic} (h : g.checked = .error ds) :
    ds = g.diagnostics g.outcomes := by
  unfold checked at h
  dsimp only at h
  split at h
  · cases h
  · exact (Except.error.inj h).symm

end UnitGraph

/-- If a program with a loaded entry fails, its diagnostics are grouped by units, in the order in
which these were found. In each group, what is reported of imports that cannot be read stands last,
and both parts are in the order of lines and columns, so that the group is in order if one of them
is empty. -/
theorem check_grouped_in_order (sources : Sources) (settings : Settings) (entry : Path)
    {text : String} {ds : List Diagnostic} (loaded : sources.load entry.normalize = .ok text)
    (failed : check sources settings entry = .error ds) (small : Diagnostic.InRange ds) :
    let layout := settings.layout entry
    let g := UnitGraph.ofEntry sources layout (.read layout entry.normalize text)
    ∃ groups, ds = groups.flatten ∧ List.Forall₂ Reported g.units groups ∧
      ∀ group ∈ groups, ((∀ d ∈ group, d.problem.phase ≠ .load) ∨
        ∀ d ∈ group, d.problem.phase = .load) → Diagnostic.InOrder group := by
  intro layout g
  have reflects : g.Reflects sources layout := UnitGraph.reflects_ofEntry loaded
  obtain rfl : ds = g.diagnostics g.outcomes := by
    rw [check, loaded] at failed
    exact UnitGraph.checked_eq_error failed
  have grouped := reflects.reported_units small
  refine ⟨(List.range g.units.length).map (g.unitDiagnostics g.outcomes), ?_, grouped, ?_⟩
  · rw [UnitGraph.diagnostics, flatMap_def]
  · intro group mem
    obtain ⟨unit, -, reported⟩ := exists_of_mem_right grouped mem
    exact reported.inOrder

/-- A check fails with diagnostics at these places of units. -/
def FailsAt (r : Except (List Diagnostic) (List CheckedUnit)) (places : List (String × Position)) :
    Prop :=
  ∃ ds, r = .error ds ∧ ds.map (fun d => (d.unit, d.position)) = places ∧ Diagnostic.InRange ds

instance (r : Except (List Diagnostic) (List CheckedUnit)) (places : List (String × Position)) :
    Decidable (FailsAt r places) :=
  match r with
  | .ok _ => isFalse (by rintro ⟨_, h, -⟩; cases h)
  | .error ds => decidable_of_iff
      (ds.map (fun d => (d.unit, d.position)) = places ∧ Diagnostic.InRange ds)
      (by simp [FailsAt])

/-- Two imports and a bracket that nothing opened. -/
def brokenText : String :=
  "Mod b\nMod locked\n)\n"

/-- One of the two imported units has an unknown name, and the other one cannot be read. -/
def broken : Sources :=
  .ofFiles [(⟨"a.ark"⟩, .text brokenText), (⟨"b.ark"⟩, .text "x\n"),
    (⟨"locked.ark"⟩, .fault (.unreadable · "locked"))]

theorem check_grouped_in_order_broken :
    let layout : Layout := Settings.layout {} ⟨"a.ark"⟩
    let path : NormalPath := Path.normalize ⟨"a.ark"⟩
    broken.load path = .ok brokenText ∧
      FailsAt (check broken {} ⟨"a.ark"⟩)
        [("a.ark", ⟨3, 1⟩), ("a.ark", ⟨2, 1⟩), ("b.ark", ⟨1, 1⟩)] ∧
      ∃ ds groups, check broken {} ⟨"a.ark"⟩ = .error ds ∧ ds = groups.flatten ∧
        List.Forall₂ Reported (UnitGraph.ofEntry broken layout (.read layout path brokenText)).units
          groups := by
  intro layout path
  have loaded : broken.load path = .ok brokenText := by decide +kernel
  have fails : FailsAt (check broken {} ⟨"a.ark"⟩)
      [("a.ark", ⟨3, 1⟩), ("a.ark", ⟨2, 1⟩), ("b.ark", ⟨1, 1⟩)] := by
    decide +kernel
  obtain ⟨ds, failed, places, small⟩ := fails
  obtain ⟨groups, all, reported, -⟩ :=
    check_grouped_in_order broken {} ⟨"a.ark"⟩ loaded failed small
  exact ⟨loaded, ⟨ds, failed, places, small⟩, ds, groups, failed, all, reported⟩

/-- An import that cannot be read is reported behind an error of the text that it stands in front
of. -/
theorem check_reports_import_late :
    ∃ ds, check (.ofFiles [(⟨"main.ark"⟩, .text "Mod lib\n)\n"),
        (⟨"lib.ark"⟩, .fault (.unreadable · "refused"))]) {} ⟨"main.ark"⟩ = .error ds ∧
      ds.map (fun d => (d.unit, d.position)) = [("main.ark", ⟨2, 1⟩), ("main.ark", ⟨1, 1⟩)] ∧
      ¬ Diagnostic.InOrder ds := by
  have fails : FailsAt (check (.ofFiles [(⟨"main.ark"⟩, .text "Mod lib\n)\n"),
        (⟨"lib.ark"⟩, .fault (.unreadable · "refused"))]) {} ⟨"main.ark"⟩)
      [("main.ark", ⟨2, 1⟩), ("main.ark", ⟨1, 1⟩)] := by
    decide +kernel
  obtain ⟨ds, failed, places, -⟩ := fails
  refine ⟨ds, failed, places, fun sorted => ?_⟩
  have lines : (ds.map fun d => (d.unit, d.position)).Pairwise fun a b => a.2.Le b.2 :=
    List.pairwise_map.mpr (sorted.imp Diagnostic.le_iff.mp)
  rw [places] at lines
  simp [Position.Le] at lines

end ArkLang
