import ArkLang.Proofs.DeclaredNames
import ArkLang.Proofs.UnitOrder

/-!
# Units of accepted programs

A program is accepted if every text can be read and every unit is analyzed without errors. The
imports of a unit are then answered by the interfaces of units that were accepted before it.
-/

namespace ArkLang

/-- A unit that was read from a text and analyzed without errors. Its imports are answered by the
interfaces of such units. -/
inductive CheckedUnit.Accepted (u : CheckedUnit) : Prop
  | intro {d : Dialect} {text : String} {p : Program} {module : ModuleId} {r : Resolver}
      (parsed : parseProgram d text = .ok p) (imports : r.Accepted)
      (analyzed : analyze module r p = .ok u)

namespace CheckedUnit.Accepted

variable {u : CheckedUnit}

theorem legible (h : u.Accepted) : ∃ d, u.program.Legible d := by
  obtain ⟨parsed, imports, analyzed⟩ := h
  obtain ⟨rfl, -⟩ := eq_unit_of_analyze analyzed
  exact ⟨_, (parseProgram_builds parsed).1⟩

theorem distinct (h : u.Accepted) : u.program.ids.Nodup := by
  obtain ⟨parsed, imports, analyzed⟩ := h
  obtain ⟨rfl, -⟩ := eq_unit_of_analyze analyzed
  obtain ⟨-, n, numbered⟩ := parseProgram_builds parsed
  exact numbered ▸ List.nodup_range

theorem tabulated (h : u.Accepted) : u.Tabulated := by
  have distinct := h.distinct
  obtain ⟨parsed, imports, analyzed⟩ := h
  obtain ⟨rfl, -⟩ := eq_unit_of_analyze analyzed
  exact tabulated_of_analyze distinct imports analyzed

theorem interface (h : u.Accepted) : u.interface.Accepted := by
  have distinct := h.distinct
  obtain ⟨parsed, imports, analyzed⟩ := h
  obtain ⟨rfl, -⟩ := eq_unit_of_analyze analyzed
  exact .intro imports.resolve imports.reached distinct analyzed

end CheckedUnit.Accepted

/-! ### Texts without errors -/

theorem Recovered.isClean_of_diagnostics {r : Recovered} {label : String}
    (none : r.diagnostics label = []) : r.isClean = true := by
  have found : (if r.lexErrors.isEmpty then r.parseErrors.map (.ofParse label)
      else r.lexErrors.map (.ofLex label)) = ([] : List Diagnostic) := by
    apply List.Perm.eq_nil
    rw [← none]
    exact (List.mergeSort_perm _ _).symm
  rw [isClean, Bool.and_eq_true, List.isEmpty_iff, List.isEmpty_iff]
  split at found
  · next empty => exact ⟨List.isEmpty_iff.mp empty, List.map_eq_nil_iff.mp found⟩
  · next lexed => exact absurd (List.isEmpty_iff.mpr (List.map_eq_nil_iff.mp found)) lexed

/-- A text without errors is read as plain parsing reads it. -/
theorem parseProgram_of_isClean {d : Dialect} {text : String}
    (clean : (recoverProgram d text).isClean = true) :
    parseProgram d text = .ok (recoverProgram d text).program := by
  rw [Recovered.isClean, Bool.and_eq_true, List.isEmpty_iff, List.isEmpty_iff] at clean
  obtain ⟨lexed, parsed⟩ := clean
  have tokens := tokens_eq_ok.mpr (Prod.ext_iff.mpr ⟨rfl, lexed⟩ :
    tokensAndErrors text = ((tokensAndErrors text).1, []))
  have plain : parseProgram d text =
      (ParserRun.start (tokensAndErrors text).1 d).program.1.mapError .parse := by
    rw [parseProgram, readTokens, tokens]
    rfl
  rcases recoveredProgram_cases (tokensAndErrors text).1 d with ⟨q, read, same, -⟩ | ⟨e, -, first⟩
  · rw [plain, read, ← same]
    rfl
  · have errors : (ParserRun.start (tokensAndErrors text).1 d).recoveredProgram.2.1 = [] := parsed
    rw [errors] at first
    cases first

/-! ### Whole programs -/

namespace UnitGraph

variable {g : UnitGraph} {d : Dialect}

theorem exists_published_of_resolve {published : Published} {module : ModuleId} {i : Import}
    {interface : Interface} (h : g.resolve published module i = .ok interface) :
    ∃ name, published.get? name = some interface := by
  unfold resolve at h
  split at h
  · cases h
  · split at h
    · cases h
    · cases h
    · cases h
    · split at h
      · cases h
      · split at h
        · next found =>
          cases h
          obtain ⟨unit, -, found⟩ := Option.bind_eq_some_iff.mp found
          exact ⟨_, found⟩
        · cases h

/-- Units that stages analyze without errors are accepted. -/
theorem accepted_outcomesFrom
    (readable : ∀ (u : Nat) unit, g.units[u]? = some unit → unit.diagnostics.isEmpty = true →
      ∃ text, parseProgram d text = .ok unit.program)
    (stages : List (List Nat)) {published : Published}
    (accepted : ∀ name interface, published.get? name = some interface → interface.Accepted)
    {u : Nat} {unit : CheckedUnit} (mem : (u, .ok unit) ∈ g.outcomesFrom published stages) :
    unit.Accepted := by
  induction stages generalizing published with
  | nil => cases mem
  | cons stage rest ih =>
    have here {v : Nat} {found : CheckedUnit}
        (mem : (v, .ok found) ∈ stage.filterMap (g.outcome? published)) : found.Accepted := by
      obtain ⟨w, -, outcome⟩ := List.mem_filterMap.mp mem
      obtain ⟨linked, at_, clean, same⟩ := outcome?_eq_some.mp outcome
      obtain ⟨text, parsed⟩ := readable w linked at_ clean
      have analyzed := (Prod.mk.inj same).2.symm
      refine .intro parsed ⟨fun i interface found => ?_, fun m interface found => ?_⟩ analyzed
      · exact exists_published_of_resolve found |>.elim fun name known => accepted name _ known
      · exact accepted _ _ found
    rcases List.mem_append.mp mem with mem | mem
    · exact here mem
    · refine ih (fun name interface found => ?_) mem
      rcases get?_foldl_publish found with old | ⟨v, checked, mem, -, rfl⟩
      · exact accepted _ _ old
      · exact (here mem).interface

end UnitGraph

/-- All units of an accepted program are accepted. -/
theorem accepted_of_check {sources : Sources} {settings : Settings} {entry : Path}
    {units : List CheckedUnit} (accepted : check sources settings entry = .ok units) :
    ∀ u ∈ units, u.Accepted := by
  unfold check at accepted
  dsimp only at accepted
  split at accepted
  · cases accepted
  · next text loaded =>
    intro u mem
    set layout := settings.layout entry
    set g := UnitGraph.ofEntry sources layout (.read layout entry.normalize text)
    have readable (v : Nat) (unit : LinkedUnit) (at_ : g.units[v]? = some unit)
        (clean : unit.diagnostics.isEmpty = true) :
        ∃ text, parseProgram layout.dialect text = .ok unit.program := by
      obtain ⟨text, -, source⟩ := (UnitGraph.reflects_ofEntry loaded).read at_
      have program : unit.program = (SourceUnit.read layout unit.path text).program :=
        congrArg SourceUnit.program source
      have none : (SourceUnit.read layout unit.path text).readErrors = [] := by
        rw [← source]
        exact (List.append_eq_nil_iff.mp (List.isEmpty_iff.mp clean)).1
      exact ⟨text, program ▸ parseProgram_of_isClean (Recovered.isClean_of_diagnostics none)⟩
    unfold UnitGraph.checked at accepted
    dsimp only at accepted
    split at accepted
    · cases accepted
      obtain ⟨⟨v, outcome⟩, found, result⟩ := List.mem_filterMap.mp mem
      cases outcome with
      | error e => cases result
      | ok unit =>
        cases result
        exact UnitGraph.accepted_outcomesFrom readable g.levels
          (fun _ _ published => by cases published) found
    · cases accepted

end ArkLang
