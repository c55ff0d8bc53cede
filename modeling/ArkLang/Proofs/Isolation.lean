import ArkLang.Proofs.Schedules

/-!
# Units do not disturb each other

What is reported of a unit depends on the texts that it reaches through imports, and on nothing else
of the program: neither on the entry from which the unit is found nor on the units beside it.
-/

namespace ArkLang

open Relation

variable {sources sources' : Sources} {layout : Layout} {start path next : NormalPath}

/-- Two ways of loading that agree on all paths that can be reached from one. -/
def AgreeBelow (sources sources' : Sources) (layout : Layout) (start : NormalPath) : Prop :=
  ∀ path, ReflTransGen (Leads sources layout) start path → sources'.load path = sources.load path

theorem leads_congr (same : sources'.load path = sources.load path) :
    Leads sources layout path next ↔ Leads sources' layout path next := by
  simp only [Leads, same]

namespace AgreeBelow

variable (agree : AgreeBelow sources sources' layout start)

include agree

theorem of_steps (steps : ReflTransGen (Leads sources layout) start path) :
    AgreeBelow sources sources' layout path :=
  fun _ further => agree _ (steps.trans further)

theorem steps_iff :
    ReflTransGen (Leads sources layout) start path ↔
      ReflTransGen (Leads sources' layout) start path := by
  constructor
  · intro steps
    induction steps with
    | refl => exact .refl
    | tail steps step ih => exact ih.tail ((leads_congr (agree _ steps)).mp step)
  · intro steps
    induction steps with
    | refl => exact .refl
    | tail _ step ih => exact ih.tail ((leads_congr (agree _ ih)).mpr step)

end AgreeBelow

theorem forall₂_of_common {α β γ : Type} {R : α → β → Prop} {S : α → γ → Prop} {T : β → γ → Prop}
    {xs : List α} {ys : List β} {zs : List γ} (left : List.Forall₂ R xs ys)
    (right : List.Forall₂ S xs zs)
    (join : ∀ {x y z}, x ∈ xs → y ∈ ys → z ∈ zs → R x y → S x z → T y z) :
    List.Forall₂ T ys zs := by
  induction left generalizing zs with
  | nil =>
    cases right
    exact .nil
  | cons first _ ih =>
    cases right with
    | cons first' rest' =>
      refine .cons (join ?_ ?_ ?_ first first') (ih rest' fun hx hy hz => join ?_ ?_ ?_)
        <;> simp [*]

namespace UnitGraph

variable {g g' : UnitGraph} {u u' : Nat} {unit unit' : LinkedUnit}

/-- Units of two graphs at the same path, which can be reached from another path. -/
def SamePath (sources : Sources) (layout : Layout) (start : NormalPath) (g g' : UnitGraph)
    (u u' : Nat) : Prop :=
  ∃ unit unit', g.units[u]? = some unit ∧ g'.units[u']? = some unit' ∧ unit.path = unit'.path ∧
    ReflTransGen (Leads sources layout) start unit.path

section Agree

variable (agree : AgreeBelow sources sources' layout start)
variable (reflects : g.Reflects sources layout) (closed : g.Closed)
variable (reflects' : g'.Reflects sources' layout) (closed' : g'.Closed)

include agree reflects reflects'

theorem toSourceUnit_eq_of_samePath (hu : g.units[u]? = some unit)
    (hu' : g'.units[u']? = some unit') (same : unit.path = unit'.path)
    (steps : ReflTransGen (Leads sources layout) start unit.path) :
    unit.toSourceUnit = unit'.toSourceUnit := by
  obtain ⟨text, loaded, source⟩ := reflects.read hu
  obtain ⟨text', loaded', source'⟩ := reflects'.read hu'
  rw [← same, agree _ steps, loaded] at loaded'
  obtain rfl := Except.ok.inj loaded'
  rw [source, source', same]

include closed closed'

theorem sameEdge_of_leadsTo (hu : g.units[u]? = some unit) (hu' : g'.units[u']? = some unit')
    (same : unit.path = unit'.path) (steps : ReflTransGen (Leads sources layout) start unit.path)
    {i : Import} (hi : i ∈ unit.program.imports) {edge edge' : ImportEdge}
    (mem : edge ∈ unit.imports) (leadsTo : LeadsTo sources layout g unit.path i edge)
    (mem' : edge' ∈ unit'.imports) (leadsTo' : LeadsTo sources' layout g' unit'.path i edge') :
    SameEdge g g' (SamePath sources layout start g g') u u' edge edge' := by
  obtain ⟨text, loaded, source⟩ := reflects.read hu
  have step : Leads sources layout unit.path (importPath unit.path.path i layout.searchRoot) := by
    have program : unit.program = (SourceUnit.read layout unit.path text).program :=
      congrArg SourceUnit.program source
    exact ⟨text, loaded, List.mem_map.mpr ⟨i, program ▸ hi, rfl⟩⟩
  have load := agree _ (steps.tail step)
  have spans : edge.span = edge'.span := leadsTo.span.trans leadsTo'.span.symm
  obtain ⟨span, target⟩ := edge
  obtain ⟨span', target'⟩ := edge'
  obtain rfl : span = span' := spans
  cases found : sources.load (importPath unit.path.path i layout.searchRoot) with
  | error fault =>
    obtain rfl : target = .error fault := leadsTo.fault fault found
    obtain rfl : target' = .error fault := leadsTo'.fault fault (by rw [← same, load, found])
    exact .fault span fault
  | ok next =>
    obtain ⟨v, below, rfl, hv, at_path⟩ := leadsTo.unit next found
    obtain ⟨v', below', rfl, hv', at_path'⟩ := leadsTo'.unit next (by rw [← same, load, found])
    have paths : below.path = below'.path := by rw [at_path, at_path', same]
    refine .unit span ⟨below, below', hv, hv', paths, at_path ▸ steps.tail step⟩ ?_
    -- the unit below reaches the importing one in both graphs or in neither
    have imports : g.Imports u v := imports_iff.mpr ⟨unit, hu, _, mem, rfl⟩
    have imports' : g'.Imports u' v' := imports_iff.mpr ⟨unit', hu', _, mem', rfl⟩
    rw [Bool.eq_iff_iff, isCircular_iff closed imports, isCircular_iff closed' imports',
      reflects.reaches_iff_leads hv hu, reflects'.reaches_iff_leads hv' hu', ← paths, ← same]
    exact (agree.of_steps (at_path ▸ steps.tail step)).steps_iff

theorem mirrors_of_agree : g.Mirrors g' (SamePath sources layout start g g') := by
  rintro u u' ⟨unit, unit', hu, hu', same, steps⟩
  have source := toSourceUnit_eq_of_samePath agree reflects reflects' hu hu' same steps
  refine ⟨unit, unit', hu, hu', source, ?_⟩
  have program : unit.program = unit'.program := congrArg SourceUnit.program source
  have edges := reflects.edges hu
  have edges' := reflects'.edges hu'
  rw [← program] at edges'
  refine forall₂_of_common edges edges' fun hi mem mem' leadsTo leadsTo' => ?_
  exact sameEdge_of_leadsTo agree reflects closed reflects' closed' hu hu' same steps hi mem leadsTo
    mem' leadsTo'

end Agree

/-- The same is reported of a unit in two programs that are read in the same way, if the same is
loaded at its path and at every path that can be reached from there. -/
theorem unitDiagnostics_congr {entry entry' : NormalPath} {text text' : String}
    (loaded : sources.load entry = .ok text) (loaded' : sources'.load entry' = .ok text')
    (hg : g = ofEntry sources layout (.read layout entry text))
    (hg' : g' = ofEntry sources' layout (.read layout entry' text'))
    (distinct : g.DistinctModules) (distinct' : g'.DistinctModules)
    (hu : g.units[u]? = some unit) (hu' : g'.units[u']? = some unit')
    (same : unit.path = unit'.path) (agree : AgreeBelow sources sources' layout unit.path) :
    g.unitDiagnostics g.outcomes u = g'.unitDiagnostics g'.outcomes u' := by
  have reflects : g.Reflects sources layout := hg ▸ reflects_ofEntry loaded
  have reflects' : g'.Reflects sources' layout := hg' ▸ reflects_ofEntry loaded'
  have closed : g.Closed := hg ▸ closed_ofEntry _
  have closed' : g'.Closed := hg' ▸ closed_ofEntry _
  have mirrors : g.Mirrors g' (SamePath sources layout unit.path g g') :=
    mirrors_of_agree agree reflects closed reflects' closed'
  have related : SamePath sources layout unit.path g g' u u' :=
    ⟨unit, unit', hu, hu', same, .refl⟩
  have source := toSourceUnit_eq_of_samePath agree reflects reflects' hu hu' same .refl
  have result := (mirrors.sameResult closed distinct (staged_levels closed) closed' distinct'
    (staged_levels closed') related).1
  obtain ⟨unit₀, unit₀', at_u, at_u', -, edges⟩ := mirrors related
  obtain rfl : unit = unit₀ := by simpa [hu] using at_u
  obtain rfl : unit' = unit₀' := by simpa [hu'] using at_u'
  have before := diagnostics_eq_of_mirrored source edges
  have errors : semanticErrors g.outcomes u = semanticErrors g'.outcomes u' := by
    rw [semanticErrors, outcomes, result]
    rfl
  simp only [unitDiagnostics, hu, hu', before, errors, source]

/-- A unit with a faulty import of another one, under an entry with further files. -/
def withEntry (entry : String) (files : List (Path × HeldFile)) : Sources :=
  .ofFiles ([(⟨"main.ark"⟩, .text entry), (⟨"b.ark"⟩, .text "Mod d\nx ::= d.y\n"),
    (⟨"d.ark"⟩, .text "z ::= 1\n")] ++ files)

/-- A unit beside it that cannot be read changes nothing for a unit. -/
theorem unitDiagnostics_congr_withEntry :
    let layout : Layout := ⟨.inferred, .empty⟩
    let sources := withEntry "Mod b\n" []
    let sources' := withEntry "Mod c\nMod b\n" [(⟨"c.ark"⟩, .text "x ::=\n")]
    let g := ofEntry sources layout (.read layout (Path.normalize ⟨"main.ark"⟩) "Mod b\n")
    let g' := ofEntry sources' layout (.read layout (Path.normalize ⟨"main.ark"⟩) "Mod c\nMod b\n")
    g.DistinctModules ∧ g'.DistinctModules ∧ (g.unitDiagnostics g.outcomes 1).isEmpty = false ∧
      g.unitDiagnostics g.outcomes 1 = g'.unitDiagnostics g'.outcomes 2 := by
  intro layout sources sources' g g'
  have distinct : g.DistinctModules := by
    unfold DistinctModules
    decide +kernel
  have distinct' : g'.DistinctModules := by
    unfold DistinctModules
    decide +kernel
  have at_path : g.units[1]?.map (fun unit => unit.path) = some (Path.normalize ⟨"b.ark"⟩) := by
    decide +kernel
  have at_path' : g'.units[2]?.map (fun unit => unit.path) = some (Path.normalize ⟨"b.ark"⟩) := by
    decide +kernel
  obtain ⟨unit, hu, path⟩ := Option.map_eq_some_iff.mp at_path
  obtain ⟨unit', hu', path'⟩ := Option.map_eq_some_iff.mp at_path'
  have agree : AgreeBelow sources sources' layout unit.path := by
    intro p steps
    have inside : p ∈ [Path.normalize ⟨"b.ark"⟩, Path.normalize ⟨"d.ark"⟩] := by
      refine mem_of_steps (fun q hq text loaded => ?_) (by simp [path]) steps
      simp only [List.mem_cons, List.not_mem_nil, or_false] at hq
      rcases hq with rfl | rfl
      · obtain rfl : "Mod d\nx ::= d.y\n" = text := Except.ok.inj loaded
        decide +kernel
      · obtain rfl : "z ::= 1\n" = text := Except.ok.inj loaded
        decide +kernel
    simp only [List.mem_cons, List.not_mem_nil, or_false] at inside
    rcases inside with rfl | rfl <;> rfl
  exact ⟨distinct, distinct', by decide +kernel, unitDiagnostics_congr rfl rfl rfl rfl distinct
    distinct' hu hu' (path.trans path'.symm) agree⟩

end UnitGraph

end ArkLang
