import ArkLang.Proofs.Levels

/-!
# The units that are found

Following imports from a loaded entry finds each unit once, under its own path, and misses none that
can be loaded. So the graph of a program mirrors the imports between paths: a unit imports another
one exactly if its text leads to the path of the other.
-/

namespace ArkLang

open List
open Relation

variable {sources : Sources} {layout : Layout} {units : List SourceUnit}

/-- The text at a path has an import of another path. -/
def Leads (sources : Sources) (layout : Layout) (path next : NormalPath) : Prop :=
  ∃ text, sources.load path = .ok text ∧
    next ∈ (SourceUnit.read layout path text).importPaths layout

theorem mem_of_steps {paths : List NormalPath}
    (closed : ∀ p ∈ paths, ∀ text, sources.load p = .ok text →
      (SourceUnit.read layout p text).importPaths layout ⊆ paths)
    {start path : NormalPath} (inside : start ∈ paths)
    (steps : ReflTransGen (Leads sources layout) start path) :
    path ∈ paths := by
  induction steps with
  | refl => exact inside
  | tail _ step ih =>
    obtain ⟨text, loaded, mem⟩ := step
    exact closed _ ih text loaded mem

/-- Different units, each read from its own path. -/
structure Found (sources : Sources) (layout : Layout) (units : List SourceUnit) : Prop where
  nodup : (units.map SourceUnit.path).Nodup
  loaded : ∀ u ∈ units, ∃ text, sources.load u.path = .ok text ∧ u = .read layout u.path text

/-- A unit whose imports are among some units, as far as they can be loaded. -/
def Followed (sources : Sources) (layout : Layout) (units : List SourceUnit) (u : SourceUnit) :
    Prop :=
  ∀ path ∈ u.importPaths layout, ∀ text, sources.load path = .ok text →
    path ∈ units.map SourceUnit.path

/-- Units that hold everything they import. -/
def Complete (sources : Sources) (layout : Layout) (units : List SourceUnit) : Prop :=
  ∀ u ∈ units, Followed sources layout units u

/-! ### Discovery -/

section AddUnit

variable (found : Found sources layout units)

theorem isPrefix_addUnit (path : NormalPath) : units <+: addUnit sources layout units path := by
  unfold addUnit
  split
  · exact prefix_rfl
  · split
    · exact prefix_append _ _
    · exact prefix_rfl

theorem mem_addUnit {path : NormalPath} {text : String} (h : sources.load path = .ok text) :
    path ∈ (addUnit sources layout units path).map SourceUnit.path := by
  unfold addUnit
  split
  · next known => simpa using known
  · simp [h, SourceUnit.read]

include found

theorem Found.addUnit (path : NormalPath) :
    Found sources layout (addUnit sources layout units path) := by
  unfold ArkLang.addUnit
  split
  · exact found
  · next new =>
    split
    · next text loaded =>
      have fresh : path ∉ units.map SourceUnit.path := by simpa using new
      refine ⟨?_, fun u mem => ?_⟩
      · rw [map_append, nodup_append]
        refine ⟨found.nodup, by simp, ?_⟩
        rintro p hp q hq rfl
        have hq : p = path := by simpa [SourceUnit.read] using hq
        exact fresh (hq ▸ hp)
      · rcases List.mem_append.mp mem with mem | mem
        · exact found.loaded u mem
        · obtain rfl := List.mem_singleton.mp mem
          exact ⟨text, loaded, rfl⟩
    · exact found

theorem Found.length_le : units.length ≤ sources.loadable.length := by
  have subset : units.map SourceUnit.path ⊆ sources.loadable := by
    intro path mem
    obtain ⟨u, hu, rfl⟩ := List.mem_map.mp mem
    obtain ⟨text, loaded, -⟩ := found.loaded u hu
    exact sources.mem_loadable loaded
  simpa using (subperm_of_subset found.nodup subset).length_le

end AddUnit

theorem isPrefix_addUnits (paths : List NormalPath) :
    units <+: paths.foldl (addUnit sources layout) units := by
  induction paths generalizing units with
  | nil => exact prefix_rfl
  | cons path rest ih => exact (isPrefix_addUnit path).trans ih

theorem Found.addUnits (found : Found sources layout units) (paths : List NormalPath) :
    Found sources layout (paths.foldl (ArkLang.addUnit sources layout) units) := by
  induction paths generalizing units with
  | nil => exact found
  | cons path rest ih => exact ih (found.addUnit path)

variable {path : NormalPath} {text : String}

theorem mem_addUnits {paths : List NormalPath}
    (mem : path ∈ paths) (h : sources.load path = .ok text) :
    path ∈ (paths.foldl (addUnit sources layout) units).map SourceUnit.path := by
  induction paths generalizing units with
  | nil => simp at mem
  | cons first rest ih =>
    rcases List.mem_cons.mp mem with rfl | mem
    · exact map_subset _ (isPrefix_addUnits rest).subset (mem_addUnit h)
    · exact ih mem

/-- Following imports from a position on, behind which all imports were followed, finds everything:
there are not more positions than paths that can be loaded. -/
theorem discoverWithin_spec {n next : Nat} (found : Found sources layout units)
    (enough : sources.loadable.length ≤ next + n)
    (followed : ∀ k < next, ∀ u, units[k]? = some u → Followed sources layout units u) :
    Found sources layout (discoverWithin sources layout n next units) ∧
      Complete sources layout (discoverWithin sources layout n next units) := by
  have complete {units : List SourceUnit} {next : Nat} (short : units.length ≤ next)
      (followed : ∀ k < next, ∀ u, units[k]? = some u → Followed sources layout units u) :
      Complete sources layout units := by
    intro u mem
    obtain ⟨k, hk⟩ := getElem?_of_mem mem
    exact followed k (by have := (List.getElem?_eq_some_iff.mp hk).1; omega) u hk
  induction n generalizing next units with
  | zero => exact ⟨found, complete (found.length_le.trans enough) followed⟩
  | succ n ih =>
    rw [discoverWithin]
    split
    · next none => exact ⟨found, complete (List.getElem?_eq_none_iff.mp none) followed⟩
    · next u at_next =>
      have sub : units <+: (u.importPaths layout).foldl (addUnit sources layout) units :=
        isPrefix_addUnits _
      refine ih (found.addUnits _) (by omega) fun k hk w at_k path mem text loaded => ?_
      have inside : next < units.length := (List.getElem?_eq_some_iff.mp at_next).1
      have at_k : units[k]? = some w := by
        obtain ⟨more, hmore⟩ := sub
        rwa [← hmore, getElem?_append_left (by omega)] at at_k
      rcases Nat.lt_succ_iff_lt_or_eq.mp hk with hk | rfl
      · exact map_subset _ sub.subset (followed k hk w at_k path mem text loaded)
      · obtain rfl : u = w := by simpa [at_next] using at_k
        exact mem_addUnits mem loaded

theorem found_entry (loaded : sources.load path = .ok text) :
    Found sources layout [.read layout path text] := by
  refine ⟨by simp, fun u mem => ?_⟩
  obtain rfl := List.mem_singleton.mp mem
  exact ⟨text, loaded, rfl⟩

theorem discover_spec (layout : Layout)
    (loaded : sources.load path = .ok text) :
    Found sources layout (discover sources layout (.read layout path text)) ∧
      Complete sources layout (discover sources layout (.read layout path text)) :=
  discoverWithin_spec (found_entry loaded) (by omega) fun k hk => absurd hk (Nat.not_lt_zero k)

theorem isPrefix_discoverWithin (n next : Nat) (units : List SourceUnit) :
    units <+: discoverWithin sources layout n next units := by
  induction n generalizing next units with
  | zero => exact prefix_rfl
  | succ n ih =>
    rw [discoverWithin]
    split
    · exact prefix_rfl
    · exact (isPrefix_addUnits _).trans (ih _ _)

/-- With a bound that is not below the number of paths that can be loaded, the bound does not
matter: following imports comes to an end before. -/
theorem discoverWithin_eq {n m next : Nat} (found : Found sources layout units)
    (enough : sources.loadable.length ≤ next + n) (le : n ≤ m) :
    discoverWithin sources layout m next units = discoverWithin sources layout n next units := by
  induction n generalizing m next units with
  | zero =>
    have last : units[next]? = none :=
      getElem?_eq_none (found.length_le.trans (by omega))
    cases m with
    | zero => rfl
    | succ m => rw [discoverWithin, discoverWithin, last]
  | succ n ih =>
    obtain ⟨m, rfl⟩ : ∃ k, m = k + 1 := ⟨m - 1, by omega⟩
    rw [discoverWithin, discoverWithin]
    split
    · rfl
    · exact ih (found.addUnits _) (by omega) (by omega)

theorem getElem?_discover_zero (entry : SourceUnit) :
    (discover sources layout entry)[0]? = some entry := by
  have first : [entry] <+: discover sources layout entry := isPrefix_discoverWithin _ _ _
  obtain ⟨others, same⟩ := first
  rw [← same]
  rfl

theorem path_of_mem_addUnits {paths : List NormalPath} {u : SourceUnit}
    (mem : u ∈ paths.foldl (addUnit sources layout) units) : u ∈ units ∨ u.path ∈ paths := by
  induction paths generalizing units with
  | nil => exact .inl mem
  | cons path rest ih =>
    rcases ih mem with added | later
    · unfold addUnit at added
      split at added
      · exact .inl added
      · split at added
        · rcases List.mem_append.mp added with before | new
          · exact .inl before
          · obtain rfl := List.mem_singleton.mp new
            exact .inr mem_cons_self
        · exact .inl added
    · exact .inr (mem_cons_of_mem _ later)

theorem leads_of_mem_discoverWithin {n next : Nat} {start : NormalPath}
    (found : Found sources layout units)
    (reached : ∀ u ∈ units, ReflTransGen (Leads sources layout) start u.path) {u : SourceUnit}
    (mem : u ∈ discoverWithin sources layout n next units) :
    ReflTransGen (Leads sources layout) start u.path := by
  induction n generalizing next units with
  | zero => exact reached u mem
  | succ n ih =>
    rw [discoverWithin] at mem
    split at mem
    · exact reached u mem
    · next importer at_next =>
      refine ih (found.addUnits _) (fun w hw => ?_) mem
      rcases path_of_mem_addUnits hw with before | new
      · exact reached w before
      · have hi := mem_of_getElem? at_next
        obtain ⟨text, loaded, read⟩ := found.loaded importer hi
        exact (reached importer hi).tail ⟨text, loaded, read ▸ new⟩

theorem leads_of_mem_discover
    (loaded : sources.load path = .ok text) {u : SourceUnit}
    (mem : u ∈ discover sources layout (.read layout path text)) :
    ReflTransGen (Leads sources layout) path u.path := by
  refine leads_of_mem_discoverWithin (found_entry loaded) (fun w hw => ?_) mem
  obtain rfl := List.mem_singleton.mp hw
  exact .refl

theorem mem_paths_discover_iff {entry path : NormalPath}
    (loaded : sources.load entry = .ok text) :
    path ∈ (discover sources layout (.read layout entry text)).map SourceUnit.path ↔
      (∃ text, sources.load path = .ok text) ∧ ReflTransGen (Leads sources layout) entry path := by
  obtain ⟨found, complete⟩ := discover_spec layout loaded
  constructor
  · intro mem
    obtain ⟨u, hu, rfl⟩ := List.mem_map.mp mem
    obtain ⟨own, hown, -⟩ := found.loaded u hu
    exact ⟨⟨own, hown⟩, leads_of_mem_discover loaded hu⟩
  · rintro ⟨⟨own, hown⟩, steps⟩
    induction steps generalizing own with
    | refl =>
      exact List.mem_map.mpr ⟨_, mem_of_getElem? (getElem?_discover_zero _), rfl⟩
    | tail _ step ih =>
      obtain ⟨before, hbefore, mem⟩ := step
      obtain ⟨u, hu, rfl⟩ := List.mem_map.mp (ih before hbefore)
      obtain ⟨again, hagain, read⟩ := found.loaded u hu
      obtain rfl : before = again := by simpa [hbefore] using hagain
      exact complete u hu _ (read ▸ mem) own hown

/-! ### Where imports lead -/

theorem target_eq_ok {v : Nat} (h : target sources units path = .ok v) :
    ∃ unit, units[v]? = some unit ∧ unit.path = path := by
  cases index : units.findIdx? (·.path = path) with
  | none => cases loaded : sources.load path <;> simp [target, index, loaded] at h
  | some i =>
    obtain rfl : i = v := by simpa [target, index] using h
    obtain ⟨hv, same, -⟩ := List.findIdx?_eq_some_iff_getElem.mp index
    exact ⟨_, getElem?_eq_getElem hv, by simpa using same⟩

theorem target_of_fault (found : Found sources layout units) {fault : LoadFault}
    (h : sources.load path = .error fault) : target sources units path = .error fault := by
  have none : units.findIdx? (·.path = path) = none := by
    rw [findIdx?_eq_none_iff]
    intro u mem
    obtain ⟨text, loaded, -⟩ := found.loaded u mem
    have other : u.path ≠ path := by
      rintro rfl
      rw [h] at loaded
      cases loaded
    simpa using other
  simp only [target, none, h]

theorem target_of_known (sources : Sources)
    (known : path ∈ units.map SourceUnit.path) :
    ∃ v unit, target sources units path = .ok v ∧ units[v]? = some unit ∧ unit.path = path := by
  obtain ⟨w, hw, same⟩ := List.mem_map.mp known
  cases index : units.findIdx? (·.path = path) with
  | none =>
    have := List.findIdx?_eq_none_iff.mp index w hw
    simp [same] at this
  | some v =>
    have leads : target sources units path = .ok v := by simp only [target, index]
    obtain ⟨unit, at_v, same⟩ := target_eq_ok leads
    exact ⟨v, unit, leads, at_v, same⟩

theorem exists_of_mem_left {α β : Type} {R : α → β → Prop} {xs : List α} {ys : List β}
    (h : List.Forall₂ R xs ys) {x : α} (mem : x ∈ xs) : ∃ y ∈ ys, R x y := by
  induction h with
  | nil => simp at mem
  | cons here _ ih =>
    rcases List.mem_cons.mp mem with rfl | mem
    · exact ⟨_, mem_cons_self, here⟩
    · obtain ⟨y, hy, related⟩ := ih mem
      exact ⟨y, mem_cons_of_mem _ hy, related⟩

theorem exists_of_mem_right {α β : Type} {R : α → β → Prop} {xs : List α} {ys : List β}
    (h : List.Forall₂ R xs ys) {y : β} (mem : y ∈ ys) : ∃ x ∈ xs, R x y :=
  exists_of_mem_left h.flip mem

namespace UnitGraph

variable {g : UnitGraph} {u v : Nat} {unit unit' : LinkedUnit}

/-- An import of the unit at a path, and where it leads: to the unit at the path it names, or to the
fault with which that path cannot be loaded. -/
structure LeadsTo (sources : Sources) (layout : Layout) (g : UnitGraph) (path : NormalPath)
    (i : Import) (edge : ImportEdge) : Prop where
  span : edge.span = i.span
  fault : ∀ fault, sources.load (importPath path.path i layout.searchRoot) = .error fault →
    edge.target = .error fault
  unit : ∀ text, sources.load (importPath path.path i layout.searchRoot) = .ok text →
    ∃ v unit, edge.target = .ok v ∧ g.units[v]? = some unit ∧
      unit.path = importPath path.path i layout.searchRoot

/-- A graph of different units, each read from its own path, whose imports lead where the texts
say. -/
structure Reflects (sources : Sources) (layout : Layout) (g : UnitGraph) : Prop where
  read : ∀ {u : Nat} {unit : LinkedUnit}, g.units[u]? = some unit →
    ∃ text, sources.load unit.path = .ok text ∧ unit.toSourceUnit = .read layout unit.path text
  unique : ∀ {u v : Nat} {unit unit' : LinkedUnit}, g.units[u]? = some unit →
    g.units[v]? = some unit' → unit.path = unit'.path → u = v
  edges : ∀ {u : Nat} {unit : LinkedUnit}, g.units[u]? = some unit →
    List.Forall₂ (LeadsTo sources layout g unit.path) unit.program.imports unit.imports

theorem getElem?_units_ofEntry {entry : SourceUnit} (u : Nat) :
    (ofEntry sources layout entry).units[u]? = (discover sources layout entry)[u]?.map
      (·.link sources layout (discover sources layout entry)) := by
  simp [ofEntry]

theorem getElem?_ofEntry_zero (sources : Sources) (layout : Layout) (entry : SourceUnit) :
    ∃ unit, (ofEntry sources layout entry).units[0]? = some unit ∧ unit.toSourceUnit = entry := by
  rw [getElem?_units_ofEntry, getElem?_discover_zero]
  exact ⟨_, rfl, rfl⟩

theorem closed_ofEntry (entry : SourceUnit) : (ofEntry sources layout entry).Closed := by
  intro u v step
  obtain ⟨unit, hu, edge, mem, target⟩ := imports_iff.mp step
  rw [getElem?_units_ofEntry] at hu
  obtain ⟨source, -, rfl⟩ := Option.map_eq_some_iff.mp hu
  obtain ⟨i, -, rfl⟩ := List.mem_map.mp mem
  obtain ⟨found, hv, -⟩ := target_eq_ok target
  simpa [ofEntry] using (List.getElem?_eq_some_iff.mp hv).1

theorem reflects_ofEntry {path : NormalPath} {text : String}
    (loaded : sources.load path = .ok text) :
    (ofEntry sources layout (.read layout path text)).Reflects sources layout := by
  obtain ⟨found, complete⟩ := discover_spec layout loaded
  generalize SourceUnit.read layout path text = entry at found complete ⊢
  refine ⟨fun hu => ?_, fun hu hv same => ?_, fun hu => ?_⟩
  · rw [getElem?_units_ofEntry] at hu
    obtain ⟨source, at_u, rfl⟩ := Option.map_eq_some_iff.mp hu
    exact found.loaded source (mem_of_getElem? at_u)
  · rw [getElem?_units_ofEntry] at hu hv
    obtain ⟨source, at_u, rfl⟩ := Option.map_eq_some_iff.mp hu
    obtain ⟨source', at_v, rfl⟩ := Option.map_eq_some_iff.mp hv
    have hlt := (List.getElem?_eq_some_iff.mp at_u).1
    refine (getElem?_inj (by simpa using hlt) found.nodup).mp ?_
    simpa [at_u, at_v, SourceUnit.link] using same
  · rw [getElem?_units_ofEntry] at hu
    obtain ⟨source, at_u, rfl⟩ := Option.map_eq_some_iff.mp hu
    simp only [SourceUnit.link]
    rw [List.forall₂_map_right_iff, List.forall₂_same]
    intro i hi
    refine ⟨rfl, fun fault hload => target_of_fault found hload, fun text hload => ?_⟩
    have known := complete source (mem_of_getElem? at_u) _ (List.mem_map.mpr ⟨i, hi, rfl⟩)
      text hload
    obtain ⟨v, unit, leads, at_v, same⟩ := target_of_known sources known
    refine ⟨v, unit.link sources layout (discover sources layout entry), leads, ?_, same⟩
    rw [getElem?_units_ofEntry, at_v]
    rfl

namespace Reflects

variable (reflects : g.Reflects sources layout)

include reflects

theorem exists_imports (hu : g.units[u]? = some unit) {next : NormalPath} {text : String}
    (step : Leads sources layout unit.path next) (loaded : sources.load next = .ok text) :
    ∃ v unit', g.units[v]? = some unit' ∧ unit'.path = next ∧ g.Imports u v := by
  obtain ⟨own, hown, mem⟩ := step
  obtain ⟨own', hown', source⟩ := reflects.read hu
  obtain rfl : own = own' := by simpa [hown] using hown'
  have program : unit.program = (SourceUnit.read layout unit.path own).program :=
    congrArg SourceUnit.program source
  obtain ⟨i, hi, rfl⟩ := List.mem_map.mp mem
  obtain ⟨edge, hedge, leadsTo⟩ := exists_of_mem_left (reflects.edges hu) (program ▸ hi)
  obtain ⟨v, unit', target, hv, same⟩ := leadsTo.unit text loaded
  exact ⟨v, unit', hv, same, imports_iff.mpr ⟨unit, hu, edge, hedge, target⟩⟩

theorem imports_iff_leads (hu : g.units[u]? = some unit) (hv : g.units[v]? = some unit') :
    g.Imports u v ↔ Leads sources layout unit.path unit'.path := by
  constructor
  · intro step
    obtain ⟨text, loaded, source⟩ := reflects.read hu
    have program : unit.program = (SourceUnit.read layout unit.path text).program :=
      congrArg SourceUnit.program source
    obtain ⟨unit₀, hu₀, edge, mem, leads⟩ := imports_iff.mp step
    obtain rfl : unit = unit₀ := by simpa [hu] using hu₀
    obtain ⟨i, hi, leadsTo⟩ := exists_of_mem_right (reflects.edges hu) mem
    refine ⟨text, loaded, List.mem_map.mpr ⟨i, program ▸ hi, ?_⟩⟩
    cases hload : sources.load (importPath unit.path.path i layout.searchRoot) with
    | error fault =>
      rw [leadsTo.fault fault hload] at leads
      cases leads
    | ok next =>
      obtain ⟨w, target, hw, at_w, same⟩ := leadsTo.unit next hload
      rw [hw] at leads
      cases leads
      obtain rfl : target = unit' := by simpa [hv] using at_w.symm
      exact same.symm
  · intro step
    obtain ⟨text, loaded, -⟩ := reflects.read hv
    obtain ⟨w, target, hw, same, imports⟩ := reflects.exists_imports hu step loaded
    obtain rfl : w = v := reflects.unique hw hv same
    exact imports

theorem exists_reachable (hu : g.units[u]? = some unit) {path : NormalPath} {text : String}
    (steps : ReflTransGen (Leads sources layout) unit.path path)
    (loaded : sources.load path = .ok text) :
    ∃ v unit', g.units[v]? = some unit' ∧ unit'.path = path ∧ ReflTransGen g.Imports u v := by
  induction steps generalizing text with
  | refl => exact ⟨u, unit, hu, rfl, .refl⟩
  | tail _ step ih =>
    -- the path before was loaded, or it would lead nowhere
    have ⟨before, hbefore, _⟩ := step
    obtain ⟨w, middle, hw, rfl, imports⟩ := ih hbefore
    obtain ⟨v, unit', hv, same, last⟩ := reflects.exists_imports hw step loaded
    exact ⟨v, unit', hv, same, imports.tail last⟩

theorem reaches_iff_leads (hu : g.units[u]? = some unit) (hv : g.units[v]? = some unit') :
    ReflTransGen g.Imports u v ↔
      ReflTransGen (Leads sources layout) unit.path unit'.path := by
  constructor
  · intro steps
    induction steps generalizing unit' with
    | refl =>
      obtain rfl : unit = unit' := by simpa [hu] using hv
      exact .refl
    | @tail b c _ step ih =>
      obtain ⟨middle, hb⟩ : ∃ middle, g.units[b]? = some middle :=
        ⟨_, getElem?_eq_getElem step.lt_length⟩
      exact (ih hb).tail ((reflects.imports_iff_leads hb hv).mp step)
  · intro steps
    obtain ⟨text, loaded, -⟩ := reflects.read hv
    obtain ⟨w, unit₀, hw, same, imports⟩ := reflects.exists_reachable hu steps loaded
    obtain rfl : w = v := reflects.unique hw hv same
    exact imports

end Reflects

theorem reaches_ofEntry {path : NormalPath} {text : String} (loaded : sources.load path = .ok text)
    (hu : u < (ofEntry sources layout (.read layout path text)).units.length) :
    ReflTransGen (ofEntry sources layout (.read layout path text)).Imports 0 u := by
  obtain ⟨unit, at_u⟩ : ∃ unit, (ofEntry sources layout (.read layout path text)).units[u]? =
    some unit := ⟨_, getElem?_eq_getElem hu⟩
  obtain ⟨first, at_zero, same⟩ := getElem?_ofEntry_zero sources layout (.read layout path text)
  rw [(reflects_ofEntry loaded).reaches_iff_leads at_zero at_u, same]
  rw [getElem?_units_ofEntry] at at_u
  obtain ⟨source, hsource, rfl⟩ := Option.map_eq_some_iff.mp at_u
  exact leads_of_mem_discover loaded (mem_of_getElem? hsource)

theorem paths_ofEntry (sources : Sources) (layout : Layout) (entry : SourceUnit) :
    (ofEntry sources layout entry).units.map (·.path) =
      (discover sources layout entry).map SourceUnit.path := by
  simp [ofEntry, SourceUnit.link, Function.comp_def]

/-- From a loaded entry, following imports ends, and finds one unit for each path that can be loaded
and that the entry leads to through such paths. Every unit is what stands at its path, and it has
one edge for each of its imports, in order: to the unit at the path that is imported, or to the
fault of that path. -/
theorem ofEntry_exact (sources : Sources) (layout : Layout) {entry : NormalPath} {text : String}
    (loaded : sources.load entry = .ok text) :
    let g := ofEntry sources layout (.read layout entry text)
    (∀ n, sources.loadable.length ≤ n →
      discoverWithin sources layout n 0 [.read layout entry text] =
        discover sources layout (.read layout entry text)) ∧
    (g.units.map (·.path)).Nodup ∧
    (∀ path, path ∈ g.units.map (·.path) ↔
      (∃ text, sources.load path = .ok text) ∧ ReflTransGen (Leads sources layout) entry path) ∧
    ∀ u ∈ g.units,
      (∃ text, sources.load u.path = .ok text ∧ u.toSourceUnit = .read layout u.path text) ∧
        List.Forall₂ (LeadsTo sources layout g u.path) u.program.imports u.imports := by
  intro g
  have reflects : g.Reflects sources layout := reflects_ofEntry loaded
  refine ⟨fun n enough => discoverWithin_eq (found_entry loaded) (by omega) enough, ?_,
    fun path => ?_, fun u mem => ?_⟩
  · rw [paths_ofEntry]
    exact (discover_spec layout loaded).1.nodup
  · rw [paths_ofEntry]
    exact mem_paths_discover_iff loaded
  · obtain ⟨k, at_k⟩ := getElem?_of_mem mem
    exact ⟨reflects.read at_k, reflects.edges at_k⟩

/-- Two units that import each other, a unit that cannot be read, and one that nothing imports. -/
def tangle : Sources :=
  .ofFiles [(⟨"a.ark"⟩, .text "Mod b\nMod locked\nMod gone\n"), (⟨"b.ark"⟩, .text "Mod a\n"),
    (⟨"locked.ark"⟩, .fault (.unreadable · "locked")), (⟨"lone.ark"⟩, .text "Mod a\n")]

theorem ofEntry_exact_tangle :
    let layout : Layout := ⟨.inferred, .empty⟩
    let path (text : String) : NormalPath := Path.normalize ⟨text⟩
    let g := ofEntry tangle layout (.read layout (path "a.ark") "Mod b\nMod locked\nMod gone\n")
    tangle.load (path "a.ark") = .ok "Mod b\nMod locked\nMod gone\n" ∧
      g.units.map (·.path) = [path "a.ark", path "b.ark"] ∧
      ReflTransGen (Leads tangle layout) (path "a.ark") (path "b.ark") ∧
      ¬ ReflTransGen (Leads tangle layout) (path "a.ark") (path "lone.ark") := by
  intro layout path g
  have loaded : tangle.load (path "a.ark") = .ok "Mod b\nMod locked\nMod gone\n" := by
    decide +kernel
  have found : g.units.map (·.path) = [path "a.ark", path "b.ark"] := by decide +kernel
  obtain ⟨-, -, reached, -⟩ := ofEntry_exact tangle layout loaded
  refine ⟨loaded, found, ?_, fun steps => ?_⟩
  · have mem : path "b.ark" ∈ g.units.map (·.path) := by simp [found]
    exact ((reached _).mp mem).2
  · have lone : tangle.load (path "lone.ark") = .ok "Mod a\n" := by decide +kernel
    have mem : path "lone.ark" ∈ g.units.map (·.path) := (reached _).mpr ⟨⟨_, lone⟩, steps⟩
    rw [found] at mem
    revert mem
    decide +kernel

end UnitGraph

end ArkLang
