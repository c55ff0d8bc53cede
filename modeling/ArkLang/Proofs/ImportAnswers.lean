import ArkLang.Proofs.Discovery
import ArkLang.Proofs.Places
import ArkLang.Proofs.Stages

/-!
# Imports reach the unit they name

An import is looked up by the module of its unit and by its span, and answered from the interfaces
that are published under the names of modules. If the units of a program belong to different
modules, it is nevertheless the unit at the path of the import whose interface is answered. Units of
one module mix up their interfaces.
-/

namespace ArkLang

open Relation

theorem find?_of_forall₂ {α β κ : Type} [DecidableEq κ] {R : α → β → Prop} {key : α → κ}
    {key' : β → κ} {xs : List α} {ys : List β} (h : List.Forall₂ R xs ys)
    (same : ∀ {x y}, R x y → key' y = key x) (distinct : (xs.map key).Nodup) {x : α}
    (mem : x ∈ xs) :
    ∃ y ∈ ys, ys.find? (fun y => key' y = key x) = some y ∧ R x y := by
  induction h with
  | nil => simp at mem
  | @cons x₀ y₀ xs ys here _ ih =>
    obtain ⟨fresh, distinct⟩ := List.nodup_cons.mp distinct
    rcases List.mem_cons.mp mem with rfl | mem
    · exact ⟨y₀, List.mem_cons_self, by simp [same here], here⟩
    · have other : key' y₀ ≠ key x := by
        rw [same here]
        exact fun equal => fresh (equal ▸ List.mem_map.mpr ⟨x, mem, rfl⟩)
      obtain ⟨y, hy, found, related⟩ := ih distinct mem
      exact ⟨y, List.mem_cons_of_mem _ hy, by simpa [other] using found, related⟩

namespace UnitGraph

variable {sources : Sources} {layout : Layout} {g : UnitGraph} {u : Nat} {unit : LinkedUnit}

theorem Reflects.find?_import (reflects : g.Reflects sources layout) (hu : g.units[u]? = some unit)
    {i : Import} (hi : i ∈ unit.program.imports) :
    ∃ edge ∈ unit.imports, unit.imports.find? (·.span = i.span) = some edge ∧
      LeadsTo sources layout g unit.path i edge := by
  obtain ⟨text, -, source⟩ := reflects.read hu
  have program : unit.program = (recoverProgram layout.dialect text).program :=
    congrArg SourceUnit.program source
  have distinct : (unit.program.imports.map Import.span).Nodup :=
    program ▸ nodup_importSpans layout.dialect text
  exact find?_of_forall₂ (reflects.edges hu) (fun leadsTo => leadsTo.span) distinct hi

/-- While a unit of a program is analyzed, an import that leads to a loaded path and is not circular
is answered with the interface of the unit at that path, if that unit has no errors, and fails
otherwise. The units have to belong to different modules. -/
theorem resolve_import {entry : NormalPath} {text : String} (loaded : sources.load entry = .ok text)
    (hg : g = ofEntry sources layout (.read layout entry text)) (distinct : g.DistinctModules)
    (hu : g.units[u]? = some unit) {i : Import} (hi : i ∈ unit.program.imports) {next : String}
    (hload : sources.load (importPath unit.path.path i layout.searchRoot) = .ok next)
    (noCircle : ¬ ReflTransGen (Leads sources layout)
      (importPath unit.path.path i layout.searchRoot) unit.path) :
    ∃ v target, g.units[v]? = some target ∧
      target.path = importPath unit.path.path i layout.searchRoot ∧
      g.resolve (g.publishedBefore g.levels (g.level u)) unit.module i =
        (interfaceOf g.outcomes v).elim (.error .failed) .ok := by
  have reflects : g.Reflects sources layout := hg ▸ reflects_ofEntry loaded
  have closed : g.Closed := hg ▸ closed_ofEntry _
  have hlt := (List.getElem?_eq_some_iff.mp hu).1
  have hat : StandsAt g.levels (g.level u) u :=
    standsAt_levels.mpr ⟨hlt, level_lt_length closed hlt, rfl⟩
  obtain ⟨edge, mem, found, leadsTo⟩ := reflects.find?_import hu hi
  obtain ⟨v, target, leads, hv, path⟩ := leadsTo.unit next hload
  refine ⟨v, target, hv, path, ?_⟩
  have step : g.Imports u v := imports_iff.mpr ⟨unit, hu, edge, mem, leads⟩
  have straight : g.isCircular u v = false := by
    rw [Bool.eq_false_iff, ne_eq, isCircular_iff closed step,
      reflects.reaches_iff_leads hv hu, path]
    exact noCircle
  rw [resolve_published (staged_levels closed) distinct closed hat hu, found]
  simp only [answer, leads, straight, outcomes]
  cases interfaceOf (g.outcomesFrom {} g.levels) v <;> rfl

/-- A unit and the one that it imports. -/
def pair : Sources :=
  .ofFiles [(⟨"main.ark"⟩, .text "Mod b\nprint(b.x)\n"), (⟨"b.ark"⟩, .text "x ::= 1\n")]

theorem resolve_import_pair :
    let layout : Layout := ⟨.inferred, .empty⟩
    let g := ofEntry pair layout
      (.read layout (Path.normalize ⟨"main.ark"⟩) "Mod b\nprint(b.x)\n")
    g.DistinctModules ∧ ∃ unit i, g.units[0]? = some unit ∧ unit.program.imports = [i] ∧
      ∃ v target, g.units[v]? = some target ∧
        target.path = importPath unit.path.path i layout.searchRoot ∧
        g.resolve (g.publishedBefore g.levels (g.level 0)) unit.module i =
          (interfaceOf g.outcomes v).elim (.error .failed) .ok := by
  intro layout g
  have distinct : g.DistinctModules := by
    unfold DistinctModules
    decide +kernel
  have facts : g.units[0]?.map (fun unit => (unit.path, unit.importPaths layout)) =
      some (Path.normalize ⟨"main.ark"⟩, [Path.normalize ⟨"b.ark"⟩]) := by decide +kernel
  obtain ⟨unit, hu, fact⟩ := Option.map_eq_some_iff.mp facts
  obtain ⟨path, paths⟩ := Prod.mk.inj fact
  obtain ⟨i, hi, next⟩ := List.map_eq_singleton_iff.mp paths
  have loaded : pair.load (importPath unit.path.path i layout.searchRoot) = .ok "x ::= 1\n" := by
    rw [next]
    rfl
  have noCircle : ¬ ReflTransGen (Leads pair layout)
      (importPath unit.path.path i layout.searchRoot) unit.path := by
    rw [next, path]
    intro steps
    have inside := mem_of_steps (fun p hp text hload => ?_) (List.mem_singleton_self _) steps
    · exact absurd inside (by decide +kernel)
    · obtain rfl := List.mem_singleton.mp hp
      obtain rfl : "x ::= 1\n" = text := Except.ok.inj hload
      decide +kernel
  exact ⟨distinct, unit, i, hu, hi, resolve_import rfl rfl distinct hu (by simp [hi])
    loaded noCircle⟩

/-- Two units of one module, one above the search root and one below it. -/
def sharedModule : Sources :=
  .ofFiles [(⟨"main.ark"⟩, .text "Mod \"../x\"\nMod helper\nprint(x.a)\n"),
    (⟨"../x.ark"⟩, .text "a ::= 1\n"), (⟨"helper.ark"⟩, .text "Mod up/x\nprint(x.b)\n"),
    (⟨"up/x.ark"⟩, .text "b ::= 2\n")]

def variableNames (interface : Interface) : List String :=
  interface.globals.entries.map Prod.fst

/-- The unit above the search root and the unit below it share a module, so that an import of the
first is answered with the interface of the second. -/
theorem resolve_import_shared :
    let layout : Layout := ⟨.inferred, .empty⟩
    let g := ofEntry sharedModule layout
      (.read layout (Path.normalize ⟨"main.ark"⟩) "Mod \"../x\"\nMod helper\nprint(x.a)\n")
    (g.units[0]?.bind fun unit => unit.program.imports.head?.map fun i =>
      (importPath unit.path.path i .empty, (g.resolve (g.publishedBefore g.levels (g.level 0))
        unit.module i).toOption.map variableNames)) =
        some (Path.normalize ⟨"../x.ark"⟩, some ["b"]) ∧
      g.units[1]?.map (fun unit => unit.path) = some (Path.normalize ⟨"../x.ark"⟩) ∧
      (interfaceOf g.outcomes 1).map variableNames = some ["a"] := by
  decide +kernel

end UnitGraph

end ArkLang
