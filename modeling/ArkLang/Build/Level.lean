import ArkLang.Build.Graph
import ArkLang.Graph.Component

/-!
# Cycles and levels

An import is circular if it joins two units of one component: then each of them reaches the other.
The level of a unit is the length of the longest chain of other imports that starts at it, so that a
unit imports only units of lower levels, circular imports aside. Components come behind those that
they lead to, so the levels are found in that order.
-/

namespace ArkLang

namespace UnitGraph

variable (g : UnitGraph)

/-- The units that an import of a unit leads to. -/
def successors (u : Nat) : List Nat :=
  match g.units[u]? with
  | some unit => unit.imports.filterMap (·.target.toOption)
  | none => []

/-- The components of the units, each behind those that it leads to. -/
def components : List (List Nat) :=
  ComponentSearch.components g.successors g.units.length

/-- The number of the component of a unit. -/
def component (u : Nat) : Nat :=
  g.components.findIdx (·.contains u)

/-- Whether an import of one unit that leads to another one is circular. -/
def isCircular (u v : Nat) : Bool :=
  g.component u == g.component v

/-- The units that an import of a unit leads to, circular ones aside. -/
def below (u : Nat) : List Nat :=
  (g.successors u).filter fun v => !g.isCircular u v

/-- Sets the level of a unit, given levels of the units below it. -/
def raise (levels : List Nat) (u : Nat) : List Nat :=
  levels.set u (((g.below u).map fun v => levels.getD v 0 + 1).foldl max 0)

/-- The levels of all units, found component by component. -/
def unitLevels : List Nat :=
  g.components.flatten.foldl g.raise (List.replicate g.units.length 0)

/-- The units of each level, in the order in which they were found. -/
def levels : List (List Nat) :=
  let n := g.units.length
  let levelOf := g.unitLevels
  (List.range n).map fun level => (List.range n).filter fun u => levelOf.getD u 0 = level

end UnitGraph

end ArkLang
