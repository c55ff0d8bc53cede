/-!
# Reachability

The nodes that can be reached from given ones along the edges of a graph, found round by round.
-/

namespace ArkLang

namespace Reach

variable {α : Type} [DecidableEq α]

/-- The nodes found so far and their successors, each once. -/
def round (next : α → List α) (found : List α) : List α :=
  (found.flatMap next).foldl (fun seen x => if x ∈ seen then seen else seen ++ [x]) found

/-- The nodes reached from those found so far in a given number of rounds. A round that finds
nothing new is the last one. -/
def closure (next : α → List α) : Nat → List α → List α
  | 0, found => found
  | n + 1, found =>
    let more := round next found
    if more.length = found.length then found else closure next n more

end Reach

end ArkLang
