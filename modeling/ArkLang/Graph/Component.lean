/-!
# Components

Two nodes of a graph belong to one component if each can be reached from the other. One search finds
all components: it numbers the nodes in the order in which it enters them and keeps those whose
component is not complete on a stack. A node from which no lower number on the stack can be reached
is the first one of its component, and what stands above it on the stack is the rest.
-/

namespace ArkLang

/-- A search for components that is under way. -/
structure ComponentSearch where
  /-- The nodes entered so far with their numbers, the latest first. -/
  numbers : List (Nat × Nat) := []
  /-- Those of them whose component is not complete, the latest first. -/
  stack : List Nat := []
  /-- The complete components, in the order in which they were completed. -/
  complete : List (List Nat) := []

namespace ComponentSearch

/-- The number of a node, if it was entered. -/
def number? (s : ComponentSearch) (u : Nat) : Option Nat :=
  s.numbers.lookup u

/-- Enters a node under the next number. -/
def enter (s : ComponentSearch) (u : Nat) : ComponentSearch :=
  { s with numbers := (u, s.numbers.length) :: s.numbers, stack := u :: s.stack }

/-- Completes a component: a node on the stack and what stands above it. -/
def close (s : ComponentSearch) (u : Nat) : ComponentSearch :=
  { s with
    stack := (s.stack.dropWhile (· ≠ u)).tail
    complete := s.complete ++ [s.stack.takeWhile (· ≠ u) ++ [u]] }

/-- Leaves a node from which `low` is the lowest number that was reached on the stack. If that is
its own number, its component is complete. -/
def leave (s : ComponentSearch) (u low : Nat) : ComponentSearch :=
  if s.number? u = some low then s.close u else s

/-- Follows an edge to a node, with the lowest number that was reached so far. A new node is
visited; one on the stack counts with its number, and one of a complete component does not count. -/
def follow (visit : Nat → ComponentSearch → Nat × ComponentSearch) :
    Nat × ComponentSearch → Nat → Nat × ComponentSearch
  | (low, s), v =>
    match s.number? v with
    | none =>
      let (reached, found) := visit v s
      (min low reached, found)
    | some i => if v ∈ s.stack then (min low i, s) else (low, s)

/-- Searches what can be reached from a new node, and gives the lowest number that was reached on
the stack. The first number bounds how many nodes can be entered one inside the other. -/
def visit (next : Nat → List Nat) : Nat → Nat → ComponentSearch → Nat × ComponentSearch
  | 0, _, s => (s.numbers.length, s)
  | depth + 1, u, s =>
    let (low, found) := (next u).foldl (follow (visit next depth)) (s.numbers.length, s.enter u)
    (low, found.leave u low)

/-- Visits a node unless it was entered before. -/
def ensure (next : Nat → List Nat) (depth : Nat) (s : ComponentSearch) (u : Nat) :
    ComponentSearch :=
  if (s.number? u).isNone then (visit next depth u s).2 else s

/-- The components of a graph with as many nodes as the number says, each behind those that it leads
to. -/
def components (next : Nat → List Nat) (size : Nat) : List (List Nat) :=
  ((List.range size).foldl (ensure next size) {}).complete

end ComponentSearch

end ArkLang
