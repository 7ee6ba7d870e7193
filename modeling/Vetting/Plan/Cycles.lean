import Vetting.Plan.Dependencies

/-!
# Cycles of dependencies

Checks that wait for each other can never be applied. `Digraph.firstCycle?` finds a largest set of
nodes that all reach each other, if there is one that lies on a cycle. Of several it is the one
that a depth-first search is done with first; the search starts at the nodes in ascending order,
and follows edges in the order in which the graph lists them.
-/

namespace Vetting

/-- A directed graph on the nodes below `size`. -/
structure Digraph where
  size : Nat
  next : Nat → List Nat

namespace Digraph

/-- How far a search has come: the nodes it has met, and those it is done with, in order. -/
structure Search where
  met : List Nat := []
  done : List Nat := []

/-- Searches everything below a node that is new. A path of new nodes has at most `fuel`. -/
def explore (g : Digraph) : Nat → Search → Nat → Search
  | 0, s, _ => s
  | fuel + 1, s, v =>
    if v ∈ s.met then s
    else
      let below := (g.next v).foldl (g.explore fuel) { s with met := v :: s.met }
      { below with done := below.done ++ [v] }

/-- Searches from several nodes in turn. -/
def exploreAll (g : Digraph) (starts : List Nat) : Search :=
  starts.foldl (g.explore (g.size + 1)) {}

/-- All nodes in the order in which a search is done with them. -/
def postOrder (g : Digraph) : List Nat := (g.exploreAll (List.range g.size)).done

/-- The nodes at the end of a path of one or more edges from `v`. -/
def reach (g : Digraph) (v : Nat) : List Nat := (g.exploreAll (g.next v)).done

/-- Whether a path leads from a node back to it. -/
def isCyclic (g : Digraph) (v : Nat) : Bool := v ∈ g.reach v

/-- Whether two nodes lie on a common closed path. -/
def linked (g : Digraph) (v w : Nat) : Bool := w ∈ g.reach v && v ∈ g.reach w

/-- The nodes on a common closed path with `v`. -/
def component (g : Digraph) (v : Nat) : List Nat := (List.range g.size).filter (g.linked v)

/-- The component of the first node of a list that lies on a cycle and comes last of its
component. -/
def firstClosed? (g : Digraph) : List Nat → Option (List Nat)
  | [] => none
  | v :: later =>
    if g.isCyclic v && !later.any (g.linked v) then some (g.component v)
    else g.firstClosed? later

def firstCycle? (g : Digraph) : Option (List Nat) := g.firstClosed? g.postOrder

def hasCycle (g : Digraph) : Bool := (List.range g.size).any g.isCyclic

end Digraph

namespace Check

/-- The numbers of the checks that depend on a check, in descending order. -/
def dependents (checks : List Check) (index : Nat) : List Nat :=
  (checks.zipIdx.filterMap fun (check, i) =>
    if check.dependencies.contains index then some i else none).reverse

/-- The graph of checks, with an edge from each check to those that depend on it. -/
def graph (checks : List Check) : Digraph := ⟨checks.length, dependents checks⟩

/-- Fails if checks wait for each other. -/
def acyclic (checks : List Check) : Except SetupError Unit :=
  match (graph checks).firstCycle? with
  | none => .ok ()
  | some cycle => .error (.circular (cycle.filterMap fun i => checks[i]?.map (·.label)))

end Check

end Vetting
