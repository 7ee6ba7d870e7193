import Vetting.Plan.Cycles
import Vetting.Plan.InPlace

/-!
# Graphs edge by edge

A graph that is built up: first its nodes, then one edge after the other. Nodes are known by the
order in which they came, and an edge can only be added if there is a node at either end. Nothing
keeps an edge from being added twice.

The graph of stored checks is built in this way, with an edge to each check from every check that
it depends on.
-/

namespace Vetting

structure EdgeList where
  /-- What the nodes stand for. -/
  nodes : List Nat := []
  edges : List (Nat × Nat) := []

namespace EdgeList

def addNode (g : EdgeList) (label : Nat) : EdgeList := { g with nodes := g.nodes ++ [label] }

/-- Adds an edge, unless one of its ends is out of range. -/
def addEdge? (g : EdgeList) (edge : Nat × Nat) : Option EdgeList :=
  if edge.1 < g.nodes.length ∧ edge.2 < g.nodes.length then
    some { g with edges := g.edges ++ [edge] }
  else none

/-- The nodes to which the edges from `v` lead, that of the latest edge first. -/
def next (g : EdgeList) (v : Nat) : List Nat :=
  ((g.edges.filter (·.1 == v)).map (·.2)).reverse

def toDigraph (g : EdgeList) : Digraph := ⟨g.nodes.length, g.next⟩

end EdgeList

/-- The graph of stored checks. There is none if a dependency is out of range. -/
def Check.edgeList? (stored : List (Numbered Nat Check)) : Option EdgeList :=
  stored.foldlM
    (fun g entry => entry.content.dependencies.foldlM (fun g j => g.addEdge? (j, entry.id)) g)
    (stored.foldl (fun g entry => g.addNode entry.id) {})

end Vetting
