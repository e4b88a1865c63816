import BraceLang.Syntax.Field

/-!
# The walk of a tree

A tree is walked with a stack.  Two nodes of a tree can be equal, so a node is known by its place.
-/

namespace BraceLang

open List

/-- A node where it stands in a tree.  The place numbers the children on the way to it, the last one first. -/
structure Occurrence where
  place : List Nat
  node : Node

namespace Occurrence

def children (o : Occurrence) : List Occurrence := o.node.children.zipIdx.map fun c => ⟨c.2 :: o.place, c.1⟩

theorem map_node_children (o : Occurrence) : o.children.map node = o.node.children := by
  rw [children, map_map]
  exact zipIdx_map_fst 0 _

/-- The occurrences on a stack and those below them.  The one on top is taken off, and its children are put on the
stack, from the first to the last. -/
def walkFrom : List Occurrence → List Occurrence
  | [] => []
  | o :: stack => o :: walkFrom (o.children.reverse ++ stack)
termination_by stack => ((stack.map node).flatMap Node.walk).length
decreasing_by
  -- the nodes that are still to be walked
  rw [map_append, map_reverse, map_node_children, map_cons, flatMap_append, flatMap_cons, Node.walk_eq o.node,
    cons_append]
  exact Nat.lt_succ_self _

end Occurrence

namespace Node

def occurrences (n : Node) : List Occurrence := Occurrence.walkFrom [⟨[], n⟩]

/-- The first occurrence in the walk that has the one at a place among its children. -/
def parentOf? (n : Node) (place : List Nat) : Option Occurrence :=
  n.occurrences.find? fun o => o.children.any (·.place = place)

end Node

end BraceLang
