import RuleCardinality.Rule.Basic
import RuleCardinality.Stack

/-!
# Containment and document order

Two orders on the nodes of a rule. Upwards, every node has its chain of containers, and two nodes meet
in their nearest common container. Downwards, a recursive descent from the root visits the nodes in
document order; their places in it are found by a loop over a stack (`number`). A node depends on another
if the two meet in a group and the other comes first in document order; `dependencyOrder` arranges nodes
so that each one follows those that it depends on.
-/

namespace RuleCardinality.Rule

/-! ## Upwards -/

/-- The containers of a node, nearest first (`ancestors`, tree.rs:79). -/
def ancestors (r : Rule) (v : Nat) : List Nat :=
  match _h : r.container v with
  | none => []
  | some c => c :: r.ancestors c
termination_by v
decreasing_by exact lt_of_container _h

theorem ancestors_eq (r : Rule) (v : Nat) :
    r.ancestors v = (r.container v).elim [] fun c => c :: r.ancestors c := by
  rw [ancestors]; split <;> rename_i h <;> simp [h]

/-- A node and its containers, nearest first. -/
def line (r : Rule) (v : Nat) : List Nat := v :: r.ancestors v

/-- The nearest node that is or contains both nodes (`common_container`, tree.rs:90). -/
def common (r : Rule) (a b : Nat) : Nat := ((r.line b).find? (r.line a).contains).getD r.root

/-- The nearest node that is or contains all nodes of a list; the root if there are none
(`common_container_of`, tree.rs:106). -/
def commonOf (r : Rule) : List Nat → Nat
  | [] => r.root
  | v :: vs => vs.foldl r.common v

/-! ## Downwards -/

/-- A node and all nodes below it, as a recursive descent meets them. -/
def subtree (r : Rule) (v : Nat) : List Nat :=
  v :: (r.children v).attach.flatMap fun c => r.subtree c.1
termination_by r.size - v
decreasing_by exact sub_lt_of_mem_children c.2

theorem subtree_eq (r : Rule) (v : Nat) : r.subtree v = v :: (r.children v).flatMap r.subtree := by
  rw [subtree]; simp

/-- All nodes in document order. -/
def document (r : Rule) : List Nat := r.subtree r.root

/-- Numbers the nodes on a stack and all nodes below them, the loop of `build` (tree.rs:273-277): the one
on top is taken off and gets the next number, and its children are put on the stack, the last one first.
The result is the number of rounds so far and the places given. -/
def number (r : Rule) : List Nat → Nat → Array Nat → Nat × Array Nat
  | [], next, places => (next, places)
  | v :: stack, next, places =>
    r.number (stacked stack (r.children v).reverse) (next + 1) (places.setIfInBounds v next)
termination_by stack => (stack.flatMap r.subtree).length
decreasing_by
  rw [flatMap_stacked r.subtree_eq v stack]
  exact Nat.lt_succ_self _

def places (r : Rule) : Array Nat := (r.number [r.root] 0 (Array.replicate r.size 0)).2

/-- The `preorder_index` of tree.rs:74. -/
def position (r : Rule) (v : Nat) : Nat := r.places.getD v 0

/-- The `assignments` of tree.rs:63, in document order. -/
def assignments (r : Rule) : List Nat :=
  (r.ids.filter fun v => (r.field? v).isSome).mergeSort fun a b => r.position a ≤ r.position b

/-! ## Dependency -/

/-- Whether the first node can only be judged after the second (`depends_on`, tree.rs:121). -/
def dependsOn (r : Rule) (a b : Nat) : Bool :=
  a != b && r.shape (r.common a b) == .group && r.position b < r.position a

/-- The first pending node that depends on no pending node. -/
def nextFree (r : Rule) (pending : List Nat) : Option Nat :=
  pending.find? fun a => !pending.any (r.dependsOn a)

/-- Takes one free node after the other out of the pending ones (distributor.rs:228-234). -/
def arrange (r : Rule) : List Nat → List Nat
  | [] => []
  | v :: vs =>
    match _h : r.nextFree (v :: vs) with
    | none => v :: r.arrange vs
    | some next => next :: r.arrange ((v :: vs).erase next)
termination_by pending => pending.length
decreasing_by
  · simp
  · rw [List.length_erase_of_mem (List.mem_of_find?_eq_some _h)]; simp

/-- The given nodes, each once and after the ones that it depends on; of several that could come next the
one with the least number does (`dependency_order`, distributor.rs:221). -/
def dependencyOrder (r : Rule) (nodes : List Nat) : List Nat :=
  r.arrange (Std.ExtTreeSet.ofList nodes).toList

end RuleCardinality.Rule
