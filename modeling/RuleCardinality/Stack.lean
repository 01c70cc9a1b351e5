/-!
# Stacks

A stack is a list with its top first. To descend a tree with a stack, the top is taken off and its
children are put on, the last one first, so that the first one is on top.
-/

namespace RuleCardinality

variable {α : Type}

/-- Puts elements on a stack, one after the other. -/
def stacked (stack xs : List α) : List α := xs.foldl (fun stack x => x :: stack) stack

theorem stacked_reverse (stack xs : List α) : stacked stack xs.reverse = xs ++ stack := by
  simp [stacked]

/-- What is still to be met after the top of a stack has been taken off. -/
theorem flatMap_stacked {descend children : α → List α}
    (h : ∀ x, descend x = x :: (children x).flatMap descend) (x : α) (stack : List α) :
    (x :: stack).flatMap descend = x :: (stacked stack (children x).reverse).flatMap descend := by
  rw [stacked_reverse, List.flatMap_cons, h, List.flatMap_append, List.cons_append]

end RuleCardinality
