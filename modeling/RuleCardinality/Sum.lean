/-!
# Sums over lists

The sum of a number that each element of a list has.
-/

namespace RuleCardinality

variable {α : Type}

def sumOf (f : α → Nat) (xs : List α) : Nat := xs.foldr (fun x n => f x + n) 0

@[simp] theorem sumOf_nil (f : α → Nat) : sumOf f [] = 0 := rfl

@[simp] theorem sumOf_cons (f : α → Nat) (x : α) (xs : List α) :
    sumOf f (x :: xs) = f x + sumOf f xs := rfl

@[simp] theorem sumOf_append (f : α → Nat) (xs ys : List α) :
    sumOf f (xs ++ ys) = sumOf f xs + sumOf f ys := by
  induction xs with
  | nil => simp
  | cons x xs ih => simp [ih, Nat.add_assoc]

end RuleCardinality
