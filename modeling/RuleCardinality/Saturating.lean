/-!
# Saturating arithmetic

Counts and search budgets live below `2 ^ 64`. Where a sum or a product could leave that range it
stays at the largest value, `cap`, instead.
-/

namespace RuleCardinality

/-- The largest number a count or a budget can hold. -/
def cap : Nat := 18446744073709551615

def capAdd (a b : Nat) : Nat := min (a + b) cap

def capMul (a b : Nat) : Nat := min (a * b) cap

theorem capAdd_le (a b : Nat) : capAdd a b ≤ cap := Nat.min_le_right _ _

theorem capMul_le (a b : Nat) : capMul a b ≤ cap := Nat.min_le_right _ _

end RuleCardinality
