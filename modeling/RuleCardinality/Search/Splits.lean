import RuleCardinality.Saturating

/-!
# Splits

A split of a budget over some parts is a list of that many numbers with the budget as their sum.
`splits` lists them all, the least first part first; `splitCount` says how many there are without
listing them, as far as the number fits below `cap`.
-/

namespace RuleCardinality

/-- Every split of a budget over a number of parts, in lexicographic order (`splits_of`,
distributor.rs:380). -/
def splits (budget : Nat) : Nat → List (List Nat)
  | 0 => if budget = 0 then [[]] else []
  | 1 => [[budget]]
  | parts + 2 =>
    (List.range (budget + 1)).flatMap fun first =>
      (splits (budget - first) (parts + 1)).map (first :: ·)

/-- The number of splits, built up one part at a time; `cap` if a product on the way is too large
(`split_count`, distributor.rs:368). -/
def splitCount (budget parts : Nat) : Nat :=
  ((List.range' 1 (parts - 1)).foldlM
    (fun count k => if count * (budget + k) ≤ cap then some (count * (budget + k) / k) else none)
    1).getD cap

end RuleCardinality
