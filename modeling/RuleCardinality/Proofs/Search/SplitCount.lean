import Mathlib.Data.Nat.Choose.Basic
import RuleCardinality.Proofs.Search.Splits

/-!
# How many splits there are

The splits of a budget over `parts + 1` parts are as many as the binomial coefficient of `budget + parts`
over `parts` (`length_splits`), by Pascal's rule: a split gives nothing to its first part or at least one.
`splitCount` comes to the same number by multiplications and divisions in turn. Its count after each round
is a binomial coefficient as well, so that no division leaves a remainder, until a product is too large for
a word; from there on it answers the largest word (`splitCount_eq`). So it never says too little
(`splitCount_spec`).
-/

namespace RuleCardinality

/-! ## The number of splits -/

/-- Splits whose first part is zero, and splits whose first part can give one back. -/
theorem length_splits_succ (budget parts : Nat) :
    (splits (budget + 1) (parts + 2)).length =
      (splits (budget + 1) (parts + 1)).length + (splits budget (parts + 2)).length := by
  have hstep : ∀ first, splits (budget + 1 - (first + 1)) (parts + 1) = splits (budget - first) (parts + 1) :=
    fun first => by rw [Nat.add_sub_add_right]
  rw [splits, List.range_succ_eq_map, List.flatMap_cons, List.flatMap_map, List.length_append, splits]
  simp only [List.length_flatMap, List.length_map, Nat.succ_eq_add_one, hstep, Nat.sub_zero]

theorem length_splits : ∀ budget parts : Nat,
    (splits budget (parts + 1)).length = (budget + parts).choose parts
  | budget, 0 => by simp [splits]
  | 0, parts + 1 => by
    have hlast : (splits 0 (parts + 2)).length = (splits 0 (parts + 1)).length := by simp [splits]
    rw [hlast, length_splits 0 parts]
    simp
  | budget + 1, parts + 1 => by
    rw [length_splits_succ, length_splits (budget + 1) parts, length_splits budget (parts + 1),
      show budget + 1 + (parts + 1) = budget + (parts + 1) + 1 by omega, Nat.choose_succ_succ,
      show budget + (parts + 1) = budget + 1 + parts by omega]

/-! ## Counting in rounds -/

/-- The count of splits after some rounds, where no product is too large. -/
def countAfter (budget : Nat) : Nat → Nat
  | 0 => 1
  | k + 1 => countAfter budget k * (budget + (k + 1)) / (k + 1)

/-- The product on the way to the next count. -/
def productAfter (budget k : Nat) : Nat := countAfter budget k * (budget + (k + 1))

/-- One round: the next count, or nothing if the product on the way to it is too large. -/
def round? (budget count k : Nat) : Option Nat :=
  if count * (budget + k) ≤ cap then some (count * (budget + k) / k) else none

/-- The counts are binomial coefficients. -/
theorem countAfter_eq (budget k : Nat) : countAfter budget k = (budget + k).choose k := by
  induction k with
  | zero => simp [countAfter]
  | succ k ih =>
    rw [countAfter, ih, Nat.mul_comm, ← Nat.add_assoc, Nat.add_one_mul_choose_eq,
      Nat.mul_div_cancel _ (Nat.succ_pos k)]

/-- No division leaves a remainder. -/
theorem dvd_productAfter (budget k : Nat) : k + 1 ∣ productAfter budget k := by
  refine ⟨(budget + k + 1).choose (k + 1), ?_⟩
  rw [productAfter, countAfter_eq, Nat.mul_comm, ← Nat.add_assoc, Nat.add_one_mul_choose_eq, Nat.mul_comm]

/-- Rounds go through exactly as long as every product fits. -/
theorem foldlM_round? (budget rounds : Nat) :
    (List.range' 1 rounds).foldlM (round? budget) 1 =
      if ∀ k < rounds, productAfter budget k ≤ cap then some (countAfter budget rounds) else none := by
  induction rounds with
  | zero => simp [countAfter]
  | succ n ih =>
    have hsplit : (∀ k < n + 1, productAfter budget k ≤ cap) ↔
        (∀ k < n, productAfter budget k ≤ cap) ∧ productAfter budget n ≤ cap :=
      Nat.forall_lt_succ_right
    rw [List.range'_1_concat, List.foldlM_append, ih]
    by_cases hbefore : ∀ k < n, productAfter budget k ≤ cap
    · rw [if_pos hbefore]
      by_cases hnext : productAfter budget n ≤ cap
      · rw [if_pos (hsplit.2 ⟨hbefore, hnext⟩)]
        have hround : round? budget (countAfter budget n) (1 + n) = some (countAfter budget (n + 1)) := by
          rw [Nat.add_comm 1 n]
          exact if_pos hnext
        simp [hround]
      · rw [if_neg fun h => hnext (hsplit.1 h).2]
        have hround : round? budget (countAfter budget n) (1 + n) = none := by
          rw [Nat.add_comm 1 n]
          exact if_neg hnext
        simp [hround]
    · rw [if_neg hbefore, if_neg fun h => hbefore (hsplit.1 h).1]
      rfl

theorem splitCount_eq (budget parts : Nat) :
    splitCount budget (parts + 1) =
      if ∀ k < parts, productAfter budget k ≤ cap then (splits budget (parts + 1)).length else cap := by
  have hrounds : splitCount budget (parts + 1) =
      ((List.range' 1 parts).foldlM (round? budget) 1).getD cap := rfl
  rw [hrounds, foldlM_round?, length_splits, ← countAfter_eq]
  split <;> rfl

/-- The splits of a budget are the lists of that many numbers with the budget as their sum, each once and in
ascending order. `splitCount` is their number, a binomial coefficient, if every product on the way fits a
word, and else the largest word; its divisions are exact, and it never says too little. -/
theorem splitCount_spec (budget parts : Nat) :
    (∀ xs, xs ∈ splits budget parts ↔ xs.length = parts ∧ xs.sum = budget) ∧
      (splits budget parts).Nodup ∧ (splits budget parts).Pairwise (· < ·) ∧
      (0 < parts →
        (splits budget parts).length = (budget + parts - 1).choose (parts - 1) ∧
          min (splits budget parts).length (2 ^ 64 - 1) ≤ splitCount budget parts ∧
          (∀ k < parts - 1, k + 1 ∣ productAfter budget k) ∧
          splitCount budget parts =
            if ∀ k < parts - 1, productAfter budget k < 2 ^ 64 then (splits budget parts).length
            else 2 ^ 64 - 1) := by
  have hascending := pairwise_splits budget parts
  refine ⟨fun xs => mem_splits, hascending.imp fun hlt => ?_, hascending, fun hparts => ?_⟩
  · rintro rfl
    exact List.lt_irrefl _ hlt
  · obtain ⟨n, rfl⟩ : ∃ n, parts = n + 1 := ⟨parts - 1, by omega⟩
    have hcap : cap = 2 ^ 64 - 1 := by decide
    have hfits : ∀ k, productAfter budget k < 2 ^ 64 ↔ productAfter budget k ≤ cap := fun k => by
      rw [hcap]
      omega
    have hcount : splitCount budget (n + 1) =
        if ∀ k < n, productAfter budget k < 2 ^ 64 then (splits budget (n + 1)).length
        else 2 ^ 64 - 1 := by
      rw [splitCount_eq, ← hcap]
      simp only [hfits]
    refine ⟨length_splits budget n, ?_, fun k _ => dvd_productAfter budget k, hcount⟩
    rw [hcount]
    split
    · exact Nat.min_le_left _ _
    · exact Nat.min_le_right _ _

/-- A budget of one over three parts is given to the last, the second or the first of them. -/
example : splits 1 3 = [[0, 0, 1], [0, 1, 0], [1, 0, 0]] ∧ splitCount 1 3 = 3 := by decide

end RuleCardinality
