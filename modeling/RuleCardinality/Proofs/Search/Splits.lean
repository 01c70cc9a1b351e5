import Mathlib.Algebra.GroupWithZero.Nat
import RuleCardinality.Search.Splits

/-!
# Splits are complete and in order

`splits` misses no split: a list is among the splits of a budget over some parts exactly if it has that
many numbers and they add up to the budget (`mem_splits`). No split is listed twice, and each comes after the
lexicographically smaller ones (`pairwise_splits`).
-/

namespace RuleCardinality

/-! ## The list of splits -/

theorem mem_splits : ∀ {parts budget : Nat} {xs : List Nat},
    xs ∈ splits budget parts ↔ xs.length = parts ∧ xs.sum = budget
  | 0, budget, xs => by
    unfold splits
    split
    · rename_i hb
      simp only [List.mem_singleton, List.length_eq_zero_iff]
      constructor
      · rintro rfl
        exact ⟨rfl, hb.symm⟩
      · exact And.left
    · rename_i hb
      simp only [List.not_mem_nil, List.length_eq_zero_iff, false_iff, not_and]
      rintro rfl hs
      exact hb hs.symm
  | 1, budget, xs => by
    simp only [splits, List.mem_singleton]
    constructor
    · rintro rfl
      simp
    · rintro ⟨hl, hs⟩
      obtain ⟨x, rfl⟩ := List.length_eq_one_iff.1 hl
      simpa using hs
  | parts + 2, budget, xs => by
    simp only [splits, List.mem_flatMap, List.mem_range, List.mem_map]
    constructor
    · rintro ⟨first, hfirst, rest, hrest, rfl⟩
      obtain ⟨hl, hs⟩ := mem_splits.1 hrest
      simp only [List.length_cons, List.sum_cons]
      omega
    · rintro ⟨hl, hs⟩
      cases xs with
      | nil => simp at hl
      | cons first rest =>
        simp only [List.length_cons, List.sum_cons] at hl hs
        refine ⟨first, by omega, rest, mem_splits.2 ⟨by omega, by omega⟩, rfl⟩

theorem splits_ne_nil {parts : Nat} (hp : 0 < parts) (budget : Nat) : splits budget parts ≠ [] := by
  have hmem : budget :: List.replicate (parts - 1) 0 ∈ splits budget parts :=
    mem_splits.2 ⟨by simp; omega, by simp⟩
  exact List.ne_nil_of_mem hmem

/-- Splits are listed in strictly ascending lexicographic order. -/
theorem pairwise_splits : ∀ budget parts : Nat, (splits budget parts).Pairwise (· < ·)
  | budget, 0 => by
    unfold splits
    split
    · exact List.pairwise_singleton _ _
    · exact List.Pairwise.nil
  | budget, 1 => List.pairwise_singleton _ _
  | budget, parts + 2 => by
    unfold splits
    rw [List.pairwise_flatMap]
    constructor
    · intro first _
      rw [List.pairwise_map]
      refine (pairwise_splits (budget - first) (parts + 1)).imp fun hlt => ?_
      exact List.cons_lt_cons_iff.2 (.inr ⟨rfl, hlt⟩)
    · refine List.pairwise_lt_range.imp fun hlt xs hxs ys hys => ?_
      obtain ⟨rest, _, rfl⟩ := List.mem_map.1 hxs
      obtain ⟨rest', _, rfl⟩ := List.mem_map.1 hys
      exact List.cons_lt_cons_iff.2 (.inl hlt)

/-! ## The number of splits -/

theorem splitCount_pos (budget parts : Nat) : 0 < splitCount budget parts := by
  have hfold : ∀ (ks : List Nat) (count : Nat), (∀ k ∈ ks, 0 < k) → 0 < count →
      0 < (ks.foldlM (fun count k => if count * (budget + k) ≤ cap then
        some (count * (budget + k) / k) else none) count).getD cap := by
    intro ks
    induction ks with
    | nil => exact fun count _ hcount => hcount
    | cons k ks ih =>
      intro count hks hcount
      rw [List.foldlM_cons]
      split
      · have hk : 0 < k := hks k (by simp)
        have hle : k ≤ count * (budget + k) :=
          Nat.le_trans (Nat.le_add_left k budget) (Nat.le_mul_of_pos_left _ hcount)
        exact ih _ (fun j hj => hks j (by simp [hj])) (Nat.div_pos hle hk)
      · exact (by decide : 0 < cap)
  refine hfold _ 1 (fun k hk => ?_) Nat.one_pos
  exact (List.mem_range'_1.1 hk).1

end RuleCardinality
