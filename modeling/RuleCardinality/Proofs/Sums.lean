import Mathlib.Algebra.GroupWithZero.Nat
import RuleCardinality.Sum

/-!
# Laws of sums over lists

How a sum reacts to a change of its terms. `sumOf_update` is the law behind every transfer: where one
element of a duplicate-free list changes its term, the sum changes by the same amount.
-/

namespace RuleCardinality

variable {α : Type} {f g h : α → Nat} {xs ys : List α}

theorem sumOf_eq_sum (f : α → Nat) (xs : List α) : sumOf f xs = (xs.map f).sum := by
  induction xs with
  | nil => rfl
  | cons x xs ih => simp [ih]

theorem sumOf_map {β : Type} (f : α → Nat) (g : β → α) (xs : List β) :
    sumOf f (xs.map g) = sumOf (fun x => f (g x)) xs := by
  rw [sumOf_eq_sum, sumOf_eq_sum, List.map_map]
  rfl

theorem sumOf_congr (hfg : ∀ x ∈ xs, f x = g x) : sumOf f xs = sumOf g xs := by
  rw [sumOf_eq_sum, sumOf_eq_sum, List.map_congr_left hfg]

theorem sumOf_perm (hp : xs.Perm ys) : sumOf f xs = sumOf f ys := by
  rw [sumOf_eq_sum, sumOf_eq_sum]
  exact (hp.map f).sum_nat

theorem sumOf_eq_zero_iff : sumOf f xs = 0 ↔ ∀ x ∈ xs, f x = 0 := by
  induction xs with
  | nil => simp
  | cons x xs ih => simp [ih]

theorem sumOf_le_sumOf (hfg : ∀ x ∈ xs, f x ≤ g x) : sumOf f xs ≤ sumOf g xs := by
  induction xs with
  | nil => exact Nat.le_refl 0
  | cons x xs ih =>
    have hx := hfg x (by simp)
    have hxs := ih fun y hy => hfg y (by simp [hy])
    simp only [sumOf_cons]
    omega

/-- Sums of terms that balance out in pairs balance out. -/
theorem sumOf_add_eq_add {k : α → Nat} (he : ∀ x ∈ xs, f x + g x = h x + k x) :
    sumOf f xs + sumOf g xs = sumOf h xs + sumOf k xs := by
  induction xs with
  | nil => rfl
  | cons x xs ih =>
    have hx := he x (by simp)
    have hxs := ih fun y hy => he y (by simp [hy])
    simp only [sumOf_cons]
    omega

@[simp] theorem sumOf_zero (xs : List α) : sumOf (fun _ => 0) xs = 0 :=
  sumOf_eq_zero_iff.2 fun _ _ => rfl

theorem sumOf_add (f g : α → Nat) (xs : List α) :
    sumOf (fun x => f x + g x) xs = sumOf f xs + sumOf g xs := by
  induction xs with
  | nil => rfl
  | cons x xs ih =>
    simp only [sumOf_cons, ih]
    omega

theorem le_sumOf {x : α} (hx : x ∈ xs) : f x ≤ sumOf f xs := by
  induction xs with
  | nil => simp at hx
  | cons y ys ih =>
    simp only [sumOf_cons]
    rcases List.mem_cons.1 hx with rfl | hx
    · omega
    · have := ih hx
      omega

/-- One element of a duplicate-free list and the others. -/
theorem sumOf_eq_add_filter [BEq α] [LawfulBEq α] {v : α} (hn : xs.Nodup) (hv : v ∈ xs) :
    sumOf f xs = f v + sumOf f (xs.filter (· != v)) := by
  have hp : xs.Perm (v :: xs.filter (· != v)) := by
    rw [← hn.erase_eq_filter]
    exact List.perm_cons_erase hv
  rw [sumOf_perm hp, sumOf_cons]

/-- Some elements of a duplicate-free list and the others. -/
theorem sumOf_eq_add_filter_not_mem [DecidableEq α] (hxs : xs.Nodup) (hys : ys.Nodup)
    (hsub : ∀ y ∈ ys, y ∈ xs) :
    sumOf f xs = sumOf f ys + sumOf f (xs.filter fun x => !decide (x ∈ ys)) := by
  have hsome : (xs.filter fun x => decide (x ∈ ys)).Perm ys :=
    (List.perm_ext_iff_of_nodup (hxs.filter _) hys).2 fun x => by
      rw [List.mem_filter, decide_eq_true_eq]
      exact ⟨And.right, fun hx => ⟨hsub x hx, hx⟩⟩
  rw [← sumOf_perm (List.filter_append_perm (fun x => decide (x ∈ ys)) xs), sumOf_append,
    sumOf_perm hsome]

theorem sumOf_le_of_subset [DecidableEq α] (hxs : xs.Nodup) (hys : ys.Nodup)
    (hsub : ∀ y ∈ ys, y ∈ xs) : sumOf f ys ≤ sumOf f xs := by
  rw [sumOf_eq_add_filter_not_mem hxs hys hsub]
  exact Nat.le_add_right _ _

/-- A duplicate-free list counts each of its elements once. -/
theorem sumOf_ite_eq [DecidableEq α] (hn : xs.Nodup) (a : α) :
    sumOf (fun x => if a = x then 1 else 0) xs = if a ∈ xs then 1 else 0 := by
  induction xs with
  | nil => rfl
  | cons x xs ih =>
    obtain ⟨hx, hn⟩ := List.nodup_cons.1 hn
    rw [sumOf_cons, ih hn]
    by_cases ha : a = x
    · subst ha
      simp [hx]
    · simp [ha]

theorem sumOf_const (n : Nat) (xs : List α) : sumOf (fun _ => n) xs = xs.length * n := by
  induction xs with
  | nil => simp
  | cons x xs ih => rw [sumOf_cons, ih, List.length_cons, Nat.succ_mul, Nat.add_comm]

theorem sumOf_one (xs : List α) : sumOf (fun _ => 1) xs = xs.length := by
  rw [sumOf_const, Nat.mul_one]

theorem sumOf_flatMap {β : Type} (f : β → Nat) (g : α → List β) (xs : List α) :
    sumOf f (xs.flatMap g) = sumOf (fun x => sumOf f (g x)) xs := by
  induction xs with
  | nil => rfl
  | cons x xs ih => rw [List.flatMap_cons, sumOf_append, ih, sumOf_cons]

theorem sumOf_filterMap {β : Type} (f : β → Nat) (g : α → Option β) (xs : List α) :
    sumOf f (xs.filterMap g) = sumOf (fun x => (g x).elim 0 f) xs := by
  induction xs with
  | nil => rfl
  | cons x xs ih =>
    rw [List.filterMap_cons, sumOf_cons, ← ih]
    cases g x with
    | none => exact (Nat.zero_add _).symm
    | some y => rfl

/-- Terms that are zero can be left out. -/
theorem sumOf_filter {p : α → Bool} (h : ∀ x ∈ xs, p x = false → f x = 0) :
    sumOf f (xs.filter p) = sumOf f xs := by
  induction xs with
  | nil => rfl
  | cons x xs ih =>
    have hxs := ih fun y hy => h y (by simp [hy])
    rw [List.filter_cons, sumOf_cons]
    cases hp : p x with
    | true => rw [if_pos rfl, sumOf_cons, hxs]
    | false => rw [if_neg (by simp), hxs, h x (by simp) hp, Nat.zero_add]

theorem length_filter_eq_sumOf (p : α → Bool) (xs : List α) :
    (xs.filter p).length = sumOf (fun x => if p x then 1 else 0) xs := by
  induction xs with
  | nil => rfl
  | cons x xs ih =>
    rw [sumOf_cons, ← ih]
    cases h : p x with
    | true => simp [h, Nat.add_comm]
    | false => simp [h]

/-- Where one element of a duplicate-free list changes its term, the sum changes by as much. -/
theorem sumOf_update {v : α} (hn : xs.Nodup) (hv : v ∈ xs) (hfg : ∀ x ∈ xs, x ≠ v → g x = f x) :
    sumOf g xs + f v = sumOf f xs + g v := by
  induction xs with
  | nil => simp at hv
  | cons x xs ih =>
    obtain ⟨hx, hn⟩ := List.nodup_cons.1 hn
    simp only [sumOf_cons]
    rcases List.mem_cons.1 hv with rfl | hv
    · have : sumOf g xs = sumOf f xs := sumOf_congr fun y hy =>
        hfg y (by simp [hy]) fun e => hx (e ▸ hy)
      omega
    · have hxv : x ≠ v := fun e => hx (e ▸ hv)
      have := ih hn hv fun y hy => hfg y (by simp [hy])
      have := hfg x (by simp) hxv
      omega

end RuleCardinality
