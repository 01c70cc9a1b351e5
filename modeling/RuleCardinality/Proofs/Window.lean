import RuleCardinality.Proofs.Count
import RuleCardinality.Window

/-!
# Laws of windows

A quantity and a finite end of a window are balanced by what the quantity lacks and what it can spare:
`deficit_balance` for the minimum and `excess_balance` for the maximum. Both are what lets sums of
deficits and excesses be compared with sums of ends. Filling up to the headroom stays inside a window
(`admits_add`).
-/

namespace RuleCardinality.Window

variable {w : Window} {q n : Nat}

theorem admits_iff : w.admits q = true ↔ w.deficit q = 0 ∧ w.excess q = 0 := by
  simp [admits, violation]

theorem excess_le (w : Window) (q : Nat) : w.excess q ≤ q := by
  unfold excess
  split
  · exact Nat.sub_le _ _
  · exact Nat.zero_le _

theorem deficit_le (h : w.min ≤ .finite n) (q : Nat) : w.deficit q ≤ n := by
  unfold deficit
  cases hm : w.min with
  | undefined => exact Nat.zero_le n
  | finite m =>
    have hle : m ≤ n := Count.finite_le_finite.1 (hm ▸ h)
    simp only
    omega
  | unbounded => exact Nat.zero_le n

/-- A quantity lies outside a window by no more than the minimum and the quantity together. -/
theorem violation_le (h : w.min ≤ .finite n) (q : Nat) : w.violation q ≤ n + q :=
  Nat.add_le_add (deficit_le h q) (excess_le w q)

theorem deficit_eq (h : w.min ≠ .unbounded) (q : Nat) : w.deficit q = w.min.value - q := by
  unfold deficit
  cases hm : w.min with
  | undefined => simp [Count.value, Count.finite?]
  | finite m => rfl
  | unbounded => exact absurd hm h

theorem deficit_balance (h : w.min ≠ .unbounded) (q : Nat) :
    w.min.value + w.surplus q = q + w.deficit q := by
  rw [deficit_eq h]
  show w.min.value + (q - w.min.value) = q + (w.min.value - q)
  omega

theorem excess_eq (h : w.max = .finite n) (q : Nat) : w.excess q = q - n := by
  simp [excess, h]

theorem excess_eq_zero (h : w.max = .unbounded) (q : Nat) : w.excess q = 0 := by
  simp [excess, h]

theorem excess_balance (h : w.max = .finite n) (q : Nat) : n + w.excess q = q + w.headroom q := by
  rw [excess_eq h]
  simp only [headroom, h]
  omega

theorem deficit_eq_zero_iff_le (hmin : w.min ≠ .unbounded) : w.deficit q = 0 ↔ w.min ≤ .finite q := by
  unfold deficit
  cases hm : w.min with
  | undefined => exact iff_of_true rfl (Count.undefined_le _)
  | finite m => exact Nat.sub_eq_zero_iff_le.trans Count.finite_le_finite.symm
  | unbounded => exact absurd hm hmin

theorem excess_eq_zero_iff_le (hmax : w.max.isDefined = true) : w.excess q = 0 ↔ .finite q ≤ w.max := by
  unfold excess
  cases hm : w.max with
  | undefined => simp [hm, Count.isDefined] at hmax
  | finite m => exact Nat.sub_eq_zero_iff_le.trans Count.finite_le_finite.symm
  | unbounded => exact iff_of_true rfl (Count.le_unbounded _)

/-- Where both ends are known and the minimum is not unbounded, a window admits what lies between them. -/
theorem admits_iff_le (hmin : w.min ≠ .unbounded) (hmax : w.max.isDefined = true) :
    w.admits q = true ↔ w.min ≤ .finite q ∧ .finite q ≤ w.max := by
  rw [admits_iff, deficit_eq_zero_iff_le hmin, excess_eq_zero_iff_le hmax]

theorem deficit_pos_iff_lt (hmin : w.min ≠ .unbounded) : 0 < w.deficit q ↔ .finite q < w.min := by
  rw [Nat.pos_iff_ne_zero, Ne, deficit_eq_zero_iff_le hmin, Count.lt_iff_not_le]

/-! ## Repairs -/

/-- What repairs at most the deficit does not lead over the minimum. -/
theorem add_le_min (hdeficit : 0 < w.deficit q) (hn : n ≤ w.deficit q) : .finite (q + n) ≤ w.min := by
  unfold deficit at hdeficit hn
  cases hmin : w.min with
  | finite m =>
    simp only [hmin] at hdeficit hn
    exact Count.finite_le_finite.2 (by omega)
  | undefined => simp [hmin] at hdeficit
  | unbounded => exact Count.le_unbounded _

/-- What repairs at most the excess does not lead below the maximum. -/
theorem max_le_sub (hexcess : 0 < w.excess q) (hn : n ≤ w.excess q) : w.max ≤ .finite (q - n) := by
  unfold excess at hexcess hn
  cases hmax : w.max with
  | finite m =>
    simp only [hmax] at hexcess hn
    exact Count.finite_le_finite.2 (by omega)
  | undefined => exact Count.undefined_le _
  | unbounded => simp [hmax] at hexcess

/-! ## Room -/

/-- What leaves the surplus in place keeps to the minimum. -/
theorem min_le_sub (hn : n ≤ w.surplus q) : Min.min q w.min.value ≤ q - n := by
  have hsurplus : w.surplus q = q - w.min.value := rfl
  omega

/-- What the headroom takes keeps to the maximum. -/
theorem add_le_max (hn : n ≤ w.headroom q) : q + n = q ∨ .finite (q + n) ≤ w.max := by
  unfold headroom at hn
  cases hmax : w.max with
  | undefined =>
    simp only [hmax] at hn
    exact .inl (by omega)
  | finite m =>
    simp only [hmax] at hn
    rcases Nat.lt_or_ge q m with hlt | hge
    · exact .inr (Count.finite_le_finite.2 (by omega))
    · exact .inl (by omega)
  | unbounded => exact .inr (Count.le_unbounded _)

/-- Within its headroom a quantity stays inside the window. -/
theorem admits_add (h : w.admits q = true) (hn : n ≤ w.headroom q) : w.admits (q + n) = true := by
  rw [admits_iff] at h ⊢
  obtain ⟨hdeficit, hexcess⟩ := h
  constructor
  · unfold deficit at hdeficit ⊢
    cases hmin : w.min with
    | finite m =>
      simp only [hmin] at hdeficit ⊢
      omega
    | undefined => rfl
    | unbounded => rfl
  · unfold excess at hexcess ⊢
    unfold headroom at hn
    cases hmax : w.max with
    | finite m =>
      simp only [hmax] at hexcess hn ⊢
      omega
    | undefined => rfl
    | unbounded => rfl

/-- What is put into the headroom is all there is, or it leaves no headroom. -/
theorem headroom_add (hn : n ≤ cap) :
    n - Min.min (w.headroom q) n = 0 ∨ w.headroom (q + Min.min (w.headroom q) n) = 0 := by
  unfold headroom
  cases w.max with
  | undefined => exact .inr rfl
  | finite m =>
    simp only
    omega
  | unbounded =>
    simp only
    omega

end RuleCardinality.Window
