import Mathlib.Order.Defs.LinearOrder
import Mathlib.Order.MinMax
import RuleCardinality.Count
import RuleCardinality.Proofs.Sums

/-!
# Laws of counts

Counts are a linear order. How far maxima, minima and sums of counts reach: a sum of counts stops at
`cap` along the way, but as long as none of them is unbounded that is the same as stopping once at the
end (`foldl_plus_value`), and read as a budget a sum of counts covers what the counts cover together
(`floor_foldl_plus`).
-/

namespace RuleCardinality.Count

variable {a b c : Count} {xs : List Count} {m n : Nat}

/-! ## Order -/

@[simp] theorem not_unbounded_le_finite : ¬ Count.unbounded ≤ .finite n := by
  intro h
  cases h

@[simp] theorem not_finite_le_undefined : ¬ Count.finite n ≤ .undefined := by
  intro h
  cases h

@[simp] theorem not_unbounded_le_undefined : ¬ Count.unbounded ≤ .undefined := by
  intro h
  cases h

@[simp] theorem zero_le_finite : (0 : Count) ≤ .finite n := finite_le_finite.2 (Nat.zero_le n)

instance : LinearOrder Count where
  le_refl a := by cases a <;> simp
  le_trans a b c hab hbc := by
    cases a <;> cases b <;> cases c <;> simp_all
    omega
  le_antisymm a b hab hba := by
    cases a <;> cases b <;> simp_all
    omega
  le_total a b := by
    cases a <;> cases b <;> simp
    omega
  lt_iff_le_not_ge a b := by
    rw [lt_iff_not_le]
    cases a <;> cases b <;> simp
    omega
  toDecidableLE := inferInstance
  min_def _ _ := rfl
  max_def _ _ := rfl

theorem isDefined_ite {p : Prop} [Decidable p] (ha : a.isDefined = true) (hb : b.isDefined = true) :
    (if p then a else b).isDefined = true := by
  split
  · exact ha
  · exact hb

theorem pos_iff_ne_zero (ha : a.isDefined = true) : 0 < a ↔ a ≠ 0 := by
  constructor
  · rintro hlt rfl
    exact lt_irrefl _ hlt
  · intro hne
    cases a with
    | undefined => cases ha
    | unbounded => rfl
    | finite m =>
      refine finite_lt_finite.2 (Nat.pos_of_ne_zero fun hm => hne ?_)
      rw [hm]
      rfl

theorem one_le_iff_pos : 1 ≤ a ↔ 0 < a := by
  cases a with
  | undefined => exact iff_of_false (by decide) (by decide)
  | finite n => exact finite_le_finite.trans finite_lt_finite.symm
  | unbounded => exact iff_of_true (by decide) (by decide)

theorem max_zero_eq (a : Count) : max 0 a = if a.isDefined then a else 0 := by
  cases a <;> rfl

theorem ne_unbounded_of_le (h : a ≤ .finite n) : a ≠ .unbounded := by
  rintro rfl
  exact not_unbounded_le_finite h

theorem max_le (ha : a ≤ c) (hb : b ≤ c) : max a b ≤ c := by
  show (if a ≤ b then b else a) ≤ c
  split
  · exact hb
  · exact ha

theorem isDefined_narrow (ha : a.isDefined = true) : (narrow a b).isDefined = true := by
  unfold narrow
  split
  · rename_i hb
    show (if a ≤ b then a else b).isDefined = true
    split
    · exact ha
    · exact hb
  · exact ha

/-- A sum stays below every bound that is no less than where sums of numbers stop. -/
theorem plus_le_of_cap_le (hn : cap ≤ n) (ha : a ≤ .finite n) (hb : b ≤ .finite n) : plus a b ≤ .finite n := by
  cases a with
  | undefined => rwa [undefined_plus]
  | unbounded => exact absurd ha not_unbounded_le_finite
  | finite m =>
    cases b with
    | undefined => exact ha
    | unbounded => exact absurd hb not_unbounded_le_finite
    | finite k => exact finite_le_finite.2 (Nat.le_trans (capAdd_le m k) hn)

theorem plus_le_cap (ha : a ≤ .finite cap) (hb : b ≤ .finite cap) : plus a b ≤ .finite cap :=
  plus_le_of_cap_le (Nat.le_refl cap) ha hb

/-! ## Folds -/

theorem foldl_max_le (ha : a ≤ c) (hxs : ∀ x ∈ xs, x ≤ c) : xs.foldl max a ≤ c :=
  List.foldlRecOn (motive := fun b => b ≤ c) xs max ha fun _ hb x hx => max_le hb (hxs x hx)

theorem foldl_plus_le_of_cap_le (hn : cap ≤ n) (ha : a ≤ .finite n)
    (hxs : ∀ x ∈ xs, x ≤ .finite n) :
    xs.foldl plus a ≤ .finite n :=
  List.foldlRecOn (motive := fun b => b ≤ .finite n) xs plus ha fun _ hb x hx =>
    plus_le_of_cap_le hn hb (hxs x hx)

theorem foldl_plus_le_cap (ha : a ≤ .finite cap) (hxs : ∀ x ∈ xs, x ≤ .finite cap) :
    xs.foldl plus a ≤ .finite cap :=
  foldl_plus_le_of_cap_le (Nat.le_refl cap) ha hxs

theorem isDefined_foldl_narrow (ha : a.isDefined = true) : (xs.foldl narrow a).isDefined = true :=
  List.foldlRecOn (motive := fun b => b.isDefined = true) xs narrow ha fun _ hb _ _ =>
    isDefined_narrow hb

theorem isDefined_foldl_plus (ha : a.isDefined = true) : (xs.foldl plus a).isDefined = true := by
  refine List.foldlRecOn (motive := fun b => b.isDefined = true) xs plus ha fun b hb x _ => ?_
  cases b with
  | undefined => cases hb
  | unbounded => rw [unbounded_plus]; exact hb
  | finite m => cases x <;> rfl

theorem foldl_plus_unbounded (h : Count.unbounded ∈ xs) : xs.foldl plus a = .unbounded := by
  induction xs generalizing a with
  | nil => simp at h
  | cons x xs ih =>
    rw [List.foldl_cons]
    by_cases hx : Count.unbounded ∈ xs
    · exact ih hx
    · obtain rfl : x = .unbounded := by simpa [hx, eq_comm] using h
      rw [plus_unbounded]
      refine List.foldlRecOn (motive := fun b => b = .unbounded) xs plus rfl fun b hb x _ => ?_
      rw [hb, unbounded_plus]

theorem lt_foldl_max_iff : c < xs.foldl max a ↔ c < a ∨ ∃ x ∈ xs, c < x := by
  induction xs generalizing a with
  | nil => simp
  | cons x xs ih =>
    rw [List.foldl_cons, ih, lt_max_iff, or_assoc]
    simp only [List.mem_cons, exists_eq_or_imp]

theorem le_foldl_max {x : Count} (hx : x ∈ xs) : x ≤ xs.foldl max a := by
  refine le_of_not_gt fun hlt => ?_
  exact lt_irrefl _ (lt_foldl_max_iff.2 (.inr ⟨x, hx, hlt⟩))

theorem le_foldl_narrow (ha : c ≤ a) (hxs : ∀ x ∈ xs, x.isDefined = true → c ≤ x) :
    c ≤ xs.foldl narrow a := by
  refine List.foldlRecOn (motive := fun b => c ≤ b) xs narrow ha fun b hb x hx => ?_
  unfold narrow
  split
  · rename_i hd
    exact le_min hb (hxs x hx hd)
  · exact hb

theorem foldl_narrow_le (xs : List Count) (a : Count) : xs.foldl narrow a ≤ a := by
  refine List.foldlRecOn (motive := fun b => b ≤ a) xs narrow le_rfl fun b hb x _ => ?_
  unfold narrow
  split
  · exact le_trans (min_le_left b x) hb
  · exact hb

theorem foldl_narrow_le_of_mem {x : Count} (hx : x ∈ xs) (hd : x.isDefined = true) :
    xs.foldl narrow a ≤ x := by
  induction xs generalizing a with
  | nil => exact absurd hx List.not_mem_nil
  | cons y ys ih =>
    rw [List.foldl_cons]
    rcases List.mem_cons.1 hx with rfl | hx
    · refine le_trans (foldl_narrow_le ys _) ?_
      rw [narrow, if_pos hd]
      exact min_le_right a x
    · exact ih hx

theorem pos_plus : 0 < plus a b ↔ 0 < a ∨ 0 < b := by
  cases a with
  | undefined => simp [show ¬ (0 : Count) < .undefined by decide]
  | unbounded => simp [show (0 : Count) < .unbounded by decide]
  | finite m =>
    cases b with
    | undefined => simp [show ¬ (0 : Count) < .undefined by decide]
    | unbounded => simp [show (0 : Count) < .unbounded by decide]
    | finite n =>
      show Count.finite 0 < .finite (min (m + n) cap) ↔ Count.finite 0 < .finite m ∨ Count.finite 0 < .finite n
      have hcap : 0 < cap := by decide
      simp only [finite_lt_finite]
      omega

theorem pos_foldl_plus : 0 < xs.foldl plus a ↔ 0 < a ∨ ∃ x ∈ xs, 0 < x := by
  induction xs generalizing a with
  | nil => simp
  | cons x xs ih =>
    rw [List.foldl_cons, ih, pos_plus, or_assoc]
    simp only [List.mem_cons, exists_eq_or_imp]

theorem pos_foldl_plus_map {α : Type} {f : α → Count} {ys : List α} :
    0 < (ys.map f).foldl plus .undefined ↔ ∃ y ∈ ys, 0 < f y := by
  rw [pos_foldl_plus, or_iff_right (by decide)]
  simp

theorem plus_le (ha : a ≤ .finite m) (hb : b ≤ .finite n) : plus a b ≤ .finite (m + n) := by
  cases a with
  | undefined =>
    rw [undefined_plus]
    exact le_trans hb (finite_le_finite.2 (Nat.le_add_left n m))
  | unbounded => exact absurd ha not_unbounded_le_finite
  | finite i =>
    cases b with
    | undefined => exact le_trans ha (finite_le_finite.2 (Nat.le_add_right m n))
    | unbounded => exact absurd hb not_unbounded_le_finite
    | finite j =>
      have hi := finite_le_finite.1 ha
      have hj := finite_le_finite.1 hb
      show Count.finite (min (i + j) cap) ≤ .finite (m + n)
      rw [finite_le_finite]
      omega

theorem foldl_plus_le {α : Type} {f : α → Count} {g : α → Nat} {ys : List α} (ha : a ≤ .finite m)
    (hys : ∀ y ∈ ys, f y ≤ .finite (g y)) :
    (ys.map f).foldl plus a ≤ .finite (m + sumOf g ys) := by
  induction ys generalizing a m with
  | nil => simpa using ha
  | cons y ys ih =>
    rw [List.map_cons, List.foldl_cons, sumOf_cons, ← Nat.add_assoc]
    exact ih (plus_le ha (hys y (by simp))) fun z hz => hys z (by simp [hz])

/-! ## Budgets -/

theorem finite_le_of_le_floor (ha : a.isDefined = true) (h : n ≤ a.floor) : .finite n ≤ a := by
  cases a with
  | undefined => cases ha
  | finite m => exact finite_le_finite.2 h
  | unbounded => exact le_unbounded _

theorem le_floor_foldl_narrow (ha : n ≤ a.floor) (hxs : ∀ x ∈ xs, n ≤ x.floor) :
    n ≤ (xs.foldl narrow a).floor := by
  refine List.foldlRecOn (motive := fun b => n ≤ b.floor) xs narrow ha fun b hb x hx => ?_
  unfold narrow
  split
  · show n ≤ (if b ≤ x then b else x).floor
    split
    · exact hb
    · exact hxs x hx
  · exact hb

/-- What two counts cover, as far as `cap`, their sum covers together. -/
theorem floor_plus (ha : min m cap ≤ a.floor) (hb : min n cap ≤ b.floor) :
    min (m + n) cap ≤ (plus a b).floor := by
  have hcap : 0 < cap := by decide
  cases a with
  | undefined =>
    rw [undefined_plus]
    change min m cap ≤ 0 at ha
    omega
  | unbounded =>
    rw [unbounded_plus]
    exact Nat.min_le_right _ _
  | finite i =>
    cases b with
    | undefined =>
      rw [plus_undefined]
      change min n cap ≤ 0 at hb
      omega
    | unbounded =>
      rw [plus_unbounded]
      exact Nat.min_le_right _ _
    | finite j =>
      change min m cap ≤ i at ha
      change min n cap ≤ j at hb
      show min (m + n) cap ≤ min (i + j) cap
      omega

theorem floor_foldl_plus {α : Type} {f : α → Count} {g : α → Nat} {ys : List α}
    (ha : min m cap ≤ a.floor) (hys : ∀ y ∈ ys, min (g y) cap ≤ (f y).floor) :
    min (m + sumOf g ys) cap ≤ ((ys.map f).foldl plus a).floor := by
  induction ys generalizing a m with
  | nil => simpa using ha
  | cons y ys ih =>
    rw [List.map_cons, List.foldl_cons, sumOf_cons, ← Nat.add_assoc]
    exact ih (floor_plus ha (hys y (by simp))) fun z hz => hys z (by simp [hz])

/-! ## Values -/

/-- The number of a finite count, zero for any other. -/
def value (a : Count) : Nat := a.finite?.getD 0

theorem value_le_of_le (h : a ≤ .finite n) : a.value ≤ n := by
  cases a with
  | undefined => exact Nat.zero_le n
  | finite m => exact finite_le_finite.1 h
  | unbounded => exact absurd h not_unbounded_le_finite

theorem le_finite_value (h : a ≠ .unbounded) : a ≤ .finite a.value := by
  cases a with
  | undefined => exact undefined_le _
  | finite n => exact le_rfl
  | unbounded => exact absurd rfl h

theorem finite_value_le (hab : a ≤ b) (hb : b.isDefined = true) (ha : a ≠ .unbounded) :
    .finite a.value ≤ b := by
  cases a with
  | undefined =>
    cases b with
    | undefined => cases hb
    | finite n => exact finite_le_finite.2 (Nat.zero_le n)
    | unbounded => exact le_unbounded _
  | finite n => exact hab
  | unbounded => exact absurd rfl ha

theorem eq_finite_value (hd : a.isDefined = true) (hu : a ≠ .unbounded) : a = .finite a.value := by
  cases a with
  | undefined => cases hd
  | finite n => rfl
  | unbounded => exact absurd rfl hu

theorem value_plus (ha : a ≠ .unbounded) (hb : b ≠ .unbounded) :
    plus a b ≠ .unbounded ∧ min (plus a b).value cap = min (a.value + b.value) cap := by
  cases a with
  | unbounded => exact absurd rfl ha
  | undefined => simpa [value, finite?] using hb
  | finite m =>
    cases b with
    | unbounded => exact absurd rfl hb
    | undefined => simp [value, finite?]
    | finite n => simp [value, finite?, capAdd]

/-- A sum of counts without an unbounded one, as far as `cap`. -/
theorem foldl_plus_value (xs : List Count) (ha : a ≠ .unbounded) (hxs : ∀ x ∈ xs, x ≠ .unbounded) :
    xs.foldl plus a ≠ .unbounded ∧
      min (xs.foldl plus a).value cap = min (a.value + sumOf value xs) cap := by
  induction xs generalizing a with
  | nil => exact ⟨ha, rfl⟩
  | cons x xs ih =>
    obtain ⟨hne, hvalue⟩ := value_plus ha (hxs x (by simp))
    obtain ⟨hne', hvalue'⟩ := ih hne fun y hy => hxs y (by simp [hy])
    refine ⟨hne', ?_⟩
    rw [List.foldl_cons, hvalue', sumOf_cons]
    omega

/-! ## Unknown counts that pass for zero -/

/-- The counts are equal, where an unknown one passes for zero. -/
def Alike (a b : Count) : Prop := max 0 a = max 0 b

theorem Alike.lt_iff (h : Alike a b) (hc : 0 ≤ c) : c < a ↔ c < b := by
  have hmax : ∀ d : Count, c < d ↔ c < max 0 d := fun d => by
    rw [lt_max_iff]
    exact (or_iff_right (not_lt.2 hc)).symm
  rw [hmax a, hmax b, h]

theorem alike_of_lt_iff (h : ∀ c : Count, 0 ≤ c → (c < a ↔ c < b)) : Alike a b := by
  refine eq_of_forall_lt_iff fun c => ?_
  rw [lt_max_iff, lt_max_iff]
  rcases lt_or_ge c 0 with hc | hc
  · exact iff_of_true (.inl hc) (.inl hc)
  · exact or_congr_right (h c hc)

theorem Alike.max_eq (h : Alike a b) (hc : 0 ≤ c) : max c a = max c b := by
  refine eq_of_forall_lt_iff fun d => ?_
  rw [lt_max_iff, lt_max_iff]
  rcases lt_or_ge d 0 with hd | hd
  · exact iff_of_true (.inl (lt_of_lt_of_le hd hc)) (.inl (lt_of_lt_of_le hd hc))
  · exact or_congr_right (h.lt_iff hd)

/-- Below `cap`, an unknown summand may pass for zero. -/
theorem max_zero_plus (ha : a ≤ .finite cap) (hb : b ≤ .finite cap) :
    max 0 (plus a b) = plus (max 0 a) (max 0 b) := by
  rw [max_zero_eq, max_zero_eq, max_zero_eq]
  cases a with
  | unbounded => exact absurd ha not_unbounded_le_finite
  | undefined =>
    cases b with
    | unbounded => exact absurd hb not_unbounded_le_finite
    | undefined => rfl
    | finite n =>
      have hn : n ≤ cap := finite_le_finite.1 hb
      show Count.finite n = .finite (min (0 + n) cap)
      rw [Nat.zero_add, Nat.min_eq_left hn]
  | finite m =>
    have hm : m ≤ cap := finite_le_finite.1 ha
    cases b with
    | unbounded => exact absurd hb not_unbounded_le_finite
    | undefined =>
      show Count.finite m = .finite (min (m + 0) cap)
      rw [Nat.add_zero, Nat.min_eq_left hm]
    | finite n => rfl

/-- Sums of summands that are alike are alike. -/
theorem alike_foldl_plus {α : Type} {f g : α → Count} {ys : List α} (hab : Alike a b)
    (ha : a ≤ .finite cap) (hb : b ≤ .finite cap) (hfg : ∀ y ∈ ys, Alike (f y) (g y))
    (hf : ∀ y ∈ ys, f y ≤ .finite cap) (hg : ∀ y ∈ ys, g y ≤ .finite cap) :
    Alike ((ys.map f).foldl plus a) ((ys.map g).foldl plus b) := by
  induction ys generalizing a b with
  | nil => exact hab
  | cons y ys ih =>
    have hplus : Alike (plus a (f y)) (plus b (g y)) := by
      unfold Alike
      rw [max_zero_plus ha (hf y (by simp)), max_zero_plus hb (hg y (by simp)), hab, hfg y (by simp)]
    exact ih hplus (plus_le_cap ha (hf y (by simp))) (plus_le_cap hb (hg y (by simp)))
      (fun z hz => hfg z (by simp [hz])) (fun z hz => hf z (by simp [hz])) fun z hz => hg z (by simp [hz])

end RuleCardinality.Count
