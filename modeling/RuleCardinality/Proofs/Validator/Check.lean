import RuleCardinality.Proofs.View.Range
import RuleCardinality.Validator.Check

/-!
# What the final check sees

The final check looks at sums only: a field passes exactly if what some of its nodes lack can be spared
by others, and what some have too much finds room at others (`admits_fieldWindow_iff`). A state without
violation passes (`balanced_of_quality`), but the converse does not hold.
-/

namespace RuleCardinality.View

variable {w : View} {q : Quantities} {field : String}

/-- The nodes of a field could make up for each other, each within its own window as it is now. -/
structure Balanced (w : View) (q : Quantities) (field : String) : Prop where
  /-- What some nodes lack, others can spare; a sum that has reached `cap` counts as enough. -/
  lack : sumOf (fun v => (w.window q none v).deficit (q.share v)) (q.writers w.rule field) ≤
      sumOf (fun v => (w.window q none v).surplus (q.share v)) (q.writers w.rule field) ∨
    q.count field = cap
  /-- What some nodes have too much, others have room for. -/
  excess : sumOf (fun v => (w.window q none v).excess (q.share v)) (q.writers w.rule field) ≤
    sumOf (fun v => (w.window q none v).headroom (q.share v)) (q.writers w.rule field)

/-! ## The bounds of a field -/

variable {nodes : List Nat}

/-- The sum of the minimums, which is taken without an unbounded one. -/
theorem min_fieldWindow (hq : ∀ v, q.share v ≤ cap) (nodes : List Nat) :
    (w.fieldWindow q nodes).min ≠ .unbounded ∧
      (w.fieldWindow q nodes).min.value = min (sumOf (fun v => (w.minCount q v).value) nodes) cap := by
  have hmins : ∀ n ∈ nodes.map (w.minCount q), n ≤ .finite cap := fun n hn => by
    obtain ⟨v, _, rfl⟩ := List.mem_map.1 hn
    exact minCount_le_cap hq v
  have hle : (w.fieldWindow q nodes).min ≤ .finite cap :=
    Count.foldl_plus_le_cap (Count.undefined_le _) hmins
  obtain ⟨hne, hvalue⟩ := Count.foldl_plus_value (a := .undefined) (nodes.map (w.minCount q)) (by simp)
    fun n hn => Count.ne_unbounded_of_le (hmins n hn)
  refine ⟨hne, ?_⟩
  have hcap := Count.value_le_of_le hle
  have hzero : Count.undefined.value = 0 := rfl
  rw [sumOf_map, hzero, Nat.zero_add] at hvalue
  rw [← hvalue]
  exact (Nat.min_eq_left hcap).symm

/-- The sum of the maximums, if none of them is unbounded. -/
theorem max_fieldWindow (hfinite : ∀ v ∈ nodes, w.maxCount q none v ≠ .unbounded) :
    ∃ n, (w.fieldWindow q nodes).max = .finite n ∧
      min n cap = min (sumOf (fun v => (w.maxCount q none v).value) nodes) cap := by
  obtain ⟨hne, hvalue⟩ := Count.foldl_plus_value (a := 0) (nodes.map (w.maxCount q none)) (by simp)
    fun n hn => by
      obtain ⟨v, hv, rfl⟩ := List.mem_map.1 hn
      exact hfinite v hv
  have hzero : Count.value 0 = 0 := rfl
  rw [sumOf_map, hzero, Nat.zero_add] at hvalue
  exact ⟨_, Count.eq_finite_value (Count.isDefined_foldl_plus rfl) hne, hvalue⟩

/-- The sum of the minimums is met exactly if no more is lacking than can be spared. -/
theorem deficit_fieldWindow_eq_zero_iff (hq : ∀ v, q.share v ≤ cap) (hc : q.count field ≤ cap)
    (ht : sumOf q.share nodes = q.count field) :
    (w.fieldWindow q nodes).deficit (q.count field) = 0 ↔
      sumOf (fun v => (w.window q none v).deficit (q.share v)) nodes ≤
          sumOf (fun v => (w.window q none v).surplus (q.share v)) nodes ∨
        q.count field = cap := by
  obtain ⟨hne, hvalue⟩ := min_fieldWindow (w := w) hq nodes
  have hbalance : sumOf (fun v => (w.minCount q v).value) nodes +
        sumOf (fun v => (w.window q none v).surplus (q.share v)) nodes =
      sumOf q.share nodes + sumOf (fun v => (w.window q none v).deficit (q.share v)) nodes :=
    sumOf_add_eq_add fun v _ => Window.deficit_balance (w := w.window q none v)
      (Count.ne_unbounded_of_le (minCount_le_cap hq v)) (q.share v)
  rw [Window.deficit_eq hne, hvalue, Nat.sub_eq_zero_iff_le]
  omega

/-- The sum of the maximums is kept exactly if there is room for whatever is too much. -/
theorem excess_fieldWindow_eq_zero_iff (hc : q.count field ≤ cap)
    (ht : sumOf q.share nodes = q.count field) :
    (w.fieldWindow q nodes).excess (q.count field) = 0 ↔
      sumOf (fun v => (w.window q none v).excess (q.share v)) nodes ≤
        sumOf (fun v => (w.window q none v).headroom (q.share v)) nodes := by
  by_cases hu : ∃ v ∈ nodes, w.maxCount q none v = .unbounded
  · -- One node takes anything: its headroom is `cap`, and no excess is larger than all shares.
    obtain ⟨v, hv, hmax⟩ := hu
    have hexcess : sumOf (fun v => (w.window q none v).excess (q.share v)) nodes ≤
        sumOf q.share nodes := sumOf_le_sumOf fun v _ => Window.excess_le _ _
    have hroom : (w.window q none v).headroom (q.share v) = cap := by
      simp only [Window.headroom, window, hmax]
    have hsum := le_sumOf (f := fun v => (w.window q none v).headroom (q.share v)) hv
    have hfold : (w.fieldWindow q nodes).max = .unbounded :=
      Count.foldl_plus_unbounded (List.mem_map.2 ⟨v, hv, hmax⟩)
    rw [Window.excess_eq_zero hfold]
    exact iff_of_true rfl (by omega)
  · have hne : ∀ v ∈ nodes, w.maxCount q none v ≠ .unbounded := fun v hv hmax => hu ⟨v, hv, hmax⟩
    obtain ⟨n, hn, hvalue⟩ := max_fieldWindow hne
    have hbalance : sumOf (fun v => (w.maxCount q none v).value) nodes +
          sumOf (fun v => (w.window q none v).excess (q.share v)) nodes =
        sumOf q.share nodes + sumOf (fun v => (w.window q none v).headroom (q.share v)) nodes :=
      sumOf_add_eq_add fun v hv => Window.excess_balance (w := w.window q none v)
        (Count.eq_finite_value (isDefined_maxCount w q none v) (hne v hv)) (q.share v)
    rw [Window.excess_eq hn, Nat.sub_eq_zero_iff_le]
    omega

/-- A field passes the final check exactly if its nodes could make up for each other. -/
theorem admits_fieldWindow_iff (hq : ∀ v, q.share v ≤ cap) (hc : q.count field ≤ cap)
    (ht : q.total w.rule field = q.count field) :
    (w.fieldWindow q (q.writers w.rule field)).admits (q.count field) = true ↔ w.Balanced q field := by
  rw [Window.admits_iff, deficit_fieldWindow_eq_zero_iff hq hc ht, excess_fieldWindow_eq_zero_iff hc ht]
  exact ⟨fun h => ⟨h.1, h.2⟩, fun h => ⟨h.1, h.2⟩⟩

/-- Where every node is inside its own window, nothing has to be made up for. -/
theorem balanced_of_quality (h : w.quality q = 0) (field : String) : w.Balanced q field := by
  have hin : ∀ v ∈ q.writers w.rule field, (w.ownWindow q v).deficit (q.share v) = 0 ∧
      (w.ownWindow q v).excess (q.share v) = 0 := fun v hv =>
    Window.admits_iff.1 (quality_eq_zero_iff.1 h v (Quantities.mem_writers.1 hv).1)
  have hlack : sumOf (fun v => (w.window q none v).deficit (q.share v)) (q.writers w.rule field) = 0 :=
    sumOf_eq_zero_iff.2 fun v hv => (hin v hv).1
  have hexcess : sumOf (fun v => (w.window q none v).excess (q.share v)) (q.writers w.rule field) = 0 :=
    sumOf_eq_zero_iff.2 fun v hv =>
      Nat.le_zero.1 (Nat.le_trans (excess_window_le w q v _) (Nat.le_of_eq (hin v hv).2))
  exact ⟨.inl (by rw [hlack]; exact Nat.zero_le _), by rw [hexcess]; exact Nat.zero_le _⟩

/-! ## The whole check -/

theorem check_eq (hf : q.fault? w.rule = none) :
    w.check q = .ok ((w.violations q).map (Diagnostic.bounds w.rule w.type)) := by
  unfold check
  rw [hf]

theorem violation?_eq_none_iff :
    w.violation? q field nodes = none ↔ (w.fieldWindow q nodes).admits (q.count field) = true := by
  unfold violation?
  simp only
  split
  · rename_i h
    exact iff_of_true rfl h
  · rename_i h
    exact iff_of_false (by simp) h

theorem violations_eq_nil_iff_admits :
    w.violations q = [] ↔ ∀ field ∈ q.fields w.rule,
      (w.fieldWindow q (q.writers w.rule field)).admits (q.count field) = true := by
  unfold violations Quantities.groups
  rw [List.filterMap_map, List.filterMap_eq_nil_iff]
  exact forall₂_congr fun field _ => violation?_eq_none_iff

/-- Shares that add up pass the check exactly if every field is balanced. -/
theorem violations_eq_nil_iff (hf : q.fault? w.rule = none) (hq : ∀ v, q.share v ≤ cap)
    (hc : ∀ field, q.count field ≤ cap) :
    w.violations q = [] ↔ ∀ field ∈ q.fields w.rule, w.Balanced q field := by
  rw [violations_eq_nil_iff_admits]
  refine forall₂_congr fun field hfield => ?_
  exact admits_fieldWindow_iff hq (hc field) (Quantities.fault?_eq_none_iff.1 hf field hfield)

/-- Shares that add up and lie inside the windows of their nodes pass the check. -/
theorem check_eq_ok_nil (hf : q.fault? w.rule = none) (hq : ∀ v, q.share v ≤ cap)
    (hc : ∀ field, q.count field ≤ cap) (hzero : w.quality q = 0) : w.check q = .ok [] := by
  have hnil : w.violations q = [] :=
    (violations_eq_nil_iff hf hq hc).2 fun field _ => balanced_of_quality hzero field
  rw [check_eq hf, hnil]
  rfl

end RuleCardinality.View
