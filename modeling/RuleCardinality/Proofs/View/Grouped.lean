import RuleCardinality.Proofs.View.Filled

/-!
# Firing numbers from windows

In a rule of groups and assignments, shares inside all windows are the firings of some run. The windows
make every child of a group supply at least what every other child demands (`demand_le_supply`), so the
loads stay below the reaches (`load_le_reach`). From the root down each node can then be given a number
of firings between the two (`Between`), and an assignment has no choice but its share.
-/

namespace RuleCardinality

/-- Every node of the rule is a group or an assignment. -/
def Rule.Grouped (r : Rule) : Prop := ∀ v ∈ r.ids, r.shape v = .group ∨ (r.field? v).isSome

instance (r : Rule) : Decidable r.Grouped :=
  inferInstanceAs (Decidable (∀ v ∈ r.ids, r.shape v = .group ∨ (r.field? v).isSome))

namespace Rule

variable {r : Rule} {v c : Nat}

theorem Grouped.actionless (hg : r.Grouped) : r.Actionless := by
  intro v hv hs
  rcases hg v hv with h | h
  · simp [hs] at h
  · simp [field?, hs, Shape.field?] at h

theorem Grouped.shape_ne_alternative (hg : r.Grouped) (v : Nat) : r.shape v ≠ .alternative := by
  intro hs
  have hv : v < r.size := lt_size_of_shape_ne (by simp [hs])
  rcases hg v (List.mem_range.2 hv) with h | h
  · simp [hs] at h
  · simp [field?, hs, Shape.field?] at h

theorem Grouped.exclusive (hg : r.Grouped) (fired : Nat → Nat) : r.Exclusive fired :=
  fun v _ hs => absurd hs (hg.shape_ne_alternative v)

theorem Grouped.visible (hg : r.Grouped) (visits fired : Nat → Nat) : r.Visible visits fired :=
  fun v _ hs => absurd hs (hg.shape_ne_alternative v)

theorem Grouped.group_of_mem_children (hg : r.Grouped) (hc : c ∈ r.children v) :
    r.shape v = .group := by
  rcases composite_of_mem_children hc with hs | hs
  · exact hs
  · exact absurd hs (hg.shape_ne_alternative v)

end Rule

namespace View

open Quantities

variable {w : View} {q : Quantities} {v c d k : Nat}

section

variable (hr : w.rule.Unguarded) (hg : w.rule.Grouped) (hq : ∀ v, q.share v ≤ cap) (hw : w.Settled q)

include hr hg hw

/-! ## Demand and supply -/

include hq in
/-- What a node has to do, its shares allow. -/
theorem minCount_le_supply (hv : v < w.rule.size) : w.minCount q v ≤ w.supply q v := by
  induction v using Rule.induction_down (r := w.rule) with
  | step v ih =>
    have hb : w.blocked v = false := blocked_of_unguarded hr v
    rw [supply_eq_reach hb]
    by_cases ho : w.rule.optional v = true
    · rw [if_pos ho]
      exact Count.le_unbounded _
    · rw [if_neg ho]
      rcases hg v (List.mem_range.2 hv) with hs | hf
      · refine le_reach_group hs ?_
        intro c hc
        by_cases hoc : w.rule.optional c = true
        · rw [supply_optional (blocked_of_unguarded hr c) hoc]
          exact Count.le_unbounded _
        · have hchild := ih c hc (Rule.lt_of_mem_children hc).2
          rw [minCount_child hc (by simpa using hoc)] at hchild
          exact le_trans (minCount_le_leastIn hb hs c) hchild
      · rw [reach_assignment hw.complete hf]
        exact hw.minCount_le_share hq hf

/-- What fires once at most, or as often as it likes, demands one firing at most. -/
theorem demand_le_one_of_maxCount (hv : v < w.rule.size)
    (hmax : w.rule.repeatable v = true ∨ w.maxCount q none v ≤ 1) : w.demand q v ≤ 1 := by
  induction v using Rule.induction_down (r := w.rule) with
  | step v ih =>
    have hb : w.blocked v = false := blocked_of_unguarded hr v
    rcases hmax with hrep | hmax
    · exact demand_le_one hb hrep
    · refine le_trans (demand_le_load hb) ?_
      rcases hg v (List.mem_range.2 hv) with hs | hf
      · refine load_group_le hs ?_
        intro c hc
        exact ih c hc (Rule.lt_of_mem_children hc).2 (maxCount_child_le_one hmax hc)
      · rw [load_assignment hw.complete hf]
        exact le_trans (hw.share_le_maxCount hf) hmax

include hq in
/-- Each child of a group supplies what any other child demands. -/
theorem demand_le_supply (hc : c ∈ w.rule.children v) (hd : d ∈ w.rule.children v) (hne : c ≠ d) :
    w.demand q c ≤ w.supply q d := by
  have hb : w.blocked v = false := blocked_of_unguarded hr v
  have hs : w.rule.shape v = .group := hg.group_of_mem_children hd
  by_cases ho : w.rule.optional d = true
  · rw [supply_optional (blocked_of_unguarded hr d) ho]
    exact Count.le_unbounded _
  · refine le_trans ?_ (minCount_le_supply hr hg hq hw (Rule.lt_of_mem_children hd).2)
    rw [minCount_child hd (by simpa using ho)]
    cases hroot : w.plainRoot v with
    | false => exact demand_le_leastIn hb hs hroot hc hne
    | true =>
      -- a plain root hands down one firing and allows no more
      rw [leastIn_group hb hs, hroot, if_pos rfl]
      refine demand_le_one_of_maxCount hr hg hw (Rule.lt_of_mem_children hc).2 ?_
      exact maxCount_child_le_one (maxCount_plainRoot hroot ▸ le_rfl) hc

include hq in
theorem load_le_reach (hv : v < w.rule.size) : w.load q v ≤ w.reach q v := by
  induction v using Rule.induction_down (r := w.rule) with
  | step v ih =>
    rcases hg v (List.mem_range.2 hv) with hs | hf
    · refine load_group_le hs ?_
      intro c hc
      refine le_reach_group hs ?_
      intro d hd
      by_cases hcd : c = d
      · subst hcd
        refine le_trans (demand_le_load (blocked_of_unguarded hr c)) ?_
        rw [supply_eq_reach (blocked_of_unguarded hr c)]
        split
        · exact Count.le_unbounded _
        · exact ih c hc (Rule.lt_of_mem_children hc).2
      · exact demand_le_supply hr hg hq hw hc hd hcd
    · rw [load_assignment hw.complete hf, reach_assignment hw.complete hf]

end

/-! ## Firing numbers -/

/-- A number of firings that accounts for the shares below a node and that they allow. -/
structure Between (w : View) (q : Quantities) (v k : Nat) : Prop where
  loaded : w.load q v ≤ .finite k
  reached : .finite k ≤ w.reach q v

/-- The least number of firings that a node can have at `k` visits. -/
def leastFirings (w : View) (q : Quantities) (v k : Nat) : Nat :=
  if w.rule.optional v then (w.load q v).value else max (w.load q v).value k

/-- The least number of firings of every node, from the root down. -/
def firings (w : View) (q : Quantities) (v : Nat) : Nat :=
  match _h : w.rule.container v with
  | none => w.leastFirings q v 1
  | some c => w.leastFirings q v (w.firings q c)
termination_by v
decreasing_by exact Rule.lt_of_container _h

theorem firings_eq (w : View) (q : Quantities) (v : Nat) :
    w.firings q v = w.leastFirings q v ((w.rule.container v).elim 1 (w.firings q)) := by
  rw [firings]; split <;> rename_i h <;> simp [h]

/-- The least number of firings fits the cardinality if the visits are as many as demanded and no more than
supplied. -/
theorem fits_leastFirings (hb : w.blocked v = false) (hd : w.demand q v ≤ .finite k) :
    w.rule.Fits v (w.leastFirings q v k) k := by
  have hplain : w.rule.repeatable v = false → (w.load q v).value ≤ k := by
    intro hrep
    rw [demand_eq_load_of_not_repeatable hb hrep] at hd
    exact Count.value_le_of_le hd
  have hzero : k = 0 → (w.load q v).value = 0 := by
    rintro rfl
    exact Nat.le_zero.1 (Count.value_le_of_le (load_le_of_demand_le_zero hb hd))
  unfold leastFirings
  rw [Rule.fits_iff]
  by_cases ho : w.rule.optional v = true
  · simp only [ho, if_true]
    exact ⟨by simp, hplain, hzero⟩
  · simp only [ho]
    refine ⟨fun _ => Nat.le_max_right _ _, fun hrep => ?_, fun hk => ?_⟩
    · exact Nat.max_le.2 ⟨hplain hrep, Nat.le_refl k⟩
    · rw [hzero hk, hk]
      rfl

theorem between_leastFirings (hb : w.blocked v = false) (hload : w.load q v ≠ .unbounded)
    (hreach : (w.reach q v).isDefined = true) (hle : w.load q v ≤ w.reach q v)
    (hs : .finite k ≤ w.supply q v) : w.Between q v (w.leastFirings q v k) := by
  have hloaded : w.load q v ≤ .finite (w.load q v).value := Count.le_finite_value hload
  have hreached : .finite (w.load q v).value ≤ w.reach q v := Count.finite_value_le hle hreach hload
  unfold leastFirings
  rw [supply_eq_reach hb] at hs
  by_cases ho : w.rule.optional v = true
  · rw [if_pos ho]
    exact ⟨hloaded, hreached⟩
  · rw [if_neg ho] at hs ⊢
    rcases Nat.le_total (w.load q v).value k with hk | hk
    · rw [Nat.max_eq_right hk]
      exact ⟨le_trans hloaded (Count.finite_le_finite.2 hk), hs⟩
    · rw [Nat.max_eq_left hk]
      exact ⟨hloaded, hreached⟩

section

variable (hr : w.rule.Unguarded) (hg : w.rule.Grouped) (hq : ∀ v, q.share v ≤ cap) (hw : w.Settled q)

include hg hw in
theorem isDefined_reach (hv : v < w.rule.size) : (w.reach q v).isDefined = true := by
  rcases hg v (List.mem_range.2 hv) with hs | hf
  · unfold reach
    rw [hs]
    exact Count.isDefined_foldl_narrow rfl
  · rw [reach_assignment hw.complete hf]
    rfl

include hr hg hw in
theorem isDefined_supply (hv : v < w.rule.size) : (w.supply q v).isDefined = true := by
  rw [supply_eq_reach (blocked_of_unguarded hr v)]
  exact Count.isDefined_ite rfl (isDefined_reach hg hw hv)

include hr hg hq hw

theorem root_between : w.demand q w.rule.root ≤ .finite 1 ∧ .finite 1 ≤ w.supply q w.rule.root := by
  have hv : w.rule.root < w.rule.size := w.rule.size_pos
  have hroot := w.rule.container_root
  constructor
  · refine demand_le_one_of_maxCount hr hg hw hv ?_
    by_cases hrep : w.rule.repeatable w.rule.root = true
    · exact .inl hrep
    · right
      unfold maxCount
      simp only [hroot, hrep, Option.elim_none, Bool.false_and]
      exact le_rfl
  · by_cases ho : w.rule.optional w.rule.root = true
    · rw [supply_optional (blocked_of_unguarded hr _) ho]
      exact Count.le_unbounded _
    · have hle := minCount_le_supply hr hg hq hw hv
      rw [minCount_eq, if_neg ho, hroot] at hle
      exact hle

/-- At each node the firings fit the visits and lie between what is needed and what is allowed. -/
theorem fits_firings (hv : v < w.rule.size) :
    w.rule.Fits v (w.firings q v) ((w.rule.container v).elim 1 (w.firings q)) ∧
      w.Between q v (w.firings q v) := by
  induction v using Rule.induction_up (r := w.rule) with
  | step v ih =>
    have hb : w.blocked v = false := blocked_of_unguarded hr v
    have hvisits : w.demand q v ≤ .finite ((w.rule.container v).elim 1 (w.firings q)) ∧
        .finite ((w.rule.container v).elim 1 (w.firings q)) ≤ w.supply q v := by
      cases hp : w.rule.container v with
      | none =>
        rw [Rule.eq_root_of_container hv hp]
        exact root_between hr hg hq hw
      | some p =>
        have hc : v ∈ w.rule.children p := Rule.mem_children.2 hp
        have hs : w.rule.shape p = .group := hg.group_of_mem_children hc
        obtain ⟨-, hloaded, hreached⟩ := ih p hp (lt_trans (Rule.lt_of_container hp) hv)
        have hdefined := isDefined_supply hr hg hw hv
        exact ⟨le_trans (demand_le_load_group hs hc) hloaded,
          le_trans hreached (reach_group_le_supply hs hc hdefined)⟩
    rw [firings_eq]
    constructor
    · exact fits_leastFirings hb hvisits.1
    · exact between_leastFirings hb (Count.ne_unbounded_of_le (load_le_cap hq v))
        (isDefined_reach hg hw hv) (load_le_reach hr hg hq hw hv) hvisits.2

/-- Shares inside all windows are the firings of the assignments in some run. -/
theorem exists_firing {count : String → Nat}
    (hcount : ∀ v field, w.rule.field? v = some field → q.share? v = some (count field)) :
    ∃ fired, w.rule.Firing count fired := by
  refine ⟨w.firings q, ?_, ?_, ?_⟩
  · have hroot : w.rule.root < w.rule.size := w.rule.size_pos
    have h := (fits_firings hr hg hq hw hroot).1
    rw [Rule.container_root] at h
    exact h
  · intro v c hc
    have h := (fits_firings hr hg hq hw (Rule.lt_of_mem_children hc).2).1
    rw [Rule.mem_children.1 hc] at h
    exact h
  · intro v field hf
    obtain ⟨-, hloaded, hreached⟩ := fits_firings hr hg hq hw (Rule.lt_size_of_field? hf)
    have hv : (w.rule.field? v).isSome := by simp [hf]
    rw [load_assignment hw.complete hv] at hloaded
    rw [reach_assignment hw.complete hv] at hreached
    rw [share_of_share? (hcount v field hf)] at hloaded hreached
    exact Nat.le_antisymm (Count.finite_le_finite.1 hreached) (Count.finite_le_finite.1 hloaded)

end

end View

end RuleCardinality
