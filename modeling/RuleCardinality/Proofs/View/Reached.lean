import RuleCardinality.Proofs.Rule.Firing
import RuleCardinality.Proofs.Validator.Targets
import RuleCardinality.Proofs.View.Child

/-!
# What reached shares say to the nodes above them

A positive share is felt at every node from which the walk for a type reaches its assignment: the node
demands a firing, unless a blocked node on the way leaves the assignment nothing at all
(`demand_pos_of_reached`). So of an alternative that cannot repeat one branch at most leads to positive
shares that their maximums allow (`eq_of_reached`), whatever stands between the alternative and the
assignments.
-/

namespace RuleCardinality.View

variable {w : View} {q : Quantities} {exclude : Option String} {u v c d x y : Nat}

theorem mem_reached_iff :
    x ∈ w.reached v ↔ w.applies v = true ∧ (x = v ∨ ∃ c ∈ w.rule.children v, x ∈ w.reached c) := by
  rw [reached_eq]
  split
  · rename_i h
    rw [List.mem_cons, List.mem_flatMap]
    exact ⟨fun hx => ⟨h, hx⟩, And.right⟩
  · rename_i h
    exact iff_of_false List.not_mem_nil fun hx => h hx.1

/-- What is reached from a child of a reached node is reached. -/
theorem mem_reached_of_child (hv : v ∈ w.reached u) (hc : c ∈ w.rule.children v)
    (hx : x ∈ w.reached c) : x ∈ w.reached u := by
  induction u using Rule.induction_down (r := w.rule) with
  | step u ih =>
    obtain ⟨happlies, rfl | ⟨d, hd, hvd⟩⟩ := mem_reached_iff.1 hv
    · exact mem_reached_iff.2 ⟨happlies, .inr ⟨c, hc, hx⟩⟩
    · exact mem_reached_iff.2 ⟨happlies, .inr ⟨d, hd, ih d hd hvd⟩⟩

theorem mem_subtree_of_mem_reached (hx : x ∈ w.reached v) : x ∈ w.rule.subtree v := by
  induction v using Rule.induction_down (r := w.rule) with
  | step v ih =>
    rw [Rule.subtree_eq, List.mem_cons, List.mem_flatMap]
    exact (mem_reached_iff.1 hx).2.imp_right fun ⟨c, hc, hxc⟩ => ⟨c, hc, ih c hc hxc⟩

/-- Only the guard of an assignment can block it. -/
theorem blocked_assignment (hf : (w.rule.field? v).isSome) : w.blocked v = !w.applies v := by
  obtain ⟨field, hfield⟩ := Option.isSome_iff_exists.1 hf
  rw [blocked_eq, Rule.shape_of_field? hfield, Bool.or_false]

/-- Nothing below a blocked node can fire. -/
theorem maxCount_of_blocked (hb : w.blocked v = true) (hc : c ∈ w.rule.children v)
    (hx : x ∈ w.rule.subtree c) : w.maxCount q exclude x = 0 := by
  refine maxCount_eq_zero_of_mem_subtree ?_ hx
  rw [maxCount_eq_zero_iff, mostAbove_child hc, mostIn_eq_mostAbove, if_pos hb]

theorem pos_once_iff {p : Prop} [Decidable p] {n : Count} :
    0 < (if p ∧ 1 < n then 1 else n) ↔ 0 < n := by
  split
  · rename_i h
    exact iff_of_true (by decide) (lt_trans (by decide) h.2)
  · rfl

theorem demand_pos_iff_load (hb : w.blocked v = false) : 0 < w.demand q v ↔ 0 < w.load q v := by
  rw [demand_eq_load hb]
  simp only [Bool.and_eq_true, decide_eq_true_eq, pos_once_iff]

/-- A group or an alternative demands a firing if one of its children does. -/
theorem demand_pos_of_child (hb : w.blocked v = false) (hc : c ∈ w.rule.children v)
    (hpos : 0 < w.demand q c) : 0 < w.demand q v := by
  have hmem : ∃ n ∈ (w.rule.children v).map (w.demand q), 0 < n := ⟨_, List.mem_map_of_mem hc, hpos⟩
  rw [demand_pos_iff_load hb]
  unfold load
  rcases Rule.composite_of_mem_children hc with hs | hs
  · rw [hs, Count.lt_foldl_max_iff]
    exact .inr hmem
  · rw [hs, Count.pos_foldl_plus]
    exact .inr hmem

/-- An assignment with a positive share and some room for it. -/
structure Granted (w : View) (q : Quantities) (x : Nat) : Prop where
  writes : (w.rule.field? x).isSome
  share_pos : 0 < q.share x
  room : w.maxCount q none x ≠ 0

theorem Granted.shareCount_pos (h : w.Granted q x) : 0 < q.shareCount x := by
  have hpos := h.share_pos
  unfold Quantities.share at hpos
  unfold Quantities.shareCount
  cases hs : q.share? x with
  | none => simp [hs] at hpos
  | some n => exact Count.finite_lt_finite.2 (by simpa [hs] using hpos)

/-- A positive share is felt at every node from which its assignment is reached. -/
theorem demand_pos_of_reached (hx : x ∈ w.reached v) (h : w.Granted q x) : 0 < w.demand q v := by
  induction v using Rule.induction_down (r := w.rule) with
  | step v ih =>
    obtain ⟨happlies, rfl | ⟨c, hc, hxc⟩⟩ := mem_reached_iff.1 hx
    · obtain ⟨field, hfield⟩ := Option.isSome_iff_exists.1 h.writes
      have hb : w.blocked x = false := by rw [blocked_assignment h.writes, happlies]; rfl
      rw [demand_pos_iff_load hb]
      unfold load
      rw [Rule.shape_of_field? hfield]
      exact h.shareCount_pos
    · -- A blocked node on the way would leave the assignment no room.
      have hb : w.blocked v = false := by
        by_contra hb
        exact h.room (maxCount_of_blocked (by simpa using hb) hc (mem_subtree_of_mem_reached hxc))
      exact demand_pos_of_child hb hc (ih c hc hxc)

/-- An alternative that cannot repeat leaves nothing to a branch if another branch demands a firing. -/
theorem maxCount_branch_eq_zero (hs : w.rule.shape v = .alternative)
    (hrep : w.rule.repeatable v = false) (hc : c ∈ w.rule.children v) (hd : d ∈ w.rule.children v)
    (hne : d ≠ c) (hpos : 0 < w.demand q d) : w.maxCount q none c = 0 := by
  have hdead : w.branchDead q none v c = true :=
    List.any_eq_true.2 ⟨d, hd, by rw [if_neg hne]; exact decide_eq_true hpos⟩
  rw [maxCount_eq_zero_iff, mostAbove_child hc]
  cases hb : w.blocked v with
  | true => rw [mostIn_eq_mostAbove, if_pos hb]
  | false =>
    rw [mostIn_alternative hb hs, hrep, hdead]
    rfl

/-- Two branches of an alternative that cannot repeat do not both lead to granted shares. -/
theorem eq_of_reached (hs : w.rule.shape v = .alternative) (hrep : w.rule.repeatable v = false)
    (hc : c ∈ w.rule.children v) (hd : d ∈ w.rule.children v) (hx : x ∈ w.reached c)
    (hy : y ∈ w.reached d) (hgx : w.Granted q x) (hgy : w.Granted q y) : c = d := by
  by_contra hne
  have hpos : 0 < w.demand q d := demand_pos_of_reached hy hgy
  have hzero : w.maxCount q none c = 0 := maxCount_branch_eq_zero hs hrep hc hd (Ne.symm hne) hpos
  exact hgx.room (maxCount_eq_zero_of_mem_subtree hzero (mem_subtree_of_mem_reached hx))

end RuleCardinality.View
