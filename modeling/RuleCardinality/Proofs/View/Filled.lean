import RuleCardinality.Proofs.View.Reached
import RuleCardinality.Proofs.View.Unguarded

/-!
# Which nodes leave values

In a rule without guards and actions the nodes that demand a firing are those with a positive share at
or below them (`demand_pos_iff`). In a state with every share inside its window (`Settled`) no two
branches of an alternative that is not repeatable leave values (`eq_of_filled`).
-/

namespace RuleCardinality

namespace Quantities

variable {q : Quantities} {r : Rule} {v : Nat} {field : String}

/-- Every assignment of the rule has a share. -/
def Complete (q : Quantities) (r : Rule) : Prop := ∀ v, (r.field? v).isSome → (q.share? v).isSome

theorem shareCount_eq (hq : q.Complete r) (hf : r.field? v = some field) :
    q.shareCount v = .finite (q.share v) := by
  unfold shareCount
  rw [share?_eq_share (hq v (by simp [hf]))]
  rfl

end Quantities

namespace View

open Quantities

variable {w : View} {q : Quantities} {exclude : Option String} {v c d : Nat}

theorem load_assignment (hq : q.Complete w.rule) (hv : (w.rule.field? v).isSome) :
    w.load q v = .finite (q.share v) := by
  obtain ⟨field, hf⟩ := Option.isSome_iff_exists.1 hv
  unfold load
  rw [Rule.shape_of_field? hf]
  exact shareCount_eq hq hf

theorem reach_assignment (hq : q.Complete w.rule) (hv : (w.rule.field? v).isSome) :
    w.reach q v = .finite (q.share v) := by
  obtain ⟨field, hf⟩ := Option.isSome_iff_exists.1 hv
  unfold reach
  rw [Rule.shape_of_field? hf]
  exact shareCount_eq hq hf

/-- A node demands firings exactly if an assignment at or below it has a positive share. -/
theorem demand_pos_iff (hr : w.rule.Unguarded) (ha : w.rule.Actionless) (hq : q.Complete w.rule)
    (hv : v < w.rule.size) : 0 < w.demand q v ↔ w.rule.Filled q.share v := by
  induction v using Rule.induction_down (r := w.rule) with
  | step v ih =>
    have hbelow : (∃ n ∈ (w.rule.children v).map (w.demand q), 0 < n) ↔
        ∃ c ∈ w.rule.children v, w.rule.Filled q.share c := by
      simp only [List.mem_map, exists_exists_and_eq_and]
      exact exists_congr fun c => and_congr_right fun hc => ih c hc (Rule.lt_of_mem_children hc).2
    rw [demand_pos_iff_load (blocked_of_unguarded hr v)]
    cases hs : w.rule.shape v with
    | assignment field =>
      have hf : w.rule.field? v = some field := Rule.field?_of_assignment hs
      rw [Rule.filled_assignment_iff hf, load_assignment hq (by simp [hf])]
      exact Count.finite_lt_finite
    | group =>
      unfold load
      rw [hs, Rule.filled_composite_iff (Rule.field?_of_group hs), Count.lt_foldl_max_iff, hbelow]
      exact or_iff_right (by decide)
    | alternative =>
      unfold load
      rw [hs, Rule.filled_composite_iff (Rule.field?_of_alternative hs), Count.pos_foldl_plus, hbelow]
      exact or_iff_right (by decide)
    | action => exact absurd hs (ha v (List.mem_range.2 hv))

/-- The siblings of a branch are silent exactly if none of them is filled. -/
theorem any_demand_others_iff (hr : w.rule.Unguarded) (ha : w.rule.Actionless)
    (hq : q.Complete w.rule) :
    ((w.rule.others v c).any fun d => 0 < w.demand q d) = true ↔
      ∃ d ∈ w.rule.children v, d ≠ c ∧ w.rule.Filled q.share d := by
  rw [List.any_eq_true]
  constructor
  · rintro ⟨d, hd, hpos⟩
    have hchild := Rule.mem_children_of_mem_others hd
    have hne : d ≠ c := by simpa using (List.mem_filter.1 hd).2
    exact ⟨d, hchild, hne, (demand_pos_iff hr ha hq (Rule.lt_of_mem_children hchild).2).1
      (of_decide_eq_true hpos)⟩
  · rintro ⟨d, hchild, hne, hfilled⟩
    refine ⟨d, List.mem_filter.2 ⟨hchild, by simpa using hne⟩, decide_eq_true ?_⟩
    exact (demand_pos_iff hr ha hq (Rule.lt_of_mem_children hchild).2).2 hfilled

/-- Without exclusion a branch is dead exactly if another branch is filled. -/
theorem branchDead_iff (hr : w.rule.Unguarded) (ha : w.rule.Actionless) (hq : q.Complete w.rule) :
    w.branchDead q none v c = true ↔ ∃ d ∈ w.rule.children v, d ≠ c ∧ w.rule.Filled q.share d := by
  unfold branchDead
  rw [List.any_eq_true]
  refine exists_congr fun d => and_congr_right fun hd => ?_
  rw [← demand_pos_iff hr ha hq (Rule.lt_of_mem_children hd).2]
  by_cases he : d = c <;> simp [he]

/-- Every assignment has a share inside its window. -/
structure Settled (w : View) (q : Quantities) : Prop where
  complete : q.Complete w.rule
  inside : ∀ v, (w.rule.field? v).isSome → (w.window q none v).admits (q.share v) = true

theorem Settled.minCount_le_share (hw : w.Settled q) (hq : ∀ v, q.share v ≤ cap)
    (hv : (w.rule.field? v).isSome) : w.minCount q v ≤ .finite (q.share v) :=
  (Window.deficit_eq_zero_iff_le (w := w.window q none v)
    (Count.ne_unbounded_of_le (minCount_le_cap hq v))).1 (Window.admits_iff.1 (hw.inside v hv)).1

theorem Settled.share_le_maxCount (hw : w.Settled q) (hv : (w.rule.field? v).isSome) :
    .finite (q.share v) ≤ w.maxCount q none v :=
  (Window.excess_eq_zero_iff_le (w := w.window q none v)
    (isDefined_maxCount w q none v)).1 (Window.admits_iff.1 (hw.inside v hv)).2

/-- A branch of an alternative that cannot repeat leaves no value if another one does. -/
theorem eq_of_filled (hr : w.rule.Unguarded) (ha : w.rule.Actionless) (hq : w.Settled q)
    (hs : w.rule.shape v = .alternative) (hrep : w.rule.repeatable v = false)
    (hc : c ∈ w.rule.children v) (hd : d ∈ w.rule.children v) (hfc : w.rule.Filled q.share c)
    (hfd : w.rule.Filled q.share d) : c = d := by
  by_contra hne
  have hdemand : 0 < w.demand q d :=
    (demand_pos_iff hr ha hq.complete (Rule.lt_of_mem_children hd).2).2 hfd
  have hzero : w.maxCount q none c = 0 := maxCount_branch_eq_zero hs hrep hc hd (Ne.symm hne) hdemand
  obtain ⟨x, hx, hf, hpos⟩ := hfc
  have hle := hq.share_le_maxCount hf
  rw [maxCount_eq_zero_of_mem_subtree hzero hx] at hle
  exact absurd hpos (Nat.not_lt.2 (Count.finite_le_finite.1 hle))

end View

end RuleCardinality
