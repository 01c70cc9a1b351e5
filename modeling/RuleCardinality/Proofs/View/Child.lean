import RuleCardinality.Proofs.Rule.Firing
import RuleCardinality.Proofs.View.Range

/-!
# How windows are handed down

The window of a node comes from the window of its container and from what its siblings say. A group
hands down its own minimum, raised to what the busiest sibling demands (`leastIn_group`), and its own
maximum, narrowed by what the siblings supply if the group is optional or without limit
(`mostIn_group`). An alternative hands down its own window to a branch whose siblings are silent, and
nothing to any other branch (`leastIn_alternative`, `mostIn_alternative`).
-/

namespace RuleCardinality.View

variable {w : View} {q : Quantities} {exclude : Option String} {v c d : Nat}

/-! ## From below -/

/-- The firings of a node that account for the shares below it, each counted once. -/
def load (w : View) (q : Quantities) (v : Nat) : Count :=
  match w.rule.shape v with
  | .assignment _ => q.shareCount v
  | .group => ((w.rule.children v).map (w.demand q)).foldl max .undefined
  | .alternative => ((w.rule.children v).map (w.demand q)).foldl .plus .undefined
  | .action => 1

/-- The most firings of a node that the shares below it allow. -/
def reach (w : View) (q : Quantities) (v : Nat) : Count :=
  match w.rule.shape v with
  | .assignment _ => q.shareCount v
  | .group => ((w.rule.children v).map (w.supply q)).foldl .narrow .unbounded
  | .alternative => ((w.rule.children v).map (w.supply q)).foldl .plus .undefined
  | .action => .unbounded

theorem demand_eq_load (hb : w.blocked v = false) :
    w.demand q v = if w.rule.repeatable v && 1 < w.load q v then 1 else w.load q v := by
  rw [demand_eq, hb]
  unfold load
  cases w.rule.shape v with
  | assignment field => rfl
  | group => rfl
  | alternative => rfl
  | action => simp

theorem supply_eq_reach (hb : w.blocked v = false) :
    w.supply q v = if w.rule.optional v then .unbounded else w.reach q v := by
  rw [supply_eq, hb]
  unfold reach
  cases w.rule.shape v <;> rfl

theorem supply_optional (hb : w.blocked v = false) (ho : w.rule.optional v = true) :
    w.supply q v = .unbounded := by
  rw [supply_eq_reach hb, if_pos ho]

theorem demand_le_load (hb : w.blocked v = false) : w.demand q v ≤ w.load q v := by
  rw [demand_eq_load hb]
  split
  · rename_i h
    exact le_of_lt (of_decide_eq_true (Bool.and_eq_true_iff.1 h).2)
  · exact le_rfl

theorem demand_le_one (hb : w.blocked v = false) (hr : w.rule.repeatable v = true) :
    w.demand q v ≤ 1 := by
  rw [demand_eq_load hb, hr, Bool.true_and]
  split
  · exact le_rfl
  · rename_i h
    exact not_lt.1 fun hlt => h (decide_eq_true hlt)

theorem once_le_once {m n : Count} (h : m ≤ n) (rep : Bool) :
    (if rep && 1 < m then 1 else m) ≤ if rep && 1 < n then 1 else n := by
  cases rep with
  | false => exact h
  | true =>
    simp only [Bool.true_and, decide_eq_true_eq]
    split <;> split
    · exact le_rfl
    · rename_i hm hn
      exact absurd (lt_of_lt_of_le hm h) hn
    · rename_i hm hn
      exact not_lt.1 hm
    · exact h

theorem demand_eq_load_of_not_repeatable (hb : w.blocked v = false)
    (hr : w.rule.repeatable v = false) : w.demand q v = w.load q v := by
  rw [demand_eq_load hb, hr]
  rfl

theorem load_group_le {n : Count} (hs : w.rule.shape v = .group)
    (h : ∀ c ∈ w.rule.children v, w.demand q c ≤ n) : w.load q v ≤ n := by
  unfold load
  rw [hs]
  refine Count.foldl_max_le (Count.undefined_le _) ?_
  intro m hm
  obtain ⟨c, hc, rfl⟩ := List.mem_map.1 hm
  exact h c hc

theorem le_reach_group {n : Count} (hs : w.rule.shape v = .group)
    (h : ∀ c ∈ w.rule.children v, n ≤ w.supply q c) : n ≤ w.reach q v := by
  unfold reach
  rw [hs]
  refine Count.le_foldl_narrow (Count.le_unbounded _) ?_
  intro m hm _
  obtain ⟨c, hc, rfl⟩ := List.mem_map.1 hm
  exact h c hc

theorem demand_le_load_group (hs : w.rule.shape v = .group) (hc : c ∈ w.rule.children v) :
    w.demand q c ≤ w.load q v := by
  unfold load
  rw [hs]
  exact Count.le_foldl_max (List.mem_map_of_mem hc)

theorem reach_group_le_supply (hs : w.rule.shape v = .group) (hc : c ∈ w.rule.children v)
    (hd : (w.supply q c).isDefined = true) : w.reach q v ≤ w.supply q c := by
  unfold reach
  rw [hs]
  exact Count.foldl_narrow_le_of_mem (List.mem_map_of_mem hc) hd

theorem load_le_of_demand_le_zero (hb : w.blocked v = false) (hd : w.demand q v ≤ 0) :
    w.load q v ≤ 0 := by
  rw [demand_eq_load hb] at hd
  split at hd
  · exact absurd hd (by decide)
  · exact hd

theorem load_le_cap (hq : ∀ v, q.share v ≤ cap) (v : Nat) : w.load q v ≤ .finite cap := by
  have hbelow : ∀ n ∈ (w.rule.children v).map (w.demand q), n ≤ .finite cap := by
    intro n hn
    obtain ⟨c, _, rfl⟩ := List.mem_map.1 hn
    exact demand_le_cap hq c
  unfold load
  cases w.rule.shape v with
  | assignment field => exact shareCount_le_cap hq v
  | group => exact Count.foldl_max_le (Count.undefined_le _) hbelow
  | alternative => exact Count.foldl_plus_le_cap (Count.undefined_le _) hbelow
  | action => exact one_le_cap

/-! ## Minimum -/

theorem minCount_eq (w : View) (q : Quantities) (v : Nat) :
    w.minCount q v =
      if w.rule.optional v then 0 else (w.rule.container v).elim 1 fun c => w.leastIn q c v :=
  rfl

theorem minCount_optional (ho : w.rule.optional v = true) : w.minCount q v = 0 := by
  rw [minCount_eq, if_pos ho]

/-- A child that may not be left out fires as often as its container has to fire for it. -/
theorem minCount_child (hc : c ∈ w.rule.children v) (ho : w.rule.optional c = false) :
    w.minCount q c = w.leastIn q v c := by
  rw [minCount_eq, ho, Rule.mem_children.1 hc]
  rfl

theorem leastIn_group (hb : w.blocked v = false) (hs : w.rule.shape v = .group) (c : Nat) :
    w.leastIn q v c =
      if w.plainRoot v then 1
      else max (w.minCount q v)
        (((w.rule.others v c).map (w.demand q)).foldl max .undefined) := by
  rw [leastIn_eq, hb, hs, minCount_eq]
  by_cases ho : w.rule.optional v = true
  · simp only [ho, Bool.false_eq_true, if_false, if_true, Count.max_zero_eq]
  · simp only [ho, Bool.false_eq_true, if_false]
    cases w.rule.container v <;> rfl

theorem leastIn_alternative (hb : w.blocked v = false) (hs : w.rule.shape v = .alternative) (c : Nat) :
    w.leastIn q v c =
      if (w.rule.others v c).any fun d => 0 < w.demand q d then 0 else w.minCount q v := by
  rw [leastIn_eq, hb, hs, minCount_eq]
  by_cases ho : w.rule.optional v = true
  · simp only [ho, Bool.false_eq_true, if_true, ite_self]
  · simp only [ho, Bool.false_eq_true, if_false]
    cases w.rule.container v <;> rfl

theorem zero_le_minCount (v : Nat) : 0 ≤ w.minCount q v := by
  induction v using Rule.induction_up (r := w.rule) with
  | step v ih =>
    rw [minCount_eq]
    split
    · exact le_rfl
    cases hp : w.rule.container v with
    | none => exact le_of_lt (by decide : (0 : Count) < 1)
    | some p =>
      show 0 ≤ w.leastIn q p v
      cases hb : w.blocked p with
      | true => rw [leastIn_eq, if_pos hb]
      | false =>
        rcases Rule.composite_of_mem_children (Rule.mem_children.2 hp) with hs | hs
        · rw [leastIn_group hb hs]
          split
          · decide
          · exact le_trans (ih p hp) (le_max_left _ _)
        · rw [leastIn_alternative hb hs]
          split
          · exact le_rfl
          · exact ih p hp

theorem minCount_plainRoot (hv : w.plainRoot v = true) : w.minCount q v = 1 := by
  simp only [plainRoot, Bool.and_eq_true, Option.isNone_iff_eq_none, Bool.not_eq_true'] at hv
  rw [minCount_eq, hv.1.2, hv.1.1]
  rfl

/-- A group hands down at least its own minimum. -/
theorem minCount_le_leastIn (hb : w.blocked v = false) (hs : w.rule.shape v = .group) (c : Nat) :
    w.minCount q v ≤ w.leastIn q v c := by
  rw [leastIn_group hb hs]
  split
  · rename_i hroot
    rw [minCount_plainRoot hroot]
  · exact le_max_left _ _

/-- A group other than a plain root hands down at least the demand of each sibling. -/
theorem demand_le_leastIn (hb : w.blocked v = false) (hs : w.rule.shape v = .group)
    (hroot : w.plainRoot v = false) (hd : d ∈ w.rule.children v) (hne : d ≠ c) :
    w.demand q d ≤ w.leastIn q v c := by
  have hmem : d ∈ w.rule.others v c := List.mem_filter.2 ⟨hd, by simpa using hne⟩
  rw [leastIn_group hb hs, hroot]
  exact le_trans (Count.le_foldl_max (List.mem_map_of_mem hmem)) (le_max_right _ _)

/-! ## Maximum -/

/-- A repeatable node that can fire at all can fire without limit. -/
theorem maxCount_eq_mostAbove (w : View) (q : Quantities) (exclude : Option String) (v : Nat) :
    w.maxCount q exclude v =
      if w.mostAbove q exclude v = 0 then 0
      else if w.rule.repeatable v then .unbounded else w.mostAbove q exclude v := by
  unfold maxCount mostAbove
  cases w.rule.container v with
  | none => cases w.rule.repeatable v <;> rfl
  | some c =>
    have hpos : 0 < w.mostIn q exclude c v ↔ w.mostIn q exclude c v ≠ 0 :=
      Count.pos_iff_ne_zero (isDefined_mostIn w q exclude c v)
    by_cases hz : w.mostIn q exclude c v = 0
    · simp [hz]
    · cases w.rule.repeatable v <;> simp [hz, hpos]

theorem maxCount_eq_zero_iff :
    w.maxCount q exclude v = 0 ↔ w.mostAbove q exclude v = 0 := by
  rw [maxCount_eq_mostAbove]
  by_cases hz : w.mostAbove q exclude v = 0
  · simp [hz]
  · rw [if_neg hz]
    refine iff_of_false ?_ hz
    split
    · exact fun h => nomatch h
    · exact hz

theorem maxCount_plainRoot (hv : w.plainRoot v = true) : w.maxCount q exclude v = 1 := by
  simp only [plainRoot, Bool.and_eq_true, Option.isNone_iff_eq_none, Bool.not_eq_true'] at hv
  unfold maxCount
  rw [hv.1.1, hv.2]
  rfl

/-- The maximum of a group, narrowed by what the siblings of a child supply if the group is optional or
without limit. -/
def narrowed (w : View) (q : Quantities) (exclude : Option String) (v child : Nat) : Count :=
  if w.rule.optional v || w.maxCount q exclude v = .unbounded then
    ((w.rule.others v child).map (w.supply q)).foldl .narrow (w.maxCount q exclude v)
  else w.maxCount q exclude v

theorem narrowed_le_maxCount (w : View) (q : Quantities) (exclude : Option String) (v child : Nat) :
    w.narrowed q exclude v child ≤ w.maxCount q exclude v := by
  unfold narrowed
  split
  · exact Count.foldl_narrow_le _ _
  · exact le_rfl

/-- A group that has to fire never hands down nothing. -/
theorem mostIn_group (hb : w.blocked v = false) (hs : w.rule.shape v = .group) (c : Nat) :
    w.mostIn q exclude v c =
      if w.maxCount q exclude v = 0 then 0
      else if w.narrowed q exclude v c = 0 && !w.rule.optional v then 1
      else w.narrowed q exclude v c := by
  rw [mostIn_eq_mostAbove, hb, hs]
  simp only [maxCount_eq_zero_iff]
  by_cases hz : w.mostAbove q exclude v = 0
  · simp [hz]
  · have hmax : w.maxCount q exclude v =
        if w.rule.repeatable v then .unbounded else w.mostAbove q exclude v := by
      rw [maxCount_eq_mostAbove, if_neg hz]
    simp only [hz, narrowed, hmax, Bool.false_eq_true, if_false]

theorem mostIn_alternative (hb : w.blocked v = false) (hs : w.rule.shape v = .alternative) (c : Nat) :
    w.mostIn q exclude v c =
      if !w.rule.repeatable v && w.branchDead q exclude v c then 0 else w.maxCount q exclude v := by
  rw [mostIn_eq_mostAbove, hb, hs, maxCount_eq_mostAbove]
  by_cases hz : w.mostAbove q exclude v = 0
  · simp [hz]
  · cases w.rule.repeatable v <;> simp [hz]

/-- A container hands down no more than its own maximum, or than one firing. -/
theorem mostIn_le (hc : c ∈ w.rule.children v) {n : Count} (hn : 1 ≤ n)
    (hmax : w.maxCount q exclude v ≤ n) : w.mostIn q exclude v c ≤ n := by
  have hzero : (0 : Count) ≤ n := le_trans (by decide) hn
  cases hb : w.blocked v with
  | true => rwa [mostIn_eq_mostAbove, if_pos hb]
  | false =>
    rcases Rule.composite_of_mem_children hc with hs | hs
    · rw [mostIn_group hb hs]
      split
      · exact hzero
      · split
        · exact hn
        · exact le_trans (narrowed_le_maxCount w q exclude v c) hmax
    · rw [mostIn_alternative hb hs]
      split
      · exact hzero
      · exact hmax

theorem mostAbove_child (hc : c ∈ w.rule.children v) :
    w.mostAbove q exclude c = w.mostIn q exclude v c := by
  unfold mostAbove
  rw [Rule.mem_children.1 hc]
  rfl

/-- What can fire once at most leaves one firing at most to a child that does not repeat. -/
theorem maxCount_child_le_one (hmax : w.maxCount q exclude v ≤ 1) (hc : c ∈ w.rule.children v) :
    w.rule.repeatable c = true ∨ w.maxCount q exclude c ≤ 1 := by
  by_cases hrep : w.rule.repeatable c = true
  · exact .inl hrep
  · right
    rw [maxCount_eq_mostAbove, if_neg hrep, mostAbove_child hc]
    split
    · decide
    · exact mostIn_le hc le_rfl hmax

/-- Where neither a node nor a container of it repeats, it fires once at most. -/
theorem maxCount_le_one (h : ∀ x ∈ w.rule.line v, w.rule.repeatable x = false) :
    w.maxCount q exclude v ≤ 1 := by
  induction v using Rule.induction_up (r := w.rule) with
  | step v ih =>
    have hrep : w.rule.repeatable v = false := h v List.mem_cons_self
    rw [maxCount_eq_mostAbove, hrep, if_neg Bool.false_ne_true]
    split
    · decide
    cases hp : w.rule.container v with
    | none =>
      unfold mostAbove
      rw [hp, hrep]
      exact le_rfl
    | some p =>
      have hchild : v ∈ w.rule.children p := Rule.mem_children.2 hp
      have hmax : w.maxCount q exclude p ≤ 1 := ih p hp fun x hx =>
        h x (Rule.mem_line_iff.2 (.inr ⟨p, hp, hx⟩))
      rw [mostAbove_child hchild]
      exact mostIn_le hchild le_rfl hmax

theorem mostIn_of_maxCount_eq_zero (hv : w.maxCount q exclude v = 0) (c : Nat) :
    w.mostIn q exclude v c = 0 := by
  rw [maxCount_eq_zero_iff] at hv
  rw [mostIn_eq_mostAbove, if_pos hv, ite_self]

/-- Nothing below a node that cannot fire can fire. -/
theorem maxCount_eq_zero_of_mem_subtree {x : Nat} (hv : w.maxCount q exclude v = 0)
    (hx : x ∈ w.rule.subtree v) : w.maxCount q exclude x = 0 := by
  induction v using Rule.induction_down (r := w.rule) with
  | step v ih =>
    rw [Rule.subtree_eq, List.mem_cons, List.mem_flatMap] at hx
    rcases hx with rfl | ⟨c, hc, hxc⟩
    · exact hv
    · refine ih c hc ?_ hxc
      rw [maxCount_eq_zero_iff, mostAbove_child hc, mostIn_of_maxCount_eq_zero hv]

end RuleCardinality.View
