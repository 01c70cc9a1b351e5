import RuleCardinality.Proofs.View.Filled

/-!
# Runs stay inside the windows

If the shares of the assignments are the firings of some run of the rule, demands stay below the visits
(`demand_le_visits`) and supplies above them (`visits_le_supply`). From there on the argument walks down
from the root: minimums stay below the visits of the nodes that insist (`minCount_le_visits`), maximums
above the visits of the nodes that leave values (`visits_le_mostAbove`). Both walks cross alternatives,
and there the first needs that visited branches are visible in the values, the second that alternatives
which cannot repeat are exclusive.
-/

namespace RuleCardinality

namespace View

open Quantities

variable {w : View} {q : Quantities} {visits fired : Nat → Nat} {v c : Nat}

/-- A node that is visited `k` times and fires `m` times demands no more than `k`. -/
theorem once_le_of_fits {n : Count} {m k : Nat} (hfits : w.rule.Fits v m k) (hn : n ≤ .finite m) :
    (if w.rule.repeatable v && 1 < n then 1 else n) ≤ .finite k := by
  obtain ⟨-, hrep, hzero⟩ := Rule.fits_iff.1 hfits
  cases hr : w.rule.repeatable v with
  | false => exact le_trans hn (Count.finite_le_finite.2 (hrep hr))
  | true =>
    rcases Nat.eq_zero_or_pos k with rfl | hk
    · rw [hzero rfl] at hn
      split
      · rename_i h
        simp only [Bool.true_and, decide_eq_true_eq] at h
        exact le_trans (le_of_lt h) hn
      · exact hn
    · refine le_trans (b := 1) ?_ (Count.finite_le_finite.2 hk)
      split
      · exact le_rfl
      · rename_i h
        simpa using h

section

variable (hr : w.rule.Unguarded) (ha : w.rule.Actionless) (hflow : w.rule.Flow visits fired)
  (hq : ∀ v, (w.rule.field? v).isSome → q.share? v = some (fired v))

include hq

theorem complete_of_shares : q.Complete w.rule := fun v hv => by simp [hq v hv]

theorem filled_share_iff : w.rule.Filled q.share v ↔ w.rule.Filled fired v :=
  Rule.filled_congr fun x hx => share_of_share? (hq x hx)

theorem load_of_shares (hv : (w.rule.field? v).isSome) : w.load q v = .finite (fired v) := by
  rw [load_assignment (complete_of_shares hq) hv, share_of_share? (hq v hv)]

theorem reach_of_shares (hv : (w.rule.field? v).isSome) : w.reach q v = .finite (fired v) := by
  rw [reach_assignment (complete_of_shares hq) hv, share_of_share? (hq v hv)]

include hr ha hflow

/-! ## From below -/

theorem demand_le_visits (hv : v < w.rule.size) : w.demand q v ≤ .finite (visits v) := by
  induction v using Rule.induction_down (r := w.rule) with
  | step v ih =>
    rw [demand_eq_load (blocked_of_unguarded hr v)]
    refine once_le_of_fits (hflow.fits v (List.mem_range.2 hv)) ?_
    have hbelow : ∀ c ∈ w.rule.children v, w.demand q c ≤ .finite (visits c) := fun c hc =>
      ih c hc (Rule.lt_of_mem_children hc).2
    cases hs : w.rule.shape v with
    | assignment field =>
      have hf : w.rule.field? v = some field := Rule.field?_of_assignment hs
      exact le_of_eq (load_of_shares hq (by simp [hf]))
    | group =>
      refine load_group_le hs ?_
      intro c hc
      rw [← hflow.group hs c hc]
      exact hbelow c hc
    | alternative =>
      have hsum := Count.foldl_plus_le (m := 0) (Count.undefined_le _) hbelow
      rw [Nat.zero_add, hflow.alternative hs] at hsum
      unfold load
      rw [hs]
      exact hsum
    | action => exact absurd hs (ha v (List.mem_range.2 hv))

theorem visits_le_supply (hv : v < w.rule.size) : min (visits v) cap ≤ (w.supply q v).floor := by
  induction v using Rule.induction_down (r := w.rule) with
  | step v ih =>
    have hbelow : ∀ c ∈ w.rule.children v, min (visits c) cap ≤ (w.supply q c).floor := fun c hc =>
      ih c hc (Rule.lt_of_mem_children hc).2
    rw [supply_eq_reach (blocked_of_unguarded hr v)]
    cases ho : w.rule.optional v with
    | true => exact Nat.min_le_right _ _
    | false =>
      have hle : visits v ≤ fired v := (Rule.fits_iff.1 (hflow.fits v (List.mem_range.2 hv))).1 ho
      suffices min (fired v) cap ≤ (w.reach q v).floor by
        simp only [Bool.false_eq_true, if_false]
        omega
      cases hs : w.rule.shape v with
      | assignment field =>
        have hf : w.rule.field? v = some field := Rule.field?_of_assignment hs
        rw [reach_of_shares hq (by simp [hf])]
        exact Nat.min_le_left _ _
      | group =>
        unfold reach
        rw [hs]
        refine Count.le_floor_foldl_narrow (Nat.min_le_right _ _) ?_
        intro n hn
        obtain ⟨c, hc, rfl⟩ := List.mem_map.1 hn
        rw [← hflow.group hs c hc]
        exact hbelow c hc
      | alternative =>
        have hsum := Count.floor_foldl_plus (m := 0) (a := .undefined) (Nat.min_le_left _ _) hbelow
        rw [Nat.zero_add, hflow.alternative hs] at hsum
        unfold reach
        rw [hs]
        exact hsum
      | action => exact absurd hs (ha v (List.mem_range.2 hv))

/-! ## Minimum -/

theorem leastIn_group_le_visits (hs : w.rule.shape v = .group) (hc : c ∈ w.rule.children v)
    (hmin : w.minCount q v ≤ .finite (fired v)) : w.leastIn q v c ≤ .finite (visits c) := by
  rw [leastIn_group (blocked_of_unguarded hr v) hs, hflow.group hs c hc]
  split
  · rename_i hroot
    rw [minCount_plainRoot hroot] at hmin
    exact hmin
  · refine max_le hmin (Count.foldl_max_le (Count.undefined_le _) ?_)
    intro n hn
    obtain ⟨d, hd, rfl⟩ := List.mem_map.1 hn
    have hdv := Rule.mem_children_of_mem_others hd
    rw [← hflow.group hs d hdv]
    exact demand_le_visits hr ha hflow hq (Rule.lt_of_mem_children hdv).2

theorem leastIn_alternative_le_visits (hl : w.rule.Visible visits fired)
    (hs : w.rule.shape v = .alternative) (hc : c ∈ w.rule.children v) (hi : w.rule.insists c = true)
    (hmin : w.minCount q v ≤ .finite (fired v)) : w.leastIn q v c ≤ .finite (visits c) := by
  rw [leastIn_alternative (blocked_of_unguarded hr v) hs]
  split
  · exact Count.zero_le_finite
  · rename_i hquiet
    by_cases ho : w.rule.optional v = true
    · rw [minCount_optional ho]
      exact Count.zero_le_finite
    · -- the other branches leave no values, so all visits went to this one
      have hothers : sumOf visits (w.rule.others v c) = 0 := by
        rw [sumOf_eq_zero_iff]
        intro d hd
        by_contra hne
        have hdv := Rule.mem_children_of_mem_others hd
        have hdc : d ≠ c := by simpa using (List.mem_filter.1 hd).2
        have hfilled := hl v (Rule.mem_ids_of_mem_children hc) hs
          (by simpa using ho) c hc hi d hdv hdc (Nat.pos_of_ne_zero hne)
        apply hquiet
        rw [any_demand_others_iff hr ha (complete_of_shares hq)]
        exact ⟨d, hdv, hdc, (filled_share_iff hq).2 hfilled⟩
      have hsum := hflow.alternative hs
      rw [sumOf_eq_add_filter (Rule.nodup_children _ _) hc] at hsum
      change visits c + sumOf visits (w.rule.others v c) = fired v at hsum
      rw [hothers, Nat.add_zero] at hsum
      rw [hsum]
      exact hmin

/-- A node that insists is visited as often as it has to fire. -/
theorem minCount_le_visits (hl : w.rule.Visible visits fired) (hv : v < w.rule.size)
    (hi : w.rule.insists v = true) : w.minCount q v ≤ .finite (visits v) := by
  induction v using Rule.induction_up (r := w.rule) with
  | step v ih =>
    have ho : w.rule.optional v = false := Rule.optional_of_insists hi
    cases hp : w.rule.container v with
    | none =>
      rw [minCount_eq, ho, hp, Rule.eq_root_of_container hv hp, hflow.root]
      exact le_rfl
    | some p =>
      have hc : v ∈ w.rule.children p := Rule.mem_children.2 hp
      have hps : p < w.rule.size := lt_trans (Rule.lt_of_container hp) hv
      -- an optional container asks for nothing, a mandatory one insists as well
      have hmin : w.minCount q p ≤ .finite (fired p) := by
        by_cases hop : w.rule.optional p = true
        · rw [minCount_optional hop]
          exact Count.zero_le_finite
        · have hop : w.rule.optional p = false := by simpa using hop
          have hle : visits p ≤ fired p :=
            (Rule.fits_iff.1 (hflow.fits p (List.mem_range.2 hps))).1 hop
          refine le_trans (ih p hp hps ?_) (Count.finite_le_finite.2 hle)
          exact Rule.insists_of_child hop hc hi
      rw [minCount_child hc ho]
      rcases Rule.composite_of_mem_children hc with hs | hs
      · exact leastIn_group_le_visits hr ha hflow hq hs hc hmin
      · exact leastIn_alternative_le_visits hr ha hflow hq hl hs hc hi hmin

/-! ## Maximum -/

omit hr ha hflow hq in
theorem firings_le_maxCount {m k : Nat} (hfits : w.rule.Fits v m k)
    (hk : min k cap ≤ (w.mostAbove q none v).floor) : min m cap ≤ (w.maxCount q none v).floor := by
  obtain ⟨-, hrep, hzero⟩ := Rule.fits_iff.1 hfits
  have hcap : 0 < cap := by decide
  rw [maxCount_eq_mostAbove]
  split
  · rename_i hnone
    rw [hnone] at hk
    change min k cap ≤ 0 at hk
    have hkz : k = 0 := by omega
    rw [hzero hkz]
    exact Nat.zero_le _
  · by_cases hr : w.rule.repeatable v = true
    · rw [if_pos hr]
      exact Nat.min_le_right _ _
    · rw [if_neg hr]
      have hle : m ≤ k := hrep (by simpa using hr)
      omega

theorem visits_le_mostIn_group (hs : w.rule.shape v = .group) (hc : c ∈ w.rule.children v)
    (hmax : min (fired v) cap ≤ (w.maxCount q none v).floor) :
    min (visits c) cap ≤ (w.mostIn q none v c).floor := by
  -- the siblings supply at least as many firings as the group has
  have hnarrowed : min (fired v) cap ≤ (w.narrowed q none v c).floor := by
    unfold narrowed
    split
    · refine Count.le_floor_foldl_narrow hmax ?_
      intro n hn
      obtain ⟨d, hd, rfl⟩ := List.mem_map.1 hn
      have hdv := Rule.mem_children_of_mem_others hd
      rw [← hflow.group hs d hdv]
      exact visits_le_supply hr ha hflow hq (Rule.lt_of_mem_children hdv).2
    · exact hmax
  rw [mostIn_group (blocked_of_unguarded hr v) hs, hflow.group hs c hc]
  split
  · rename_i hnone
    rw [hnone] at hmax
    exact hmax
  · split
    · rename_i hcollapsed
      simp only [Bool.and_eq_true, decide_eq_true_eq] at hcollapsed
      rw [hcollapsed.1] at hnarrowed
      exact Nat.le_trans hnarrowed (Nat.zero_le _)
    · exact hnarrowed

theorem visits_le_mostIn_alternative (he : w.rule.Exclusive fired)
    (hs : w.rule.shape v = .alternative) (hc : c ∈ w.rule.children v)
    (hf : w.rule.Filled fired c) (hmax : min (fired v) cap ≤ (w.maxCount q none v).floor) :
    min (visits c) cap ≤ (w.mostIn q none v c).floor := by
  rw [mostIn_alternative (blocked_of_unguarded hr v) hs]
  split
  · rename_i hdead
    rw [Bool.and_eq_true, Bool.not_eq_true'] at hdead
    obtain ⟨d, hd, hdc, hfd⟩ := (branchDead_iff hr ha (complete_of_shares hq)).1 hdead.2
    have heq : d = c := he v (Rule.mem_ids_of_mem_children hc) hs hdead.1 d hd c hc
      ((filled_share_iff hq).1 hfd) hf
    exact absurd heq hdc
  · have hle : visits c ≤ fired v := by
      rw [← hflow.alternative hs]
      exact le_sumOf hc
    omega

/-- A node that leaves values is visited no more often than its container allows. -/
theorem visits_le_mostAbove (he : w.rule.Exclusive fired) (hv : v < w.rule.size)
    (hf : w.rule.Filled fired v) : min (visits v) cap ≤ (w.mostAbove q none v).floor := by
  induction v using Rule.induction_up (r := w.rule) with
  | step v ih =>
    cases hp : w.rule.container v with
    | none =>
      unfold mostAbove
      rw [hp, Rule.eq_root_of_container hv hp, hflow.root, Option.elim_none]
      split
      · exact Nat.min_le_right _ _
      · exact Nat.min_le_left _ _
    | some p =>
      have hc : v ∈ w.rule.children p := Rule.mem_children.2 hp
      have hps : p < w.rule.size := lt_trans (Rule.lt_of_container hp) hv
      have hmax : min (fired p) cap ≤ (w.maxCount q none p).floor :=
        firings_le_maxCount (hflow.fits p (List.mem_range.2 hps))
          (ih p hp hps (Rule.filled_of_child hc hf))
      rw [mostAbove_child hc]
      rcases Rule.composite_of_mem_children hc with hs | hs
      · exact visits_le_mostIn_group hr ha hflow hq hs hc hmax
      · exact visits_le_mostIn_alternative hr ha hflow hq he hs hc hf hmax

/-! ## Windows -/

theorem minCount_le_fired (hl : w.rule.Visible visits fired) (hv : (w.rule.field? v).isSome) :
    w.minCount q v ≤ .finite (fired v) := by
  obtain ⟨field, hfield⟩ := Option.isSome_iff_exists.1 hv
  by_cases ho : w.rule.optional v = true
  · rw [minCount_optional ho]
    exact Count.zero_le_finite
  · have ho : w.rule.optional v = false := by simpa using ho
    have hi : w.rule.insists v = true := by
      rw [Rule.insists_eq, ho, hv]
      rfl
    have hle : visits v ≤ fired v :=
      (Rule.fits_iff.1 (hflow.fits v (Rule.mem_ids_of_field? hfield))).1 ho
    exact le_trans (minCount_le_visits hr ha hflow hq hl (Rule.lt_size_of_field? hfield) hi)
      (Count.finite_le_finite.2 hle)

theorem fired_le_maxCount (he : w.rule.Exclusive fired) (hcap : fired v ≤ cap)
    (hv : (w.rule.field? v).isSome) : .finite (fired v) ≤ w.maxCount q none v := by
  obtain ⟨field, hfield⟩ := Option.isSome_iff_exists.1 hv
  refine Count.finite_le_of_le_floor (isDefined_maxCount w q none v) ?_
  rcases Nat.eq_zero_or_pos (fired v) with hzero | hpos
  · rw [hzero]
    exact Nat.zero_le _
  · have hfilled : w.rule.Filled fired v := (Rule.filled_assignment_iff hfield).2 hpos
    have hmax := firings_le_maxCount (hflow.fits v (Rule.mem_ids_of_field? hfield))
      (visits_le_mostAbove hr ha hflow hq he (Rule.lt_size_of_field? hfield) hfilled)
    rwa [Nat.min_eq_left hcap] at hmax

/-- The firings of an assignment in an exclusive run with visible branches lie in the window of the
assignment. -/
theorem window_admits_of_flow (he : w.rule.Exclusive fired) (hl : w.rule.Visible visits fired)
    (hcap : fired v ≤ cap) (hv : (w.rule.field? v).isSome) :
    (w.window q none v).admits (fired v) = true := by
  have hmin := minCount_le_fired hr ha hflow hq hl hv
  have hmax := fired_le_maxCount hr ha hflow hq he hcap hv
  exact (Window.admits_iff_le (w := w.window q none v) (Count.ne_unbounded_of_le hmin)
    (isDefined_maxCount w q none v)).2 ⟨hmin, hmax⟩

end

end View

end RuleCardinality
