import RuleCardinality.Proofs.View.Active
import RuleCardinality.Proofs.View.Without

/-!
# States that differ below one node

Two states differ below a node that may be left out and stands in no alternative, and the node demands no more
in the first than in the second. Then no maximum outside the node differs and no minimum there is larger in the
first state (`Apart.maxCount_eq`, `Apart.minCount_le`): an optional node supplies any number of firings,
and its demand is felt by groups only. Below a blocked node minimums rest on what is there alone
(`minCount_congr_of_blocked`).
-/

namespace RuleCardinality.View

variable {w : View} {q q' : Quantities} {b u v c d x : Nat}

/-- Below a blocked node minimums do not depend on what is outside. -/
theorem minCount_congr_of_blocked (hb : w.blocked b = true)
    (h : ∀ x, b ∈ w.rule.line x → x ≠ b → q.share? x = q'.share? x) (hv : b ∈ w.rule.line v)
    (hne : v ≠ b) : w.minCount q v = w.minCount q' v := by
  induction v using Rule.induction_up (r := w.rule) with
  | step v ih =>
    obtain rfl | ⟨p, hp, hbp⟩ := Rule.mem_line_iff.1 hv
    · exact absurd rfl hne
    have hc : v ∈ w.rule.children p := Rule.mem_children.2 hp
    cases ho : w.rule.optional v with
    | true => rw [minCount_optional ho, minCount_optional ho]
    | false =>
      cases hbp' : w.blocked p with
      | true => rw [minCount_of_blocked hc hbp', minCount_of_blocked hc hbp']
      | false =>
        have hpb : p ≠ b := by
          rintro rfl
          rw [hb] at hbp'
          cases hbp'
        have habove : w.minCount q p = w.minCount q' p := ih p hp hbp hpb
        have hothers : (w.rule.others p v).map (w.demand q) = (w.rule.others p v).map (w.demand q') := by
          refine List.map_congr_left fun d hd => demand_congr fun x hx => ?_
          have hdp := Rule.mem_children.1 (Rule.mem_others.1 hd).1
          have hpx : p ∈ w.rule.line x := Rule.mem_line_of_container hx hdp
          refine h x (Rule.mem_line_trans hbp hpx) fun he => hpb ?_
          exact Nat.le_antisymm (he ▸ Rule.le_of_mem_line hpx) (Rule.le_of_mem_line hbp)
        rw [minCount_child hc ho, minCount_child hc ho]
        rcases Rule.composite_of_mem_children hc with hs | hs
        · rw [leastIn_group hbp' hs, leastIn_group hbp' hs, habove, hothers]
        · have hany : ((w.rule.others p v).any fun d => 0 < w.demand q d) =
              (w.rule.others p v).any fun d => 0 < w.demand q' d := by
            refine any_congr_mem fun d hd => ?_
            rw [List.map_inj_left.1 hothers d hd]
          rw [leastIn_alternative hbp' hs, leastIn_alternative hbp' hs, habove, hany]

/-- Two states that differ below a node that may be left out. The node stands in no alternative and nothing
above it is blocked. -/
structure Apart (w : View) (x : Nat) (q q' : Quantities) : Prop where
  same : ∀ v, x ∉ w.rule.line v → q.share? v = q'.share? v
  straight : ∀ u ∈ w.rule.line x, w.rule.shape u ≠ .alternative
  free : ∀ u ∈ w.rule.line x, w.blocked u = false
  optional : w.rule.optional x = true
  demand : w.demand q x ≤ w.demand q' x

namespace Apart

/-- Children of nodes outside are outside, but for the node itself. -/
theorem eq_of_child (hx : x ∉ w.rule.line v) (hc : c ∈ w.rule.children v) (h : x ∈ w.rule.line c) :
    c = x := by
  obtain rfl | ⟨p, hp, hxp⟩ := Rule.mem_line_iff.1 h
  · rfl
  · obtain rfl : p = v := Option.some.inj (hp.symm.trans (Rule.mem_children.1 hc))
    exact absurd hxp hx

theorem demand_eq (h : w.Apart x q q') (hx : x ∉ w.rule.line v) (hv : v ∉ w.rule.line x) :
    w.demand q v = w.demand q' v := by
  refine demand_congr fun y hy => h.same y fun hxy => ?_
  exact (Rule.mem_line_or_mem_line hxy hy).elim hx hv

/-- In an alternative outside no branch demands anything else. -/
theorem demand_branch (h : w.Apart x q q') (hx : x ∉ w.rule.line v)
    (hs : w.rule.shape v = .alternative) (hc : c ∈ w.rule.children v) :
    w.demand q c = w.demand q' c := by
  have hv : v ∉ w.rule.line x := fun hv => h.straight v hv hs
  have hcx : c ∉ w.rule.line x := fun hcx =>
    hv (Rule.mem_line_of_container hcx (Rule.mem_children.1 hc))
  exact h.demand_eq (fun hxc => hcx (eq_of_child hx hc hxc ▸ w.rule.self_mem_line c)) hcx

theorem demand_le (h : w.Apart x q q') (hv : x ∈ w.rule.line v → v = x) :
    w.demand q v ≤ w.demand q' v := by
  induction v using Rule.induction_down (r := w.rule) with
  | step v ih =>
    by_cases he : v = x
    · rw [he]
      exact h.demand
    have hx : x ∉ w.rule.line v := fun hxv => he (hv hxv)
    by_cases hvx : v ∈ w.rule.line x
    · -- Above the node there are only groups.
      obtain ⟨c, hc, -⟩ := Rule.exists_child_of_mem_line hvx (Ne.symm he)
      have hs : w.rule.shape v = .group :=
        (Rule.composite_of_mem_children hc).resolve_right (h.straight v hvx)
      have hb := h.free v hvx
      rw [demand_eq_load hb, demand_eq_load hb]
      refine once_le_once (load_group_le hs fun c hc => ?_) _
      exact le_trans (ih c hc (eq_of_child hx hc)) (demand_le_load_group hs hc)
    · exact le_of_eq (h.demand_eq hx hvx)

theorem supply_eq (h : w.Apart x q q') (hv : x ∈ w.rule.line v → v = x) :
    w.supply q v = w.supply q' v := by
  induction v using Rule.induction_down (r := w.rule) with
  | step v ih =>
    by_cases he : v = x
    · have hb := h.free x (w.rule.self_mem_line x)
      rw [he, supply_optional hb h.optional, supply_optional hb h.optional]
    have hx : x ∉ w.rule.line v := fun hxv => he (hv hxv)
    have hbelow : (w.rule.children v).map (w.supply q) = (w.rule.children v).map (w.supply q') :=
      List.map_congr_left fun c hc => ih c hc (eq_of_child hx hc)
    have hself : q.shareCount v = q'.shareCount v := by
      unfold Quantities.shareCount
      rw [h.same v hx]
    rw [View.supply_eq, View.supply_eq, hbelow, hself]

theorem minCount_le (h : w.Apart x q q') (hx : x ∉ w.rule.line v) :
    w.minCount q v ≤ w.minCount q' v := by
  refine le_of_not_gt fun hlt => lt_irrefl _ (lt_minCount_of_lt (zero_le_minCount v) ?_ ?_ hlt)
  · intro p hp _ d hd hlt
    have hxp : x ∉ w.rule.line p := fun hxp => hx (Rule.mem_line_trans hxp hp)
    exact lt_of_lt_of_le hlt (h.demand_le (eq_of_child hxp hd))
  · intro p hp hs d hd hpos
    have hxp : x ∉ w.rule.line p := fun hxp => hx (Rule.mem_line_trans hxp hp)
    rwa [h.demand_branch hxp hs hd]

theorem maxCount_eq (h : w.Apart x q q') (hx : x ∉ w.rule.line v) :
    w.maxCount q none v = w.maxCount q' none v := by
  induction v using Rule.induction_up (r := w.rule) with
  | step v ih =>
    have habove : w.mostAbove q none v = w.mostAbove q' none v := by
      cases hp : w.rule.container v with
      | none =>
        unfold mostAbove
        rw [hp, Option.elim_none, Option.elim_none]
      | some p =>
        have hc : v ∈ w.rule.children p := Rule.mem_children.2 hp
        have hxp : x ∉ w.rule.line p := fun hxp => hx (Rule.mem_line_iff.2 (.inr ⟨p, hp, hxp⟩))
        have hmax := ih p hp hxp
        rw [mostAbove_child hc, mostAbove_child hc]
        cases hb : w.blocked p with
        | true => rw [mostIn_eq_mostAbove, mostIn_eq_mostAbove, if_pos hb, if_pos hb]
        | false =>
          rcases Rule.composite_of_mem_children hc with hs | hs
          · have hsupply : (w.rule.others p v).map (w.supply q) =
                (w.rule.others p v).map (w.supply q') :=
              List.map_congr_left fun d hd => h.supply_eq (eq_of_child hxp (Rule.mem_others.1 hd).1)
            have hnarrowed : w.narrowed q none p v = w.narrowed q' none p v := by
              unfold narrowed
              rw [hmax, hsupply]
            rw [mostIn_group hb hs, mostIn_group hb hs, hmax, hnarrowed]
          · have hdead : w.branchDead q none p v = w.branchDead q' none p v := by
              unfold branchDead
              refine any_congr_mem fun d hd => ?_
              simp only [h.demand_branch hxp hs hd, Option.any_none]
            rw [mostIn_alternative hb hs, mostIn_alternative hb hs, hmax, hdead]
    rw [maxCount_eq_mostAbove, maxCount_eq_mostAbove, habove]

end Apart

/-! ## A node that need not fire -/

/-- The node is at or below another, and nothing above it is blocked. -/
def Open (w : View) (x v : Nat) : Prop :=
  x ∈ w.rule.line v ∧ ∀ u ∈ w.rule.line v, w.blocked u = false

/-- Two states that agree but for the open nodes below one. That node need not fire in the first state,
though what it stands in has to, and shares below it demand a firing in the second. -/
structure Relaxed (w : View) (x : Nat) (q q' : Quantities) : Prop where
  same : ∀ v, ¬ w.Open x v → q.share? v = q'.share? v
  straight : ∀ u ∈ w.rule.line x, w.rule.shape u ≠ .alternative
  free : ∀ u ∈ w.rule.line x, w.blocked u = false
  idle : ¬ w.Active q x
  above : ∀ p, w.rule.container x = some p → w.Active q p
  demand : 0 < w.demand q' x

/-- A positive share is felt along unblocked nodes. -/
theorem demand_pos_of_open (ho : w.Open x v) (hf : (w.rule.field? v).isSome)
    (hpos : 0 < q.shareCount v) : 0 < w.demand q x := by
  have hv := (demand_pos_assignment (ho.2 v (w.rule.self_mem_line v)) hf).2 hpos
  obtain ⟨hxv, hfree⟩ := ho
  clear hf hpos
  induction v using Rule.induction_up (r := w.rule) with
  | step v ih =>
    rcases Rule.mem_line_iff.1 hxv with rfl | ⟨p, hp, hxp⟩
    · exact hv
    · have hmem : ∀ u ∈ w.rule.line p, u ∈ w.rule.line v := fun u hu =>
        Rule.mem_line_iff.2 (.inr ⟨p, hp, hu⟩)
      have hb := hfree p (hmem p (w.rule.self_mem_line p))
      exact ih p hp (demand_pos_of_child hb (Rule.mem_children.2 hp) hv) hxp
        fun u hu => hfree u (hmem u hu)

/-- Where something may fire nothing is blocked. -/
theorem free_of_admits {n : Nat} (hb : w.blocked v = false) (hin : (w.window q none v).admits n = true)
    (hn : n ≠ 0) : ∀ u ∈ w.rule.line v, w.blocked u = false := by
  intro u hu
  by_contra hblocked
  have hblocked : w.blocked u = true := by simpa using hblocked
  have hne : v ≠ u := by
    rintro rfl
    rw [hb] at hblocked
    cases hblocked
  obtain ⟨c, hc, hcv⟩ := Rule.exists_child_of_mem_line hu hne
  have hmax : (w.window q none v).max = .finite 0 :=
    maxCount_of_blocked hblocked hc (Rule.mem_subtree_iff.2 hcv)
  rw [Window.admits_iff, Window.excess_eq hmax] at hin
  omega

namespace Relaxed

/-- To press the first state goes on leaving the node alone. -/
theorem press {p p' : Quantities} (h : w.Relaxed x q q') (hp : w.Pressed q p)
    (hsame : ∀ v, ¬ w.Open x v → p.share? v = p'.share? v) (hdemand : 0 < w.demand p' x) :
    w.Relaxed x p p' where
  same := hsame
  straight := h.straight
  free := h.free
  idle ha := h.idle (hp.active ha)
  above c hc := hp.stays (fun u hu => h.straight u (Rule.mem_line_iff.2 (.inr ⟨c, hc, hu⟩)))
    (h.above c hc)
  demand := hdemand

theorem optional (h : w.Relaxed x q q') : w.rule.optional x = true := by
  by_contra ho
  have ho : w.rule.optional x = false := by simpa using ho
  cases hp : w.rule.container x with
  | none =>
    refine h.idle (.inr ?_)
    rw [minCount_eq, ho, hp]
    exact Count.one_le_iff_pos.1 le_rfl
  | some p =>
    have hc : x ∈ w.rule.children p := Rule.mem_children.2 hp
    have hpx : p ∈ w.rule.line x := Rule.mem_line_iff.2 (.inr ⟨p, hp, w.rule.self_mem_line p⟩)
    have hs : w.rule.shape p = .group :=
      (Rule.composite_of_mem_children hc).resolve_right (h.straight p hpx)
    exact h.idle ((h.above p hp).child (h.free p hpx) hs hc ho)

theorem apart (h : w.Relaxed x q q') : w.Apart x q q' where
  same v hv := h.same v fun ho => hv ho.1
  straight := h.straight
  free := h.free
  optional := h.optional
  demand := le_trans (not_lt.1 fun hpos => h.idle (.inl hpos)) (le_of_lt h.demand)

/-- Nothing open below the node has to fire in the first state. -/
theorem not_active (h : w.Relaxed x q q') (hv : w.Open x v) : ¬ w.Active q v := fun ha =>
  h.idle (ha.line hv.1 hv.2)

theorem grown (h : w.Relaxed x q q') : w.Grown (x ∈ w.rule.line ·) q q' where
  share v hv hb hf hpos := by
    refine .inl ((demand_pos_assignment hb hf).2 ?_)
    unfold Quantities.shareCount at hpos ⊢
    rwa [h.apart.same v hv]
  below v c hc hx := Rule.mem_line_iff.2 (.inr ⟨v, Rule.mem_children.1 hc, hx⟩)
  edge v c hv hc hx := by
    obtain rfl := Apart.eq_of_child hv hc hx
    exact h.above v (Rule.mem_children.1 hc)
  branch v c hv hs hc hpos := by rwa [← h.apart.demand_branch hv hs hc]

/-- Below a node that is blocked, nothing differs. -/
theorem exists_blocked (h : w.Relaxed x q q') (hx : x ∈ w.rule.line v) (ho : ¬ w.Open x v)
    (hb : w.blocked v = false) : ∃ b ∈ w.rule.line v, b ≠ v ∧ w.blocked b = true ∧
      ∀ u, b ∈ w.rule.line u → u ≠ b → q.share? u = q'.share? u := by
  have hnot : ¬ ∀ u ∈ w.rule.line v, w.blocked u = false := fun hall => ho ⟨hx, hall⟩
  simp only [not_forall, Bool.not_eq_false] at hnot
  obtain ⟨b, hbv, hblocked⟩ := hnot
  refine ⟨b, hbv, ?_, hblocked, fun u hu _ => h.same u fun hopen => ?_⟩
  · rintro rfl
    rw [hb] at hblocked
    cases hblocked
  · rw [hopen.2 b hu] at hblocked
    cases hblocked

theorem minCount_pos_iff (h : w.Relaxed x q q') (ho : ¬ w.Open x v) (hb : w.blocked v = false)
    (hf : (w.rule.field? v).isSome) (hs : q.share? v = none) :
    0 < w.minCount q v ↔ 0 < w.minCount q' v := by
  by_cases hx : x ∈ w.rule.line v
  · obtain ⟨b, hbv, hne, hblocked, hsame⟩ := h.exists_blocked hx ho hb
    rw [minCount_congr_of_blocked hblocked hsame hbv (Ne.symm hne)]
  · refine ⟨fun hpos => lt_of_lt_of_le hpos (h.apart.minCount_le hx), fun hpos => ?_⟩
    by_contra hnot
    exact not_active_of_share? hf hs hnot (h.grown.active_of_minCount_pos hx hpos)

/-- What an assignment may hold in the second state it may hold in the first. -/
theorem admits (h : w.Relaxed x q q') {m n : Nat} (hq : ∀ v, q.share v ≤ cap)
    (hq' : ∀ v, q'.share v ≤ cap) (hb : w.blocked v = false) (hf : (w.rule.field? v).isSome)
    (hm : q.share? v = some m) (hn : q'.share? v = some n)
    (hin : (w.window q' none v).admits n = true) : (w.window q none v).admits m = true := by
  have hwindow : ∀ {p : Quantities} {k : Nat}, (∀ v, p.share v ≤ cap) →
      ((w.window p none v).admits k = true ↔
        w.minCount p v ≤ .finite k ∧ .finite k ≤ w.maxCount p none v) := fun hp =>
    Window.admits_iff_le (Count.ne_unbounded_of_le (minCount_le_cap hp v)) (isDefined_maxCount w _ none v)
  have hzero : m = 0 → w.minCount q v ≤ 0 → (w.window q none v).admits m = true := by
    rintro rfl hmin
    exact (hwindow hq).2 ⟨hmin,
      Count.finite_le_of_le_floor (isDefined_maxCount w q none v) (Nat.zero_le _)⟩
  rw [hwindow hq'] at hin
  by_cases ho : w.Open x v
  · -- An open node is not active, so it holds nothing and needs nothing.
    have hquiet := h.not_active ho
    refine hzero ?_ (not_lt.1 fun hpos => hquiet (.inr hpos))
    by_contra hpos
    refine hquiet (.inl ((demand_pos_assignment hb hf).2 ?_))
    unfold Quantities.shareCount
    rw [hm]
    exact Count.finite_lt_finite.2 (Nat.pos_of_ne_zero hpos)
  obtain rfl : m = n := Option.some.inj (hm.symm.trans ((h.same v ho).trans hn))
  by_cases hx : x ∈ w.rule.line v
  · -- Below a blocked node nothing may fire.
    obtain ⟨b, hbv, hne, hblocked, hsame⟩ := h.exists_blocked hx ho hb
    have hmin : w.minCount q v = w.minCount q' v :=
      minCount_congr_of_blocked hblocked hsame hbv (Ne.symm hne)
    obtain ⟨c, hc, hcv⟩ := Rule.exists_child_of_mem_line hbv (Ne.symm hne)
    rw [maxCount_of_blocked hblocked hc (Rule.mem_subtree_iff.2 hcv)] at hin
    have hm0 : m = 0 := Nat.le_zero.1 (Count.finite_le_finite.1 hin.2)
    refine hzero hm0 ?_
    rw [hmin]
    rw [hm0] at hin
    exact hin.1
  · rw [hwindow hq, h.apart.maxCount_eq hx]
    exact ⟨le_trans (h.apart.minCount_le hx) hin.1, hin.2⟩

end Relaxed

end RuleCardinality.View
