import RuleCardinality.Proofs.Rule.Common
import RuleCardinality.Proofs.View.Reached

/-!
# Active nodes

A node is active in a state if it has to fire, be it for shares below it or for what stands around it.
Activity spreads upwards past every node that is not blocked and downwards from groups to the children that
may not be left out (`Active.container`, `Active.child`). So a state in which active assignments alone have
got positive shares has no more active nodes than before (`Grown.active`): whatever a new share asks for
was asked for already.
-/

namespace RuleCardinality.View

variable {w : View} {q q' : Quantities} {u v c d x : Nat}

/-! ## Positive demands -/

theorem blocked_of_demand_pos (h : 0 < w.demand q v) : w.blocked v = false := by
  by_contra hb
  rw [demand_eq, if_pos (by simpa using hb)] at h
  exact lt_irrefl _ h

/-- The demand of a group or an alternative comes from a child. -/
theorem exists_child_of_demand_pos (hs : w.rule.shape v = .group ∨ w.rule.shape v = .alternative)
    (h : 0 < w.demand q v) : ∃ c ∈ w.rule.children v, 0 < w.demand q c := by
  have hload := (demand_pos_iff_load (blocked_of_demand_pos h)).1 h
  have hmem : ∃ n ∈ (w.rule.children v).map (w.demand q), 0 < n := by
    unfold load at hload
    rcases hs with hs | hs
    · rw [hs, Count.lt_foldl_max_iff] at hload
      exact hload.resolve_left (by decide)
    · rw [hs, Count.pos_foldl_plus] at hload
      exact hload.resolve_left (by decide)
  obtain ⟨n, hn, hpos⟩ := hmem
  obtain ⟨c, hc, rfl⟩ := List.mem_map.1 hn
  exact ⟨c, hc, hpos⟩

theorem demand_action (hb : w.blocked v = false) (hs : w.rule.shape v = .action) :
    w.demand q v = 1 := by
  rw [demand_eq, hb, hs]
  rfl

/-- What has a positive share and is not blocked demands a firing. -/
theorem demand_pos_assignment (hb : w.blocked v = false) (hf : (w.rule.field? v).isSome) :
    0 < w.demand q v ↔ 0 < q.shareCount v := by
  obtain ⟨field, hfield⟩ := Option.isSome_iff_exists.1 hf
  rw [demand_pos_iff_load hb]
  unfold load
  rw [Rule.shape_of_field? hfield]

theorem demand_congr (h : ∀ x, v ∈ w.rule.line x → q.share? x = q'.share? x) :
    w.demand q v = w.demand q' v := by
  induction v using Rule.induction_down (r := w.rule) with
  | step v ih =>
    have hbelow : (w.rule.children v).map (w.demand q) = (w.rule.children v).map (w.demand q') :=
      List.map_congr_left fun c hc => ih c hc fun x hx =>
        h x (Rule.mem_line_of_container hx (Rule.mem_children.1 hc))
    have hself : q.shareCount v = q'.shareCount v := by
      unfold Quantities.shareCount
      rw [h v (w.rule.self_mem_line v)]
    rw [demand_eq, demand_eq, hbelow, hself]

/-- More positive shares, more positive demands. -/
theorem demand_pos_mono (h : ∀ x, 0 < q.shareCount x → 0 < q'.shareCount x)
    (hd : 0 < w.demand q v) : 0 < w.demand q' v := by
  induction v using Rule.induction_down (r := w.rule) with
  | step v ih =>
    have hb := blocked_of_demand_pos hd
    have hcomposite : w.rule.shape v = .group ∨ w.rule.shape v = .alternative →
        0 < w.demand q' v := by
      intro hs
      obtain ⟨c, hc, hpos⟩ := exists_child_of_demand_pos hs hd
      exact demand_pos_of_child hb hc (ih c hc hpos)
    cases hs : w.rule.shape v with
    | assignment field =>
      have hf : (w.rule.field? v).isSome := by simp [Rule.field?_of_assignment hs]
      exact (demand_pos_assignment hb hf).2 (h v ((demand_pos_assignment hb hf).1 hd))
    | group => exact hcomposite (.inl hs)
    | alternative => exact hcomposite (.inr hs)
    | action =>
      rw [demand_action hb hs]
      decide

/-! ## Positive minimums -/

theorem optional_of_minCount_pos (h : 0 < w.minCount q v) : w.rule.optional v = false := by
  by_contra ho
  rw [minCount_optional (by simpa using ho)] at h
  exact lt_irrefl _ h

/-- Nothing has to fire for a blocked container. -/
theorem minCount_of_blocked (hc : c ∈ w.rule.children v) (hb : w.blocked v = true) :
    w.minCount q c = 0 := by
  cases ho : w.rule.optional c with
  | true => exact minCount_optional ho
  | false => rw [minCount_child hc ho, leastIn_eq, if_pos hb]

/-- A child of a group has to fire more than `n` times if the group has to, or if one of its other children
demands it. -/
theorem lt_minCount_group {n : Count} (hn : 0 ≤ n) (hc : c ∈ w.rule.children v)
    (hs : w.rule.shape v = .group) :
    n < w.minCount q c ↔ w.blocked v = false ∧ w.rule.optional c = false ∧
      (n < w.minCount q v ∨
        w.plainRoot v = false ∧ ∃ d ∈ w.rule.others v c, n < w.demand q d) := by
  cases hb : w.blocked v with
  | true =>
    rw [minCount_of_blocked hc hb]
    exact iff_of_false (not_lt.2 hn) fun h => nomatch h.1
  | false =>
    cases ho : w.rule.optional c with
    | true =>
      rw [minCount_optional ho]
      exact iff_of_false (not_lt.2 hn) fun h => nomatch h.2.1
    | false =>
      have hundefined : ¬ n < Count.undefined := not_lt.2 (Count.undefined_le n)
      rw [minCount_child hc ho, leastIn_group hb hs]
      cases hroot : w.plainRoot v with
      | true => simp [minCount_plainRoot hroot]
      | false => simp [Count.lt_foldl_max_iff, hundefined]

/-- A branch has to fire as often as its alternative, unless another branch demands a firing. -/
theorem lt_minCount_alternative {n : Count} (hn : 0 ≤ n) (hc : c ∈ w.rule.children v)
    (hs : w.rule.shape v = .alternative) :
    n < w.minCount q c ↔ w.blocked v = false ∧ w.rule.optional c = false ∧
      n < w.minCount q v ∧ ∀ d ∈ w.rule.others v c, ¬ 0 < w.demand q d := by
  cases hb : w.blocked v with
  | true =>
    rw [minCount_of_blocked hc hb]
    exact iff_of_false (not_lt.2 hn) fun h => nomatch h.1
  | false =>
    cases ho : w.rule.optional c with
    | true =>
      rw [minCount_optional ho]
      exact iff_of_false (not_lt.2 hn) fun h => nomatch h.2.1
    | false =>
      rw [minCount_child hc ho, leastIn_alternative hb hs]
      by_cases hany : ((w.rule.others v c).any fun d => 0 < w.demand q d) = true
      · rw [if_pos hany]
        obtain ⟨d, hd, hpos⟩ := List.any_eq_true.1 hany
        exact iff_of_false (not_lt.2 hn) fun h => h.2.2.2 d hd (of_decide_eq_true hpos)
      · rw [if_neg hany]
        have hquiet : ∀ d ∈ w.rule.others v c, ¬ 0 < w.demand q d := by simpa using hany
        exact ⟨fun h => ⟨rfl, rfl, h, hquiet⟩, fun h => h.2.2.1⟩

/-! ## Activity -/

/-- The node has to fire: shares below it demand it, or its surroundings do. -/
def Active (w : View) (q : Quantities) (v : Nat) : Prop := 0 < w.demand q v ∨ 0 < w.minCount q v

/-- Activity spreads upwards. -/
theorem Active.container (h : w.Active q c) (hc : c ∈ w.rule.children v) (hb : w.blocked v = false) :
    w.Active q v := by
  rcases h with hd | hm
  · exact .inl (demand_pos_of_child hb hc hd)
  · rcases Rule.composite_of_mem_children hc with hs | hs
    · obtain ⟨-, -, hm | ⟨-, d, hd, hpos⟩⟩ := (lt_minCount_group le_rfl hc hs).1 hm
      · exact .inr hm
      · exact .inl (demand_pos_of_child hb (Rule.mem_others.1 hd).1 hpos)
    · exact .inr ((lt_minCount_alternative le_rfl hc hs).1 hm).2.2.1

theorem Active.line (h : w.Active q v) (hu : u ∈ w.rule.line v)
    (hb : ∀ x ∈ w.rule.line v, w.blocked x = false) : w.Active q u := by
  induction v using Rule.induction_up (r := w.rule) with
  | step v ih =>
    rcases Rule.mem_line_iff.1 hu with rfl | ⟨p, hp, hup⟩
    · exact h
    · have hmem : ∀ x ∈ w.rule.line p, x ∈ w.rule.line v := fun x hx =>
        Rule.mem_line_iff.2 (.inr ⟨p, hp, hx⟩)
      exact ih p hp (h.container (Rule.mem_children.2 hp) (hb p (hmem p List.mem_cons_self))) hup
        fun x hx => hb x (hmem x hx)

/-- In a group activity spreads downwards. -/
theorem Active.child (h : w.Active q v) (hb : w.blocked v = false) (hs : w.rule.shape v = .group)
    (hc : c ∈ w.rule.children v) (ho : w.rule.optional c = false) : w.Active q c := by
  have hiff := lt_minCount_group (w := w) (q := q) le_rfl hc hs
  cases hroot : w.plainRoot v with
  | true =>
    refine .inr (hiff.2 ⟨hb, ho, .inl ?_⟩)
    rw [minCount_plainRoot hroot]
    decide
  | false =>
    rcases h with hd | hm
    · obtain ⟨d, hd, hpos⟩ := exists_child_of_demand_pos (.inl hs) hd
      by_cases he : d = c
      · exact .inl (he ▸ hpos)
      · exact .inr (hiff.2 ⟨hb, ho, .inr ⟨hroot, d, Rule.mem_others.2 ⟨hd, he⟩, hpos⟩⟩)
    · exact .inr (hiff.2 ⟨hb, ho, .inl hm⟩)

/-- Above a node that is not active there is a last one of which this holds. -/
theorem exists_topmost (h : ¬ w.Active q v) :
    ∃ u ∈ w.rule.line v, ¬ w.Active q u ∧ ∀ p, w.rule.container u = some p → w.Active q p := by
  induction v using Rule.induction_up (r := w.rule) with
  | step v ih =>
    by_cases hp : ∃ p, w.rule.container v = some p ∧ ¬ w.Active q p
    · obtain ⟨p, hp, hnot⟩ := hp
      obtain ⟨u, hu, htop⟩ := ih p hp hnot
      exact ⟨u, Rule.mem_line_iff.2 (.inr ⟨p, hp, hu⟩), htop⟩
    · refine ⟨v, List.mem_cons_self, h, fun p hcontainer => ?_⟩
      by_contra hnot
      exact hp ⟨p, hcontainer, hnot⟩

/-! ## New shares -/

/-- Outside some subtrees positive shares in `q'` belong to nodes that are active in `q`, and nothing that
is demanded in an alternative in `q` stops being so. The subtrees left aside stand in active groups. -/
structure Grown (w : View) (aside : Nat → Prop) (q q' : Quantities) : Prop where
  share : ∀ x, ¬ aside x → w.blocked x = false → (w.rule.field? x).isSome → 0 < q'.shareCount x →
    w.Active q x
  below : ∀ v c, c ∈ w.rule.children v → aside v → aside c
  edge : ∀ v c, ¬ aside v → c ∈ w.rule.children v → aside c → w.Active q v
  branch : ∀ v c, ¬ aside v → w.rule.shape v = .alternative → c ∈ w.rule.children v →
    0 < w.demand q c → 0 < w.demand q' c

namespace Grown

variable {aside : Nat → Prop}

/-- What is demanded was active. -/
theorem active_of_demand_pos (h : w.Grown aside q q') (hv : ¬ aside v) (hd : 0 < w.demand q' v) :
    w.Active q v := by
  induction v using Rule.induction_down (r := w.rule) with
  | step v ih =>
    have hb := blocked_of_demand_pos hd
    have hcomposite : w.rule.shape v = .group ∨ w.rule.shape v = .alternative → w.Active q v := by
      intro hs
      obtain ⟨c, hc, hpos⟩ := exists_child_of_demand_pos hs hd
      by_cases ha : aside c
      · exact h.edge v c hv hc ha
      · exact (ih c hc ha hpos).container hc hb
    cases hs : w.rule.shape v with
    | assignment field =>
      have hf : (w.rule.field? v).isSome := by simp [Rule.field?_of_assignment hs]
      exact h.share v hv hb hf ((demand_pos_assignment hb hf).1 hd)
    | group => exact hcomposite (.inl hs)
    | alternative => exact hcomposite (.inr hs)
    | action =>
      refine .inl ?_
      rw [demand_action hb hs]
      decide

/-- What has to fire was active. -/
theorem active_of_minCount_pos (h : w.Grown aside q q') (hv : ¬ aside v)
    (hm : 0 < w.minCount q' v) : w.Active q v := by
  induction v using Rule.induction_up (r := w.rule) with
  | step v ih =>
    have ho := optional_of_minCount_pos hm
    cases hp : w.rule.container v with
    | none =>
      have hone : w.minCount q v = 1 := by
        rw [minCount_eq, ho, hp]
        rfl
      refine .inr ?_
      rw [hone]
      decide
    | some p =>
      have hc : v ∈ w.rule.children p := Rule.mem_children.2 hp
      have hpa : ¬ aside p := fun ha => hv (h.below p v hc ha)
      rcases Rule.composite_of_mem_children hc with hs | hs
      · obtain ⟨hb, -, hm | ⟨-, d, hd, hpos⟩⟩ := (lt_minCount_group le_rfl hc hs).1 hm
        · exact (ih p hp hpa hm).child hb hs hc ho
        · have hdp := (Rule.mem_others.1 hd).1
          have hactive : w.Active q p := by
            by_cases ha : aside d
            · exact h.edge p d hpa hdp ha
            · exact (h.active_of_demand_pos ha hpos).container hdp hb
          exact hactive.child hb hs hc ho
      · obtain ⟨hb, -, hm, hquiet⟩ := (lt_minCount_alternative le_rfl hc hs).1 hm
        have hquiet' : ∀ d ∈ w.rule.others p v, ¬ 0 < w.demand q d := fun d hd hpos =>
          hquiet d hd (h.branch p d hpa hs (Rule.mem_others.1 hd).1 hpos)
        rcases ih p hp hpa hm with hd | hm
        · -- The demanded branch can only be the node itself.
          obtain ⟨d, hd, hpos⟩ := exists_child_of_demand_pos (.inr hs) hd
          by_cases he : d = v
          · exact .inl (he ▸ hpos)
          · exact absurd hpos (hquiet' d (Rule.mem_others.2 ⟨hd, he⟩))
        · exact .inr ((lt_minCount_alternative le_rfl hc hs).2 ⟨hb, ho, hm, hquiet'⟩)

theorem active (h : w.Grown aside q q') (hv : ¬ aside v) (ha : w.Active q' v) : w.Active q v :=
  ha.elim (h.active_of_demand_pos hv) (h.active_of_minCount_pos hv)

end Grown

/-- Minimums grow with the demands at groups, as long as no branch of an alternative is demanded anew. -/
theorem lt_minCount_of_lt {n : Count} (hn : 0 ≤ n)
    (hgroup : ∀ p ∈ w.rule.line v, w.rule.shape p = .group → ∀ d ∈ w.rule.children p,
      n < w.demand q d → n < w.demand q' d)
    (halternative : ∀ p ∈ w.rule.line v, w.rule.shape p = .alternative → ∀ d ∈ w.rule.children p,
      0 < w.demand q' d → 0 < w.demand q d)
    (h : n < w.minCount q v) : n < w.minCount q' v := by
  induction v using Rule.induction_up (r := w.rule) with
  | step v ih =>
    cases hp : w.rule.container v with
    | none =>
      rw [minCount_eq, hp] at h ⊢
      exact h
    | some p =>
      have hc : v ∈ w.rule.children p := Rule.mem_children.2 hp
      have hmem : ∀ x ∈ w.rule.line p, x ∈ w.rule.line v := fun x hx =>
        Rule.mem_line_iff.2 (.inr ⟨p, hp, hx⟩)
      have hself : p ∈ w.rule.line v := hmem p List.mem_cons_self
      have habove : n < w.minCount q p → n < w.minCount q' p :=
        ih p hp (fun x hx => hgroup x (hmem x hx)) fun x hx => halternative x (hmem x hx)
      rcases Rule.composite_of_mem_children hc with hs | hs
      · rw [lt_minCount_group hn hc hs] at h ⊢
        refine ⟨h.1, h.2.1, h.2.2.imp habove fun ⟨hroot, d, hd, hlt⟩ => ⟨hroot, d, hd, ?_⟩⟩
        exact hgroup p hself hs d (Rule.mem_others.1 hd).1 hlt
      · rw [lt_minCount_alternative hn hc hs] at h ⊢
        refine ⟨h.1, h.2.1, habove h.2.2.1, fun d hd hpos => h.2.2.2 d hd ?_⟩
        exact halternative p hself hs d (Rule.mem_others.1 hd).1 hpos

/-! ## Shares for active nodes -/

/-- The second state keeps the shares of the first, and new positive shares belong to active nodes. -/
structure Pressed (w : View) (q q' : Quantities) : Prop where
  keeps : ∀ {x n}, q.share? x = some n → q'.share? x = some n
  pressed : ∀ {x}, 0 < q'.shareCount x → 0 < q.shareCount x ∨ w.Active q x

theorem not_active_of_share? (hv : (w.rule.field? v).isSome) (hs : q.share? v = none)
    (hm : ¬ 0 < w.minCount q v) : ¬ w.Active q v := by
  rintro (hd | hpos)
  · rw [demand_pos_assignment (blocked_of_demand_pos hd) hv] at hd
    unfold Quantities.shareCount at hd
    rw [hs] at hd
    exact absurd hd (by decide)
  · exact hm hpos

namespace Pressed

theorem refl (w : View) (q : Quantities) : w.Pressed q q := ⟨id, .inl⟩

theorem shareCount_pos (h : w.Pressed q q') (hx : 0 < q.shareCount x) : 0 < q'.shareCount x := by
  unfold Quantities.shareCount at hx ⊢
  cases hs : q.share? x with
  | none =>
    rw [hs] at hx
    exact absurd hx (by decide)
  | some n =>
    rw [hs] at hx
    rwa [h.keeps hs]

theorem grown (h : w.Pressed q q') : w.Grown (fun _ => False) q q' where
  share _ _ hb hf hx := (h.pressed hx).elim (fun hx => .inl ((demand_pos_assignment hb hf).2 hx)) id
  below _ _ _ := id
  edge _ _ _ _ := False.elim
  branch _ _ _ _ _ := demand_pos_mono fun _ => h.shareCount_pos

/-- No node becomes active. -/
theorem active (h : w.Pressed q q') (ha : w.Active q' v) : w.Active q v := h.grown.active id ha

/-- Below groups alone no node ceases to be active. -/
theorem stays (h : w.Pressed q q') (hv : ∀ u ∈ w.rule.line v, w.rule.shape u ≠ .alternative)
    (ha : w.Active q v) : w.Active q' v := by
  have hdemand : ∀ {d}, 0 < w.demand q d → 0 < w.demand q' d := demand_pos_mono fun _ => h.shareCount_pos
  exact ha.imp hdemand (lt_minCount_of_lt le_rfl (fun _ _ _ _ _ => hdemand) fun p hp hs =>
    absurd hs (hv p hp))

theorem trans {q'' : Quantities} (h : w.Pressed q q') (h' : w.Pressed q' q'') : w.Pressed q q'' where
  keeps hs := h'.keeps (h.keeps hs)
  pressed hx := (h'.pressed hx).elim h.pressed fun ha => .inr (h.active ha)

/-- If what changes is not below an alternative, the same unassigned nodes have to fire. -/
theorem minCount_pos_iff (h : w.Pressed q q') (hv : (w.rule.field? v).isSome) (hs : q.share? v = none)
    (hchanged : ∀ x, q.share? x ≠ q'.share? x → ∀ u ∈ w.rule.line x, w.rule.shape u ≠ .alternative) :
    0 < w.minCount q' v ↔ 0 < w.minCount q v := by
  constructor
  · intro hm
    by_contra hnot
    exact not_active_of_share? hv hs hnot (h.active (.inr hm))
  · refine lt_minCount_of_lt le_rfl (fun _ _ _ _ _ => demand_pos_mono fun _ => h.shareCount_pos) ?_
    intro p _ hp d hd hpos
    rwa [demand_congr fun x hx => ?_]
    by_contra hne
    exact hchanged x hne p (Rule.mem_line_of_container hx (Rule.mem_children.1 hd)) hp

end Pressed

end RuleCardinality.View
