import RuleCardinality.Proofs.View.Active

/-!
# Nodes tied to their siblings

Where a line of containers leads through a node that need not fire, only a tie can make a node below it
fire: a group above the node of which another child is demanded, with nothing on the way down that may be
left out, is blocked, or has another branch to offer (`minCount_pos_iff_tied`). A node is demanded if an
assignment with a positive share, or an action, stands at or below it and no blocked node is between
(`demand_pos_iff_demanded`). So a part that may be left out and of which nothing is assigned leaves minimums
of zero except where an action ties a node (`minCount_omitted`); and below a blocked node maximums are zero,
and minimums as well except for ties below it (`window_below_blocked`).
-/

namespace RuleCardinality.View

variable {w : View} {q : Quantities} {used used' : Nat → Prop} {b d g o p v : Nat}

/-! ## Demanded nodes -/

/-- Some used node is the node or stands below it, and no node from there up to the node is blocked. -/
def Demanded (w : View) (used : Nat → Prop) (v : Nat) : Prop :=
  ∃ x, used x ∧ v ∈ w.rule.line x ∧ ∀ u ∈ w.rule.line x, v ∈ w.rule.line u → w.blocked u = false

theorem demanded_iff :
    w.Demanded used v ↔
      w.blocked v = false ∧ (used v ∨ ∃ c ∈ w.rule.children v, w.Demanded used c) := by
  constructor
  · rintro ⟨x, hx, hvx, hfree⟩
    refine ⟨hfree v hvx (w.rule.self_mem_line v), ?_⟩
    by_cases he : x = v
    · exact .inl (he ▸ hx)
    · obtain ⟨c, hc, hcx⟩ := Rule.exists_child_of_mem_line hvx he
      exact .inr ⟨c, hc, x, hx, hcx, ((Rule.forall_between_child hc hcx).1 hfree).2⟩
  · rintro ⟨hb, hv | ⟨c, hc, x, hx, hcx, hfree⟩⟩
    · exact ⟨v, hv, w.rule.self_mem_line v, Rule.forall_between_self.2 hb⟩
    · exact ⟨x, hx, Rule.mem_line_of_container hcx (Rule.mem_children.1 hc),
        (Rule.forall_between_child hc hcx).2 ⟨hb, hfree⟩⟩

theorem Demanded.congr (h : ∀ x, v ∈ w.rule.line x → (used x ↔ used' x)) :
    w.Demanded used v ↔ w.Demanded used' v := by
  unfold Demanded
  refine exists_congr fun x => ?_
  constructor
  · rintro ⟨hx, hvx, hfree⟩
    exact ⟨(h x hvx).1 hx, hvx, hfree⟩
  · rintro ⟨hx, hvx, hfree⟩
    exact ⟨(h x hvx).2 hx, hvx, hfree⟩

/-- The node is an action, or an assignment with a positive share. -/
def Used (w : View) (q : Quantities) (x : Nat) : Prop :=
  w.rule.shape x = .action ∨ (w.rule.field? x).isSome ∧ 0 < q.share x

theorem used_assignment (hf : (w.rule.field? v).isSome) : w.Used q v ↔ 0 < q.shareCount v := by
  obtain ⟨field, hfield⟩ := Option.isSome_iff_exists.1 hf
  have hs := Rule.shape_of_field? hfield
  unfold Used Quantities.share Quantities.shareCount
  rw [hs, hfield]
  cases q.share? v with
  | none => simp
  | some n =>
    simp only [reduceCtorEq, false_or, Option.isSome_some, true_and, Option.getD_some, Option.elim_some]
    exact Count.finite_lt_finite.symm

theorem not_used_composite (hs : w.rule.shape v = .group ∨ w.rule.shape v = .alternative) :
    ¬ w.Used q v := by
  unfold Used Rule.field?
  rcases hs with hs | hs
  · simp [hs, Shape.field?]
  · simp [hs, Shape.field?]

theorem demand_pos_iff_demanded : 0 < w.demand q v ↔ w.Demanded (w.Used q) v := by
  induction v using Rule.induction_down (r := w.rule) with
  | step v ih =>
    rw [demanded_iff]
    cases hb : w.blocked v with
    | true =>
      refine iff_of_false (fun hd => ?_) fun h => nomatch h.1
      rw [blocked_of_demand_pos hd] at hb
      cases hb
    | false =>
      have hcomposite : w.rule.shape v = .group ∨ w.rule.shape v = .alternative →
          (0 < w.demand q v ↔ w.Used q v ∨ ∃ c ∈ w.rule.children v, w.Demanded (w.Used q) c) := by
        intro hs
        rw [or_iff_right (not_used_composite hs)]
        constructor
        · intro hd
          obtain ⟨c, hc, hpos⟩ := exists_child_of_demand_pos hs hd
          exact ⟨c, hc, (ih c hc).1 hpos⟩
        · rintro ⟨c, hc, hdem⟩
          exact demand_pos_of_child hb hc ((ih c hc).2 hdem)
      rw [and_iff_right rfl]
      cases hs : w.rule.shape v with
      | assignment field =>
        have hf := Rule.field?_of_assignment hs
        have hsome : (w.rule.field? v).isSome := by rw [hf]; rfl
        rw [demand_pos_assignment hb hsome, used_assignment hsome, Rule.children_of_field? hf]
        simp
      | group => exact hcomposite (.inl hs)
      | alternative => exact hcomposite (.inr hs)
      | action =>
        rw [demand_action hb hs]
        exact iff_of_true (by decide) (.inl (.inl hs))

/-! ## Ties -/

/-- A container passes a firing on to a child: it is not blocked, the child may not be left out, and another
branch of an alternative is not demanded. -/
structure Passes (w : View) (used : Nat → Prop) (p c : Nat) : Prop where
  free : w.blocked p = false
  mandatory : w.rule.optional c = false
  quiet : w.rule.shape p = .alternative → ∀ d ∈ w.rule.others p c, ¬ w.Demanded used d

/-- The group `g` above the node has another child that is demanded, and the containers from the group down
to the node pass its firings on. -/
structure Tied (w : View) (used : Nat → Prop) (g v : Nat) : Prop where
  group : w.rule.shape g = .group
  above : g ∈ w.rule.ancestors v
  beside : ∃ d ∈ w.rule.children g, d ∉ w.rule.line v ∧ w.Demanded used d
  passes : ∀ p, g ∈ w.rule.line p → ∀ c ∈ w.rule.children p, c ∈ w.rule.line v → w.Passes used p c

/-- A child of a container on a line is off the line if it is not the child that the line passes through. -/
theorem not_mem_line_iff (hp : w.rule.container v = some p) (hd : d ∈ w.rule.children p) :
    d ∉ w.rule.line v ↔ d ∈ w.rule.others p v := by
  rw [Rule.mem_others, and_iff_right hd]
  constructor
  · rintro hn rfl
    exact hn (w.rule.self_mem_line d)
  · intro hne hdv
    exact hne (Rule.eq_of_mem_line hdv (w.rule.self_mem_line v) (Rule.mem_children.1 hd) hp)

/-- Ties reach down one child at a time. -/
theorem tied_child (hp : w.rule.container v = some p) :
    w.Tied used g v ↔ w.Passes used p v ∧
      (g = p ∧ w.rule.shape p = .group ∧ (∃ d ∈ w.rule.others p v, w.Demanded used d) ∨
        w.Tied used g p) := by
  have hc : v ∈ w.rule.children p := Rule.mem_children.2 hp
  have hline : ∀ x, x ∈ w.rule.line v ↔ x = v ∨ x ∈ w.rule.line p := by
    intro x
    rw [Rule.mem_line_iff, hp]
    simp
  have hside : g ∈ w.rule.ancestors p → ∀ d ∈ w.rule.children g,
      (d ∉ w.rule.line v ↔ d ∉ w.rule.line p) := by
    intro hg d hd
    have hne : d ≠ v := by
      rintro rfl
      obtain rfl : p = g := Option.some.inj (hp.symm.trans (Rule.mem_children.1 hd))
      exact Nat.lt_irrefl p (Rule.lt_of_mem_ancestors hg)
    rw [hline, or_iff_right hne]
  constructor
  · intro h
    have hg : g ∈ w.rule.line p := by
      rw [← Rule.ancestors_of_container hp]
      exact h.above
    refine ⟨h.passes p hg v hc (w.rule.self_mem_line v), ?_⟩
    obtain ⟨d, hd, hdv, hdem⟩ := h.beside
    rcases List.mem_cons.1 hg with rfl | hgp
    · exact .inl ⟨rfl, h.group, d, (not_mem_line_iff hp hd).1 hdv, hdem⟩
    · refine .inr ⟨h.group, hgp, ⟨d, hd, (hside hgp d hd).1 hdv, hdem⟩, ?_⟩
      intro u hgu c hcu hcp
      exact h.passes u hgu c hcu ((hline c).2 (.inr hcp))
  · rintro ⟨hpass, ⟨rfl, hs, d, hd, hdem⟩ | h⟩
    · have hdg := (Rule.mem_others.1 hd).1
      refine ⟨hs, ?_, ⟨d, hdg, (not_mem_line_iff hp hdg).2 hd, hdem⟩, ?_⟩
      · rw [Rule.ancestors_of_container hp]
        exact w.rule.self_mem_line g
      · intro u hgu c hcu hcv
        rcases (hline c).1 hcv with rfl | hcg
        · obtain rfl : g = u := Option.some.inj (hp.symm.trans (Rule.mem_children.1 hcu))
          exact hpass
        · have hlt : u < c := (Rule.lt_of_mem_children hcu).1
          have hcle : c ≤ g := Rule.le_of_mem_line hcg
          have hgle : g ≤ u := Rule.le_of_mem_line hgu
          omega
    · obtain ⟨d, hd, hdp, hdem⟩ := h.beside
      refine ⟨h.group, ?_, ⟨d, hd, (hside h.above d hd).2 hdp, hdem⟩, ?_⟩
      · rw [Rule.ancestors_of_container hp]
        exact Rule.mem_line_of_mem_ancestors h.above
      · intro u hgu c hcu hcv
        rcases (hline c).1 hcv with rfl | hcp
        · obtain rfl : p = u := Option.some.inj (hp.symm.trans (Rule.mem_children.1 hcu))
          exact hpass
        · exact h.passes u hgu c hcu hcp

/-- For a tie only the nodes below its group count as used or not. -/
theorem Tied.congr (h : ∀ x, g ∈ w.rule.line x → (used x ↔ used' x)) (ht : w.Tied used g v) :
    w.Tied used' g v := by
  have hdemanded : ∀ u d, g ∈ w.rule.line u → d ∈ w.rule.children u →
      (w.Demanded used d ↔ w.Demanded used' d) := by
    intro u d hgu hd
    apply Demanded.congr
    intro x hdx
    have hux := Rule.mem_line_of_container hdx (Rule.mem_children.1 hd)
    exact h x (Rule.mem_line_trans hgu hux)
  obtain ⟨d, hd, hdv, hdem⟩ := ht.beside
  refine ⟨ht.group, ht.above, ⟨d, hd, hdv, ?_⟩, fun p hgp c hc hcv => ?_⟩
  · exact (hdemanded g d (w.rule.self_mem_line g) hd).1 hdem
  · have hpass := ht.passes p hgp c hc hcv
    refine ⟨hpass.free, hpass.mandatory, fun hs d hd hdem => hpass.quiet hs d hd ?_⟩
    exact (hdemanded p d hgp (Rule.mem_others.1 hd).1).2 hdem

/-- Ties start below a node to which its container passes nothing on. -/
theorem Tied.mem_line (h : w.Tied used g v) (ho : o ∈ w.rule.line v)
    (hstop : ∀ p, w.rule.container o = some p → ¬ w.Passes used p o) : o ∈ w.rule.line g := by
  by_contra hn
  have hgo := Rule.mem_ancestors_of_not_mem_line (Rule.mem_line_of_mem_ancestors h.above) ho hn
  cases hp : w.rule.container o with
  | none =>
    rw [Rule.ancestors_eq, hp] at hgo
    cases hgo
  | some p =>
    rw [Rule.ancestors_of_container hp] at hgo
    exact hstop p hp (h.passes p hgo o (Rule.mem_children.2 hp) ho)

theorem minCount_eq_zero_iff : w.minCount q v = 0 ↔ ¬ 0 < w.minCount q v := by
  constructor
  · intro h
    rw [h]
    exact lt_irrefl 0
  · intro h
    exact le_antisymm (not_lt.1 h) (zero_le_minCount v)

/-- A root that fires exactly once is not below a node that need not fire. -/
theorem plainRoot_eq_false (ho : o ∈ w.rule.line v) (hz : w.minCount q o = 0) :
    w.plainRoot v = false := by
  by_contra hroot
  rw [Bool.not_eq_false] at hroot
  rcases Rule.mem_line_iff.1 ho with rfl | ⟨p, hp, -⟩
  · rw [minCount_plainRoot hroot] at hz
    cases hz
  · simp [plainRoot, hp] at hroot

/-- Below a node that need not fire, a node has to fire if and only if a group from that node on ties it. -/
theorem minCount_pos_iff_tied (ho : o ∈ w.rule.line v) (hz : w.minCount q o = 0) :
    0 < w.minCount q v ↔ ∃ g, o ∈ w.rule.line g ∧ w.Tied (w.Used q) g v := by
  -- Up to `o` the minimum follows the container's; at `o` it is zero, so only demands can raise it.
  induction v using Rule.induction_up (r := w.rule) with
  | step v ih =>
    rcases Rule.mem_line_iff.1 ho with rfl | ⟨p, hp, hop⟩
    · rw [hz]
      refine iff_of_false (lt_irrefl 0) ?_
      rintro ⟨g, hog, h⟩
      exact absurd (Rule.lt_of_mem_ancestors h.above) (Nat.not_lt_of_le (Rule.le_of_mem_line hog))
    · have hc : v ∈ w.rule.children p := Rule.mem_children.2 hp
      have hdemand : (∃ d ∈ w.rule.others p v, 0 < w.demand q d) ↔
          ∃ d ∈ w.rule.others p v, w.Demanded (w.Used q) d :=
        exists_congr fun d => and_congr_right fun _ => demand_pos_iff_demanded
      have hplain := plainRoot_eq_false hop hz
      simp only [tied_child hp]
      rcases Rule.composite_of_mem_children hc with hs | hs
      · rw [lt_minCount_group le_rfl hc hs, ih p hp hop, hdemand]
        constructor
        · rintro ⟨hb, hopt, hfrom⟩
          have hpass : w.Passes (w.Used q) p v := ⟨hb, hopt, fun halt => by rw [hs] at halt; cases halt⟩
          rcases hfrom with ⟨g, hog, h⟩ | ⟨-, hbeside⟩
          · exact ⟨g, hog, hpass, .inr h⟩
          · exact ⟨p, hop, hpass, .inl ⟨rfl, hs, hbeside⟩⟩
        · rintro ⟨g, hog, hpass, ⟨-, -, hbeside⟩ | h⟩
          · exact ⟨hpass.free, hpass.mandatory, .inr ⟨hplain, hbeside⟩⟩
          · exact ⟨hpass.free, hpass.mandatory, .inl ⟨g, hog, h⟩⟩
      · rw [lt_minCount_alternative le_rfl hc hs, ih p hp hop]
        simp only [demand_pos_iff_demanded]
        constructor
        · rintro ⟨hb, hopt, ⟨g, hog, h⟩, hquiet⟩
          exact ⟨g, hog, ⟨hb, hopt, fun _ => hquiet⟩, .inr h⟩
        · rintro ⟨g, hog, hpass, ⟨-, hgroup, -⟩ | h⟩
          · rw [hs] at hgroup
            cases hgroup
          · exact ⟨hpass.free, hpass.mandatory, ⟨g, hog, h⟩, hpass.quiet hs⟩

/-! ## Parts left out -/

/-- Where nothing is assigned in a part that may be left out, it has to fire zero times, and so has every
node in it but those that an action ties. -/
theorem minCount_omitted (ho : w.rule.optional o = true)
    (hz : ∀ x ∈ w.rule.subtree o, (w.rule.field? x).isSome → q.share x = 0) :
    w.minCount q o = 0 ∧ ∀ v ∈ w.rule.subtree o,
      (w.minCount q v = 0 ↔ ∀ g, ¬ w.Tied (fun x => w.rule.shape x = .action) g v) := by
  have hzero : w.minCount q o = 0 := minCount_optional ho
  refine ⟨hzero, fun v hv => ?_⟩
  have hov : o ∈ w.rule.line v := Rule.mem_subtree_iff.1 hv
  have hused : ∀ g, o ∈ w.rule.line g → ∀ x, g ∈ w.rule.line x →
      (w.Used q x ↔ w.rule.shape x = .action) := by
    intro g hog x hgx
    refine or_iff_left ?_
    rintro ⟨hf, hpos⟩
    rw [hz x (Rule.mem_subtree_iff.2 (Rule.mem_line_trans hog hgx)) hf] at hpos
    exact Nat.lt_irrefl 0 hpos
  rw [minCount_eq_zero_iff, minCount_pos_iff_tied hov hzero, not_exists]
  refine forall_congr' fun g => not_congr ⟨?_, fun h => ?_⟩
  · rintro ⟨hog, h⟩
    exact h.congr (hused g hog)
  · have hog : o ∈ w.rule.line g := by
      apply h.mem_line hov
      intro p _ hpass
      rw [hpass.mandatory] at ho
      cases ho
    exact ⟨hog, h.congr fun x hgx => (hused g hog x hgx).symm⟩

/-- A name and, if anything, either the target of a call or a value. -/
def callable : Rule :=
  ((Rule.ofAdditions "Callable"
    [.root { shape := .group }, .child 0 { shape := .assignment "name" },
      .child 0 { shape := .alternative, optional := true }, .child 2 { shape := .group },
      .child 3 { shape := .action, types := some (.ofList ["Call"]) },
      .child 3 { shape := .assignment "target" },
      .child 2 { shape := .assignment "value" }]).toOption).get (by decide +kernel)

/-- A name alone. -/
def nameOnly : Quantities := ((Quantities.empty.assign 1 1).assign 5 0).assign 6 0

theorem minCount_omitted_callable :
    callable.optional 2 = true ∧
    (∀ x ∈ callable.subtree 2, (callable.field? x).isSome → nameOnly.share x = 0) ∧
    View.minCount ⟨callable, "Call"⟩ nameOnly 2 = 0 ∧
    ∀ g, ¬ View.Tied ⟨callable, "Call"⟩ (fun x => callable.shape x = .action) g 6 := by
  have ho : callable.optional 2 = true := by decide +kernel
  have hz : ∀ x ∈ callable.subtree 2, (callable.field? x).isSome → nameOnly.share x = 0 := by
    decide +kernel
  obtain ⟨hzero, hiff⟩ := minCount_omitted (w := ⟨callable, "Call"⟩) ho hz
  exact ⟨ho, hz, hzero, (hiff 6 (by decide +kernel)).1 (by decide +kernel)⟩

/-- The action of a call demands the target of the call, although the call may be left out and neither its
target nor its value is assigned. -/
theorem minCount_target_pos :
    callable.optional 2 = true ∧
    (∀ x ∈ callable.subtree 2, (callable.field? x).isSome → nameOnly.share? x = some 0) ∧
    5 ∈ callable.subtree 2 ∧ View.minCount ⟨callable, "Call"⟩ nameOnly 5 = 1 := by
  decide +kernel

/-! ## Parts below a blocked node -/

/-- Below a blocked node the maximum is zero, and so is the minimum but for nodes that a group ties. -/
theorem window_below_blocked (exclude : Option String) (hb : b ∈ w.rule.ancestors v)
    (hblocked : w.blocked b = true) :
    w.maxCount q exclude v = 0 ∧
      (w.minCount q v = 0 ↔ ∀ g, ¬ w.Tied (w.Used q) g v) := by
  have hbv : b ∈ w.rule.line v := Rule.mem_line_of_mem_ancestors hb
  have hne : v ≠ b := (Nat.ne_of_lt (Rule.lt_of_mem_ancestors hb)).symm
  obtain ⟨c, hc, hcv⟩ := Rule.exists_child_of_mem_line hbv hne
  refine ⟨maxCount_of_blocked hblocked hc (Rule.mem_subtree_iff.2 hcv), ?_⟩
  rw [minCount_eq_zero_iff, minCount_pos_iff_tied hcv (minCount_of_blocked hc hblocked), not_exists]
  refine forall_congr' fun g => not_congr ⟨And.right, fun h => ⟨?_, h⟩⟩
  apply h.mem_line hcv
  intro p hp hpass
  obtain rfl : b = p := Option.some.inj ((Rule.mem_children.1 hc).symm.trans hp)
  rw [hpass.free] at hblocked
  cases hblocked

/-- Either, in a call, an argument in a group that does something else as well, or a value. -/
def argued : Rule :=
  ((Rule.ofAdditions "Argued"
    [.root { shape := .alternative }, .child 0 { shape := .group },
      .child 1 { shape := .action, types := some (.ofList ["Call"]) }, .child 1 { shape := .group },
      .child 3 { shape := .assignment "argument" }, .child 3 { shape := .action },
      .child 0 { shape := .assignment "value" }]).toOption).get (by decide +kernel)

/-- A value alone. -/
def valueOnly : Quantities := (Quantities.empty.assign 4 0).assign 6 1

theorem window_below_blocked_argued :
    1 ∈ argued.ancestors 3 ∧ View.blocked ⟨argued, "Literal"⟩ 1 = true ∧
    View.maxCount ⟨argued, "Literal"⟩ valueOnly none 3 = 0 ∧
    ∀ g, ¬ View.Tied ⟨argued, "Literal"⟩ (View.Used ⟨argued, "Literal"⟩ valueOnly) g 3 := by
  have hb : 1 ∈ argued.ancestors 3 := by decide +kernel
  have hblocked : View.blocked ⟨argued, "Literal"⟩ 1 = true := by decide +kernel
  obtain ⟨hmax, hiff⟩ :=
    window_below_blocked (w := ⟨argued, "Literal"⟩) (q := valueOnly) none hb hblocked
  exact ⟨hb, hblocked, hmax, hiff.1 (by decide +kernel)⟩

/-- The other action in its group demands the argument of a call, although the call is blocked. -/
theorem window_argument :
    1 ∈ argued.ancestors 4 ∧ View.blocked ⟨argued, "Literal"⟩ 1 = true ∧
    View.window ⟨argued, "Literal"⟩ valueOnly (some "argument") 4 = ⟨1, 0⟩ := by
  decide +kernel

end RuleCardinality.View
