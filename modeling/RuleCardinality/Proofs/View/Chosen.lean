import RuleCardinality.Proofs.Rule.Choice
import RuleCardinality.Proofs.View.Filled

/-!
# Choices from windows

In a selective rule, shares inside all windows show which nodes fire: those that leave values, and of the
others those that are mandatory and no branches, each of them together with all its containers
(`Chosen`). Such a node without values has to fire (`one_le_minCount`), and what has to fire and is not
nullable leaves values (`filled_of_one_le_minCount`), so a chosen alternative never lacks its branch.
-/

namespace RuleCardinality.View

open Quantities

variable {w : View} {q : Quantities} {v c x : Nat} {field : String}

/-- A node that leaves values, or is mandatory and no branch of an alternative. -/
def Moved (w : View) (q : Quantities) (v : Nat) : Prop :=
  w.rule.Filled q.share v ∨
    w.rule.optional v = false ∧ ∀ p, w.rule.container v = some p → w.rule.shape p ≠ .alternative

/-- A node that is moved and so are all its containers. -/
def Chosen (w : View) (q : Quantities) (v : Nat) : Prop := ∀ x ∈ w.rule.line v, w.Moved q x

theorem Chosen.moved (h : w.Chosen q v) : w.Moved q v := h v List.mem_cons_self

theorem chosen_root : w.Chosen q w.rule.root ↔ w.Moved q w.rule.root := by
  unfold Chosen
  rw [Rule.line_eq, Rule.container_root]
  simp

theorem chosen_child (hc : c ∈ w.rule.children v) : w.Chosen q c ↔ w.Moved q c ∧ w.Chosen q v := by
  unfold Chosen
  rw [Rule.line_eq, Rule.mem_children.1 hc]
  exact List.forall_mem_cons

theorem filled_of_mem_line (hx : x ∈ w.rule.line v) (hf : w.rule.Filled q.share v) :
    w.rule.Filled q.share x := by
  induction v using Rule.induction_up (r := w.rule) with
  | step v ih =>
    rcases Rule.mem_line_iff.1 hx with rfl | ⟨p, hp, hx⟩
    · exact hf
    · exact ih p hp hx (Rule.filled_of_child (Rule.mem_children.2 hp) hf)

theorem chosen_of_filled (hf : w.rule.Filled q.share v) : w.Chosen q v := by
  intro x hx
  exact .inl (filled_of_mem_line hx hf)

theorem moved_branch_iff (hs : w.rule.shape v = .alternative) (hc : c ∈ w.rule.children v) :
    w.Moved q c ↔ w.rule.Filled q.share c := by
  refine or_iff_left ?_
  rintro ⟨-, hcontainer⟩
  exact hcontainer v (Rule.mem_children.1 hc) hs

section

variable (hr : w.rule.Unguarded) (hs : w.rule.Selective) (hcap : ∀ v, q.share v ≤ cap)
  (hw : w.Settled q)

include hr hs hw

/-! ## Minimum -/

/-- A chosen node without values has to fire. -/
theorem one_le_minCount (hv : v < w.rule.size) (hc : w.Chosen q v)
    (hf : ¬ w.rule.Filled q.share v) : 1 ≤ w.minCount q v := by
  induction v using Rule.induction_up (r := w.rule) with
  | step v ih =>
    obtain ⟨ho, hno⟩ := hc.moved.resolve_left hf
    cases hp : w.rule.container v with
    | none =>
      rw [minCount_eq, ho, hp]
      exact le_rfl
    | some p =>
      have hchild : v ∈ w.rule.children p := Rule.mem_children.2 hp
      have hps : p < w.rule.size := lt_trans (Rule.lt_of_container hp) hv
      have hgroup : w.rule.shape p = .group :=
        (Rule.composite_of_mem_children hchild).resolve_right (hno p hp)
      have hb : w.blocked p = false := blocked_of_unguarded hr p
      rw [minCount_child hchild ho]
      by_cases hfp : w.rule.Filled q.share p
      · -- a sibling leaves values, so the group has to fire for it
        obtain ⟨d, hd, hfd⟩ := (Rule.filled_composite_iff (Rule.field?_of_group hgroup)).1 hfp
        have hne : d ≠ v := by
          rintro rfl
          exact hf hfd
        have hpos : 1 ≤ w.demand q d := Count.one_le_iff_pos.2
          ((demand_pos_iff hr hs.actionless hw.complete (Rule.lt_of_mem_children hd).2).2 hfd)
        cases hroot : w.plainRoot p with
        | true =>
          rw [leastIn_group hb hgroup, hroot]
          exact le_rfl
        | false => exact le_trans hpos (demand_le_leastIn hb hgroup hroot hd hne)
      · exact le_trans (ih p hp hps ((chosen_child hchild).1 hc).2 hfp)
          (minCount_le_leastIn hb hgroup v)

include hcap

/-- What has to fire and is not nullable leaves values. -/
theorem filled_of_one_le_minCount (hn : w.rule.nonNullable v = true) (hm : 1 ≤ w.minCount q v) :
    w.rule.Filled q.share v := by
  induction v using Rule.induction_down (r := w.rule) with
  | step v ih =>
    have hb : w.blocked v = false := blocked_of_unguarded hr v
    cases hshape : w.rule.shape v with
    | assignment field =>
      have hf : w.rule.field? v = some field := Rule.field?_of_assignment hshape
      have hle := le_trans hm (hw.minCount_le_share hcap (by simp [hf]))
      exact (Rule.filled_assignment_iff hf).2 (Count.finite_le_finite.1 hle)
    | group =>
      obtain ⟨c, hc, hcn⟩ := Rule.exists_nonNullable_child hn hshape
      refine Rule.filled_of_child hc (ih c hc hcn ?_)
      rw [minCount_child hc (Rule.optional_of_nonNullable hcn)]
      exact le_trans hm (minCount_le_leastIn hb hshape c)
    | alternative =>
      obtain ⟨c, hc, hcn⟩ := hs.exists_branch hshape
      by_contra hf
      have hquiet : ¬ ((w.rule.others v c).any fun d => 0 < w.demand q d) = true := by
        rw [any_demand_others_iff hr hs.actionless hw.complete]
        rintro ⟨d, hd, -, hfd⟩
        exact hf (Rule.filled_of_child hd hfd)
      refine hf (Rule.filled_of_child hc (ih c hc hcn ?_))
      rw [minCount_child hc (Rule.optional_of_nonNullable hcn), leastIn_alternative hb hshape,
        if_neg hquiet]
      exact hm
    | action =>
      rw [Rule.nonNullable_eq, hshape] at hn
      simp at hn

theorem filled_of_chosen (hv : v < w.rule.size) (hc : w.Chosen q v)
    (hn : w.rule.optional v = false → w.rule.nonNullable v = true) : w.rule.Filled q.share v := by
  by_contra hf
  have hm := one_le_minCount hr hs hw hv hc hf
  exact hf (filled_of_one_le_minCount hr hs hcap hw (hn (hc.moved.resolve_left hf).1) hm)

/-! ## Maximum -/

omit hr hcap in
theorem share_le_one (hf : (w.rule.field? v).isSome) (hrep : w.rule.repeatable v = false) :
    q.share v ≤ 1 :=
  Count.finite_le_finite.1 (le_trans (hw.share_le_maxCount hf)
    (maxCount_le_one (hs.repeatable_line hrep)))

/-! ## The choice -/

theorem share_pos_of_chosen (hf : w.rule.field? v = some field) (hc : w.Chosen q v) :
    0 < q.share v := by
  refine (Rule.filled_assignment_iff hf).1 (filled_of_chosen hr hs hcap hw
    (Rule.lt_size_of_field? hf) hc ?_)
  intro ho
  rw [Rule.nonNullable_eq, ho, Rule.shape_of_field? hf]
  rfl

theorem exists_branch_of_chosen (hshape : w.rule.shape v = .alternative) (hc : w.Chosen q v) :
    ∃! c, c ∈ w.rule.children v ∧ w.Chosen q c := by
  have hv : v < w.rule.size := Rule.lt_size_of_shape_ne (by simp [hshape])
  have hfilled : w.rule.Filled q.share v := by
    refine filled_of_chosen hr hs hcap hw hv hc ?_
    intro ho
    rw [Rule.nonNullable_eq, ho, hshape]
    exact List.all_eq_true.2 (hs.nonNullable v (List.mem_range.2 hv) hshape)
  obtain ⟨c, hchild, hfc⟩ :=
    (Rule.filled_composite_iff (Rule.field?_of_alternative hshape)).1 hfilled
  refine ⟨c, ⟨hchild, chosen_of_filled hfc⟩, ?_⟩
  rintro d ⟨hd, hcd⟩
  have hfd : w.rule.Filled q.share d := (moved_branch_iff hshape hd).1 hcd.moved
  exact eq_of_filled hr hs.actionless hw hshape (hs.repeatable_of_mem_children hd) hd hchild hfd hfc

/-- Shares inside all windows come from a choice of firing nodes. -/
theorem choice_chosen {count : String → Nat}
    (hcount : ∀ v field, w.rule.field? v = some field → q.share? v = some (count field)) :
    w.rule.Choice count (w.Chosen q) := by
  have hshare : ∀ v field, w.rule.field? v = some field → q.share v = count field :=
    fun v field hf => share_of_share? (hcount v field hf)
  constructor
  case root =>
    intro ho
    rw [chosen_root]
    exact .inr ⟨ho, fun p hp => by simp [Rule.container_root] at hp⟩
  case mandatory =>
    intro v hshape c hc ho
    rw [chosen_child hc]
    refine and_iff_right (.inr ⟨ho, fun p hp => ?_⟩)
    rw [Rule.mem_children.1 hc, Option.some.injEq] at hp
    simp [← hp, hshape]
  case optional =>
    intro v _ c hc _ hon
    exact ((chosen_child hc).1 hon).2
  case branch =>
    intro v hshape hon
    exact exists_branch_of_chosen hr hs hcap hw hshape hon
  case silent =>
    intro v _ hoff c hc hon
    exact hoff ((chosen_child hc).1 hon).2
  case unset =>
    intro v field hf hoff
    by_contra hne
    rw [← hshare v field hf] at hne
    exact hoff (chosen_of_filled ((Rule.filled_assignment_iff hf).2 (Nat.pos_of_ne_zero hne)))
  case once =>
    intro v field hf hon hrep
    have hpos := share_pos_of_chosen hr hs hcap hw hf hon
    have hle := share_le_one hs hw (by simp [hf]) hrep
    rw [← hshare v field hf]
    omega
  case often =>
    intro v field hf hon _
    rw [← hshare v field hf]
    exact share_pos_of_chosen hr hs hcap hw hf hon

end

end RuleCardinality.View
