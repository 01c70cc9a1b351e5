import RuleCardinality.Proofs.Rule.Common
import RuleCardinality.Proofs.Rule.Firing
import RuleCardinality.View.Basic

/-!
# Misfits are what blocks a mandatory node

Blocked nodes and misfits are found by two descents of the rule. The first looks at whether a child may be left
out before it goes down to it, the second when it has arrived; the first asks of an alternative that all
children are blocked, the second gives up at the first one without misfits. Said child by child they run in
parallel (`blocked_iff`, `mem_misfits_iff_child`), so a mandatory node has misfits exactly if it is blocked
(`exists_mem_misfits_iff`). A misfit is reached over mandatory blocked nodes that apply to the type
(`mem_misfits_iff`).
-/

namespace RuleCardinality.View

variable {w : View} {v x : Nat}

/-! ## Child by child -/

/-- A node is blocked by its guard or by a blocked child that may not be left out; in an alternative every
child has to be one. -/
theorem blocked_iff :
    w.blocked v = true ↔ w.applies v = false ∨
      (∃ c ∈ w.rule.children v, w.rule.optional c = false ∧ w.blocked c = true) ∧
        (w.rule.shape v = .alternative →
          ∀ c ∈ w.rule.children v, w.rule.optional c = false ∧ w.blocked c = true) := by
  rw [blocked_eq, Bool.or_eq_true, Bool.not_eq_true']
  refine or_congr_right ?_
  have hleaf : (w.rule.shape v).isLeaf = true → w.rule.children v = [] := Rule.children_of_isLeaf
  cases hs : w.rule.shape v with
  | assignment field => simp [hleaf (by rw [hs]; rfl)]
  | action => simp [hleaf (by rw [hs]; rfl)]
  | group => simp
  | alternative =>
    simp only [Bool.and_eq_true, Bool.not_eq_true', List.all_eq_true,
      List.isEmpty_eq_false_iff_exists_mem, true_imp_iff]
    constructor
    · rintro ⟨⟨c, hc⟩, hall⟩
      exact ⟨⟨c, hc, hall c hc⟩, hall⟩
    · rintro ⟨⟨c, hc, -⟩, hall⟩
      exact ⟨⟨c, hc⟩, hall⟩

/-- A mandatory node is a misfit if its guard rejects the type. Otherwise it has the misfits of its children,
unless it is an alternative with a child that has none. -/
theorem mem_misfits_iff_child :
    x ∈ w.misfits v ↔ w.rule.optional v = false ∧
      (w.applies v = false ∧ x = v ∨
        w.applies v = true ∧ (∃ c ∈ w.rule.children v, x ∈ w.misfits c) ∧
          (w.rule.shape v = .alternative → ∀ c ∈ w.rule.children v, ∃ y, y ∈ w.misfits c)) := by
  have hleaf : (w.rule.shape v).isLeaf = true → w.rule.children v = [] := Rule.children_of_isLeaf
  rw [misfits_eq]
  cases w.rule.optional v with
  | true => simp
  | false =>
    cases w.applies v with
    | false => simp
    | true =>
      cases hs : w.rule.shape v with
      | assignment field => simp [hleaf (by rw [hs]; rfl)]
      | action => simp [hleaf (by rw [hs]; rfl)]
      | group => simp
      | alternative =>
        have haround : ((w.rule.children v).map w.misfits).any List.isEmpty = true ↔
            ¬ ∀ c ∈ w.rule.children v, ∃ y, y ∈ w.misfits c := by
          simp [List.eq_nil_iff_forall_not_mem]
        have hbelow : x ∈ ((w.rule.children v).map w.misfits).flatten ↔
            ∃ c ∈ w.rule.children v, x ∈ w.misfits c := by
          simp
        simp only [Bool.not_true, Bool.false_eq_true, Bool.true_eq_false, if_false, true_and,
          true_imp_iff, false_and, false_or]
        by_cases hall : ∀ c ∈ w.rule.children v, ∃ y, y ∈ w.misfits c
        · rw [if_neg fun h => haround.1 h hall, hbelow, and_iff_left hall]
        · rw [if_pos (haround.2 hall)]
          exact iff_of_false List.not_mem_nil fun h => hall h.2

/-- A node has misfits if and only if it may not be left out and is blocked. -/
theorem exists_mem_misfits_iff (w : View) (v : Nat) :
    (∃ x, x ∈ w.misfits v) ↔ w.rule.optional v = false ∧ w.blocked v = true := by
  induction v using Rule.induction_down (r := w.rule) with
  | step v ih =>
    have hall : (∀ c ∈ w.rule.children v, ∃ y, y ∈ w.misfits c) ↔
        ∀ c ∈ w.rule.children v, w.rule.optional c = false ∧ w.blocked c = true :=
      forall₂_congr ih
    rw [blocked_iff]
    constructor
    · rintro ⟨x, hx⟩
      obtain ⟨ho, ⟨ha, -⟩ | ⟨-, ⟨c, hc, hxc⟩, hbranches⟩⟩ := mem_misfits_iff_child.1 hx
      · exact ⟨ho, .inl ha⟩
      · exact ⟨ho, .inr ⟨⟨c, hc, (ih c hc).1 ⟨x, hxc⟩⟩, fun hs => hall.1 (hbranches hs)⟩⟩
    · rintro ⟨ho, hb⟩
      cases ha : w.applies v with
      | false => exact ⟨v, mem_misfits_iff_child.2 ⟨ho, .inl ⟨ha, rfl⟩⟩⟩
      | true =>
        obtain ⟨⟨c, hc, hblocked⟩, hbranches⟩ := hb.resolve_left (by simp [ha])
        obtain ⟨x, hx⟩ := (ih c hc).2 hblocked
        exact ⟨x, mem_misfits_iff_child.2
          ⟨ho, .inr ⟨ha, ⟨c, hc, hx⟩, fun hs => hall.2 (hbranches hs)⟩⟩⟩

/-! ## The way down to a misfit -/

/-- The guard of the second node rejects the type, and the first is that node or contains it: all nodes from
the one down to the other are mandatory and blocked, and those above the second apply to the type. -/
def Misfit (w : View) (v x : Nat) : Prop :=
  w.applies x = false ∧ v ∈ w.rule.line x ∧
    ∀ u ∈ w.rule.line x, v ∈ w.rule.line u →
      w.rule.optional u = false ∧ w.blocked u = true ∧ (u ≠ x → w.applies u = true)

theorem misfit_self : w.Misfit v v ↔ w.applies v = false ∧ w.rule.optional v = false := by
  unfold Misfit
  rw [Rule.forall_between_self]
  constructor
  · rintro ⟨ha, -, ho, -⟩
    exact ⟨ha, ho⟩
  · rintro ⟨ha, ho⟩
    exact ⟨ha, w.rule.self_mem_line v, ho, blocked_iff.2 (.inl ha), fun hne => absurd rfl hne⟩

theorem misfit_iff_child (hne : x ≠ v) :
    w.Misfit v x ↔ w.rule.optional v = false ∧ w.applies v = true ∧ w.blocked v = true ∧
      ∃ c ∈ w.rule.children v, w.Misfit c x := by
  constructor
  · rintro ⟨ha, hv, hway⟩
    obtain ⟨c, hc, hcx⟩ := Rule.exists_child_of_mem_line hv hne
    obtain ⟨⟨ho, hb, happlies⟩, hbelow⟩ := (Rule.forall_between_child hc hcx).1 hway
    exact ⟨ho, happlies hne.symm, hb, c, hc, ha, hcx, hbelow⟩
  · rintro ⟨ho, happlies, hb, c, hc, ha, hcx, hbelow⟩
    exact ⟨ha, Rule.mem_line_of_container hcx (Rule.mem_children.1 hc),
      (Rule.forall_between_child hc hcx).2 ⟨⟨ho, hb, fun _ => happlies⟩, hbelow⟩⟩

theorem mem_misfits_iff : x ∈ w.misfits v ↔ w.Misfit v x := by
  induction v using Rule.induction_down (r := w.rule) with
  | step v ih =>
    by_cases he : x = v
    · subst he
      rw [misfit_self]
      constructor
      · intro hx
        obtain ⟨ho, ⟨ha, -⟩ | ⟨-, ⟨c, hc, hxc⟩, -⟩⟩ := mem_misfits_iff_child.1 hx
        · exact ⟨ha, ho⟩
        · -- What stands below a child is not the node itself.
          have hle : c ≤ x := Rule.le_of_mem_line ((ih c hc).1 hxc).2.1
          exact absurd (Rule.lt_of_mem_children hc).1 (Nat.not_lt_of_le hle)
      · rintro ⟨ha, ho⟩
        exact mem_misfits_iff_child.2 ⟨ho, .inl ⟨ha, rfl⟩⟩
    · rw [misfit_iff_child he]
      constructor
      · intro hx
        obtain ⟨ho, ⟨-, hxv⟩ | ⟨ha, ⟨c, hc, hxc⟩, -⟩⟩ := mem_misfits_iff_child.1 hx
        · exact absurd hxv he
        · exact ⟨ho, ha, ((exists_mem_misfits_iff w v).1 ⟨x, hx⟩).2, c, hc, (ih c hc).1 hxc⟩
      · rintro ⟨ho, ha, hb, c, hc, hxc⟩
        obtain ⟨-, hbranches⟩ := (blocked_iff.1 hb).resolve_left (by simp [ha])
        exact mem_misfits_iff_child.2 ⟨ho, .inr ⟨ha, ⟨c, hc, (ih c hc).2 hxc⟩,
          fun hs d hd => (exists_mem_misfits_iff w d).2 (hbranches hs d hd)⟩⟩

theorem mem_unfulfilled : x ∈ w.unfulfilled v ↔ x ∈ w.misfits v := by
  unfold unfulfilled
  rw [Std.ExtTreeSet.mem_ofList, List.contains_iff_mem]

/-- A node is unfulfilled if and only if it may not be left out and is blocked. To blame are mandatory nodes at
or below it whose own guards reject the type: those that are reached from it over mandatory blocked nodes that
apply to the type. -/
theorem unfulfilled_iff_blocked (w : View) (v : Nat) :
    ((∃ x, x ∈ w.unfulfilled v) ↔ w.rule.optional v = false ∧ w.blocked v = true) ∧
      (∀ x ∈ w.unfulfilled v,
        w.rule.optional x = false ∧ x ∈ w.rule.subtree v ∧ w.applies x = false) ∧
      ∀ x, x ∈ w.unfulfilled v ↔ w.Misfit v x := by
  simp only [mem_unfulfilled]
  refine ⟨exists_mem_misfits_iff w v, fun x hx => ?_, fun x => mem_misfits_iff⟩
  obtain ⟨ha, hv, hway⟩ := mem_misfits_iff.1 hx
  exact ⟨(hway x (w.rule.self_mem_line x) hv).1, Rule.mem_subtree_iff.2 hv, ha⟩

end RuleCardinality.View
