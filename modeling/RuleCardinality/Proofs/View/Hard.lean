import RuleCardinality.Proofs.Rule.Common
import RuleCardinality.Proofs.View.Child

/-!
# Hard windows enclose windows

The hard window of a node looks at the cardinalities above it and at nothing else, and no state can take a
node out of it (`window_within_hardWindow`). A hard minimum of one means that only groups that may not be
left out stand above the node, so with a root that can fire none of them is blocked and each hands its own
minimum down. A hard maximum is at least one, which is all that a group can hand down beyond its own maximum.
-/

namespace RuleCardinality.View

variable {w : View} {q : Quantities} {exclude : Option String} {v c : Nat}

/-! ## Minimum -/

theorem hardMin_eq_zero (h : w.rule.optional v = true ∨ w.rule.shape v = .alternative) :
    w.hardMin v = 0 := by
  rw [hardMin_eq, if_pos]
  rcases h with h | h <;> simp [h]

theorem hardMin_child (hc : c ∈ w.rule.children v) (ho : w.rule.optional c = false)
    (hs : w.rule.shape c ≠ .alternative) : w.hardMin c = w.hardMin v := by
  rw [hardMin_eq, Rule.mem_children.1 hc]
  simp [ho, hs]

/-- What a group cannot fire without can fire if the group can. -/
theorem blocked_child (hb : w.blocked v = false) (hs : w.rule.shape v = .group)
    (hc : c ∈ w.rule.children v) (ho : w.rule.optional c = false) : w.blocked c = false := by
  rw [blocked_eq, hs, Bool.or_eq_false_iff] at hb
  simpa [ho] using List.any_eq_false.1 hb.2 c hc

/-- Where the root can fire, so can every node that fires by the cardinalities above it. -/
theorem blocked_of_hardMin_ne_zero (hroot : w.blocked w.rule.root = false) (hv : v ∈ w.rule.ids)
    (h : w.hardMin v ≠ 0) : w.blocked v = false := by
  induction v using Rule.induction_up (r := w.rule) with
  | step v ih =>
    have ho : w.rule.optional v = false := by
      by_contra ho
      exact h (hardMin_eq_zero (.inl (by simpa using ho)))
    have hs : w.rule.shape v ≠ .alternative := fun hs => h (hardMin_eq_zero (.inr hs))
    cases hp : w.rule.container v with
    | none => rwa [Rule.eq_root_of_container (List.mem_range.1 hv) hp]
    | some p =>
      have hc : v ∈ w.rule.children p := Rule.mem_children.2 hp
      have hmin : w.hardMin p ≠ 0 := hardMin_child hc ho hs ▸ h
      have hb : w.blocked p = false := ih p hp (Rule.mem_ids_of_container hp) hmin
      rcases Rule.composite_of_mem_children hc with hg | ha
      · exact blocked_child hb hg hc ho
      · exact absurd (hardMin_eq_zero (.inr ha)) hmin

/-- Where the root can fire, no state takes a minimum below the hard one. -/
theorem hardMin_le_minCount (hroot : w.blocked w.rule.root = false) (v : Nat) :
    w.hardMin v ≤ w.minCount q v := by
  induction v using Rule.induction_up (r := w.rule) with
  | step v ih =>
    by_cases hzero : w.hardMin v = 0
    · rw [hzero]
      exact zero_le_minCount v
    have ho : w.rule.optional v = false := by
      by_contra ho
      exact hzero (hardMin_eq_zero (.inl (by simpa using ho)))
    have hs : w.rule.shape v ≠ .alternative := fun hs => hzero (hardMin_eq_zero (.inr hs))
    cases hp : w.rule.container v with
    | none =>
      rw [hardMin_eq, minCount_eq, hp]
      simp [ho, hs]
    | some p =>
      have hc : v ∈ w.rule.children p := Rule.mem_children.2 hp
      have hmin : w.hardMin v = w.hardMin p := hardMin_child hc ho hs
      have hb : w.blocked p = false :=
        blocked_of_hardMin_ne_zero hroot (Rule.mem_ids_of_container hp) (hmin ▸ hzero)
      rcases Rule.composite_of_mem_children hc with hg | ha
      · calc w.hardMin v = w.hardMin p := hmin
          _ ≤ w.minCount q p := ih p hp
          _ ≤ w.leastIn q p v := minCount_le_leastIn hb hg v
          _ = w.minCount q v := (minCount_child hc ho).symm
      · exact absurd (hmin.trans (hardMin_eq_zero (.inr ha))) hzero

/-! ## Maximum -/

theorem one_le_hardMax (w : View) (v : Nat) : 1 ≤ w.hardMax v := by
  induction v using Rule.induction_up (r := w.rule) with
  | step v ih =>
    rw [hardMax_eq]
    split
    · exact Count.le_unbounded 1
    · cases hp : w.rule.container v with
      | none => exact le_rfl
      | some p => exact ih p hp

/-- No state takes a maximum above the hard one. -/
theorem maxCount_le_hardMax (w : View) (q : Quantities) (exclude : Option String) (v : Nat) :
    w.maxCount q exclude v ≤ w.hardMax v := by
  induction v using Rule.induction_up (r := w.rule) with
  | step v ih =>
    cases hr : w.rule.repeatable v with
    | true =>
      rw [hardMax_eq, if_pos hr]
      exact Count.le_unbounded _
    | false =>
      rw [maxCount_eq_mostAbove, hardMax_eq, hr]
      simp only [Bool.false_eq_true, if_false]
      cases hp : w.rule.container v with
      | none =>
        simp only [mostAbove, hp, hr, Option.elim_none, Bool.false_eq_true, if_false]
        decide
      | some p =>
        have hc : v ∈ w.rule.children p := Rule.mem_children.2 hp
        have hmost : w.mostIn q exclude p v ≤ w.hardMax p :=
          mostIn_le hc (one_le_hardMax w p) (ih p hp)
        rw [mostAbove_child hc]
        split
        · exact le_trans (by decide) (one_le_hardMax w p)
        · exact hmost

/-! ## Windows -/

/-- No state takes the window of a node out of its hard window; for the minimum the root has to be able to
fire. -/
theorem window_within_hardWindow (w : View) (q : Quantities) (exclude : Option String) (v : Nat) :
    (w.blocked w.rule.root = false → w.hardMin v ≤ w.minCount q v) ∧
      w.maxCount q exclude v ≤ w.hardMax v :=
  ⟨fun hroot => hardMin_le_minCount hroot v, maxCount_le_hardMax w q exclude v⟩

/-- A title, and rows of a key, a value and perhaps a note. -/
def sheet : Rule :=
  ((Rule.ofAdditions "Sheet"
    [.root { shape := .group }, .child 0 { shape := .assignment "title" },
      .child 0 { shape := .group, repeatable := true }, .child 2 { shape := .assignment "key" },
      .child 2 { shape := .assignment "value" },
      .child 2 { shape := .assignment "note", optional := true }]).toOption).get (by decide +kernel)

/-- A title and three keys. -/
def threeKeys : Quantities := (Quantities.empty.assign 1 1).assign 3 3

/-- Three keys ask for three values, which is well inside what a repeated row allows. -/
theorem window_within_hardWindow_sheet :
    View.blocked ⟨sheet, "T"⟩ sheet.root = false ∧
    View.window ⟨sheet, "T"⟩ threeKeys (some "value") 4 = ⟨3, 3⟩ ∧
    View.hardWindow ⟨sheet, "T"⟩ 4 = ⟨1, .unbounded⟩ ∧
    View.hardMin ⟨sheet, "T"⟩ 4 ≤ View.minCount ⟨sheet, "T"⟩ threeKeys 4 ∧
    View.maxCount ⟨sheet, "T"⟩ threeKeys (some "value") 4 ≤ View.hardMax ⟨sheet, "T"⟩ 4 := by
  have hroot : View.blocked ⟨sheet, "T"⟩ sheet.root = false := by decide +kernel
  obtain ⟨hmin, hmax⟩ := window_within_hardWindow ⟨sheet, "T"⟩ threeKeys (some "value") 4
  exact ⟨hroot, by decide +kernel, by decide +kernel, hmin hroot, hmax⟩

end RuleCardinality.View
