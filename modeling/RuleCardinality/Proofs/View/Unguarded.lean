import RuleCardinality.Proofs.Validator.Targets
import RuleCardinality.Proofs.View.Misfits

/-!
# Rules without type guards

Where no node is guarded, every type sees the same rule: all nodes apply, none is blocked, the shape of
the rule fits, and the walk from the root reaches every node.
-/

namespace RuleCardinality

/-- No node of the rule has a type guard. -/
def Rule.Unguarded (r : Rule) : Prop := ∀ v ∈ r.ids, (r.spec v).types = none

instance (r : Rule) : Decidable r.Unguarded :=
  inferInstanceAs (Decidable (∀ v ∈ r.ids, (r.spec v).types = none))

namespace View

variable {w : View} {v : Nat}

theorem applies_of_unguarded (hr : w.rule.Unguarded) (v : Nat) : w.applies v = true := by
  have htypes : (w.rule.spec v).types = none := by
    by_cases hv : v < w.rule.size
    · exact hr v (List.mem_range.2 hv)
    · have hnone : w.rule.parts[v]? = none := Array.getElem?_eq_none (Nat.le_of_not_lt hv)
      simp [Rule.spec, hnone, Rule.inert]
  simp [applies, Spec.appliesTo, htypes]

theorem blocked_of_unguarded (hr : w.rule.Unguarded) (v : Nat) : w.blocked v = false := by
  induction v using Rule.induction_down (r := w.rule) with
  | step v ih =>
    rw [Bool.eq_false_iff]
    intro hb
    rcases blocked_iff.1 hb with ha | ⟨⟨c, hc, -, hbc⟩, -⟩
    · rw [applies_of_unguarded hr v] at ha
      cases ha
    · rw [ih c hc] at hbc
      cases hbc

theorem misfits_of_unguarded (hr : w.rule.Unguarded) (v : Nat) : w.misfits v = [] := by
  refine List.eq_nil_iff_forall_not_mem.2 fun x hx => ?_
  have hb : w.blocked v = true := ((exists_mem_misfits_iff w v).1 ⟨x, hx⟩).2
  rw [blocked_of_unguarded hr v] at hb
  cases hb

theorem mem_reached_of_container {x c : Nat} (hr : w.rule.Unguarded) (hx : x ∈ w.reached v)
    (hc : w.rule.container c = some x) : c ∈ w.reached v := by
  induction v using Rule.induction_down (r := w.rule) with
  | step v ih =>
    rw [reached_eq, if_pos (applies_of_unguarded hr v)] at hx ⊢
    refine List.mem_cons_of_mem _ (List.mem_flatMap.2 ?_)
    rcases List.mem_cons.1 hx with rfl | hx
    · refine ⟨c, Rule.mem_children.2 hc, ?_⟩
      rw [reached_eq, if_pos (applies_of_unguarded hr c)]
      exact List.mem_cons_self
    · obtain ⟨d, hd, hxd⟩ := List.mem_flatMap.1 hx
      exact ⟨d, hd, ih d hd hxd⟩

theorem mem_reached_root (hr : w.rule.Unguarded) (hv : v < w.rule.size) :
    v ∈ w.reached w.rule.root := by
  induction v using Rule.induction_up (r := w.rule) with
  | step v ih =>
    cases hc : w.rule.container v with
    | none =>
      rw [Rule.eq_root_of_container hv hc, reached_eq, if_pos (applies_of_unguarded hr _)]
      exact List.mem_cons_self
    | some c =>
      have hlt : c < v := Rule.lt_of_container hc
      exact mem_reached_of_container hr (ih c hc (by omega)) hc

/-- Every assignment is reached. -/
theorem mem_targets_of_unguarded (hr : w.rule.Unguarded) {field : String} :
    (field, v) ∈ w.targets ↔ w.rule.field? v = some field := by
  rw [mem_targets]
  exact ⟨And.right, fun hf => ⟨mem_reached_root hr (Rule.lt_size_of_field? hf), hf⟩⟩

end View

end RuleCardinality
