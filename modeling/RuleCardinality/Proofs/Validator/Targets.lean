import RuleCardinality.Proofs.Search.Contest
import RuleCardinality.Validator.Examine

/-!
# The fields that a rule assigns

The walk over a stack comes to what is reached from the nodes on it, one after the other (`walk_eq`). From
the root it meets every node once, so the assignments of each field are a list of distinct nodes, and the
fields that an object declares form a contest (`contest_assignable`).
-/

namespace RuleCardinality

namespace View

variable {w : View} {v x : Nat}

/-- The nodes at or below a node that apply to the type together with all nodes above them, in document
order. -/
def reached (w : View) (v : Nat) : List Nat :=
  if w.applies v then v :: (w.rule.children v).attach.flatMap fun c => w.reached c.1 else []
termination_by w.rule.size - v
decreasing_by exact Rule.sub_lt_of_mem_children c.2

theorem reached_eq (w : View) (v : Nat) :
    w.reached v = if w.applies v then v :: (w.rule.children v).flatMap w.reached else [] := by
  rw [reached]; simp

theorem walk_eq (w : View) (stack : List Nat) : w.walk stack = stack.flatMap w.reached := by
  induction stack using walk.induct w with
  | case1 => rw [walk, List.flatMap_nil]
  | case2 v stack happlies ih =>
    rw [walk, if_pos happlies, ih, stacked_reverse, List.flatMap_append, List.flatMap_cons, reached_eq,
      if_pos happlies, List.cons_append]
  | case3 v stack happlies ih =>
    rw [walk, if_neg happlies, ih, List.flatMap_cons, reached_eq, if_neg happlies, List.nil_append]

theorem targets_eq (w : View) :
    w.targets =
      (w.reached w.rule.root).filterMap fun v => (w.rule.field? v).map fun field => (field, v) := by
  rw [targets, walk_eq, List.flatMap_singleton]

theorem mem_line_of_mem_reached (hx : x ∈ w.reached v) : v ∈ w.rule.line x := by
  induction v using Rule.induction_down (r := w.rule) with
  | step v ih =>
    rw [reached_eq] at hx
    split at hx
    · rcases List.mem_cons.1 hx with rfl | hx
      · exact List.mem_cons_self
      · obtain ⟨c, hc, hxc⟩ := List.mem_flatMap.1 hx
        exact Rule.mem_line_of_container (ih c hc hxc) (Rule.mem_children.1 hc)
    · simp at hx

theorem nodup_reached (w : View) (v : Nat) : (w.reached v).Nodup := by
  induction v using Rule.induction_down (r := w.rule) with
  | step v ih =>
    rw [reached_eq]
    split
    · refine List.nodup_cons.2 ⟨?_, List.nodup_flatMap.2 ⟨ih, ?_⟩⟩
      · intro hv
        obtain ⟨c, hc, hvc⟩ := List.mem_flatMap.1 hv
        have hcv : c ≤ v := Rule.le_of_mem_line (mem_line_of_mem_reached hvc)
        have hlt := (Rule.lt_of_mem_children hc).1
        omega
      · -- A node reached through two children would have both of them on its line.
        refine (w.rule.nodup_children v).imp_of_mem fun hc hd hne => ?_
        intro x hxc hxd
        exact hne (Rule.eq_of_mem_line (mem_line_of_mem_reached hxc) (mem_line_of_mem_reached hxd)
          (Rule.mem_children.1 hc) (Rule.mem_children.1 hd))
    · exact List.nodup_nil

theorem mem_targets {t : String × Nat} :
    t ∈ w.targets ↔ t.2 ∈ w.reached w.rule.root ∧ w.rule.field? t.2 = some t.1 := by
  rw [targets_eq]
  simp only [List.mem_filterMap, Option.map_eq_some_iff]
  constructor
  · rintro ⟨v, hv, field, hf, rfl⟩
    exact ⟨hv, hf⟩
  · rintro ⟨hv, hf⟩
    exact ⟨t.2, hv, t.1, hf, rfl⟩

theorem nodup_targets (w : View) : (w.targets.map Prod.snd).Nodup := by
  have hsub : (w.targets.map Prod.snd).Sublist (w.reached w.rule.root) := by
    rw [targets_eq]
    generalize w.reached w.rule.root = nodes
    induction nodes with
    | nil => exact List.Sublist.slnil
    | cons v nodes ih =>
      cases hf : w.rule.field? v with
      | none => simpa [hf] using ih.cons v
      | some field => simpa [hf] using ih.cons_cons v
  exact (w.nodup_reached w.rule.root).sublist hsub

end View

namespace Validator

variable {o : Object} {w : View} {f : String × List Nat}

theorem mem_assignable {targets : List (String × Nat)} (hf : f ∈ assignable o targets) :
    f.2 = ((targets.filter fun t => (o.feature? t.1).isSome).filter (·.1 = f.1)).map Prod.snd ∧
      f.2 ≠ [] := by
  unfold assignable at hf
  obtain ⟨field, hfield, rfl⟩ := List.mem_map.1 hf
  refine ⟨rfl, ?_⟩
  obtain ⟨t, ht, rfl⟩ := List.mem_map.1 (mem_toList_ofList.1 hfield)
  exact List.ne_nil_of_mem (List.mem_map.2 ⟨t, List.mem_filter.2 ⟨ht, by simp⟩, rfl⟩)

theorem mem_targets_of_assignable {targets : List (String × Nat)} {v : Nat}
    (hf : f ∈ assignable o targets) (hv : v ∈ f.2) : (f.1, v) ∈ targets := by
  rw [(mem_assignable hf).1] at hv
  obtain ⟨t, ht, rfl⟩ := List.mem_map.1 hv
  obtain ⟨ht, hname⟩ := List.mem_filter.1 ht
  rw [← of_decide_eq_true hname]
  exact (List.mem_filter.1 ht).1

/-- A reached assignment of a declared field is among the nodes of its field. -/
theorem exists_assignable {field : String} {v : Nat} {targets : List (String × Nat)}
    (ht : (field, v) ∈ targets) (hd : (o.feature? field).isSome) :
    ∃ nodes, (field, nodes) ∈ assignable o targets ∧ v ∈ nodes := by
  let declared := targets.filter fun t => (o.feature? t.1).isSome
  have hmem : (field, v) ∈ declared := List.mem_filter.2 ⟨ht, hd⟩
  refine ⟨(declared.filter (·.1 = field)).map Prod.snd, ?_, ?_⟩
  · exact List.mem_map.2 ⟨field, mem_toList_ofList.2 (List.mem_map.2 ⟨_, hmem, rfl⟩), rfl⟩
  · exact List.mem_map.2 ⟨_, List.mem_filter.2 ⟨hmem, by simp⟩, rfl⟩

/-- The fields that a rule assigns and an object declares, each with its nodes. -/
theorem contest_assignable (o : Object) (w : View) : Contest w.rule (assignable o w.targets) where
  distinct := by
    unfold assignable
    rw [List.map_map]
    exact (nodup_toList_ofList _).map Function.injective_id
  nonempty f hf := (mem_assignable hf).2
  nodup f hf := by
    rw [(mem_assignable hf).1, List.filter_filter]
    exact (w.nodup_targets).sublist (List.filter_sublist.map _)
  writes f hf v hv := (View.mem_targets.1 (mem_targets_of_assignable hf hv)).2

end Validator

end RuleCardinality
