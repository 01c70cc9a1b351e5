import RuleCardinality.Proofs.Rule.Firing
import RuleCardinality.Proofs.Validator.Check
import RuleCardinality.Proofs.View.Child
import RuleCardinality.Proofs.View.Unguarded

/-!
# Flat rules

A group that fires once, of assignments only: no share has a say in the window of another node, and the
window of each assignment is its written cardinality (`window_flat`). The bounds of a field are then how
many of its assignments are mandatory and how many there are (`admits_fieldWindow_flat`).
-/

namespace RuleCardinality

namespace Rule

variable {r : Rule} {v n : Nat} {field : String}

/-- The root is a group that fires exactly once, its children are assignments, and no node is guarded. -/
structure Flat (r : Rule) : Prop where
  unguarded : r.Unguarded
  group : r.shape r.root = .group
  mandatory : r.optional r.root = false
  single : r.repeatable r.root = false
  leaves : ∀ v ∈ r.children r.root, (r.field? v).isSome

/-- How often a node may fire by its own cardinality. -/
def bounds (r : Rule) (v : Nat) : Window where
  min := if r.optional v then 0 else 1
  max := if r.repeatable v then .unbounded else 1

/-- The assignments of a field. -/
def assigning (r : Rule) (field : String) : List Nat := r.ids.filter fun v => r.field? v == some field

theorem mem_assigning : v ∈ r.assigning field ↔ r.field? v = some field := by
  unfold assigning
  rw [List.mem_filter, beq_iff_eq]
  exact ⟨And.right, fun hf => ⟨mem_ids_of_field? hf, hf⟩⟩

theorem nodup_assigning (r : Rule) (field : String) : (r.assigning field).Nodup :=
  List.nodup_range.filter _

theorem length_assigning_le (r : Rule) (field : String) : (r.assigning field).length ≤ r.size := by
  have h := List.length_filter_le (fun v => r.field? v == some field) r.ids
  rwa [ids, List.length_range] at h

theorem admits_bounds_iff :
    (r.bounds v).admits n = true ↔
      (r.optional v = false → 1 ≤ n) ∧ (r.repeatable v = false → n ≤ 1) := by
  unfold bounds
  rw [Window.admits_iff]
  unfold Window.deficit Window.excess
  cases r.optional v <;> cases r.repeatable v <;> simp <;> omega

theorem required_bounds (r : Rule) (v : Nat) :
    (r.bounds v).required = if r.optional v then 0 else 1 := by
  unfold bounds Window.required
  cases r.optional v <;> cases r.repeatable v <;> rfl

/-- Without headroom, an assignment does not repeat and has a value. -/
theorem of_headroom_bounds (h : (r.bounds v).headroom n = 0) : r.repeatable v = false ∧ 1 ≤ n := by
  unfold bounds Window.headroom at h
  cases hrep : r.repeatable v with
  | true =>
    simp only [hrep, if_true] at h
    exact absurd h (by decide)
  | false =>
    simp only [hrep] at h
    have hle : 1 - n = 0 := h
    exact ⟨rfl, by omega⟩

/-- In a flat rule every node but the root stands in the root. -/
theorem Flat.eq_root_or_container (hr : r.Flat) (hv : v < r.size) :
    v = r.root ∨ r.container v = some r.root := by
  induction v using induction_up (r := r) with
  | step v ih =>
    cases hc : r.container v with
    | none => exact .inl (eq_root_of_container hv hc)
    | some c =>
      rcases ih c hc (Nat.lt_trans (lt_of_container hc) hv) with rfl | hroot
      · exact .inr rfl
      · obtain ⟨field, hf⟩ := Option.isSome_iff_exists.1 (hr.leaves c (mem_children.2 hroot))
        have hmem := mem_children.2 hc
        rw [children_of_field? hf] at hmem
        exact absurd hmem List.not_mem_nil

theorem Flat.mem_children_root (hr : r.Flat) (hf : (r.field? v).isSome) :
    v ∈ r.children r.root := by
  obtain ⟨field, hfield⟩ := Option.isSome_iff_exists.1 hf
  rcases hr.eq_root_or_container (lt_size_of_field? hfield) with rfl | hc
  · simp [field?_of_group hr.group] at hf
  · exact mem_children.2 hc

end Rule

namespace View

variable {w : View} {q : Quantities} {exclude : Option String} {v n : Nat} {field : String}

theorem plainRoot_flat (hr : w.rule.Flat) : w.plainRoot w.rule.root = true := by
  unfold plainRoot
  rw [Rule.container_root, hr.mandatory, hr.single]
  rfl

/-- In a flat rule the window of an assignment is its cardinality, whatever the shares are. -/
theorem window_flat (hr : w.rule.Flat) (hf : (w.rule.field? v).isSome) :
    w.window q exclude v = w.rule.bounds v := by
  have hchild : v ∈ w.rule.children w.rule.root := hr.mem_children_root hf
  have hb : w.blocked w.rule.root = false := blocked_of_unguarded hr.unguarded _
  have hroot := plainRoot_flat hr
  have hmin : w.minCount q v = if w.rule.optional v then 0 else 1 := by
    rw [minCount_eq, Rule.mem_children.1 hchild, Option.elim_some, leastIn_group hb hr.group, if_pos hroot]
  have hmost : w.mostIn q exclude w.rule.root v = 1 := by
    have hone : w.maxCount q exclude w.rule.root = 1 := maxCount_plainRoot hroot
    have hnarrow : w.narrowed q exclude w.rule.root v = 1 := by
      unfold narrowed
      rw [hr.mandatory, hone]
      rfl
    rw [mostIn_group hb hr.group, hone, hnarrow, hr.mandatory]
    rfl
  have hmax : w.maxCount q exclude v = if w.rule.repeatable v then .unbounded else 1 := by
    rw [maxCount_eq_mostAbove, mostAbove_child hchild, hmost]
    rfl
  unfold window Rule.bounds
  rw [hmin, hmax]

/-- The count of a field is in its bounds if it covers the mandatory assignments and, unless one of them
repeats, each value has an assignment. -/
theorem admits_fieldWindow_flat (hr : w.rule.Flat) (hq : ∀ v, q.share v ≤ cap)
    (hsize : w.rule.size ≤ cap) (hn : n ≤ cap) :
    (w.fieldWindow q (w.rule.assigning field)).admits n = true ↔
      ((w.rule.assigning field).filter fun v => !w.rule.optional v).length ≤ n ∧
        ((∀ v ∈ w.rule.assigning field, w.rule.repeatable v = false) →
          n ≤ (w.rule.assigning field).length) := by
  have hwindow : ∀ v ∈ w.rule.assigning field, w.window q none v = w.rule.bounds v := fun v hv =>
    window_flat hr (by simp [Rule.mem_assigning.1 hv])
  have hlength := w.rule.length_assigning_le field
  rw [Window.admits_iff]
  refine and_congr ?_ ?_
  · obtain ⟨hne, hvalue⟩ := min_fieldWindow (w := w) hq (w.rule.assigning field)
    have hsum : sumOf (fun v => (w.minCount q v).value) (w.rule.assigning field) =
        ((w.rule.assigning field).filter fun v => !w.rule.optional v).length := by
      rw [length_filter_eq_sumOf]
      refine sumOf_congr fun v hv => ?_
      have hmin : w.minCount q v = (w.rule.bounds v).min := congrArg Window.min (hwindow v hv)
      rw [hmin]
      unfold Rule.bounds
      cases w.rule.optional v <;> rfl
    have hfew := List.length_filter_le (fun v => !w.rule.optional v) (w.rule.assigning field)
    rw [Window.deficit_eq hne, hvalue, hsum]
    omega
  · have hmax : ∀ v ∈ w.rule.assigning field,
        w.maxCount q none v = if w.rule.repeatable v then .unbounded else 1 := fun v hv =>
      congrArg Window.max (hwindow v hv)
    by_cases hrep : ∀ v ∈ w.rule.assigning field, w.rule.repeatable v = false
    · have hone : ∀ v ∈ w.rule.assigning field, w.maxCount q none v = 1 := fun v hv => by
        rw [hmax v hv, hrep v hv]
        rfl
      have hlimited : ∀ v ∈ w.rule.assigning field, w.maxCount q none v ≠ .unbounded := fun v hv => by
        rw [hone v hv]
        decide
      obtain ⟨m, hm, hvalue⟩ := max_fieldWindow hlimited
      have hsum : sumOf (fun v => (w.maxCount q none v).value) (w.rule.assigning field) =
          (w.rule.assigning field).length := by
        rw [sumOf_congr (g := fun _ => 1) fun v hv => by rw [hone v hv]; rfl, sumOf_one]
      rw [Window.excess_eq hm, imp_iff_right hrep]
      omega
    · simp only [not_forall] at hrep
      obtain ⟨v, hv, hrepeats⟩ := hrep
      have hunbounded : (w.fieldWindow q (w.rule.assigning field)).max = .unbounded := by
        refine Count.foldl_plus_unbounded (List.mem_map.2 ⟨v, hv, ?_⟩)
        rw [hmax v hv, if_pos (by simpa using hrepeats)]
      rw [Window.excess_eq_zero hunbounded]
      exact iff_of_true rfl fun hall => absurd (hall v hv) hrepeats

end View

end RuleCardinality
