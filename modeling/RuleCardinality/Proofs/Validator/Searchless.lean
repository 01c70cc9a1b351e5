import Mathlib.Data.List.Perm.Subperm
import RuleCardinality.Proofs.Validator.Examine

/-!
# Examinations without a search

If no field competes, the plan is all there is: every fitting assignment has the count of its field for its
share, and a field with several assignments is not set at all. Then sums hide nothing, and a rule accepts an
object exactly if every share lies inside the window of its node (`examine_planned_iff`).
-/

namespace RuleCardinality.Validator

open Quantities

variable {σ : Type} {V : Validator} {o : Object} {r : Rule} {v : Nat} {field : String}

/-! ## Fields with one node or no value -/

/-- Without a value nothing can go over, and nothing falls short exactly if no node has to fire. -/
theorem admits_fieldWindow_zero {w : View} {q : Quantities} {nodes : List Nat}
    (hq : ∀ v, q.share v ≤ cap) :
    (w.fieldWindow q nodes).admits 0 = true ↔ ∀ v ∈ nodes, (w.window q none v).admits 0 = true := by
  have hfield : (w.fieldWindow q nodes).admits 0 = true ↔ ¬ 0 < (w.fieldWindow q nodes).min := by
    rw [Window.admits_iff, and_iff_left (Nat.le_zero.1 (Window.excess_le _ 0)),
      Window.deficit_eq_zero_iff_le (View.min_fieldWindow hq nodes).1, not_lt]
    rfl
  have hnode : ∀ v, (w.window q none v).admits 0 = true ↔ ¬ 0 < w.minCount q v := by
    intro v
    rw [Window.admits_iff, and_iff_left (Nat.le_zero.1 (Window.excess_le _ 0)),
      Window.deficit_eq_zero_iff_le (w := w.window q none v)
        (Count.ne_unbounded_of_le (View.minCount_le_cap hq v)), not_lt]
    rfl
  simp only [hfield, hnode]
  exact (not_congr Count.pos_foldl_plus_map).trans (by simp)

/-- The count of a field with one node is within bounds exactly if it is in the window of its node. -/
theorem admits_fieldWindow_singleton {w : View} {q : Quantities} {n : Nat} (hn : n ≤ cap) :
    (w.fieldWindow q [v]).admits n = true ↔ (w.window q none v).admits n = true := by
  have hmin : (w.fieldWindow q [v]).min = w.minCount q v := Count.undefined_plus _
  have hmax : (w.fieldWindow q [v]).max = Count.plus 0 (w.maxCount q none v) := rfl
  rw [Window.admits_iff, Window.admits_iff]
  refine and_congr ?_ ?_
  · unfold Window.deficit
    rw [hmin]
    rfl
  · have hdefined := View.isDefined_maxCount w q none v
    cases hmost : w.maxCount q none v with
    | undefined => simp [hmost, Count.isDefined] at hdefined
    | unbounded =>
      rw [hmost, Count.plus_unbounded] at hmax
      rw [Window.excess_eq_zero hmax, Window.excess_eq_zero (w := w.window q none v) hmost]
    | finite m =>
      rw [hmost] at hmax
      rw [Window.excess_eq (w := w.window q none v) hmost, Window.excess_eq hmax]
      show n - min (0 + m) cap = 0 ↔ n - m = 0
      omega

theorem admits_fieldWindow_few {w : View} {q : Quantities} {nodes : List Nat} {n : Nat}
    (hq : ∀ v, q.share v ≤ cap) (hn : n ≤ cap) (hne : nodes ≠ []) (hfew : nodes.length ≤ 1 ∨ n = 0) :
    (w.fieldWindow q nodes).admits n = true ↔ ∀ v ∈ nodes, (w.window q none v).admits n = true := by
  rcases hfew with hone | rfl
  · obtain ⟨v, vs, rfl⟩ := List.exists_cons_of_ne_nil hne
    obtain rfl : vs = [] := List.length_eq_zero_iff.1 (by simpa using hone)
    rw [admits_fieldWindow_singleton hn, List.forall_mem_singleton]
  · exact admits_fieldWindow_zero hq

/-! ## Plans without competition -/

/-- Without competition every fitting assignment holds the count of its field, and several of them hold
nothing. -/
theorem share?_of_rivals (hrivals : (V.planned o r).rivals = ∅)
    (ht : (field, v) ∈ View.targets ⟨r, o.type⟩) (hd : (o.feature? field).isSome) :
    (V.planned o r).quantities.share? v = some ((V.planned o r).quantities.count field) := by
  obtain ⟨placed, hperm, hc, hsound⟩ := sound_planned V o r
  obtain ⟨nodes, hf, hv⟩ := exists_assignable ht hd
  have hf := hperm.mem_iff.2 hf
  have hfree : field ∉ (V.planned o r).rivals := by simp [hrivals]
  have hsome := hsound.assigned _ hf hfree v hv
  have hsum := hsound.sums _ hf hfree
  have hle : (V.planned o r).quantities.share v ≤ sumOf (V.planned o r).quantities.share nodes :=
    le_sumOf hv
  rw [share?_eq_share hsome]
  rcases hsound.few _ hf hfree with hone | hzero
  · have hnodes : nodes = [v] := by
      obtain ⟨x, xs, hxs⟩ := List.exists_cons_of_ne_nil (List.ne_nil_of_mem hv)
      simp only at hone
      rw [hxs] at hone hv ⊢
      obtain rfl : xs = [] := List.length_eq_zero_iff.1 (by simpa using hone)
      rw [List.mem_singleton.1 hv]
    simp only [hnodes, sumOf_cons, sumOf_nil, Nat.add_zero] at hsum
    rw [hsum]
  · simp only at hsum hzero
    rw [hzero]
    exact congrArg some (by omega)

theorem length_writers_of_rivals (hrivals : (V.planned o r).rivals = ∅) :
    ((V.planned o r).quantities.writers r field).length ≤ 1 ∨
      (V.planned o r).quantities.count field = 0 := by
  obtain ⟨placed, hperm, hc, hsound⟩ := sound_planned V o r
  have howned : ∀ v ∈ (V.planned o r).quantities.writers r field, ∃ f ∈ placed, f.1 = field ∧ v ∈ f.2 := by
    intro v hv
    obtain ⟨ha, hw⟩ := mem_writers.1 hv
    obtain ⟨f, hf, hvf, -⟩ := hsound.owned (mem_assigned.1 ha).2
    exact ⟨f, hf, (Option.some.inj (hw.symm.trans (hc.writes f hf v hvf))).symm, hvf⟩
  by_cases hplaced : ∃ f ∈ placed, f.1 = field
  · obtain ⟨f, hf, rfl⟩ := hplaced
    have hfree : f.1 ∉ (V.planned o r).rivals := by simp [hrivals]
    refine (hsound.few f hf hfree).imp_left fun hone => le_trans ?_ hone
    refine (List.subperm_of_subset (nodup_writers _ _ _) fun v hv => ?_).length_le
    obtain ⟨g, hg, he, hvg⟩ := howned v hv
    rwa [List.inj_on_of_nodup_map hc.distinct hg hf he] at hvg
  · have hnil : (V.planned o r).quantities.writers r field = [] := by
      refine List.eq_nil_iff_forall_not_mem.2 fun v hv => ?_
      obtain ⟨f, hf, he, -⟩ := howned v hv
      exact hplaced ⟨f, hf, he⟩
    simp [hnil]

theorem searched_uncontested (hrivals : (V.planned o r).rivals = ∅) (ch : Chooser σ) (s : σ) :
    (V.searched ch o r s).quantities = (V.planned o r).quantities := by
  obtain ⟨_, _, hjoint, _⟩ := searched_spec V ch o r s
  have hnil : (V.planned o r).rivals.toList = [] := by simp [hrivals]
  rw [hnil, JointSplit.nil_iff] at hjoint
  exact hjoint

theorem share_planned_le (hrivals : (V.planned o r).rivals = ∅)
    (hc : ∀ f ∈ o.features, V.counter.count o f.name ≤ cap) (v : Nat) :
    (V.planned o r).quantities.share v ≤ cap := by
  rw [← searched_uncontested hrivals View.firstChoice ()]
  exact share_searched_le hc View.firstChoice r () v

/-- Without competition a rule accepts an object exactly if every fitting assignment has a window for the
count of its field. -/
theorem examine_planned_iff (hrivals : (V.planned o r).rivals = ∅)
    (hc : ∀ f ∈ o.features, V.counter.count o f.name ≤ cap) (he : early V.counter o r = [])
    (ch : Chooser σ) (s : σ) :
    (V.examine ch o r s).1.result = .ok [] ↔
      ∀ t ∈ View.targets ⟨r, o.type⟩,
        (View.window ⟨r, o.type⟩ (V.planned o r).quantities none t.2).admits
          ((V.planned o r).quantities.count t.1) = true := by
  have hd : ∀ t ∈ View.targets ⟨r, o.type⟩, (o.feature? t.1).isSome :=
    ((early_eq_nil_iff V.counter o r).1 he).2.1
  have hsearched := searched_uncontested hrivals ch s
  have hcap := share_planned_le hrivals hc
  have hmem : ∀ {field : String} {v : Nat}, v ∈ (V.planned o r).quantities.writers r field ↔
      (field, v) ∈ View.targets ⟨r, o.type⟩ := by
    intro field v
    constructor
    · intro hv
      obtain ⟨ha, hw⟩ := mem_writers.1 hv
      obtain ⟨own, ht⟩ := mem_targets_of_share?_planned V o r (mem_assigned.1 ha).2
      obtain rfl : field = own := Option.some.inj (hw.symm.trans (View.mem_targets.1 ht).2)
      exact ht
    · intro ht
      exact mem_writers_of_share? (by simp [share?_of_rivals hrivals ht (hd _ ht)])
        (View.mem_targets.1 ht).2
  have hadmits : ∀ field ∈ (V.planned o r).quantities.fields r,
      (View.fieldWindow ⟨r, o.type⟩ (V.planned o r).quantities
          ((V.planned o r).quantities.writers r field)).admits
            ((V.planned o r).quantities.count field) = true ↔
        ∀ v ∈ (V.planned o r).quantities.writers r field,
          (View.window ⟨r, o.type⟩ (V.planned o r).quantities none v).admits
            ((V.planned o r).quantities.count field) = true := by
    intro field hfield
    obtain ⟨v, hv⟩ := mem_fields.1 hfield
    exact admits_fieldWindow_few hcap (count_planned_le hc (by decide) r field) (List.ne_nil_of_mem hv)
      (length_writers_of_rivals hrivals)
  rw [examine_searched ch s he, hsearched, Except.ok.injEq, List.map_eq_nil_iff,
    View.violations_eq_nil_iff_admits]
  constructor
  · intro h t ht
    have hv := hmem.2 ht
    have hfield := mem_fields.2 ⟨t.2, hv⟩
    exact (hadmits _ hfield).1 (h _ hfield) t.2 hv
  · intro h field hfield
    exact (hadmits field hfield).2 fun v hv => h (field, v) (hmem.1 hv)

end RuleCardinality.Validator
