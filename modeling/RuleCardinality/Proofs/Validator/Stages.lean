import RuleCardinality.Proofs.Rule.Common
import RuleCardinality.Proofs.Validator.Flat
import RuleCardinality.Proofs.View.Reads

/-!
# What each stage of an examination reports

The stages of an examination exclude each other, and each one reports exactly what it is about
(`examine_stages`): the misfits of the type; then the fitting assignments without a declaration and the set
fields without a fitting assignment; then the fields whose count lies outside the bounds that their nodes
add up to. The walk that collects the assignments skips what is below a guard that rejects the type, and so
comes to the nodes that apply together with everything above them, in document order
(`reached_root`).
-/

namespace RuleCardinality

/-! ## Fitting nodes -/

namespace View

variable {w : View} {v x : Nat}

/-- The nodes that apply to the type together with all nodes above them, in document order. -/
def fitting (w : View) : List Nat := w.rule.document.filter fun v => (w.rule.line v).all w.applies

theorem reached_eq_filter (h : (w.rule.ancestors v).all w.applies = true) :
    w.reached v = (w.rule.subtree v).filter fun x => (w.rule.line x).all w.applies := by
  induction v using Rule.induction_down (r := w.rule) with
  | step v ih =>
    have hline : (w.rule.line v).all w.applies = w.applies v := by
      rw [Rule.line, List.all_cons, h, Bool.and_true]
    rw [reached_eq]
    split
    · rename_i happlies
      have hbelow : (w.rule.children v).flatMap w.reached =
          ((w.rule.children v).flatMap w.rule.subtree).filter
            fun x => (w.rule.line x).all w.applies := by
        rw [List.filter_flatMap]
        refine List.flatMap_congr fun c hc => ih c hc ?_
        rw [Rule.ancestors_of_container (Rule.mem_children.1 hc), hline, happlies]
      rw [Rule.subtree_eq, List.filter_cons_of_pos (by rw [hline, happlies]), hbelow]
    · -- Everything below has the node on its line.
      rename_i hnot
      refine (List.filter_eq_nil_iff.2 fun x hx hall => hnot ?_).symm
      exact List.all_eq_true.1 hall v (Rule.mem_subtree_iff.1 hx)

theorem reached_root (w : View) : w.reached w.rule.root = w.fitting := by
  refine reached_eq_filter ?_
  rw [Rule.ancestors_eq, Rule.container_root]
  rfl

end View

/-! ## Violations -/

/-- The count lies below the least or above the greatest one allowed. -/
def Violation.Outside (x : Violation) : Prop :=
  (∃ m, x.min = .finite m ∧ x.actual < m) ∨ ∃ m, x.max = .finite m ∧ m < x.actual

/-- The violation is about the count of its field, the bounds are those of the nodes of the field, and the
scope is the nearest common container of the involved nodes. -/
structure Violation.Describes (x : Violation) (w : View) (q : Quantities) : Prop where
  actual : x.actual = q.count x.field
  bounds : Window.mk x.min x.max = w.fieldWindow q (q.writers w.rule x.field)
  outside : x.Outside
  ascending : x.involved.Pairwise (· < ·)
  writers : ∀ v ∈ q.writers w.rule x.field, v ∈ x.involved
  assignments : ∀ v ∈ x.involved, (w.rule.field? v).isSome
  scope : w.rule.Nearest x.scope x.involved

/-- The violations of a state: each field at most once, in ascending order, and exactly those whose count
lies outside the bounds. -/
structure View.Reported (w : View) (q : Quantities) (xs : List Violation) : Prop where
  ascending : xs.Pairwise fun x y => x.field < y.field
  describes : ∀ x ∈ xs, x.Describes w q
  complete : ∀ field ∈ q.fields w.rule,
    (w.fieldWindow q (q.writers w.rule field)).admits (q.count field) = false →
      ∃ x ∈ xs, x.field = field

namespace View

variable {w : View} {q : Quantities} {field : String} {x : Violation}

theorem admits_eq_false_iff {b : Window} {n : Nat} :
    b.admits n = false ↔ (∃ m, b.min = .finite m ∧ n < m) ∨ ∃ m, b.max = .finite m ∧ m < n := by
  have hdeficit : b.deficit n = 0 ↔ ¬ ∃ m, b.min = .finite m ∧ n < m := by
    unfold Window.deficit
    split
    · rename_i m hm
      simp only [hm, Count.finite.injEq, exists_eq_left', Nat.sub_eq_zero_iff_le, Nat.not_lt]
    · rename_i hm
      exact iff_of_true rfl fun ⟨m, he, _⟩ => hm m he
  have hexcess : b.excess n = 0 ↔ ¬ ∃ m, b.max = .finite m ∧ m < n := by
    unfold Window.excess
    split
    · rename_i m hm
      simp only [hm, Count.finite.injEq, exists_eq_left', Nat.sub_eq_zero_iff_le, Nat.not_lt]
    · rename_i hm
      exact iff_of_true rfl fun ⟨m, he, _⟩ => hm m he
  rw [← Bool.not_eq_true, Window.admits_iff, hdeficit, hexcess, not_and_or, not_not, not_not]

theorem pairwise_fields (q : Quantities) (r : Rule) : (q.fields r).Pairwise (· < ·) := by
  have hordered : (q.fields r).Pairwise fun a b => compare a b = .lt := Std.ExtTreeSet.ordered_toList
  exact hordered.imp compareOfLessAndEq_eq_lt.1

theorem describes_of_violation? (hfield : field ∈ q.fields w.rule)
    (h : w.violation? q field (q.writers w.rule field) = some x) :
    x.field = field ∧ x.Describes w q := by
  let nodes := q.writers w.rule field
  unfold violation? at h
  simp only at h
  split at h
  · cases h
  · rename_i hnot
    cases h
    have hmem : ∀ {v}, v ∈ (w.involved q nodes).toList ↔
        ∃ u ∈ nodes, v = u ∨ v ∈ w.minReads q u ∨ v ∈ w.maxReads q none u := by
      intro v
      rw [involved, mem_toList_ofList, List.mem_flatMap]
      simp only [List.cons_append, List.mem_cons, List.mem_append]
    have hwriters : ∀ v ∈ nodes, v ∈ (w.involved q nodes).toList := fun v hv =>
      hmem.2 ⟨v, hv, .inl rfl⟩
    have hassignments : ∀ v ∈ (w.involved q nodes).toList, (w.rule.field? v).isSome := by
      intro v hv
      obtain ⟨u, hu, rfl | hv | hv⟩ := hmem.1 hv
      · rw [(Quantities.mem_writers.1 hu).2]
        rfl
      · exact isSome_field?_minReads hv
      · exact isSome_field?_maxReads hv
    obtain ⟨v, hv⟩ := Quantities.mem_fields.1 hfield
    refine ⟨rfl, rfl, rfl, ?_, pairwise_toList_ofList _, hwriters, hassignments, ?_⟩
    · exact admits_eq_false_iff.1 (Bool.eq_false_iff.2 hnot)
    · refine Rule.nearest_commonOf (List.ne_nil_of_mem (hwriters v hv)) fun u hu => ?_
      obtain ⟨own, hown⟩ := Option.isSome_iff_exists.1 (hassignments u hu)
      exact Rule.mem_ids_of_field? hown

theorem mem_violations :
    x ∈ w.violations q ↔
      ∃ field ∈ q.fields w.rule, w.violation? q field (q.writers w.rule field) = some x := by
  unfold violations Quantities.groups
  rw [List.filterMap_map, List.mem_filterMap]
  rfl

theorem reported_violations (w : View) (q : Quantities) : w.Reported q (w.violations q) where
  ascending := by
    unfold violations Quantities.groups
    rw [List.filterMap_map, List.pairwise_filterMap]
    refine (pairwise_fields q w.rule).imp_of_mem fun hf hg hlt x hx y hy => ?_
    rwa [(describes_of_violation? hf hx).1, (describes_of_violation? hg hy).1]
  describes x hx := by
    obtain ⟨field, hfield, h⟩ := mem_violations.1 hx
    exact (describes_of_violation? hfield h).2
  complete field hfield hout := by
    cases h : w.violation? q field (q.writers w.rule field) with
    | none =>
      rw [violation?_eq_none_iff.1 h] at hout
      cases hout
    | some x => exact ⟨x, mem_violations.2 ⟨field, hfield, h⟩, (describes_of_violation? hfield h).1⟩

end View

namespace Validator

open Quantities (count_congr count_record_ne)

variable {σ : Type} {V : Validator} {o : Object} {r : Rule} {v : Nat} {field : String}

/-- One diagnostic for each fitting assignment of a field that the object does not declare, in document
order. -/
def missingFeatures (w : View) (o : Object) : List Diagnostic :=
  (w.fitting.filter fun v => (w.rule.field? v).any fun field => (o.feature? field).isNone).map
    (Diagnostic.undeclared w.rule o.type)

/-- One diagnostic for each feature with values that no fitting assignment writes, in the order of the
features. -/
def missingAssignments (counter : Counter) (w : View) (o : Object) : List Diagnostic :=
  (o.features.filter fun f =>
      0 < counter.count o f.name && !w.fitting.any fun v => w.rule.field? v == some f.name).map
    fun f => Diagnostic.unassigned w.rule o f.name

theorem mismatches_targets (counter : Counter) (w : View) (o : Object) :
    mismatches counter w o w.targets = missingFeatures w o ++ missingAssignments counter w o := by
  have htargets : w.targets = w.fitting.filterMap fun v => (w.rule.field? v).map (·, v) := by
    rw [View.targets_eq, View.reached_root]
  unfold mismatches missingFeatures missingAssignments
  rw [htargets]
  congr 1
  · induction w.fitting with
    | nil => rfl
    | cons v nodes ih =>
      rw [List.filterMap_cons]
      cases hf : w.rule.field? v with
      | none => simpa [hf] using ih
      | some field => by_cases hd : o.feature? field = none <;> simpa [hf, hd] using ih
  · congr 1
    refine List.filter_congr fun f _ => congrArg (_ && !·) ?_
    rw [List.any_filterMap]
    refine List.any_congr rfl fun v => ?_
    cases w.rule.field? v with
    | none => rfl
    | some field => exact (beq_eq_decide field f.name).symm

theorem early_of_misfits {counter : Counter} {v : Nat} {vs : List Nat}
    (h : (View.unfulfilled ⟨r, o.type⟩ r.root).toList = v :: vs) :
    early counter o r = [Diagnostic.shape r o.type (v :: vs)] := by
  unfold early
  simp only [h]

theorem early_of_fitting (counter : Counter)
    (h : (View.unfulfilled ⟨r, o.type⟩ r.root).toList = []) :
    early counter o r =
      missingFeatures ⟨r, o.type⟩ o ++ missingAssignments counter ⟨r, o.type⟩ o := by
  unfold early
  simp only [h]
  exact mismatches_targets counter ⟨r, o.type⟩ o

/-- All fitting assignments, and nothing else, have shares; these add up to the count of the field, which
is what was counted, unless one value is implied for an unset single-valued field. -/
structure Settled (counter : Counter) (w : View) (o : Object) (q : Quantities) : Prop where
  assigned : ∀ v, (q.share? v).isSome ↔ v ∈ w.fitting ∧ (w.rule.field? v).isSome
  sums : ∀ field ∈ q.fields w.rule, q.total w.rule field = q.count field
  counts : ∀ field f, o.feature? field = some f → q.count field = counter.count o field ∨
    f.many = false ∧ f.implicitZero = true ∧ counter.count o field = 0 ∧ q.count field = 1

/-- What has a share after the search is a reached assignment. -/
theorem mem_targets_of_share?_searched (ch : Chooser σ) (s : σ)
    (hv : ((V.searched ch o r s).quantities.share? v).isSome) :
    ∃ field, (field, v) ∈ View.targets ⟨r, o.type⟩ := by
  obtain ⟨placed, hperm, -, hsound⟩ := sound_planned V o r
  have hkeeps := keepsSums_searched V ch o r s
  have hplaced : ∃ f ∈ placed, v ∈ f.2 := by
    by_cases hrival : ∃ (field : String) (nodes : List Nat),
        (V.planned o r).rivals[field]? = some nodes ∧ v ∈ nodes
    · obtain ⟨field, nodes, hnodes, hmem⟩ := hrival
      exact ⟨(field, nodes), hsound.rivals hnodes, hmem⟩
    · rw [hkeeps.others v fun {field nodes} hnodes hmem =>
        hrival ⟨field, nodes, hnodes, hmem⟩] at hv
      obtain ⟨f, hf, hvf, -⟩ := hsound.owned hv
      exact ⟨f, hf, hvf⟩
  obtain ⟨f, hf, hvf⟩ := hplaced
  exact ⟨f.1, mem_targets_of_assignable (hperm.mem_iff.1 hf) hvf⟩

theorem settled_searched (he : early V.counter o r = []) (ch : Chooser σ) (s : σ) :
    Settled V.counter ⟨r, o.type⟩ o (V.searched ch o r s).quantities where
  assigned v := by
    rw [← View.reached_root]
    constructor
    · intro hv
      obtain ⟨field, ht⟩ := mem_targets_of_share?_searched ch s hv
      obtain ⟨hreached, hfield⟩ := View.mem_targets.1 ht
      exact ⟨hreached, by rw [hfield]; rfl⟩
    · rintro ⟨hreached, hwrites⟩
      obtain ⟨field, hfield⟩ := Option.isSome_iff_exists.1 hwrites
      have ht : (field, v) ∈ View.targets ⟨r, o.type⟩ := View.mem_targets.2 ⟨hreached, hfield⟩
      exact isSome_share?_searched ht (((early_eq_nil_iff V.counter o r).1 he).2.1 _ ht) ch s
  sums := (keepsSums_searched V ch o r s).sums
  counts field f hf := by
    have hcounted : (counted V.counter o).count field = V.counter.count o field := by
      obtain ⟨g, hg, rfl⟩ := Object.exists_feature (by rw [hf]; rfl)
      exact count_counted hg V.counter
    rw [count_congr (keepsSums_searched V ch o r s).counts, ← hcounted]
    refine (count_plan _ o _ _ field).imp_right fun ⟨himplicit, hone⟩ => ?_
    unfold implicit at himplicit
    simp only [hf, Option.any_some, Bool.and_eq_true, decide_eq_true_eq, Bool.not_eq_true'] at himplicit
    exact ⟨himplicit.2.1, himplicit.2.2, himplicit.1, hone⟩

/-- Every examination ends with the findings of its first stage that finds something. The misfits of the type
are reported as one set; the fields that the object does not declare and the values that nothing writes are
reported one by one, in document order and in the order of the features; only then come the fields
whose count lies outside its bounds, each once and in ascending order. -/
theorem examine_stages (V : Validator) (ch : Chooser σ) (o : Object) (r : Rule) (s : σ) :
    let w : View := ⟨r, o.type⟩
    let mismatched := missingFeatures w o ++ missingAssignments V.counter w o
    let q := (V.searched ch o r s).quantities
    ∃ ds, (V.examine ch o r s).1.result = .ok ds ∧
      ((∃ v, v ∈ w.unfulfilled r.root) →
        ∃ vs, vs.Pairwise (· < ·) ∧ (∀ v, v ∈ vs ↔ v ∈ w.unfulfilled r.root) ∧
          ds = [Diagnostic.shape r o.type vs]) ∧
      ((∀ v, v ∉ w.unfulfilled r.root) → mismatched ≠ [] → ds = mismatched) ∧
      ((∀ v, v ∉ w.unfulfilled r.root) → mismatched = [] →
        Settled V.counter w o q ∧
          ∃ xs, w.Reported q xs ∧ ds = xs.map (Diagnostic.bounds r o.type)) := by
  intro w mismatched q
  have hset : ∀ v, v ∈ (w.unfulfilled r.root).toList ↔ v ∈ w.unfulfilled r.root := fun v =>
    Std.ExtTreeSet.mem_toList
  cases hvs : (w.unfulfilled r.root).toList with
  | cons v vs =>
    have hmem : v ∈ w.unfulfilled r.root := (hset v).1 (by rw [hvs]; exact List.mem_cons_self)
    refine ⟨_, by rw [examine_eq, early_of_misfits hvs], fun _ => ⟨v :: vs, ?_, fun x => ?_, rfl⟩,
      fun h => absurd hmem (h v), fun h => absurd hmem (h v)⟩
    · rw [← hvs]
      exact pairwise_toList_ofList _
    · rw [← hvs, hset]
  | nil =>
    have hnone : ∀ v, v ∉ w.unfulfilled r.root := fun v hv => by
      have hv := (hset v).2 hv
      rw [hvs] at hv
      cases hv
    have he : early V.counter o r = mismatched := early_of_fitting V.counter hvs
    cases hm : mismatched with
    | cons d ds =>
      refine ⟨d :: ds, by rw [examine_eq, he, hm], fun ⟨v, hv⟩ => absurd hv (hnone v),
        fun _ _ => rfl, fun _ h => by cases h⟩
    | nil =>
      rw [hm] at he
      refine ⟨_, examine_searched ch s he, fun ⟨v, hv⟩ => absurd hv (hnone v),
        fun _ h => absurd rfl h, fun _ _ => ⟨settled_searched he ch s, ?_⟩⟩
      exact ⟨w.violations q, w.reported_violations q, rfl⟩

end Validator

end RuleCardinality
