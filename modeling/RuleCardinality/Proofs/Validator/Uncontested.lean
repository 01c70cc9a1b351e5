import Mathlib.Data.List.Pairwise
import RuleCardinality.Proofs.Validator.Searchless
import RuleCardinality.Proofs.View.Flow

/-!
# Rules that assign no field twice

Where every field has one assignment, nothing is left to the search: each assignment takes the count of
its field, and the rule accepts the object exactly if each count lies in the window of its node
(`examine_uncontested_iff`). For rules without type guards the stages before that find nothing, as long
as the object declares the assigned fields and no others (`examine_elementary_iff`). So to accept an object
is to find every share inside its window (`exists_settled`), and exclusive runs with visible branches are
accepted (`examine_of_flow`).
-/

namespace RuleCardinality

namespace Rule

/-- The fields that a rule assigns, one entry for each assignment. -/
def written (r : Rule) : List String := r.ids.filterMap r.field?

/-- No node is guarded and no field is assigned twice. -/
structure Elementary (r : Rule) : Prop where
  unguarded : r.Unguarded
  once : r.written.Nodup

variable {r : Rule} {u v : Nat} {field : String}

theorem mem_written : field ∈ r.written ↔ ∃ v, r.field? v = some field := by
  unfold written
  rw [List.mem_filterMap]
  constructor
  · rintro ⟨v, _, hv⟩
    exact ⟨v, hv⟩
  · rintro ⟨v, hv⟩
    exact ⟨v, mem_ids_of_field? hv, hv⟩

/-- A field that is assigned once at most has one assignment at most. -/
theorem eq_of_field? (hr : r.written.Nodup) (hu : r.field? u = some field)
    (hv : r.field? v = some field) : u = v := by
  by_contra hne
  have hpair := List.pairwise_filterMap.1 hr
  have hsymm : Std.Symm fun u v => ∀ b, r.field? u = some b → ∀ c, r.field? v = some c → b ≠ c :=
    ⟨fun _ _ h b hb c hc => (h c hc b hb).symm⟩
  exact hpair.forall (mem_ids_of_field? hu) (mem_ids_of_field? hv) hne field hu field hv rfl

end Rule

/-- The object declares the fields that a rule assigns and no others, and none of them stands for a
value when it is unset. -/
structure Object.Declares (o : Object) (r : Rule) : Prop where
  declared : ∀ field ∈ r.written, (o.feature? field).isSome
  assigned : ∀ f ∈ o.features, f.name ∈ r.written
  explicit : ∀ f ∈ o.features, f.implicitZero = false

/-- A declared field is the name of a feature. -/
theorem Object.exists_feature {o : Object} {field : String} (hd : (o.feature? field).isSome) :
    ∃ f ∈ o.features, f.name = field := by
  obtain ⟨f, hf⟩ := Option.isSome_iff_exists.1 hd
  exact ⟨f, List.mem_of_find?_eq_some hf, by simpa using List.find?_some hf⟩

namespace Validator

open Quantities

variable {σ : Type} {V : Validator} {o : Object} {r : Rule} {v : Nat} {field : String}

/-! ## The plan -/

/-- Each assignable field comes with its only node. -/
theorem assignable_eq_singleton (hr : r.written.Nodup) {f : String × List Nat}
    (hf : f ∈ assignable o (View.targets ⟨r, o.type⟩)) : ∃ v, f.2 = [v] := by
  have hc := contest_assignable o ⟨r, o.type⟩
  obtain ⟨v, vs, hvs⟩ := List.exists_cons_of_ne_nil (hc.nonempty f hf)
  cases vs with
  | nil => exact ⟨v, hvs⟩
  | cons u us =>
    have hn := hc.nodup f hf
    have huv : v = u := Rule.eq_of_field? hr (hc.writes f hf v (by simp [hvs]))
      (hc.writes f hf u (by simp [hvs]))
    simp [hvs, huv] at hn

theorem implicit_eq_false (ho : ∀ f ∈ o.features, f.implicitZero = false) (q : Quantities)
    (field : String) : implicit o q field = false := by
  unfold implicit
  cases hf : o.feature? field with
  | none => simp
  | some f =>
    have hmem : f ∈ o.features := List.mem_of_find?_eq_some hf
    simp [ho f hmem]

theorem rivals_place_singleton {p : Plan} (hp : p.rivals = ∅) {f : String × List Nat}
    (hf : ∃ v, f.2 = [v]) : (p.place f.1 f.2).rivals = ∅ := by
  obtain ⟨v, hv⟩ := hf
  rw [Plan.place_of_not_shared (by simp [hv])]
  exact hp

/-- Fields with one node each leave nothing to the search. -/
theorem rivals_plan (w : View) (o : Object) (q : Quantities) {fields : List (String × List Nat)}
    (hf : ∀ f ∈ fields, ∃ v, f.2 = [v]) : (plan w o q fields).rivals = ∅ := by
  rw [plan_eq]
  have hbegun : (begun o q fields).rivals = ∅ := by
    unfold begun Plan.placeAll
    refine List.foldlRecOn (motive := fun p : Plan => p.rivals = ∅) _ _ rfl fun p ih f hmem => ?_
    exact rivals_place_singleton ih (hf f (List.mem_filter.1 hmem).1)
  refine List.foldlRecOn (motive := fun p : Plan => p.rivals = ∅) _ _ hbegun fun p ih f hmem => ?_
  -- A field that may be implied is placed like any other once its count is recorded.
  have hrecorded : (p.record f.1 (impliedCount w p.quantities f.2)).rivals = ∅ := ih
  exact rivals_place_singleton hrecorded (hf f (List.mem_filter.1 hmem).1)

theorem rivals_planned (hr : r.written.Nodup) : (V.planned o r).rivals = ∅ :=
  rivals_plan _ o _ fun _ hf => assignable_eq_singleton hr hf

theorem count_planned (ho : ∀ f ∈ o.features, f.implicitZero = false)
    (hd : (o.feature? field).isSome) :
    (V.planned o r).quantities.count field = V.counter.count o field := by
  obtain ⟨f, hf, rfl⟩ := Object.exists_feature hd
  rw [← count_counted hf V.counter]
  refine (count_plan _ o _ _ f.name).resolve_right fun h => ?_
  rw [implicit_eq_false ho] at h
  cases h.1

/-- Each assignment takes the count of its field. -/
theorem share?_planned (hr : r.written.Nodup) (ht : (field, v) ∈ View.targets ⟨r, o.type⟩)
    (hd : (o.feature? field).isSome) :
    (V.planned o r).quantities.share? v = some ((V.planned o r).quantities.count field) :=
  share?_of_rivals (rivals_planned hr) ht hd

/-! ## Acceptance -/

/-- A rule that accepts an object has found nothing early. -/
theorem early_of_examine {ch : Chooser σ} {s : σ} (h : (V.examine ch o r s).1.result = .ok []) :
    early V.counter o r = [] := by
  rw [examine_eq] at h
  cases he : early V.counter o r with
  | nil => rfl
  | cons d ds => simp [he] at h

/-- Once the early stages find nothing, a rule that assigns no field twice accepts an object exactly if
the count of every assigned field lies in the window of its node. -/
theorem examine_uncontested_iff (hr : r.written.Nodup) (ch : Chooser σ) (s : σ)
    (hc : ∀ f ∈ o.features, V.counter.count o f.name ≤ cap) (he : early V.counter o r = []) :
    (V.examine ch o r s).1.result = .ok [] ↔
      ∀ t ∈ View.targets ⟨r, o.type⟩,
        (View.window ⟨r, o.type⟩ (V.planned o r).quantities none t.2).admits
          ((V.planned o r).quantities.count t.1) = true :=
  examine_planned_iff (rivals_planned hr) hc he ch s

/-! ## Elementary rules -/

/-- Nothing is wrong with an unguarded rule and an object that declares its fields before the counts are
looked at. -/
theorem early_unguarded (hr : r.Unguarded) (hd : o.Declares r) (counter : Counter) :
    early counter o r = [] := by
  have hun : (View.rule ⟨r, o.type⟩).Unguarded := hr
  refine (early_eq_nil_iff counter o r).2
    ⟨View.misfits_of_unguarded hun r.root, fun t ht => ?_, fun f hf _ => ?_⟩
  · exact hd.declared t.1 (Rule.mem_written.2 ⟨t.2, (View.mem_targets.1 ht).2⟩)
  · obtain ⟨v, hv⟩ := Rule.mem_written.1 (hd.assigned f hf)
    exact ⟨(f.name, v), (View.mem_targets_of_unguarded hun).2 hv, rfl⟩

/-- An elementary rule accepts an object that declares its fields exactly if the count of each field lies
in the window of its node, where every node has the count of its field. -/
theorem examine_elementary_iff (hr : r.Elementary) (hd : o.Declares r) (ch : Chooser σ) (s : σ)
    (hc : ∀ f ∈ o.features, V.counter.count o f.name ≤ cap) :
    ∃ q : Quantities,
      (∀ v field, r.field? v = some field → q.share? v = some (V.counter.count o field)) ∧
      (∀ v, q.share v ≤ cap) ∧
      ((V.examine ch o r s).1.result = .ok [] ↔
        ∀ v, (r.field? v).isSome →
          (View.window ⟨r, o.type⟩ q none v).admits (q.share v) = true) := by
  have hun : (View.rule ⟨r, o.type⟩).Unguarded := hr.unguarded
  have hdeclared : ∀ v field, r.field? v = some field → (o.feature? field).isSome := fun v field hv =>
    hd.declared field (Rule.mem_written.2 ⟨v, hv⟩)
  have hshare : ∀ v field, r.field? v = some field →
      (V.planned o r).quantities.share? v = some (V.counter.count o field) := fun v field hv => by
    rw [← count_planned hd.explicit (hdeclared v field hv)]
    exact share?_planned hr.once ((View.mem_targets_of_unguarded hun).2 hv) (hdeclared v field hv)
  refine ⟨(V.planned o r).quantities, hshare, share_planned_le (rivals_planned hr.once) hc, ?_⟩
  rw [examine_uncontested_iff hr.once ch s hc (early_unguarded hr.unguarded hd V.counter)]
  have hcount : ∀ t ∈ View.targets ⟨r, o.type⟩,
      (V.planned o r).quantities.count t.1 = (V.planned o r).quantities.share t.2 := fun t ht =>
    (share_of_share? (share?_planned hr.once ht
      (hdeclared t.2 t.1 (View.mem_targets.1 ht).2))).symm
  constructor
  · intro h v hv
    obtain ⟨field, hfield⟩ := Option.isSome_iff_exists.1 hv
    have ht := (View.mem_targets_of_unguarded hun).2 hfield
    exact hcount _ ht ▸ h (field, v) ht
  · intro h t ht
    have hfield := (View.mem_targets.1 ht).2
    exact hcount t ht ▸ h t.2 (by simp [hfield])

theorem exists_settled (hr : r.Elementary) (hd : o.Declares r) (ch : Chooser σ) (s : σ)
    (hc : ∀ f ∈ o.features, V.counter.count o f.name ≤ cap)
    (h : (V.examine ch o r s).1.result = .ok []) :
    ∃ q : Quantities,
      (∀ v field, r.field? v = some field → q.share? v = some (V.counter.count o field)) ∧
      (∀ v, q.share v ≤ cap) ∧ View.Settled ⟨r, o.type⟩ q := by
  obtain ⟨q, hq, hcap, hiff⟩ := examine_elementary_iff hr hd ch s hc
  refine ⟨q, hq, hcap, fun v hv => ?_, hiff.1 h⟩
  obtain ⟨field, hf⟩ := Option.isSome_iff_exists.1 hv
  simp [hq v field hf]

/-- The values of an accepted object come from one branch at most of each alternative that cannot repeat. -/
theorem exclusive_of_examine (hr : r.Elementary) (ha : r.Actionless) (hd : o.Declares r)
    (ch : Chooser σ) (s : σ) (hc : ∀ f ∈ o.features, V.counter.count o f.name ≤ cap)
    {fired : Nat → Nat}
    (hcount : ∀ v field, r.field? v = some field → fired v = V.counter.count o field)
    (h : (V.examine ch o r s).1.result = .ok []) : r.Exclusive fired := by
  obtain ⟨q, hq, _, hw⟩ := exists_settled hr hd ch s hc h
  have hfilled : ∀ x, r.Filled fired x ↔ r.Filled q.share x := by
    intro x
    refine Rule.filled_congr fun y hy => ?_
    obtain ⟨field, hf⟩ := Option.isSome_iff_exists.1 hy
    rw [hcount y field hf, share_of_share? (hq y field hf)]
  intro v _ hs hrep c hchild d hdchild hfc hfd
  exact View.eq_of_filled (w := ⟨r, o.type⟩) hr.unguarded ha hw hs hrep hchild hdchild
    ((hfilled c).1 hfc) ((hfilled d).1 hfd)

/-- An object is accepted if its counts come from an exclusive run with visible branches. -/
theorem examine_of_flow (hr : r.Elementary) (ha : r.Actionless) (hd : o.Declares r) (ch : Chooser σ)
    (s : σ) (hc : ∀ f ∈ o.features, V.counter.count o f.name ≤ cap) {visits fired : Nat → Nat}
    (hflow : r.Flow visits fired) (he : r.Exclusive fired) (hl : r.Visible visits fired)
    (hcount : ∀ v field, r.field? v = some field → fired v = V.counter.count o field) :
    (V.examine ch o r s).1.result = .ok [] := by
  obtain ⟨q, hq, hcap, hiff⟩ := examine_elementary_iff hr hd ch s hc
  have hshare : ∀ v, (r.field? v).isSome → q.share? v = some (fired v) := by
    intro v hv
    obtain ⟨field, hf⟩ := Option.isSome_iff_exists.1 hv
    rw [hq v field hf, hcount v field hf]
  rw [hiff]
  intro v hv
  have hle : fired v ≤ cap := share_of_share? (hshare v hv) ▸ hcap v
  rw [share_of_share? (hshare v hv)]
  exact View.window_admits_of_flow (w := ⟨r, o.type⟩) hr.unguarded ha hflow hshare he hl hle hv

end Validator

end RuleCardinality
