import RuleCardinality.Proofs.Validator.Uncontested
import RuleCardinality.Proofs.View.Without

/-!
# Examinations without a skipped part

Whether a rule that assigns no field twice accepts an object does not depend on a skipped part, as long as
that part is harmless (`examine_without_iff`). The same assignments are reached, so the early stages find
the same and the same fields are shared out; a plan asks for minimums only, so both plans hold the same
shares (`agree_planned`); and in the end every reached assignment has the same window.

A skipped part that is not harmless narrows its group as if it were mandatory
(`examine_bracket_rejected`).
-/

namespace RuleCardinality

namespace Validator

open Quantities

variable {σ : Type} {V : Validator} {o : Object} {r : Rule} {w w' : View} {p p' : Plan} {q q' : Quantities}
  {e : Nat → Nat} {x v n : Nat} {field : String}

/-! ## The same state -/

/-- Two states of the same counts in which every node has the share of the node it stands for, and no
number exceeds `cap`. -/
structure Agree (r' : Rule) (e : Nat → Nat) (q q' : Quantities) : Prop where
  counts : q.counts = q'.counts
  shares : ∀ v ∈ r'.ids, q.share? (e v) = q'.share? v
  counted : ∀ field, q.count field ≤ cap
  left : ∀ v, q.share v ≤ cap
  right : ∀ v, q'.share v ≤ cap

theorem Agree.count_eq {r' : Rule} (h : Agree r' e q q') (field : String) :
    q.count field = q'.count field :=
  count_congr h.counts field

theorem Agree.record {r' : Rule} (h : Agree r' e q q') (hn : n ≤ cap) (field : String) :
    Agree r' e (q.record field n) (q'.record field n) where
  counts := congrArg (·.insert field n) h.counts
  shares := h.shares
  counted := count_record_le h.counted field hn
  left := h.left
  right := h.right

theorem share_assign_le {m : Nat} (hq : ∀ v, q.share v ≤ m) (hn : n ≤ m) (v u : Nat) :
    (q.assign v n).share u ≤ m := by
  unfold share
  rw [share?_assign]
  split
  · exact hn
  · exact hq u

theorem Agree.assign (h : View.Without w x w' e) (ha : Agree w'.rule e q q') (hv : v ∈ w'.rule.ids)
    (hn : n ≤ cap) : Agree w'.rule e (q.assign (e v) n) (q'.assign v n) where
  counts := ha.counts
  shares u hu := by
    simp only [share?_assign, h.rule.inj hv hu, ha.shares u hu]
  counted := ha.counted
  left := share_assign_le ha.left hn (e v)
  right := share_assign_le ha.right hn v

/-! ## The same plan -/

/-- A field with the nodes that its nodes stand for. -/
def relocate (e : Nat → Nat) (f : String × List Nat) : String × List Nat := (f.1, f.2.map e)

theorem assignable_relocate (o : Object) (targets : List (String × Nat)) :
    assignable o (targets.map fun t => (t.1, e t.2)) = (assignable o targets).map (relocate e) := by
  have hdeclared : (targets.map fun t => (t.1, e t.2)).filter (fun t => (o.feature? t.1).isSome) =
      (targets.filter fun t => (o.feature? t.1).isSome).map fun t => (t.1, e t.2) := List.filter_map
  unfold assignable
  simp only [hdeclared, List.map_map]
  refine List.map_congr_left fun field _ => ?_
  simp only [Function.comp_apply, relocate, List.filter_map, List.map_map]
  rfl

theorem quantities_place_singleton (p : Plan) (field : String) (v : Nat) :
    (p.place field [v]).quantities = p.quantities.assign v (p.quantities.count field) := by
  unfold Plan.place
  simp only [List.length_singleton, Nat.lt_irrefl, false_and, if_false]
  rfl

/-- A field with one node, whose numbers come from states that agree. -/
theorem Agree.place (h : View.Without w x w' e) (ha : Agree w'.rule e p.quantities p'.quantities)
    {f : String × List Nat} (hf : f.2 = [v]) (hv : v ∈ w'.rule.ids) :
    Agree w'.rule e (p.place f.1 (relocate e f).2).quantities (p'.place f.1 f.2).quantities := by
  unfold relocate
  rw [hf, List.map_singleton, quantities_place_singleton, quantities_place_singleton,
    ← ha.count_eq f.1]
  exact ha.assign h hv (ha.counted f.1)

/-- A plan only asks for minimums, which a skipped part leaves as they are. -/
theorem impliedCount_relocate (h : View.Without w x w' e) (ha : Agree w'.rule e q q')
    {f : String × List Nat} (hf : f.2 = [v]) (hv : v ∈ w'.rule.ids) :
    impliedCount w q (relocate e f).2 = impliedCount w' q' f.2 := by
  unfold impliedCount relocate
  rw [hf, List.map_singleton, List.map_singleton, List.map_singleton,
    h.minCount ha.shares ha.left ha.right hv]

theorem Agree.plan (h : View.Without w x w' e) (ha : Agree w'.rule e q q')
    {fields : List (String × List Nat)} (hf : ∀ f ∈ fields, ∃ v ∈ w'.rule.ids, f.2 = [v]) :
    Agree w'.rule e (plan w o q (fields.map (relocate e))).quantities
      (plan w' o q' fields).quantities := by
  have himplicit : ∀ f : String × List Nat, implicit o q (relocate e f).1 = implicit o q' f.1 := by
    intro f
    unfold implicit relocate
    rw [ha.count_eq]
  have hsplit : ∀ g g' : String × List Nat → Bool, (∀ f, g (relocate e f) = g' f) →
      (fields.map (relocate e)).filter g = (fields.filter g').map (relocate e) := by
    intro g g' hg
    rw [List.filter_map]
    exact congrArg _ (List.filter_congr fun f _ => hg f)
  have himplied := hsplit (fun f => implicit o q f.1) (fun f => implicit o q' f.1) himplicit
  have hplain := hsplit (not ∘ fun f => implicit o q f.1) (not ∘ fun f => implicit o q' f.1)
    fun f => congrArg not (himplicit f)
  unfold Validator.plan
  rw [List.partition_eq_filter_filter, List.partition_eq_filter_filter]
  simp only
  rw [himplied, hplain, List.foldl_map, List.foldl_map]
  refine List.foldl_rel (r := fun p p' : Plan => Agree w'.rule e p.quantities p'.quantities)
    (List.foldl_rel (r := fun p p' : Plan => Agree w'.rule e p.quantities p'.quantities) ha ?_) ?_
  · intro f hmem p p' ih
    obtain ⟨v, hv, hfv⟩ := hf f (List.mem_filter.1 hmem).1
    exact Agree.place h ih hfv hv
  · intro f hmem p p' ih
    obtain ⟨v, hv, hfv⟩ := hf f (List.mem_filter.1 hmem).1
    have hle : impliedCount w' p'.quantities f.2 ≤ cap :=
      Nat.le_trans (impliedCount_le_one w' p'.quantities f.2) (by decide)
    rw [impliedCount_relocate h ih hfv hv]
    exact Agree.place h (ih.record hle f.1) hfv hv

/-- The plans of both rules agree. -/
theorem agree_planned {r' : Rule} (hr : r.written.Nodup)
    (h : View.Without ⟨r, o.type⟩ x ⟨r', o.type⟩ e)
    (hc : ∀ f ∈ o.features, V.counter.count o f.name ≤ cap) :
    Agree r' e (V.planned o r).quantities (V.planned o r').quantities := by
  have hr' : r'.written.Nodup := hr.sublist h.rule.written_sublist
  have hempty : ∀ v, (counted V.counter o).share v ≤ cap := by
    intro v
    unfold share
    rw [share?_counted]
    exact Nat.zero_le cap
  have ha : Agree r' e (counted V.counter o) (counted V.counter o) := by
    refine ⟨rfl, fun v _ => ?_, count_counted_le hc, hempty, hempty⟩
    rw [share?_counted, share?_counted]
  unfold planned
  simp only
  rw [h.targets, assignable_relocate]
  refine Agree.plan h ha fun f hf => ?_
  obtain ⟨v, hv⟩ := assignable_eq_singleton hr' hf
  have hwrites := (contest_assignable o ⟨r', o.type⟩).writes f hf v (by simp [hv])
  exact ⟨v, Rule.mem_ids_of_field? hwrites, hv⟩

/-! ## The same verdict -/

theorem early_without {r' : Rule} (h : View.Without ⟨r, o.type⟩ x ⟨r', o.type⟩ e)
    (counter : Counter) : early counter o r = [] ↔ early counter o r' = [] := by
  have hmisfits : View.misfits ⟨r, o.type⟩ r.root = (View.misfits ⟨r', o.type⟩ r'.root).map e := by
    rw [← h.misfits (Rule.root_mem_ids r')]
    exact congrArg _ h.rule.root.symm
  rw [early_eq_nil_iff, early_eq_nil_iff, hmisfits, h.targets, List.map_eq_nil_iff]
  simp only [List.mem_map, exists_exists_and_eq_and, forall_exists_index, and_imp,
    forall_apply_eq_imp_iff₂]

/-- A rule that assigns no field twice accepts the same objects without a part of a group that may be left
out and that a guard takes away from the objects' type, if no container of the part repeats and the nearest
one that may be left out is an alternative. -/
theorem examine_without_iff (hr : r.written.Nodup) (hx : View.Skipped ⟨r, o.type⟩ x)
    (hh : r.Harmless x) (hc : ∀ f ∈ o.features, V.counter.count o f.name ≤ cap)
    (ch ch' : Chooser σ) (s s' : σ) :
    ∃ r', r.without x = .ok r' ∧
      ((V.examine ch o r s).1.result = .ok [] ↔ (V.examine ch' o r' s').1.result = .ok []) := by
  obtain ⟨c, hcontainer, -⟩ := hx.group
  obtain ⟨r', e, hr', hrule⟩ := Rule.exists_without hcontainer
  refine ⟨r', hr', ?_⟩
  have h : View.Without ⟨r, o.type⟩ x ⟨r', o.type⟩ e := ⟨hrule, rfl, hx⟩
  by_cases he : early V.counter o r' = []
  · have ha : Agree r' e (V.planned o r).quantities (V.planned o r').quantities :=
      agree_planned hr h hc
    rw [examine_uncontested_iff hr ch s hc ((early_without h V.counter).2 he),
      examine_uncontested_iff (hr.sublist hrule.written_sublist) ch' s' hc he, h.targets,
      List.forall_mem_map]
    refine forall₂_congr fun t ht => ?_
    have hids : t.2 ∈ r'.ids := Rule.mem_ids_of_field? (View.mem_targets.1 ht).2
    rw [h.window ha.shares ha.left ha.right hh hids, ha.count_eq]
  · refine iff_of_false (fun hok => he ?_) fun hok => he (early_of_examine hok)
    exact (early_without h V.counter).1 (early_of_examine hok)

/-- A number and, if anything, either a street with a locker for special types, or a depot. -/
def parcel : Rule :=
  ((Rule.ofAdditions "Parcel"
    [.root { shape := .group }, .child 0 { shape := .assignment "number" },
      .child 0 { shape := .alternative, optional := true }, .child 2 { shape := .group },
      .child 3 { shape := .assignment "street" },
      .child 3 { shape := .group, optional := true, types := some (.ofList ["Special"]) },
      .child 5 { shape := .assignment "locker" }, .child 5 { shape := .action },
      .child 2 { shape := .assignment "depot" }]).toOption).get (by decide +kernel)

/-- A number and a street. -/
def addressed : Object :=
  (["number", "street", "depot"].foldl (fun o f => o.declare ⟨f, true, false⟩)
    (Object.empty "T")).fill "number" 1 |>.fill "street" 1

def parcelValidator : Validator where
  registry := Registry.empty.register "T" parcel

theorem examine_without_iff_parcel :
    parcel.written.Nodup ∧ View.Skipped ⟨parcel, addressed.type⟩ 5 ∧ parcel.Harmless 5 ∧
      (∀ f ∈ addressed.features, parcelValidator.counter.count addressed f.name ≤ cap) ∧
      (parcelValidator.examine View.firstChoice addressed parcel ()).1.result = .ok [] ∧
      ∃ r', parcel.without 5 = .ok r' ∧
        (parcelValidator.examine View.firstChoice addressed r' ()).1.result = .ok [] := by
  have hr : parcel.written.Nodup := by decide +kernel
  have hx : View.Skipped ⟨parcel, addressed.type⟩ 5 :=
    ⟨⟨3, by decide +kernel, by decide +kernel⟩, by decide +kernel, by decide +kernel⟩
  have hh : parcel.Harmless 5 := by decide +kernel
  have hc : ∀ f ∈ addressed.features, parcelValidator.counter.count addressed f.name ≤ cap := by
    decide +kernel
  have he : early parcelValidator.counter addressed parcel = [] := by decide +kernel
  have hok : (parcelValidator.examine View.firstChoice addressed parcel ()).1.result = .ok [] :=
    (examine_uncontested_iff hr View.firstChoice () hc he).2 (by decide +kernel)
  obtain ⟨r', hr', hiff⟩ :=
    examine_without_iff hr hx hh hc View.firstChoice View.firstChoice () ()
  exact ⟨hr, hx, hh, hc, hok, r', hr', hiff.1 hok⟩

/-- A name and, for special types, perhaps a title; or nothing. -/
def bracket : Rule :=
  ((Rule.ofAdditions "Bracket"
    [.root { shape := .group, optional := true },
      .child 0 { shape := .assignment "title", optional := true, types := some (.ofList ["Special"]) },
      .child 0 { shape := .assignment "name" }]).toOption).get (by decide +kernel)

/-- A name or nothing. -/
def bareBracket : Rule :=
  ((Rule.ofAdditions "Bracket"
    [.root { shape := .group, optional := true },
      .child 0 { shape := .assignment "name" }]).toOption).get (by decide)

theorem without_bracket : bracket.without 1 = .ok bareBracket := by
  have hkept : bracket.kept 1 = [0, 2] := by decide +kernel
  unfold Rule.without Rule.partWithout
  rw [hkept]
  rfl

/-- A name. -/
def titleless : Object := ((Object.empty "T").declare ⟨"name", true, false⟩).fill "name" 1

def bracketValidator : Validator where
  registry := Registry.empty.register "T" bracket

/-- In a group that may be left out, a part that may be left out as well and that a guard takes away still
narrows its siblings: without the title the name is accepted, with it rejected. -/
theorem examine_bracket_rejected :
    bracket.written.Nodup ∧ View.Skipped ⟨bracket, titleless.type⟩ 1 ∧
      (∀ f ∈ titleless.features, bracketValidator.counter.count titleless f.name ≤ cap) ∧
      bracket.without 1 = .ok bareBracket ∧
      (bracketValidator.examine View.firstChoice titleless bareBracket ()).1.result = .ok [] ∧
      (bracketValidator.examine View.firstChoice titleless bracket ()).1.result ≠ .ok [] := by
  have hr : bracket.written.Nodup := by decide +kernel
  have hx : View.Skipped ⟨bracket, titleless.type⟩ 1 :=
    ⟨⟨0, by decide +kernel, by decide +kernel⟩, by decide +kernel, by decide +kernel⟩
  have hc : ∀ f ∈ titleless.features, bracketValidator.counter.count titleless f.name ≤ cap := by
    decide +kernel
  refine ⟨hr, hx, hc, without_bracket, ?_, fun hok => ?_⟩
  · have hr' : bareBracket.written.Nodup := by decide +kernel
    exact (examine_uncontested_iff hr' View.firstChoice () hc (by decide +kernel)).2 (by decide +kernel)
  · have hall := (examine_uncontested_iff hr View.firstChoice () hc (by decide +kernel)).1 hok
    revert hall
    decide +kernel

end Validator

end RuleCardinality
