import RuleCardinality.Proofs.Search.Sweep

/-!
# The first optimum

The exact pass comes to the joint splits in strictly ascending order: field by field in the order of
their names, and within a field node by node, the smallest share first (`pairwise_visits`). Stopping
early and keeping the best so far do not disturb that, so the pass ends with the first of the joint
splits of least violation (`exhaustive_first`). It is left out exactly if some field competes and there
are more joint splits than the limit allows.
-/

namespace RuleCardinality.View

open Quantities

variable {w : View} {r : Rule} {rivals : Rivals} {q q' : Quantities}
  {fields : List (String × List Nat)}

/-! ## The order of the pass -/

/-- The shares of the nodes of each field, as they are compared. -/
def sharing (fields : List (String × List Nat)) (q : Quantities) : List (List Nat) :=
  fields.map fun f => f.2.map q.share

/-- A joint split of the later fields leaves the first field with the split that it got. -/
theorem map_share_of_jointSplit {f : String × List Nat} (hc : Contest r (f :: fields))
    {split : List Nat} (hlen : split.length = f.2.length)
    (hj : JointSplit fields (q.assignAll (f.2.zip split)) q') : f.2.map q'.share = split := by
  have hkeep : f.2.map q'.share? = split.map some := by
    rw [← map_share?_assignAll_zip (q := q) hc.head hlen]
    refine List.map_congr_left fun v hv => hj.outside v fun g hg => ?_
    exact hc.not_mem_of_mem_head hg hv
  have hget := congrArg (List.map (Option.getD · 0)) hkeep
  rw [List.map_map, List.map_map] at hget
  exact hget.trans (by simp [Function.comp_def])

/-- The pass comes to each joint split after all smaller ones. -/
theorem pairwise_visits (hc : Contest r fields) (q : Quantities) :
    (visits (budgets q fields) q).Pairwise fun a b => sharing fields a < sharing fields b := by
  induction fields generalizing q with
  | nil => exact List.pairwise_singleton _ _
  | cons f fields ih =>
    have hcons : budgets q (f :: fields) = (f.2, q.count f.1) :: budgets q fields := rfl
    rw [hcons, visits, List.pairwise_flatMap]
    -- What the pass comes to under one split of the first field begins with that split.
    have hsharing : ∀ split ∈ splits (q.count f.1) f.2.length,
        ∀ a ∈ visits (budgets q fields) (q.assignAll (f.2.zip split)),
          sharing (f :: fields) a = split :: sharing fields a := by
      intro split hsplit a ha
      rw [← budgets_congr (confined_assignAll_zip q f.2 split).counts] at ha
      have hmap := map_share_of_jointSplit hc (mem_splits.1 hsplit).1 ((mem_visits hc.tail).1 ha)
      exact congrArg (· :: sharing fields a) hmap
    constructor
    · intro split hsplit
      have hrest := ih hc.tail (q.assignAll (f.2.zip split))
      rw [budgets_congr (confined_assignAll_zip q f.2 split).counts] at hrest
      refine hrest.imp_of_mem fun ha hb hlt => ?_
      rw [hsharing split hsplit _ ha, hsharing split hsplit _ hb]
      exact List.cons_lt_cons_iff.2 (.inr ⟨rfl, hlt⟩)
    · refine (pairwise_splits _ _).imp_of_mem fun hsplit hsplit' hlt a ha b hb => ?_
      rw [hsharing _ hsplit a ha, hsharing _ hsplit' b hb]
      exact List.cons_lt_cons_iff.2 (.inl hlt)

theorem rivals_ascending (rivals : Rivals) : rivals.toList.Pairwise fun f g => f.1 < g.1 := by
  refine List.Pairwise.imp ?_ Std.ExtTreeMap.ordered_keys_toList
  exact fun h => compareOfLessAndEq_eq_lt.1 h

/-! ## The first of the least -/

/-- In a list with its members in order, the first one of least value precedes all others of that
value. -/
theorem eq_or_rel_of_mem_argmin {α : Type} {R : α → α → Prop} {f : α → Nat} {xs : List α} {m a : α}
    (hxs : xs.Pairwise R) (hm : m ∈ xs.argmin f) (ha : a ∈ xs) (hle : f a ≤ f m) :
    a = m ∨ R m a := by
  classical
  have hlt := List.idxOf_lt_length_iff.2 (List.argmin_mem hm)
  have hlt' := List.idxOf_lt_length_iff.2 ha
  rcases Nat.eq_or_lt_of_le (List.index_of_argmin hm ha hle) with heq | hbefore
  · exact .inl ((List.idxOf_inj (List.argmin_mem hm)).1 heq).symm
  · have hrel := List.pairwise_iff_getElem.1 hxs _ _ hlt hlt' hbefore
    rw [List.getElem_idxOf, List.getElem_idxOf] at hrel
    exact .inr hrel

/-- A joint split of least violation, and the first one in the order of the shares. -/
structure First (w : View) (fields : List (String × List Nat)) (q : Quantities) (b : Found) : Prop where
  split : JointSplit fields q b.2
  quality : b.1 = w.quality b.2
  least : ∀ q', JointSplit fields q q' → b.1 ≤ w.quality q'
  before : ∀ q', JointSplit fields q q' → w.quality q' = b.1 →
    q' = b.2 ∨ sharing fields b.2 < sharing fields q'

theorem optimum_first (hc : Contest r fields) {b : Found} (hb : w.optimum fields q = some b) :
    w.First fields q b := by
  obtain ⟨b', hb', hsplit, hquality, hleast⟩ := optimum_spec hc w q
  obtain rfl := Option.some.inj (hb'.symm.trans hb)
  refine ⟨hsplit, hquality, hleast, fun q' hq' he => ?_⟩
  rw [optimum_eq_argmin] at hb
  obtain ⟨m, hm, rfl⟩ := Option.map_eq_some_iff.1 hb
  exact eq_or_rel_of_mem_argmin (pairwise_visits hc q) hm ((mem_visits hc).2 hq') (Nat.le_of_eq he)

/-- The exact pass is not made exactly if some field competes and the number of joint splits, which is
counted up to `cap`, exceeds the limit. Otherwise it ends with the first of the joint splits of least
violation, where the fields are compared in the order of their names. -/
theorem exhaustive_first (hc : Contest w.rule rivals.toList) (limit : Nat) (q : Quantities) :
    (rivals.toList.Pairwise fun f g => f.1 < g.1) ∧
      (w.exhaustive limit rivals.toList q = none ↔
        rivals.toList ≠ [] ∧ limit < min (jointSplits rivals q) cap) ∧
      ∀ b, w.exhaustive limit rivals.toList q = some b → w.First rivals.toList q b := by
  obtain ⟨found, hfound, -⟩ := optimum_spec hc w q
  rw [exhaustive_eq, ← overLimit_iff]
  refine ⟨rivals_ascending rivals, ?_⟩
  cases overLimit limit 1 (budgets q rivals.toList) with
  | true => simp
  | false => simpa [hfound] using optimum_first hc hfound

/-! A group with two assignments of `f`, of which an object has five values, and two of `g`, of which it
has three. Every split of `f` has a violation of 3 at least, and there is a split of `g` without
violation. -/

/-- Two assignments of `f` and two of `g`, of which one may repeat. -/
def doublePair : Rule :=
  ((Rule.ofAdditions "Double"
    [.root { shape := .group }, .child 0 { shape := .assignment "f" },
      .child 0 { shape := .assignment "f" }, .child 0 { shape := .assignment "g", repeatable := true },
      .child 0 { shape := .assignment "g" }]).toOption).get (by decide)

/-- The assignments of each of the two fields compete. -/
def doubleRivals : Rivals := (Std.ExtTreeMap.empty.insert "g" [3, 4]).insert "f" [1, 2]

/-- Five values of `f` and three of `g`. -/
def doubleCounts : Quantities := (Quantities.empty.record "f" 5).record "g" 3

theorem exhaustive_first_double :
    Contest doublePair doubleRivals.toList ∧
      (doubleRivals.toList.Pairwise fun f g => f.1 < g.1) ∧
      (View.exhaustive ⟨doublePair, "T"⟩ 24 doubleRivals.toList doubleCounts = none ↔
        doubleRivals.toList ≠ [] ∧ 24 < min (jointSplits doubleRivals doubleCounts) cap) ∧
      (∀ b, View.exhaustive ⟨doublePair, "T"⟩ 24 doubleRivals.toList doubleCounts = some b →
        View.First ⟨doublePair, "T"⟩ doubleRivals.toList doubleCounts b) ∧
      (View.exhaustive ⟨doublePair, "T"⟩ 24 doubleRivals.toList doubleCounts).map
        (fun b => (b.1, sharing doubleRivals.toList b.2)) = some (3, [[1, 4], [2, 1]]) := by
  have hlist : doubleRivals.toList = [("f", [1, 2]), ("g", [3, 4])] := by decide +kernel
  have hc : Contest doublePair doubleRivals.toList := by
    rw [hlist]
    exact ⟨by decide, by decide, by decide, by decide +kernel⟩
  obtain ⟨hascending, hnone, hfirst⟩ :=
    exhaustive_first (w := ⟨doublePair, "T"⟩) hc 24 doubleCounts
  exact ⟨hc, hascending, hnone, hfirst, by decide +kernel⟩

/-! A single assignment that nothing competes with and that has no value. -/

/-- A rule of one assignment. -/
def lone : Rule :=
  ((Rule.ofAdditions "Lone" [.root { shape := .assignment "f" }]).toOption).get (by decide)

/-- The assignment has no value. -/
def loneCounts : Quantities := (Quantities.empty.record "f" 0).assign 0 0

/-- A limit of 0 does not stop the exact pass where no field competes: the one joint split, which assigns
nothing, is more than the limit allows and is tried all the same. -/
theorem exhaustive_lone :
    Contest lone (Std.ExtTreeMap.empty : Rivals).toList ∧
      View.exhaustive ⟨lone, "T"⟩ 0 (Std.ExtTreeMap.empty : Rivals).toList loneCounts =
        some (1, loneCounts) ∧
      ¬(View.exhaustive ⟨lone, "T"⟩ 0 (Std.ExtTreeMap.empty : Rivals).toList loneCounts = none ↔
        0 < min (jointSplits Std.ExtTreeMap.empty loneCounts) cap) := by
  have hlist : (Std.ExtTreeMap.empty : Rivals).toList = [] := rfl
  have hpass : View.exhaustive ⟨lone, "T"⟩ 0 (Std.ExtTreeMap.empty : Rivals).toList loneCounts =
      some (1, loneCounts) := by
    rw [exhaustive_eq]
    rfl
  have hsplits : 0 < min (jointSplits Std.ExtTreeMap.empty loneCounts) cap := by decide
  refine ⟨?_, hpass, fun h => ?_⟩
  · rw [hlist]
    exact ⟨by simp, by simp, by simp, by simp⟩
  · rw [hpass] at h
    exact absurd (h.2 hsplits) (by simp)

end RuleCardinality.View
