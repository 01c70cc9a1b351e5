import RuleCardinality.Proofs.Validator.Targets

/-!
# The steps of a plan

A plan places the fields that are set in any order, since placing one field does not touch another
(`Plan.place_comm`), and then one implied field after the other (`plan_eq`). To give a field a count is to
record the count and to place the field; fields can be given their counts in any order as well
(`Plan.give_comm`). What depends on the order is which counts are implied.
-/

namespace RuleCardinality.Validator

open Quantities

variable {r : Rule} {w : View} {o : Object} {p : Plan} {f g : String × List Nat} {m n v : Nat}
  {field : String}

/-- Records the count of a field, shares stay as they are. -/
def Plan.record (p : Plan) (field : String) (n : Nat) : Plan :=
  { p with quantities := p.quantities.record field n }

/-- Records the count of a field and places it. -/
def Plan.give (p : Plan) (f : String × List Nat) (n : Nat) : Plan := (p.record f.1 n).place f.1 f.2

/-- Gives an unset field the count that it stands for. -/
def Plan.imply (w : View) (p : Plan) (f : String × List Nat) : Plan :=
  p.give f (impliedCount w p.quantities f.2)

/-- Places fields one after the other. -/
def Plan.placeAll (p : Plan) (fields : List (String × List Nat)) : Plan :=
  fields.foldl (fun p f => p.place f.1 f.2) p

/-- The plan of the fields that stand for nothing but their counts. -/
def begun (o : Object) (q : Quantities) (fields : List (String × List Nat)) : Plan :=
  Plan.placeAll ⟨q, ∅⟩ (fields.filter fun f => !implicit o q f.1)

theorem plan_eq (w : View) (o : Object) (q : Quantities) (fields : List (String × List Nat)) :
    plan w o q fields =
      (fields.filter fun f => implicit o q f.1).foldl (Plan.imply w) (begun o q fields) := by
  unfold plan
  rw [List.partition_eq_filter_filter]
  rfl

namespace Plan

theorem place_of_shared {nodes : List Nat} (h : 1 < nodes.length ∧ p.quantities.count field ≠ 0) :
    p.place field nodes = { p with rivals := p.rivals.insert field nodes } := by
  unfold place
  exact if_pos h

theorem place_of_not_shared {nodes : List Nat}
    (h : ¬ (1 < nodes.length ∧ p.quantities.count field ≠ 0)) :
    p.place field nodes =
      { p with quantities := p.quantities.assignAll (nodes.map (·, p.quantities.count field)) } := by
  unfold place
  exact if_neg h

theorem count_place (p : Plan) (f : String × List Nat) (field : String) :
    (p.place f.1 f.2).quantities.count field = p.quantities.count field := by
  by_cases hs : 1 < f.2.length ∧ p.quantities.count f.1 ≠ 0
  · rw [place_of_shared hs]
  · rw [place_of_not_shared hs]
    exact count_congr (counts_assignAll_map p.quantities f.2 _) field

theorem count_record_self (p : Plan) (field : String) (n : Nat) :
    (p.record field n).quantities.count field = n := by
  simp [record, count, count?_record]

theorem record_comm {other : String} (hne : field ≠ other) :
    (p.record field n).record other m = (p.record other m).record field n := by
  have hquantities : (p.quantities.record field n).record other m =
      (p.quantities.record other m).record field n := by
    ext g : 1
    · simp only [count?_record]
      by_cases he : other = g
      · rw [if_pos he, if_neg (he ▸ hne), if_pos he]
      · rw [if_neg he, if_neg he]
    · rfl
  exact congrArg (Plan.mk · p.rivals) hquantities

theorem place_record (hne : f.1 ≠ field) :
    (p.record field n).place f.1 f.2 = (p.place f.1 f.2).record field n := by
  have hcount : (p.record field n).quantities.count f.1 = p.quantities.count f.1 := count_record_ne hne
  by_cases hs : 1 < f.2.length ∧ p.quantities.count f.1 ≠ 0
  · rw [place_of_shared hs, place_of_shared (hcount ▸ hs)]
    rfl
  · rw [place_of_not_shared hs, place_of_not_shared (hcount ▸ hs), hcount]
    exact congrArg (Plan.mk · p.rivals) (assignAll_record p.quantities field n _)

theorem place_comm (hne : f.1 ≠ g.1) (hd : ∀ v ∈ f.2, v ∉ g.2) :
    (p.place f.1 f.2).place g.1 g.2 = (p.place g.1 g.2).place f.1 f.2 := by
  have hf : (1 < f.2.length ∧ (p.place g.1 g.2).quantities.count f.1 ≠ 0) ↔
      1 < f.2.length ∧ p.quantities.count f.1 ≠ 0 := by rw [count_place]
  have hg : (1 < g.2.length ∧ (p.place f.1 f.2).quantities.count g.1 ≠ 0) ↔
      1 < g.2.length ∧ p.quantities.count g.1 ≠ 0 := by rw [count_place]
  by_cases hsf : 1 < f.2.length ∧ p.quantities.count f.1 ≠ 0 <;>
    by_cases hsg : 1 < g.2.length ∧ p.quantities.count g.1 ≠ 0
  · rw [place_of_shared (hf.2 hsf), place_of_shared (hg.2 hsg), place_of_shared hsf, place_of_shared hsg]
    refine congrArg (Plan.mk p.quantities) (Std.ExtTreeMap.ext_getElem? fun x => ?_)
    simp only [Std.ExtTreeMap.getElem?_insert, Std.LawfulEqOrd.compare_eq_iff_eq]
    by_cases he : g.1 = x
    · rw [if_pos he, if_neg (he ▸ hne), if_pos he]
    · rw [if_neg he, if_neg he]
  · rw [place_of_shared (hf.2 hsf), place_of_not_shared (mt hg.1 hsg), place_of_shared hsf,
      place_of_not_shared hsg]
  · rw [place_of_not_shared (mt hf.1 hsf), place_of_shared (hg.2 hsg), place_of_not_shared hsf,
      place_of_shared hsg]
  · rw [place_of_not_shared (mt hf.1 hsf), place_of_not_shared (mt hg.1 hsg), count_place, count_place,
      place_of_not_shared hsf, place_of_not_shared hsg]
    exact congrArg (Plan.mk · p.rivals) (assignAll_comm hd)

/-- Fields can be given their counts in any order. -/
theorem give_comm (hne : f.1 ≠ g.1) (hd : ∀ v ∈ f.2, v ∉ g.2) :
    (p.give f m).give g n = (p.give g n).give f m := by
  unfold give
  rw [← place_record hne, ← place_record (Ne.symm hne), record_comm hne, place_comm hne hd]

/-! ## What is given -/

theorem share?_give (p : Plan) (f : String × List Nat) (n v : Nat) :
    (p.give f n).quantities.share? v =
      if v ∈ f.2 ∧ ¬ (1 < f.2.length ∧ n ≠ 0) then some n else p.quantities.share? v := by
  have hcount := count_record_self p f.1 n
  unfold give
  by_cases hs : 1 < f.2.length ∧ (p.record f.1 n).quantities.count f.1 ≠ 0
  · rw [place_of_shared hs, if_neg fun h => h.2 (hcount ▸ hs)]
    rfl
  · rw [place_of_not_shared hs, share?_assignAll_map, hcount]
    rw [hcount] at hs
    simp only [hs, not_false_eq_true, and_true]
    rfl

theorem rivals_give (p : Plan) (f : String × List Nat) (n : Nat) :
    (p.give f n).rivals =
      if 1 < f.2.length ∧ n ≠ 0 then p.rivals.insert f.1 f.2 else p.rivals := by
  have hcount := count_record_self p f.1 n
  unfold give
  by_cases hs : 1 < f.2.length ∧ (p.record f.1 n).quantities.count f.1 ≠ 0
  · rw [place_of_shared hs, if_pos (hcount ▸ hs)]
    rfl
  · rw [place_of_not_shared hs, if_neg (hcount ▸ hs)]
    rfl

theorem count_give (p : Plan) (f : String × List Nat) (n : Nat) :
    (p.give f n).quantities.count f.1 = n := by
  unfold give
  rw [count_place, count_record_self]

theorem count_give_ne (hne : field ≠ f.1) :
    (p.give f n).quantities.count field = p.quantities.count field := by
  unfold give
  rw [count_place]
  exact count_record_ne hne

/-- A field that competes goes on competing. -/
theorem rivals_of_give (h : (p.give f n).rivals = ∅) : ¬ (1 < f.2.length ∧ n ≠ 0) ∧ p.rivals = ∅ := by
  rw [rivals_give] at h
  split at h
  · have hmem : f.1 ∈ (∅ : View.Rivals) := h ▸ Std.ExtTreeMap.mem_insert_self
    exact absurd hmem Std.ExtTreeMap.not_mem_empty
  · rename_i hs
    exact ⟨hs, h⟩

theorem rivals_of_foldl_imply {fields : List (String × List Nat)}
    (h : (fields.foldl (imply w) p).rivals = ∅) : p.rivals = ∅ := by
  induction fields generalizing p with
  | nil => exact h
  | cons f fields ih => exact (rivals_of_give (ih h)).2

theorem count_foldl_imply {fields : List (String × List Nat)} (hne : ∀ f ∈ fields, field ≠ f.1) :
    (fields.foldl (imply w) p).quantities.count field = p.quantities.count field := by
  refine List.foldlRecOn (motive := fun p' : Plan => p'.quantities.count field = p.quantities.count field)
    fields (imply w) rfl fun p' ih f hf => ?_
  exact (count_give_ne (hne f hf)).trans ih

end Plan

/-! ## Placing what is set -/

theorem Plan.count_placeAll (p : Plan) (fields : List (String × List Nat)) (field : String) :
    (p.placeAll fields).quantities.count field = p.quantities.count field := by
  refine List.foldlRecOn (motive := fun p' : Plan => p'.quantities.count field = p.quantities.count field)
    fields _ rfl fun p' ih f _ => ?_
  exact (count_place p' f field).trans ih

theorem Plan.placeAll_record {fields : List (String × List Nat)} (hne : ∀ f ∈ fields, f.1 ≠ field) :
    (p.record field n).placeAll fields = (p.placeAll fields).record field n := by
  induction fields generalizing p with
  | nil => rfl
  | cons f fields ih =>
    unfold placeAll
    rw [List.foldl_cons, List.foldl_cons, place_record (hne f List.mem_cons_self)]
    exact ih fun g hg => hne g (List.mem_cons_of_mem f hg)

theorem Plan.placeAll_perm {fields others : List (String × List Nat)} (hc : Contest r fields)
    (hp : fields.Perm others) (p : Plan) : p.placeAll fields = p.placeAll others := by
  refine hp.foldl_eq' (fun f hf g hg p => ?_) p
  by_cases he : f = g
  · rw [he]
  · refine place_comm (fun hname => he ?_) fun v hvf hvg => he (hc.eq_of_mem hf hg hvf hvg)
    exact List.inj_on_of_nodup_map hc.distinct hf hg hname

/-! ## A field that is unset or set -/

variable {o' : Object} {q : Quantities} {before after : List (String × List Nat)}

/-- The plan of an unset field: it is implied between those that come before it and those that come after. -/
theorem plan_unset (w : View) (hf : implicit o q f.1 = true) :
    plan w o q (before ++ f :: after) =
      (after.filter fun g => implicit o q g.1).foldl (Plan.imply w)
        (((before.filter fun g => implicit o q g.1).foldl (Plan.imply w)
          (begun o q (before ++ after))).imply w f) := by
  have hbegun : begun o q (before ++ f :: after) = begun o q (before ++ after) := by
    unfold begun
    rw [List.filter_append, List.filter_append, List.filter_cons_of_neg (by simp [hf])]
  rw [plan_eq, hbegun, List.filter_append, List.foldl_append, List.filter_cons, if_pos hf, List.foldl_cons]

/-- The fields in the order in which a plan with the field unset comes to them. -/
theorem perm_unset (f : String × List Nat) (before after : List (String × List Nat))
    (hf : implicit o q f.1 = true) :
    ((before ++ after).filter (fun g => !implicit o q g.1) ++ before.filter (fun g => implicit o q g.1) ++
      [f] ++ after.filter fun g => implicit o q g.1).Perm (before ++ f :: after) := by
  have himplied : (before ++ f :: after).filter (fun g => implicit o q g.1) =
      before.filter (fun g => implicit o q g.1) ++ f :: after.filter fun g => implicit o q g.1 := by
    rw [List.filter_append, List.filter_cons, if_pos hf]
  have hplain : (before ++ f :: after).filter (fun g => !implicit o q g.1) =
      (before ++ after).filter fun g => !implicit o q g.1 := by
    rw [List.filter_append, List.filter_cons_of_neg (by simp [hf]), List.filter_append]
  have hparts := List.filter_append_perm (fun g => implicit o q g.1) (before ++ f :: after)
  rw [himplied, hplain] at hparts
  rw [List.append_assoc, List.append_assoc, List.singleton_append]
  exact List.perm_append_comm.trans hparts

/-- The plan of the same field once it is set: it has its count before the first field is implied. -/
theorem plan_set (w : View) (hc : Contest r (before ++ f :: after))
    (hf : implicit o' (q.record f.1 n) f.1 = false)
    (hsame : ∀ g, g ≠ f.1 → implicit o' (q.record f.1 n) g = implicit o q g) :
    plan w o' (q.record f.1 n) (before ++ f :: after) =
      (after.filter fun g => implicit o q g.1).foldl (Plan.imply w)
        ((before.filter fun g => implicit o q g.1).foldl (Plan.imply w)
          ((begun o q (before ++ after)).give f n)) := by
  have hothers : Contest r ((before ++ after) ++ [f]) :=
    hc.perm (List.perm_append_singleton f _ |>.trans List.perm_middle.symm)
  have hne : ∀ g ∈ before ++ after, g.1 ≠ f.1 := fun g hg => hothers.name_ne_last hg
  have hsame : ∀ g ∈ before ++ after, implicit o' (q.record f.1 n) g.1 = implicit o q g.1 :=
    fun g hg => hsame g.1 (hne g hg)
  have hbegun : begun o' (q.record f.1 n) (before ++ f :: after) =
      (begun o q (before ++ after)).give f n := by
    let plain := (before ++ after).filter fun g => !implicit o q g.1
    have hplain : ((before ++ f :: after).filter fun g => !implicit o' (q.record f.1 n) g.1).Perm
        (plain ++ [f]) := by
      refine (List.perm_middle.filter _).trans ?_
      rw [List.filter_cons_of_pos (by simp [hf]),
        List.filter_congr fun g hg => congrArg not (hsame g hg)]
      exact (List.perm_append_singleton f plain).symm
    calc begun o' (q.record f.1 n) (before ++ f :: after)
        = Plan.placeAll (Plan.record ⟨q, ∅⟩ f.1 n) (plain ++ [f]) :=
          Plan.placeAll_perm (hc.sublist List.filter_sublist) hplain _
      _ = (Plan.placeAll (Plan.record ⟨q, ∅⟩ f.1 n) plain).place f.1 f.2 := List.foldl_concat ..
      _ = (begun o q (before ++ after)).give f n := by
          rw [Plan.placeAll_record fun g hg => hne g (List.mem_filter.1 hg).1]
          rfl
  rw [plan_eq, hbegun, List.filter_append, List.filter_cons_of_neg (by simp [hf]), List.foldl_append,
    List.filter_congr fun g hg => hsame g (List.mem_append_left after hg),
    List.filter_congr fun g hg => hsame g (List.mem_append_right before hg)]

end RuleCardinality.Validator
