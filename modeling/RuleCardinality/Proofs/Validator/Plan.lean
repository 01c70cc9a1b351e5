import RuleCardinality.Proofs.Validator.Steps

/-!
# Plans leave a state that a search can begin with

A plan settles the fields of one node and the fields that are not set, and leaves the others to the
search. `Plan.Sound` is what holds after some fields have been placed; it follows for all fields by one
lemma per placed field, and then the plan of every object is `Ready` (`ready_planned`).
-/

namespace RuleCardinality.Validator

open Quantities

variable {r : Rule} {w : View} {o : Object} {done : List (String × List Nat)} {f : String × List Nat}
  {p : Plan} {n : Nat}

/-- What holds once the fields `done` have been placed: contested fields are among them, shares belong
to the others, which have one node or no count, and these shares add up. -/
structure Plan.Sound (done : List (String × List Nat)) (p : Plan) : Prop where
  rivals : ∀ {field : String} {nodes : List Nat}, p.rivals[field]? = some nodes → (field, nodes) ∈ done
  owned : ∀ {v : Nat}, (p.quantities.share? v).isSome → ∃ f ∈ done, v ∈ f.2 ∧ f.1 ∉ p.rivals
  assigned : ∀ f ∈ done, f.1 ∉ p.rivals → ∀ v ∈ f.2, (p.quantities.share? v).isSome
  few : ∀ f ∈ done, f.1 ∉ p.rivals → f.2.length ≤ 1 ∨ p.quantities.count f.1 = 0
  sums : ∀ f ∈ done, f.1 ∉ p.rivals → sumOf p.quantities.share f.2 = p.quantities.count f.1

namespace Plan.Sound

theorem empty {q : Quantities} (hq : ∀ v, q.share? v = none) : Plan.Sound [] ⟨q, ∅⟩ where
  rivals h := by simp at h
  owned h := by simp [hq] at h
  assigned _ hf := by simp at hf
  few _ hf := by simp at hf
  sums _ hf := by simp at hf

theorem mem_rivals (h : Plan.Sound done p) {field : String} (hf : field ∈ p.rivals) :
    ∃ g ∈ done, g.1 = field := by
  obtain ⟨nodes, hn⟩ := Option.isSome_iff_exists.1 (Std.ExtTreeMap.mem_iff_isSome_getElem?.1 hf)
  exact ⟨(field, nodes), h.rivals hn, rfl⟩

theorem fresh (hc : Contest r (done ++ [f])) (hs : Plan.Sound done p) (hv : v ∈ f.2) :
    p.quantities.share? v = none := by
  by_contra hne
  obtain ⟨g, hg, hvg, -⟩ := hs.owned (Option.isSome_iff_ne_none.2 hne)
  exact hc.not_mem_last hg hvg hv

/-- To change the count of a field that is not placed yet does no harm. -/
theorem record (hc : Contest r (done ++ [f])) (h : Plan.Sound done p) (n : Nat) :
    Plan.Sound done { p with quantities := p.quantities.record f.1 n } where
  rivals := h.rivals
  owned := h.owned
  assigned := h.assigned
  few g hg hr := by
    rw [count_record_ne (hc.name_ne_last hg)]
    exact h.few g hg hr
  sums g hg hr := by
    rw [count_record_ne (hc.name_ne_last hg)]
    exact h.sums g hg hr

theorem mem_done_of_not_mem_insert {g : String × List Nat} (hg : g ∈ done ++ [f])
    (hr : g.1 ∉ p.rivals.insert f.1 f.2) : g ∈ done ∧ g.1 ∉ p.rivals := by
  rw [Std.ExtTreeMap.mem_insert, not_or] at hr
  rcases List.mem_append.1 hg with hg | hg
  · exact ⟨hg, hr.2⟩
  · obtain rfl : g = f := by simpa using hg
    exact absurd Std.ReflCmp.compare_self hr.1

/-- A field that is left to the search. -/
theorem contest (hc : Contest r (done ++ [f])) (h : Plan.Sound done p) :
    Plan.Sound (done ++ [f]) { p with rivals := p.rivals.insert f.1 f.2 } where
  rivals {field nodes} hn := by
    rw [Std.ExtTreeMap.getElem?_insert] at hn
    split at hn
    · rename_i he
      rw [← Std.LawfulEqOrd.eq_of_compare he, ← Option.some.inj hn]
      simp
    · simp [h.rivals hn]
  owned {v} hv := by
    obtain ⟨g, hg, hvg, hr⟩ := h.owned hv
    refine ⟨g, by simp [hg], hvg, ?_⟩
    rw [Std.ExtTreeMap.mem_insert, not_or]
    exact ⟨fun he => hc.name_ne_last hg (Std.LawfulEqOrd.eq_of_compare he).symm, hr⟩
  assigned g hg hr := by
    obtain ⟨hg, hr⟩ := mem_done_of_not_mem_insert hg hr
    exact h.assigned g hg hr
  few g hg hr := by
    obtain ⟨hg, hr⟩ := mem_done_of_not_mem_insert hg hr
    exact h.few g hg hr
  sums g hg hr := by
    obtain ⟨hg, hr⟩ := mem_done_of_not_mem_insert hg hr
    exact h.sums g hg hr

/-- A field whose count goes to each of its nodes: there is one node, or nothing to give. -/
theorem assign (hc : Contest r (done ++ [f])) (h : Plan.Sound done p)
    (hn : n = p.quantities.count f.1) (hfew : f.2.length ≤ 1 ∨ n = 0) :
    Plan.Sound (done ++ [f])
      { p with quantities := p.quantities.assignAll (f.2.map fun v => (v, n)) } := by
  have hnew : f.1 ∉ p.rivals := fun hr => by
    obtain ⟨g, hg, he⟩ := h.mem_rivals hr
    exact hc.name_ne_last hg he
  have hnodes : f.2.Nodup := hc.nodup f (by simp)
  have hlen : (List.replicate f.2.length n).length = f.2.length := List.length_replicate
  have hconf := confined_assignAll_zip p.quantities f.2 (List.replicate f.2.length n)
  rw [map_prod_eq_zip]
  refine ⟨fun hr => by simp [h.rivals hr], fun {v} hv => ?_, fun g hg hr v hv => ?_, fun g hg hr => ?_,
    fun g hg hr => ?_⟩
  · by_cases hvf : v ∈ f.2
    · exact ⟨f, by simp, hvf, hnew⟩
    · rw [hconf.outside v hvf] at hv
      obtain ⟨g, hg, hvg⟩ := h.owned hv
      exact ⟨g, by simp [hg], hvg⟩
  · rcases List.mem_append.1 hg with hg | hg
    · exact hconf.keeps v (h.assigned g hg hr v hv)
    · obtain rfl : g = f := by simpa using hg
      exact isSome_share?_assignAll_zip hnodes hlen hv
  · rw [hconf.count_eq]
    rcases List.mem_append.1 hg with hg | hg
    · exact h.few g hg hr
    · obtain rfl : g = f := by simpa using hg
      exact hn ▸ hfew
  · rw [hconf.count_eq]
    rcases List.mem_append.1 hg with hg | hg
    · rw [hconf.sumOf_eq fun v hv => hc.not_mem_last hg hv]
      exact h.sums g hg hr
    · obtain rfl : g = f := by simpa using hg
      rw [sumOf_share_assignAll_zip hnodes hlen, List.sum_replicate_nat, ← hn]
      have hpos : 0 < g.2.length := List.length_pos_iff.2 (hc.nonempty g (by simp))
      -- One node takes the whole count; several nodes take it each only if it is zero.
      rcases hfew with hone | hzero
      · rw [show g.2.length = 1 by omega, Nat.one_mul]
      · rw [hzero, Nat.mul_zero]

theorem place (hc : Contest r (done ++ [f])) (h : Plan.Sound done p) :
    Plan.Sound (done ++ [f]) (p.place f.1 f.2) := by
  by_cases hmany : 1 < f.2.length ∧ p.quantities.count f.1 ≠ 0
  · rw [Plan.place_of_shared hmany]
    exact h.contest hc
  · rw [Plan.place_of_not_shared hmany]
    exact h.assign hc rfl (by omega)

theorem imply (w : View) (hc : Contest r (done ++ [f])) (h : Plan.Sound done p) :
    Plan.Sound (done ++ [f]) (p.imply w f) :=
  (h.record hc (impliedCount w p.quantities f.2)).place hc

/-- What one step does for the next field, any number of steps do for the next fields. -/
theorem foldl {step : Plan → String × List Nat → Plan}
    (hstep : ∀ {done f p}, Contest r (done ++ [f]) → Plan.Sound done p →
      Plan.Sound (done ++ [f]) (step p f)) {fields : List (String × List Nat)}
    (hc : Contest r (done ++ fields)) (h : Plan.Sound done p) :
    Plan.Sound (done ++ fields) (fields.foldl step p) := by
  induction fields generalizing done p with
  | nil => simpa using h
  | cons f fields ih =>
    rw [show done ++ f :: fields = (done ++ [f]) ++ fields by simp] at hc ⊢
    exact ih hc (hstep (hc.sublist (List.sublist_append_left _ _)) h)

/-- What is placed soundly can be left to the search. -/
theorem ready (hc : Contest w.rule done) (h : Plan.Sound done p) : w.Ready p.rivals p.quantities where
  nonempty hn := hc.nonempty _ (h.rivals hn)
  nodup hn := hc.nodup _ (h.rivals hn)
  writes hn := hc.writes _ (h.rivals hn)
  fresh {field} hr v hv := by
    rw [← Option.not_isSome_iff_eq_none]
    intro hs
    obtain ⟨g, hg, hvg, hn⟩ := h.owned hs
    have he : some field = some g.1 := hv.symm.trans (hc.writes g hg v hvg)
    exact hn (Option.some.inj he ▸ hr)
  settled {field} hr hf := by
    obtain ⟨v, hv⟩ := mem_fields.1 hf
    obtain ⟨ha, hw⟩ := mem_writers.1 hv
    obtain ⟨g, hg, hvg, hn⟩ := h.owned (mem_assigned.1 ha).2
    obtain rfl : field = g.1 := Option.some.inj (hw.symm.trans (hc.writes g hg v hvg))
    have hperm : (p.quantities.writers w.rule g.1).Perm g.2 := by
      refine (List.perm_ext_iff_of_nodup (nodup_writers _ _ _) (hc.nodup g hg)).2 fun x => ?_
      constructor
      · intro hx
        obtain ⟨hxa, hxw⟩ := mem_writers.1 hx
        obtain ⟨k, hk, hxk, _⟩ := h.owned (mem_assigned.1 hxa).2
        have he : some g.1 = some k.1 := hxw.symm.trans (hc.writes k hk x hxk)
        rw [List.inj_on_of_nodup_map hc.distinct hg hk (Option.some.inj he)]
        exact hxk
      · intro hx
        exact mem_writers_of_share? (h.assigned g hg hn x hx) (hc.writes g hg x hx)
    unfold total
    rw [sumOf_perm hperm]
    exact h.sums g hg hn

end Plan.Sound

/-! ## Counts -/

theorem impliedCount_le_one (w : View) (q : Quantities) (nodes : List Nat) :
    impliedCount w q nodes ≤ 1 := by
  unfold impliedCount
  split
  · exact Nat.le_refl 1
  · exact Nat.zero_le 1

theorem count_record_le {q : Quantities} (hq : ∀ field, q.count field ≤ n) (field : String) {m : Nat}
    (hm : m ≤ n) (other : String) : (q.record field m).count other ≤ n := by
  by_cases he : other = field
  · simpa [count, count?_record, he] using hm
  · rw [count_record_ne he]
    exact hq other

/-- A plan changes no count but that of an unset field of the implied kind, which it may raise to one. -/
theorem count_plan (w : View) (o : Object) (q : Quantities) (fields : List (String × List Nat))
    (field : String) :
    (plan w o q fields).quantities.count field = q.count field ∨
      implicit o q field = true ∧ (plan w o q fields).quantities.count field = 1 := by
  rw [plan_eq]
  refine List.foldlRecOn (motive := fun p : Plan => p.quantities.count field = q.count field ∨
      implicit o q field = true ∧ p.quantities.count field = 1) _ _
    (.inl (Plan.count_placeAll _ _ field)) fun p ih f hf => ?_
  by_cases he : field = f.1
  · have himplicit : implicit o q field = true := he ▸ (List.mem_filter.1 hf).2
    have hcount : (p.imply w f).quantities.count field = impliedCount w p.quantities f.2 :=
      he ▸ Plan.count_give p f _
    have hzero : q.count field = 0 := by
      unfold implicit at himplicit
      simpa using (Bool.and_eq_true_iff.1 himplicit).1
    rw [hcount, hzero]
    rcases Nat.le_one_iff_eq_zero_or_eq_one.1 (impliedCount_le_one w p.quantities f.2) with h | h
    · exact .inl h
    · exact .inr ⟨himplicit, h⟩
  · rw [Plan.imply, Plan.count_give_ne he]
    exact ih

theorem count_plan_le (w : View) (o : Object) {q : Quantities} (fields : List (String × List Nat))
    (hn : 1 ≤ n) (hq : ∀ field, q.count field ≤ n) (field : String) :
    (plan w o q fields).quantities.count field ≤ n := by
  rcases count_plan w o q fields field with h | ⟨-, h⟩
  · rw [h]
    exact hq field
  · rw [h]
    exact hn

theorem share?_counted (counter : Counter) (o : Object) (v : Nat) :
    (counted counter o).share? v = none :=
  List.foldlRecOn (motive := fun q : Quantities => q.share? v = none) o.features _
    (by simp [Quantities.empty, share?]) fun _ ih _ _ => ih

theorem count?_counted (counter : Counter) (o : Object) (field : String) :
    (counted counter o).count? field =
      if field ∈ o.features.map Feature.name then some (counter.count o field) else none := by
  have hfold : ∀ (fs : List Feature) (q : Quantities),
      (fs.foldl (fun q f => q.record f.name (counter.count o f.name)) q).count? field =
        if field ∈ fs.map Feature.name then some (counter.count o field) else q.count? field := by
    intro fs
    induction fs with
    | nil => exact fun _ => rfl
    | cons f fs ih =>
      intro q
      rw [List.foldl_cons, ih, count?_record, List.map_cons]
      by_cases hmem : field ∈ fs.map Feature.name
      · rw [if_pos hmem, if_pos (List.mem_cons_of_mem _ hmem)]
      · by_cases he : f.name = field
        · rw [if_neg hmem, if_pos he, if_pos (by simp [he]), he]
        · rw [if_neg hmem, if_neg he, if_neg (by simp [hmem, Ne.symm he])]
  rw [counted, hfold]
  rfl

theorem count_counted {f : Feature} (hf : f ∈ o.features) (counter : Counter) :
    (counted counter o).count f.name = counter.count o f.name := by
  unfold count
  rw [count?_counted, if_pos (List.mem_map_of_mem hf)]
  rfl

theorem count_counted_le {counter : Counter} (ho : ∀ f ∈ o.features, counter.count o f.name ≤ n)
    (field : String) : (counted counter o).count field ≤ n :=
  List.foldlRecOn (motive := fun q : Quantities => ∀ field, q.count field ≤ n) o.features _
    (fun _ => by simp [Quantities.empty, count, count?])
    (fun _ ih f hf field => count_record_le ih f.name (ho f hf) field) field

/-! ## The plan of an object -/

theorem sound_begun {fields : List (String × List Nat)} (hq : ∀ v, q.share? v = none)
    (hc : Contest r (fields.filter fun f => !implicit o q f.1)) :
    Plan.Sound (fields.filter fun f => !implicit o q f.1) (begun o q fields) := by
  have hplain : Contest r ([] ++ fields.filter fun f => !implicit o q f.1) := hc
  exact Plan.Sound.foldl (fun hc hs => hs.place hc) hplain (.empty hq)

theorem sound_plan (w : View) (o : Object) {q : Quantities} (hq : ∀ v, q.share? v = none)
    {fields : List (String × List Nat)} (hc : Contest w.rule fields) :
    ∃ placed, placed.Perm fields ∧ Contest w.rule placed ∧ Plan.Sound placed (plan w o q fields) := by
  let implied := fields.filter fun f => implicit o q f.1
  let plain := fields.filter fun f => !implicit o q f.1
  have hperm : (plain ++ implied).Perm fields :=
    List.perm_append_comm.trans (List.filter_append_perm (fun f => implicit o q f.1) fields)
  have hall : Contest w.rule (plain ++ implied) := hc.perm hperm
  refine ⟨plain ++ implied, hperm, hall, ?_⟩
  rw [plan_eq]
  exact Plan.Sound.foldl (fun hc h => h.imply w hc) hall
    (sound_begun hq (hall.sublist (List.sublist_append_left _ _)))

/-- The plan of an examination whose first stages find nothing. -/
def planned (V : Validator) (o : Object) (r : Rule) : Plan :=
  let w : View := ⟨r, o.type⟩
  plan w o (counted V.counter o) (assignable o w.targets)

theorem sound_planned (V : Validator) (o : Object) (r : Rule) :
    ∃ placed, placed.Perm (assignable o (View.targets ⟨r, o.type⟩)) ∧ Contest r placed ∧
      Plan.Sound placed (V.planned o r) :=
  sound_plan ⟨r, o.type⟩ o (share?_counted V.counter o) (contest_assignable o ⟨r, o.type⟩)

/-- The plan of every object is one that a search can begin with. -/
theorem ready_planned (V : Validator) (o : Object) (r : Rule) :
    View.Ready ⟨r, o.type⟩ (V.planned o r).rivals (V.planned o r).quantities := by
  obtain ⟨placed, _, hc, hsound⟩ := sound_planned V o r
  exact hsound.ready (w := ⟨r, o.type⟩) hc

/-- Only reached assignments have shares in a plan. -/
theorem mem_targets_of_share?_planned (V : Validator) (o : Object) (r : Rule) {v : Nat}
    (hv : ((V.planned o r).quantities.share? v).isSome) :
    ∃ field, (field, v) ∈ View.targets ⟨r, o.type⟩ := by
  obtain ⟨placed, hperm, _, hsound⟩ := sound_planned V o r
  obtain ⟨f, hf, hvf, _⟩ := hsound.owned hv
  exact ⟨f.1, mem_targets_of_assignable (hperm.mem_iff.1 hf) hvf⟩

theorem field?_of_share?_planned (V : Validator) (o : Object) (r : Rule) {v : Nat}
    (hv : ((V.planned o r).quantities.share? v).isSome) : (r.field? v).isSome := by
  obtain ⟨field, ht⟩ := mem_targets_of_share?_planned V o r hv
  simp [(View.mem_targets.1 ht).2]

theorem count_planned_le {V : Validator} (ho : ∀ f ∈ o.features, V.counter.count o f.name ≤ n)
    (hn : 1 ≤ n) (r : Rule) (field : String) : (V.planned o r).quantities.count field ≤ n :=
  count_plan_le _ o _ hn (count_counted_le ho) field

end RuleCardinality.Validator
