import RuleCardinality.Proofs.Rule.Order
import RuleCardinality.Proofs.Sums
import RuleCardinality.Quantities

/-!
# What a change of shares leaves alone

Every move of the search touches the shares of a few nodes. `Confined nodes q q'` says that `q'` comes
from `q` by changes to `nodes` alone: counts and other shares are the same, and no node loses its share
altogether. `sumOf_share_assign` says what one assignment does to a sum of shares.
-/

namespace RuleCardinality.Quantities

variable {q q' q'' : Quantities} {nodes : List Nat} {v n : Nat}

/-! ## Single assignments -/

theorem share?_assign_self (q : Quantities) (v n : Nat) : (q.assign v n).share? v = some n := by
  simp [share?_assign]

theorem share?_assign_ne {x : Nat} (hx : x ≠ v) : (q.assign v n).share? x = q.share? x := by
  rw [share?_assign, if_neg (Ne.symm hx)]

theorem share_of_share? {x : Nat} (hs : q.share? v = some x) : q.share v = x := by
  simp [share, hs]

theorem share_congr (hs : q'.share? v = q.share? v) : q'.share v = q.share v := by
  simp [share, hs]

theorem share?_eq_share (hs : (q.share? v).isSome) : q.share? v = some (q.share v) := by
  obtain ⟨n, hn⟩ := Option.isSome_iff_exists.1 hs
  rw [share_of_share? hn, hn]

theorem share_assign_self (q : Quantities) (v n : Nat) : (q.assign v n).share v = n :=
  share_of_share? (share?_assign_self q v n)

theorem share_assign_ne {x : Nat} (hx : x ≠ v) : (q.assign v n).share x = q.share x :=
  share_congr (share?_assign_ne hx)

/-- A state has finitely many shares, so one of them is the largest. -/
theorem exists_share_le (q : Quantities) : ∃ n, ∀ v, q.share v ≤ n := by
  refine ⟨sumOf Prod.snd q.shares.toList, fun v => ?_⟩
  cases hs : q.share? v with
  | none => simp [share, hs]
  | some n =>
    rw [share_of_share? hs]
    have hmem : (v, n) ∈ q.shares.toList := Std.ExtTreeMap.mem_toList_iff_getElem?_eq_some.2 hs
    exact le_sumOf (f := Prod.snd) hmem

theorem sumOf_share_assign (hn : nodes.Nodup) (hv : v ∈ nodes) :
    sumOf (q.assign v n).share nodes + q.share v = sumOf q.share nodes + n := by
  have := sumOf_update (f := q.share) (g := (q.assign v n).share) hn hv fun x _ hx =>
    share_assign_ne hx
  rwa [share_assign_self] at this

theorem count_congr (hc : q'.counts = q.counts) (field : String) : q'.count field = q.count field := by
  simp [count, count?, hc]

theorem count_record_ne {field other : String} (h : other ≠ field) :
    (q.record field n).count other = q.count other := by
  simp [count, count?_record, Ne.symm h]

/-! ## Confined changes -/

/-- At most the shares of `nodes` differ, and every node with a share still has one. -/
structure Confined (nodes : List Nat) (q q' : Quantities) : Prop where
  counts : q'.counts = q.counts
  outside : ∀ v, v ∉ nodes → q'.share? v = q.share? v
  keeps : ∀ v, (q.share? v).isSome → (q'.share? v).isSome

namespace Confined

theorem refl (nodes : List Nat) (q : Quantities) : Confined nodes q q :=
  ⟨rfl, fun _ _ => rfl, fun _ hv => hv⟩

theorem trans (a : Confined nodes q q') (b : Confined nodes q' q'') : Confined nodes q q'' :=
  ⟨b.counts.trans a.counts, fun v hv => (b.outside v hv).trans (a.outside v hv),
    fun v hv => b.keeps v (a.keeps v hv)⟩

theorem mono {more : List Nat} (hsub : ∀ v ∈ nodes, v ∈ more) (a : Confined nodes q q') :
    Confined more q q' :=
  ⟨a.counts, fun v hv => a.outside v fun hn => hv (hsub v hn), a.keeps⟩

theorem assign (hv : v ∈ nodes) (q : Quantities) (n : Nat) : Confined nodes q (q.assign v n) := by
  refine ⟨rfl, fun x hx => share?_assign_ne fun e => hx (e ▸ hv), fun x hx => ?_⟩
  rw [share?_assign]
  split
  · rfl
  · exact hx

theorem count_eq (a : Confined nodes q q') (field : String) : q'.count field = q.count field :=
  count_congr a.counts field

/-- Nodes apart from the changed ones keep the sum of their shares. -/
theorem sumOf_eq {others : List Nat} (a : Confined nodes q q') (hd : ∀ v ∈ others, v ∉ nodes) :
    sumOf q'.share others = sumOf q.share others :=
  sumOf_congr fun v hv => share_congr (a.outside v (hd v hv))

end Confined

/-! ## Assigning a list of shares -/

theorem confined_assignAll {shares : List (Nat × Nat)} (hsub : ∀ s ∈ shares, s.1 ∈ nodes) :
    Confined nodes q (q.assignAll shares) := by
  refine List.foldlRecOn (motive := fun q' => Confined nodes q q') _ _ (Confined.refl nodes q) ?_
  intro q' ih s hs
  exact ih.trans (.assign (hsub s hs) q' s.2)

theorem confined_assignAll_zip (q : Quantities) (nodes split : List Nat) :
    Confined nodes q (q.assignAll (nodes.zip split)) :=
  confined_assignAll fun _ hs => (List.of_mem_zip hs).1

/-- What a node has afterwards does not depend on what the nodes that get a share had before. -/
theorem share?_assignAll_congr {shares : List (Nat × Nat)}
    (h : v ∉ shares.map Prod.fst → q'.share? v = q.share? v) :
    (q'.assignAll shares).share? v = (q.assignAll shares).share? v := by
  induction shares generalizing q q' with
  | nil => exact h (by simp)
  | cons s shares ih =>
    refine ih fun hv => ?_
    rw [share?_assign, share?_assign]
    split
    · rfl
    · rename_i hne
      exact h (by simpa [Ne.symm hne] using hv)

/-- A list of shares given to distinct nodes is what they have afterwards. -/
theorem map_share?_assignAll_zip {split : List Nat} (hn : nodes.Nodup)
    (hl : split.length = nodes.length) :
    nodes.map (q.assignAll (nodes.zip split)).share? = split.map some := by
  induction nodes generalizing q split with
  | nil => simp_all
  | cons v vs ih =>
    obtain ⟨hv, hn⟩ := List.nodup_cons.1 hn
    cases split with
    | nil => simp at hl
    | cons x xs =>
      have hout := (confined_assignAll_zip (q.assign v x) vs xs).outside v hv
      simp only [List.zip_cons_cons, List.map_cons, List.cons.injEq]
      refine ⟨?_, ih hn (by simpa using hl)⟩
      exact hout.trans (share?_assign_self q v x)

theorem sumOf_share_assignAll_zip {split : List Nat} (hn : nodes.Nodup)
    (hl : split.length = nodes.length) :
    sumOf (q.assignAll (nodes.zip split)).share nodes = split.sum := by
  have hmap := congrArg (List.map (Option.getD · 0)) (map_share?_assignAll_zip (q := q) hn hl)
  rw [List.map_map, List.map_map] at hmap
  rw [sumOf_eq_sum]
  exact congrArg List.sum (hmap.trans (by simp [Function.comp_def]))

theorem isSome_share?_assignAll_zip {split : List Nat} (hn : nodes.Nodup)
    (hl : split.length = nodes.length) (hv : v ∈ nodes) :
    ((q.assignAll (nodes.zip split)).share? v).isSome := by
  have hmem : (q.assignAll (nodes.zip split)).share? v ∈ split.map some := by
    rw [← map_share?_assignAll_zip (q := q) hn hl]
    exact List.mem_map_of_mem hv
  obtain ⟨x, _, hx⟩ := List.mem_map.1 hmem
  simp [← hx]

/-- Giving all nodes the same share is giving them a list of shares. -/
theorem map_prod_eq_zip (nodes : List Nat) (n : Nat) :
    nodes.map (fun v => (v, n)) = nodes.zip (List.replicate nodes.length n) := by
  induction nodes with
  | nil => rfl
  | cons v nodes ih => simp [List.replicate_succ, ih]

/-- Giving nodes the shares that they have in another state makes the states agree there. -/
theorem share?_assignAll_zip_share (hn : nodes.Nodup) (hs : ∀ x ∈ nodes, (q'.share? x).isSome)
    (hv : v ∈ nodes) :
    (q.assignAll (nodes.zip (nodes.map q'.share))).share? v = q'.share? v := by
  have hmap : nodes.map (q.assignAll (nodes.zip (nodes.map q'.share))).share? =
      (nodes.map q'.share).map some := map_share?_assignAll_zip hn (by simp)
  rw [List.map_map] at hmap
  rw [List.map_inj_left.1 hmap v hv]
  exact (share?_eq_share (hs v hv)).symm

/-! ## Giving all nodes the same share -/

theorem share?_assignAll_map (q : Quantities) (nodes : List Nat) (n v : Nat) :
    (q.assignAll (nodes.map (·, n))).share? v = if v ∈ nodes then some n else q.share? v := by
  induction nodes generalizing q with
  | nil => rfl
  | cons x nodes ih =>
    refine (ih (q.assign x n)).trans ?_
    rw [share?_assign]
    by_cases hv : v ∈ nodes
    · simp [hv]
    · by_cases he : x = v <;> simp [hv, he, Ne.symm]

theorem assignAll_record (q : Quantities) (field : String) (n : Nat) (shares : List (Nat × Nat)) :
    (q.record field n).assignAll shares = (q.assignAll shares).record field n := by
  induction shares generalizing q with
  | nil => rfl
  | cons s shares ih => exact ih (q.assign s.1 s.2)

theorem counts_assignAll_map (q : Quantities) (nodes : List Nat) (n : Nat) :
    (q.assignAll (nodes.map (·, n))).counts = q.counts := by
  have hsub : ∀ s ∈ nodes.map (·, n), s.1 ∈ nodes := by
    intro s hs
    obtain ⟨v, hv, rfl⟩ := List.mem_map.1 hs
    exact hv
  exact (confined_assignAll hsub).counts

theorem assignAll_comm {others : List Nat} {m : Nat} (hd : ∀ v ∈ nodes, v ∉ others) :
    (q.assignAll (nodes.map (·, m))).assignAll (others.map (·, n)) =
      (q.assignAll (others.map (·, n))).assignAll (nodes.map (·, m)) := by
  ext v : 1
  · simp only [count?, counts_assignAll_map]
  · simp only [share?_assignAll_map]
    by_cases hv : v ∈ nodes
    · rw [if_neg (hd v hv), if_pos hv, if_pos hv]
    · rw [if_neg hv, if_neg hv]

/-! ## Reading a state over a rule -/

variable {r : Rule} {field : String}

theorem mem_assigned : v ∈ q.assigned r ↔ v < r.size ∧ (q.share? v).isSome := by
  simp [assigned, Rule.ids]

theorem mem_writers : v ∈ q.writers r field ↔ v ∈ q.assigned r ∧ r.field? v = some field := by
  simp [writers]

theorem mem_writers_of_share? (hs : (q.share? v).isSome) (hf : r.field? v = some field) :
    v ∈ q.writers r field :=
  mem_writers.2 ⟨mem_assigned.2 ⟨Rule.lt_size_of_field? hf, hs⟩, hf⟩

theorem nodup_assigned (q : Quantities) (r : Rule) : (q.assigned r).Nodup :=
  List.nodup_range.filter _

theorem nodup_writers (q : Quantities) (r : Rule) (field : String) : (q.writers r field).Nodup :=
  (nodup_assigned q r).filter _

theorem mem_fields : field ∈ q.fields r ↔ ∃ v, v ∈ q.writers r field := by
  rw [fields, mem_toList_ofList, List.mem_filterMap]
  simp only [mem_writers]

theorem fault?_eq_none_iff :
    q.fault? r = none ↔ ∀ field ∈ q.fields r, q.total r field = q.count field := by
  unfold fault?
  rw [List.findSome?_eq_none_iff]
  refine forall₂_congr fun field _ => ?_
  by_cases he : q.total r field = q.count field <;> simp [he]

/-! ## Changes among assigned nodes -/

section

variable (m : Confined nodes q q') (ha : ∀ v ∈ nodes, (q.share? v).isSome)

include m ha

theorem Confined.assigned_eq (r : Rule) : q'.assigned r = q.assigned r := by
  refine List.filter_congr fun v _ => ?_
  by_cases hv : v ∈ nodes
  · rw [ha v hv, m.keeps v (ha v hv)]
  · rw [m.outside v hv]

theorem Confined.writers_eq (r : Rule) (field : String) : q'.writers r field = q.writers r field := by
  unfold writers
  rw [m.assigned_eq ha r]

theorem Confined.fields_eq (r : Rule) : q'.fields r = q.fields r := by
  unfold fields
  rw [m.assigned_eq ha r]

/-- A change among some writers of a field that keeps their sum keeps the totals of all fields. -/
theorem Confined.total_eq (hn : nodes.Nodup) (hw : ∀ v ∈ nodes, r.field? v = some field)
    (hsum : sumOf q'.share nodes = sumOf q.share nodes) (other : String) :
    q'.total r other = q.total r other := by
  unfold total
  rw [m.writers_eq ha r other]
  by_cases he : other = field
  · subst he
    have hsub : ∀ v ∈ nodes, v ∈ q.writers r other := fun v hv =>
      mem_writers_of_share? (ha v hv) (hw v hv)
    have hrest : ∀ v ∈ (q.writers r other).filter fun v => !decide (v ∈ nodes), v ∉ nodes := by
      simp
    rw [sumOf_eq_add_filter_not_mem (nodup_writers q r other) hn hsub, hsum, m.sumOf_eq hrest,
      ← sumOf_eq_add_filter_not_mem (nodup_writers q r other) hn hsub]
  · refine m.sumOf_eq fun v hv hvn => he ?_
    exact Option.some.inj ((mem_writers.1 hv).2.symm.trans (hw v hvn))

theorem Confined.fault?_eq_none (hn : nodes.Nodup) (hw : ∀ v ∈ nodes, r.field? v = some field)
    (hsum : sumOf q'.share nodes = sumOf q.share nodes) (h : q.fault? r = none) :
    q'.fault? r = none := by
  rw [fault?_eq_none_iff] at h ⊢
  intro other hother
  rw [m.total_eq ha hn hw hsum, m.count_eq]
  exact h other (m.fields_eq ha r ▸ hother)

end

end RuleCardinality.Quantities
