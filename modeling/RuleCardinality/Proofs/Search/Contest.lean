import Mathlib.Data.List.Nodup
import RuleCardinality.Proofs.Shares
import RuleCardinality.Search.Greedy
import RuleCardinality.Search.Splits

/-!
# Contests and joint splits

A `Contest` is a list of fields, each with the nodes that compete for its count. A `JointSplit` of a
state shares out the count of every contested field among its nodes and leaves everything else as it is.
It is the invariant of the search: the greedy split makes one, every step keeps one, and the exact pass
visits all of them. `Ready` is what a state must satisfy for a search to begin; from there on the shares
of every field add up in every joint split (`JointSplit.fault?_eq_none`).
-/

namespace RuleCardinality

open Quantities

/-- Fields with the nodes that compete for them: each field once, each node once and writing its field. -/
structure Contest (r : Rule) (fields : List (String × List Nat)) : Prop where
  distinct : (fields.map Prod.fst).Nodup
  nonempty : ∀ f ∈ fields, f.2 ≠ []
  nodup : ∀ f ∈ fields, f.2.Nodup
  writes : ∀ f ∈ fields, ∀ v ∈ f.2, r.field? v = some f.1

namespace Contest

variable {r : Rule} {f g : String × List Nat} {fields some : List (String × List Nat)} {v : Nat}

theorem sublist (h : Contest r fields) (hs : some.Sublist fields) : Contest r some where
  distinct := h.distinct.sublist (hs.map Prod.fst)
  nonempty f hf := h.nonempty f (hs.subset hf)
  nodup f hf := h.nodup f (hs.subset hf)
  writes f hf := h.writes f (hs.subset hf)

theorem perm (h : Contest r fields) (hp : some.Perm fields) : Contest r some where
  distinct := (hp.map Prod.fst).nodup_iff.2 h.distinct
  nonempty f hf := h.nonempty f (hp.subset hf)
  nodup f hf := h.nodup f (hp.subset hf)
  writes f hf := h.writes f (hp.subset hf)

theorem head (h : Contest r (f :: fields)) : f.2.Nodup := h.nodup f (by simp)

theorem tail (h : Contest r (f :: fields)) : Contest r fields := h.sublist (List.sublist_cons_self f fields)

/-- A node competes for one field only. -/
theorem eq_of_mem (h : Contest r fields) (hf : f ∈ fields) (hg : g ∈ fields) (hvf : v ∈ f.2)
    (hvg : v ∈ g.2) : f = g := by
  have hw : some f.1 = some g.1 := (h.writes f hf v hvf).symm.trans (h.writes g hg v hvg)
  exact List.inj_on_of_nodup_map h.distinct hf hg (Option.some.inj hw)

/-- Each node stands once. -/
theorem nodup_nodes (h : Contest r fields) : (fields.flatMap Prod.snd).Nodup := by
  refine List.nodup_flatMap.2 ⟨h.nodup, ?_⟩
  refine (List.pairwise_map.1 h.distinct).imp_of_mem fun {f g} hf hg hne v hvf hvg => hne ?_
  rw [h.eq_of_mem hf hg hvf hvg]

theorem not_mem_of_mem_head (h : Contest r (f :: fields)) (hg : g ∈ fields) (hv : v ∈ f.2) :
    v ∉ g.2 := by
  intro hvg
  have he : f = g := h.eq_of_mem (by simp) (by simp [hg]) hv hvg
  have hnot : f.1 ∉ fields.map Prod.fst := (List.nodup_cons.1 (by simpa using h.distinct)).1
  exact hnot (List.mem_map.2 ⟨g, hg, by rw [he]⟩)

theorem name_ne_last (h : Contest r (fields ++ [f])) (hg : g ∈ fields) : g.1 ≠ f.1 := by
  have hd := h.distinct
  rw [List.map_append, List.nodup_append] at hd
  exact hd.2.2 g.1 (List.mem_map_of_mem hg) f.1 (by simp)

theorem not_mem_last (h : Contest r (fields ++ [f])) (hg : g ∈ fields) (hv : v ∈ g.2) : v ∉ f.2 := by
  intro hvf
  have he : g = f := h.eq_of_mem (by simp [hg]) (by simp) hv hvf
  exact h.name_ne_last hg (by rw [he])

end Contest

/-- The counts of all contested fields shared out among their nodes, everything else as in `q`. -/
structure JointSplit (fields : List (String × List Nat)) (q q' : Quantities) : Prop where
  counts : q'.counts = q.counts
  outside : ∀ v, (∀ f ∈ fields, v ∉ f.2) → q'.share? v = q.share? v
  assigned : ∀ f ∈ fields, ∀ v ∈ f.2, (q'.share? v).isSome
  sums : ∀ f ∈ fields, sumOf q'.share f.2 = q.count f.1

namespace JointSplit

variable {r : Rule} {q q' q'' : Quantities} {f : String × List Nat} {fields : List (String × List Nat)}

theorem count_eq (h : JointSplit fields q q') (field : String) : q'.count field = q.count field :=
  count_congr h.counts field

/-- All competing nodes are assigned. -/
theorem mem_assigned (h : JointSplit fields q q') (hc : Contest r fields) :
    ∀ v ∈ fields.flatMap Prod.snd, v ∈ q'.assigned r := by
  intro v hv
  obtain ⟨f, hf, hvf⟩ := List.mem_flatMap.1 hv
  exact Quantities.mem_assigned.2 ⟨Rule.lt_size_of_field? (hc.writes f hf v hvf), h.assigned f hf v hvf⟩

theorem nil_iff : JointSplit [] q q' ↔ q' = q := by
  constructor
  · intro h
    apply Quantities.ext
    · intro field
      simp [count?, h.counts]
    · exact fun v => h.outside v (by simp)
  · rintro rfl
    exact ⟨rfl, fun _ _ => rfl, by simp, by simp⟩

/-- A split of the first field followed by a joint split of the others is a joint split of all. -/
theorem cons (hc : Contest r (f :: fields)) (first : Confined f.2 q q')
    (assigned : ∀ v ∈ f.2, (q'.share? v).isSome) (sum : sumOf q'.share f.2 = q.count f.1)
    (rest : JointSplit fields q' q'') : JointSplit (f :: fields) q q'' := by
  have keep : ∀ v ∈ f.2, q''.share? v = q'.share? v := fun v hv =>
    rest.outside v fun g hg => hc.not_mem_of_mem_head hg hv
  refine ⟨rest.counts.trans first.counts, fun v hv => ?_, ?_, ?_⟩
  · rw [rest.outside v fun g hg => hv g (by simp [hg])]
    exact first.outside v (hv f (by simp))
  · intro g hg v hv
    rcases List.mem_cons.1 hg with rfl | hg
    · rw [keep v hv]
      exact assigned v hv
    · exact rest.assigned g hg v hv
  · intro g hg
    rcases List.mem_cons.1 hg with rfl | hg
    · rw [← sum]
      exact sumOf_congr fun v hv => share_congr (keep v hv)
    · rw [rest.sums g hg]
      exact first.count_eq g.1

/-- Once the first field's nodes have their shares, the other fields are left to be split. -/
theorem uncons (hc : Contest r (f :: fields)) (h : JointSplit (f :: fields) q q') :
    JointSplit fields (q.assignAll (f.2.zip (f.2.map q'.share))) q' := by
  have ha := confined_assignAll_zip q f.2 (f.2.map q'.share)
  refine ⟨h.counts.trans ha.counts.symm, fun v hv => ?_, fun g hg => h.assigned g (by simp [hg]),
    fun g hg => ?_⟩
  · by_cases hvf : v ∈ f.2
    · exact (share?_assignAll_zip_share hc.head (h.assigned f (by simp)) hvf).symm
    · rw [ha.outside v hvf]
      refine h.outside v fun g hg => ?_
      rcases List.mem_cons.1 hg with rfl | hg
      · exact hvf
      · exact hv g hg
  · rw [ha.count_eq]
    exact h.sums g (by simp [hg])

/-- A move among the nodes of one field that keeps their sum leads from joint split to joint split. -/
theorem move (hc : Contest r fields) (h : JointSplit fields q q') (hf : f ∈ fields)
    (m : Confined f.2 q' q'') (sum : sumOf q''.share f.2 = sumOf q'.share f.2) :
    JointSplit fields q q'' := by
  refine ⟨m.counts.trans h.counts, fun v hv => ?_, fun g hg v hv => ?_, fun g hg => ?_⟩
  · rw [m.outside v (hv f hf)]
    exact h.outside v hv
  · exact m.keeps v (h.assigned g hg v hv)
  · by_cases he : g = f
    · subst he
      rw [sum]
      exact h.sums g hg
    · rw [← h.sums g hg]
      exact m.sumOf_eq fun v hvg hvf => he (hc.eq_of_mem hg hf hvg hvf)

end JointSplit

/-! ## States that a search can begin with -/

namespace View

variable {w : View} {rivals : Rivals} {q q' : Quantities}

/-- What a search relies on: distinct nodes compete for each contested field, which write it; no node
that writes a contested field has a share yet; and the shares of all other fields add up. -/
structure Ready (w : View) (rivals : Rivals) (q : Quantities) : Prop where
  nonempty : ∀ {field : String} {nodes : List Nat}, rivals[field]? = some nodes → nodes ≠ []
  nodup : ∀ {field : String} {nodes : List Nat}, rivals[field]? = some nodes → nodes.Nodup
  writes : ∀ {field : String} {nodes : List Nat}, rivals[field]? = some nodes →
    ∀ v ∈ nodes, w.rule.field? v = some field
  fresh : ∀ {field : String}, field ∈ rivals → ∀ v, w.rule.field? v = some field → q.share? v = none
  settled : ∀ {field : String}, field ∉ rivals → field ∈ q.fields w.rule →
    q.total w.rule field = q.count field

/-- The number of joint splits of the contested fields, where the splits of each field are counted by
`splitCount`. -/
def jointSplits (rivals : Rivals) (q : Quantities) : Nat :=
  (rivals.toList.map fun f => splitCount (q.count f.1) f.2.length).prod

theorem mem_rivals {f : String × List Nat} : f ∈ rivals.toList ↔ rivals[f.1]? = some f.2 :=
  Std.ExtTreeMap.mem_toList_iff_getElem?_eq_some

theorem mem_rivals_iff_exists {field : String} :
    field ∈ rivals ↔ ∃ f ∈ rivals.toList, f.1 = field := by
  rw [Std.ExtTreeMap.mem_iff_isSome_getElem?, Option.isSome_iff_exists]
  constructor
  · rintro ⟨nodes, h⟩
    exact ⟨(field, nodes), mem_rivals.2 h, rfl⟩
  · rintro ⟨f, hf, rfl⟩
    exact ⟨f.2, mem_rivals.1 hf⟩

theorem nodup_rivals (rivals : Rivals) : (rivals.toList.map Prod.fst).Nodup := by
  refine List.Pairwise.map _ ?_ Std.ExtTreeMap.distinct_keys_toList
  intro f g hfg he
  exact hfg (he ▸ Std.ReflCmp.compare_self)

theorem Ready.contest (h : w.Ready rivals q) : Contest w.rule rivals.toList where
  distinct := nodup_rivals rivals
  nonempty _ hf := h.nonempty (mem_rivals.1 hf)
  nodup _ hf := h.nodup (mem_rivals.1 hf)
  writes _ hf := h.writes (mem_rivals.1 hf)

/-- The nodes that write a contested field in a joint split are the ones that compete for it. -/
theorem Ready.writers_perm (h : w.Ready rivals q) (s : JointSplit rivals.toList q q')
    {f : String × List Nat} (hf : f ∈ rivals.toList) : (q'.writers w.rule f.1).Perm f.2 := by
  refine (List.perm_ext_iff_of_nodup (nodup_writers _ _ _) (h.contest.nodup f hf)).2 fun v => ?_
  constructor
  · intro hv
    obtain ⟨ha, hw⟩ := mem_writers.1 hv
    by_contra hn
    have hout : q'.share? v = q.share? v := s.outside v fun g hg hvg => by
      have hfg : some f.1 = some g.1 := hw.symm.trans (h.contest.writes g hg v hvg)
      exact hn (List.inj_on_of_nodup_map h.contest.distinct hf hg (Option.some.inj hfg) ▸ hvg)
    have hnone : q.share? v = none := h.fresh (mem_rivals_iff_exists.2 ⟨f, hf, rfl⟩) v hw
    have hsome := (mem_assigned.1 ha).2
    rw [hout, hnone] at hsome
    exact absurd hsome (by simp)
  · intro hv
    exact mem_writers_of_share? (s.assigned f hf v hv) (h.contest.writes f hf v hv)

/-- A field that is not contested keeps its nodes and their shares. -/
theorem Ready.writers_eq (h : w.Ready rivals q) (s : JointSplit rivals.toList q q') {field : String}
    (hn : field ∉ rivals) : q'.writers w.rule field = q.writers w.rule field ∧
      ∀ v, w.rule.field? v = some field → q'.share? v = q.share? v := by
  have same : ∀ v, w.rule.field? v = some field → q'.share? v = q.share? v := fun v hv =>
    s.outside v fun g hg hvg => by
      have he : some field = some g.1 := hv.symm.trans (h.contest.writes g hg v hvg)
      exact hn (mem_rivals_iff_exists.2 ⟨g, hg, (Option.some.inj he).symm⟩)
  refine ⟨?_, same⟩
  unfold writers assigned
  rw [List.filter_filter, List.filter_filter]
  refine List.filter_congr fun v _ => ?_
  by_cases hv : w.rule.field? v = some field
  · rw [same v hv]
  · have hb : (w.rule.field? v == some field) = false := by simpa using hv
    rw [hb, Bool.false_and, Bool.false_and]

/-- In a joint split the shares of every field add up to its count. -/
theorem Ready.total_eq (h : w.Ready rivals q) (s : JointSplit rivals.toList q q') {field : String}
    (hf : field ∈ q'.fields w.rule) : q'.total w.rule field = q'.count field := by
  rw [s.count_eq field]
  by_cases hr : field ∈ rivals
  · obtain ⟨f, hm, rfl⟩ := mem_rivals_iff_exists.1 hr
    unfold total
    rw [sumOf_perm (h.writers_perm s hm)]
    exact s.sums f hm
  · obtain ⟨hw, hs⟩ := h.writers_eq s hr
    have hq : field ∈ q.fields w.rule := by
      obtain ⟨v, hv⟩ := mem_fields.1 hf
      exact mem_fields.2 ⟨v, hw ▸ hv⟩
    rw [← h.settled hr hq]
    unfold total
    rw [hw]
    exact sumOf_congr fun v hv => share_congr (hs v (mem_writers.1 hv).2)

/-- In a joint split no node holds more than the largest count. -/
theorem Ready.share_le (h : w.Ready rivals q) (s : JointSplit rivals.toList q q')
    (hown : ∀ v, (q.share? v).isSome → (w.rule.field? v).isSome) {n : Nat}
    (hn : ∀ field, q.count field ≤ n) (v : Nat) : q'.share v ≤ n := by
  by_cases hs : (q'.share? v).isSome
  · have hw : (w.rule.field? v).isSome := by
      by_cases hv : ∃ f ∈ rivals.toList, v ∈ f.2
      · obtain ⟨f, hf, hvf⟩ := hv
        simp [h.contest.writes f hf v hvf]
      · refine hown v ?_
        rwa [← s.outside v fun f hf hvf => hv ⟨f, hf, hvf⟩]
    obtain ⟨field, hfield⟩ := Option.isSome_iff_exists.1 hw
    have hmem : v ∈ q'.writers w.rule field := mem_writers_of_share? hs hfield
    calc q'.share v ≤ q'.total w.rule field := le_sumOf hmem
      _ = q'.count field := h.total_eq s (mem_fields.2 ⟨v, hmem⟩)
      _ = q.count field := s.count_eq field
      _ ≤ n := hn field
  · rw [Option.not_isSome_iff_eq_none] at hs
    simp [share, hs]

theorem Ready.fault?_eq_none (h : w.Ready rivals q) (s : JointSplit rivals.toList q q') :
    q'.fault? w.rule = none :=
  fault?_eq_none_iff.2 fun _ hf => h.total_eq s hf

end View

end RuleCardinality
