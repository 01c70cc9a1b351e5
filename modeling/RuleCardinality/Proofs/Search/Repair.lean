import RuleCardinality.Proofs.Search.Solve

/-!
# A step moves a share towards its window

A step that is taken repairs the node to which the ticket drawn belongs. What it lacks of its minimum
comes from its siblings, as far as they have it; what it has over its maximum goes to them, if it has
any. Since at most the violation is moved, the share never passes the end of the window that it violates,
and since at least one unit is wanted, it moves wherever a sibling can give or take (`Repairs`). No step
is taken where every competing node is inside its window (`step_repairs`).
-/

namespace RuleCardinality.View

variable {σ : Type} {w : View} {q q' : Quantities} {nodes : List Nat} {v : Nat} {damped : Nat → Nat}
  {c : Candidate} {fields : List (String × List Nat)} {f : String × List Nat}

/-! ## The repaired share -/

/-- The share of a node moves towards the end of its window that it violates, at the cost of the other
`nodes`, and it does move where they can bear the cost. -/
structure Repairs (window : Window) (nodes : List Nat) (v : Nat) (q q' : Quantities) : Prop where
  confined : Quantities.Confined nodes q q'
  sum : sumOf q'.share nodes = sumOf q.share nodes
  raised : .finite (q.share v) < window.min →
    q.share v ≤ q'.share v ∧ .finite (q'.share v) ≤ window.min ∧
      ((∃ x ∈ nodes, x ≠ v ∧ 0 < q.share x) → q'.share v ≠ q.share v)
  lowered : ¬ .finite (q.share v) < window.min →
    window.max ≤ .finite (q'.share v) ∧ q'.share v ≤ q.share v ∧
      ((∃ x ∈ nodes, x ≠ v) → q'.share v ≠ q.share v)

theorem share_repair_of_deficit {limits : Nat → Window} (hn : c.field.Nodup)
    (hdeficit : 0 < (limits c.node).deficit (q.share c.node)) (w : View) (damped : Nat → Nat)
    (ch : Chooser σ) (s : σ) :
    (w.repair damped ch limits c q s).1.share c.node = q.share c.node +
      min (damped ((limits c.node).deficit (q.share c.node)))
        (sumOf q.share (c.field.filter (· != c.node))) := by
  rw [repair_of_deficit hdeficit]
  simp only
  rw [Quantities.share_assign_self, missing_pull ch limits (hn.filter _)]
  omega

theorem share_repair_of_excess {limits : Nat → Window}
    (hdeficit : (limits c.node).deficit (q.share c.node) = 0)
    (hexcess : 0 < (limits c.node).excess (q.share c.node)) (w : View) (damped : Nat → Nat)
    (ch : Chooser σ) (s : σ) :
    (w.repair damped ch limits c q s).1.share c.node = q.share c.node -
      if c.field.filter (· != c.node) = [] then 0
      else damped ((limits c.node).excess (q.share c.node)) := by
  rw [repair_of_excess hdeficit hexcess]
  simp only
  rw [Quantities.share_assign_self, missing_push]
  split
  · rw [Nat.sub_self]
  · rw [Nat.sub_zero]

theorem repairs_repair (hd : Damping damped) (w : View) (limits : Nat → Window) (hn : c.field.Nodup)
    (hc : c.node ∈ c.field) (hmin : (limits c.node).min ≠ .unbounded)
    (hout : (limits c.node).admits (q.share c.node) = false) (ch : Chooser σ) (s : σ) :
    Repairs (limits c.node) c.field c.node q (w.repair damped ch limits c q s).1 := by
  obtain ⟨hconfined, hsum⟩ := repair_spec hd w ch limits hn hc q s
  refine ⟨hconfined, hsum, fun hlt => ?_, fun hle => ?_⟩
  · have hdeficit := (Window.deficit_pos_iff_lt hmin).2 hlt
    obtain ⟨hone, hall⟩ := hd _ hdeficit
    have hshare := share_repair_of_deficit hn hdeficit w damped ch s
    refine ⟨by omega, ?_, ?_⟩
    · rw [hshare]
      exact Window.add_le_min hdeficit (Nat.le_trans (Nat.min_le_left _ _) hall)
    · -- The damped deficit is taken or all that the siblings have, and one of them has something.
      rintro ⟨x, hx, hne, hpos⟩
      have hsibling : x ∈ c.field.filter (· != c.node) := List.mem_filter.2 ⟨hx, by simpa using hne⟩
      have := le_sumOf (f := q.share) hsibling
      omega
  · have hdeficit : (limits c.node).deficit (q.share c.node) = 0 :=
      Nat.eq_zero_of_not_pos fun h => hle ((Window.deficit_pos_iff_lt hmin).1 h)
    have hexcess : 0 < (limits c.node).excess (q.share c.node) := by
      refine Nat.pos_of_ne_zero fun h => ?_
      rw [Window.admits_iff.2 ⟨hdeficit, h⟩] at hout
      cases hout
    obtain ⟨hone, hall⟩ := hd _ hexcess
    have hshare := share_repair_of_excess hdeficit hexcess w damped ch s
    refine ⟨?_, by omega, ?_⟩
    · rw [hshare]
      exact Window.max_le_sub hexcess (by split <;> omega)
    · -- All of the damped excess is placed, and the share is at least as large.
      rintro ⟨x, hx, hne⟩
      have hsibling : x ∈ c.field.filter (· != c.node) := List.mem_filter.2 ⟨hx, by simpa using hne⟩
      rw [if_neg (List.ne_nil_of_mem hsibling)] at hshare
      have := Window.excess_le (limits c.node) (q.share c.node)
      omega

/-! ## States that a step can be taken from -/

/-- What a step relies on: the nodes of each contested field are distinct, write the field and have
shares, and the shares of every field add up. -/
structure Poised (w : View) (fields : List (String × List Nat)) (q : Quantities) : Prop where
  nodup : ∀ f ∈ fields, f.2.Nodup
  writes : ∀ f ∈ fields, ∀ v ∈ f.2, w.rule.field? v = some f.1
  assigned : ∀ f ∈ fields, ∀ v ∈ f.2, (q.share? v).isSome
  even : q.fault? w.rule = none

/-- Every state that a search comes to is one that a step can be taken from. -/
theorem Ready.poised {rivals : Rivals} (h : w.Ready rivals q) (hj : JointSplit rivals.toList q q') :
    w.Poised rivals.toList q' where
  nodup := h.contest.nodup
  writes := h.contest.writes
  assigned := hj.assigned
  even := h.fault?_eq_none hj

theorem mem_survey {window : Window} :
    (v, window) ∈ (w.survey q fields).flatMap Prod.snd ↔
      ∃ f ∈ fields, v ∈ f.2 ∧ w.window q (some f.1) v = window := by
  unfold survey
  simp only [List.mem_flatMap, List.mem_map]
  constructor
  · rintro ⟨_, ⟨f, hf, rfl⟩, hmem⟩
    obtain ⟨x, hx, he⟩ := List.mem_map.1 hmem
    obtain ⟨rfl, rfl⟩ := Prod.mk.inj he
    exact ⟨f, hf, hx, rfl⟩
  · rintro ⟨f, hf, hv, rfl⟩
    exact ⟨_, ⟨f, hf, rfl⟩, List.mem_map.2 ⟨v, hv, rfl⟩⟩

/-- A node that stands under no field but its own has one window in a survey. -/
theorem Poised.limits_survey (h : w.Poised fields q) (hf : f ∈ fields) (hv : v ∈ f.2) :
    limits (w.survey q fields) v = w.window q (some f.1) v := by
  have hmem : (v, w.window q (some f.1) v) ∈ ((w.survey q fields).flatMap Prod.snd).reverse :=
    List.mem_reverse.2 (mem_survey.2 ⟨f, hf, hv, rfl⟩)
  unfold limits
  cases hlookup : ((w.survey q fields).flatMap Prod.snd).reverse.lookup v with
  | none =>
    have := List.lookup_eq_none_iff.1 hlookup _ hmem
    simp at this
  | some window =>
    obtain ⟨before, after, heq, -⟩ := List.lookup_eq_some_iff.1 hlookup
    have hfound : (v, window) ∈ ((w.survey q fields).flatMap Prod.snd).reverse := heq ▸ by simp
    obtain ⟨g, hg, hvg, rfl⟩ := mem_survey.1 (List.mem_reverse.1 hfound)
    have hsame : some g.1 = some f.1 := (h.writes g hg v hvg).symm.trans (h.writes f hf v hv)
    rw [Option.getD_some, hsame]

/-- A step is taken if and only if a competing node is outside its window. A step repairs the node to
which the ticket drawn belongs, as its window was before the step, and the shares of every field still add
up after it. This holds for every chooser and for every damping. -/
theorem step_repairs (hd : Damping damped) (h : w.Poised fields q) (ch : Chooser σ) (s : σ) :
    (w.step damped ch fields q s = none ↔
      ∀ f ∈ fields, ∀ v ∈ f.2, (w.window q (some f.1) v).admits (q.share v) = true) ∧
    ∀ q' s', w.step damped ch fields q s = some (q', s') →
      q'.fault? w.rule = none ∧
      ∃ (ht : 0 < tickets (candidates q (w.survey q fields))) (c : Candidate),
        holder (candidates q (w.survey q fields)) (ch.pick _ ht s).1 = some c ∧
        ∃ f ∈ fields, c.field = f.2 ∧ c.node ∈ f.2 ∧
          (w.window q (some f.1) c.node).admits (q.share c.node) = false ∧
          Repairs (w.window q (some f.1) c.node) f.2 c.node q q' := by
  rw [← tickets_eq_zero_iff]
  rcases step_cases w damped ch fields q s with ⟨hzero, hnone⟩ | ⟨ht, c, hholder, hrepair⟩
  · rw [hnone]
    exact ⟨iff_of_true rfl hzero, fun _ _ hsome => absurd hsome (by simp)⟩
  · rw [hrepair]
    refine ⟨iff_of_false (by simp) (Nat.pos_iff_ne_zero.1 ht), fun q' s' hsome => ?_⟩
    obtain ⟨f, hf, hfield, hnode, hviolation, hne⟩ := mem_candidates.1 (mem_holder hholder)
    -- The windows that the transfer goes by are the ones that made the node a candidate.
    have hwindow := h.limits_survey hf hnode
    have hout : (w.window q (some f.1) c.node).admits (q.share c.node) = false := by
      simpa [Window.admits, ← hviolation] using hne
    have hrepairs : Repairs (limits (w.survey q fields) c.node) c.field c.node q q' := by
      have := repairs_repair hd w (limits (w.survey q fields)) (hfield ▸ h.nodup f hf)
        (hfield ▸ hnode) (hwindow ▸ minCount_ne_unbounded w q c.node) (hwindow ▸ hout) ch
        (ch.pick _ ht s).2
      rwa [Option.some.inj hsome] at this
    rw [hwindow, hfield] at hrepairs
    exact ⟨hrepairs.confined.fault?_eq_none (h.assigned f hf) (h.nodup f hf) (h.writes f hf)
      hrepairs.sum h.even, ht, c, hholder, f, hf, hfield, hnode, hout, hrepairs⟩

/-! Of two assignments in an optional group one is to be set four times and the other never. -/

/-- All values of the field are with the first assignment. -/
def lopsided : Quantities := ((Quantities.empty.record "f" 4).assign 1 4).assign 2 0

/-- Half of a violation, rounded up. -/
def half (n : Nat) : Nat := (n + 1) / 2

theorem damping_half : Damping half := by
  intro n hn
  unfold half
  omega

theorem poised_pair : View.Poised ⟨optionalPair, "T"⟩ [("f", [1, 2])] lopsided := by
  refine ⟨?_, ?_, ?_, by decide +kernel⟩ <;> decide +kernel

theorem step_repairs_pair :
    Damping half ∧ View.Poised ⟨optionalPair, "T"⟩ [("f", [1, 2])] lopsided ∧
      ∃ q', View.step ⟨optionalPair, "T"⟩ half firstChoice [("f", [1, 2])] lopsided () =
          some (q', ()) ∧
        q'.share 1 = 2 ∧ q'.share 2 = 2 ∧ q'.fault? optionalPair = none ∧
        ∃ c : Candidate, ∃ f ∈ [("f", [1, 2])], c.field = f.2 ∧ c.node ∈ f.2 ∧
          Repairs (View.window ⟨optionalPair, "T"⟩ lopsided (some f.1) c.node) f.2 c.node lopsided q' := by
  obtain ⟨hnone, hsome⟩ := step_repairs damping_half poised_pair firstChoice ()
  have hshares : ((View.step ⟨optionalPair, "T"⟩ half firstChoice [("f", [1, 2])] lopsided ()).map
      fun p => (p.1.share 1, p.1.share 2)) = some (2, 2) := by decide +kernel
  obtain ⟨⟨q', _⟩, hstep, hshare⟩ := Option.map_eq_some_iff.1 hshares
  obtain ⟨hfault, -, c, -, f, hf, hfield, hnode, -, hrepairs⟩ := hsome q' () hstep
  obtain ⟨hfirst, hsecond⟩ := Prod.mk.inj hshare
  exact ⟨damping_half, poised_pair, q', hstep, hfirst, hsecond, hfault, c, f, hf, hfield, hnode,
    hrepairs⟩

end RuleCardinality.View
