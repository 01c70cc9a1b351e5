import RuleCardinality.Config
import RuleCardinality.Proofs.Search.Transfer
import RuleCardinality.Proofs.Window
import RuleCardinality.Search.Step

/-!
# A step leads from joint split to joint split

A repair changes the share of one node by what its siblings gave or took, so it moves shares among the
nodes of one field and keeps their sum. This holds for every ticket drawn and for every damping. Which
node is repaired is said by `mem_candidates` and `exists_holder`: the tickets belong to the nodes outside
their windows, and every ticket belongs to one of them.
-/

namespace RuleCardinality.View

variable {σ : Type} {w : View} {q q' : Quantities} {nodes : List Nat} {v n : Nat} {damped : Nat → Nat}
  {c : Candidate} {cs : List Candidate}

/-- A damping repairs of every violation at least one unit and at most all of it. -/
def Damping (damped : Nat → Nat) : Prop := ∀ n, 0 < n → 1 ≤ damped n ∧ damped n ≤ n

theorem damping_damped (cfg : Config) : Damping cfg.damped := fun _ h => cfg.damped_bounds h

/-! ## Repairs -/

theorem repair_of_deficit {limits : Nat → Window} (hdeficit : 0 < (limits c.node).deficit (q.share c.node))
    (w : View) (damped : Nat → Nat) (ch : Chooser σ) (s : σ) :
    (w.repair damped ch limits c q s).1 =
      let wanted := damped ((limits c.node).deficit (q.share c.node))
      let t := (pull ch limits (c.field.filter (· != c.node)) q wanted s).1
      t.1.assign c.node (q.share c.node + (wanted - t.2)) := by
  unfold repair
  simp only [if_pos hdeficit]

theorem repair_of_excess {limits : Nat → Window} (hdeficit : (limits c.node).deficit (q.share c.node) = 0)
    (hexcess : 0 < (limits c.node).excess (q.share c.node)) (w : View) (damped : Nat → Nat)
    (ch : Chooser σ) (s : σ) :
    (w.repair damped ch limits c q s).1 =
      let wanted := damped ((limits c.node).excess (q.share c.node))
      let t := (push ch limits w.hardWindow (c.field.filter (· != c.node)) q wanted s).1
      t.1.assign c.node (q.share c.node - (wanted - t.2)) := by
  unfold repair
  simp only [hdeficit, Nat.lt_irrefl, if_false, if_pos hexcess]

/-- A node is given what its siblings have lost, or gives up what they have gained. -/
theorem confined_exchange (hn : nodes.Nodup) (hv : v ∈ nodes)
    (m : Quantities.Confined (nodes.filter (· != v)) q q')
    (hsum : n + sumOf q'.share (nodes.filter (· != v)) = sumOf q.share nodes) :
    Quantities.Confined nodes q (q'.assign v n) ∧
      sumOf (q'.assign v n).share nodes = sumOf q.share nodes := by
  refine ⟨(m.mono fun x hx => (List.mem_filter.1 hx).1).trans (.assign hv q' n), ?_⟩
  have hother : sumOf (q'.assign v n).share (nodes.filter (· != v)) =
      sumOf q'.share (nodes.filter (· != v)) := sumOf_congr fun x hx =>
    Quantities.share_assign_ne (by simpa using (List.mem_filter.1 hx).2)
  rw [sumOf_eq_add_filter hn hv, Quantities.share_assign_self, hother, hsum]

/-- Whatever is repaired, shares move among the nodes of one field. -/
theorem repair_spec (hd : Damping damped) (w : View) (ch : Chooser σ) (limits : Nat → Window)
    (hn : c.field.Nodup) (hc : c.node ∈ c.field) (q : Quantities) (s : σ) :
    Quantities.Confined c.field q (w.repair damped ch limits c q s).1 ∧
      sumOf (w.repair damped ch limits c q s).1.share c.field = sumOf q.share c.field := by
  have hsiblings : (c.field.filter (· != c.node)).Nodup := hn.filter _
  have hsplit := sumOf_eq_add_filter (f := q.share) hn hc
  by_cases hdeficit : 0 < (limits c.node).deficit (q.share c.node)
  · rw [repair_of_deficit hdeficit]
    simp only
    obtain ⟨hconfined, hkept, hle⟩ := drawn_pull ch limits hsiblings q
      (damped ((limits c.node).deficit (q.share c.node))) s
    simp only at hkept hle
    exact confined_exchange hn hc hconfined (by omega)
  have hnone : (limits c.node).deficit (q.share c.node) = 0 := Nat.eq_zero_of_not_pos hdeficit
  by_cases hexcess : 0 < (limits c.node).excess (q.share c.node)
  · rw [repair_of_excess hnone hexcess]
    simp only
    have hshare : damped ((limits c.node).excess (q.share c.node)) ≤ q.share c.node :=
      Nat.le_trans (hd _ hexcess).2 (Window.excess_le _ _)
    obtain ⟨hconfined, hkept, hle⟩ := poured_push ch limits w.hardWindow hsiblings q
      (damped ((limits c.node).excess (q.share c.node))) s
    simp only at hkept hle
    exact confined_exchange hn hc hconfined (by omega)
  · have hsame : (w.repair damped ch limits c q s).1 = q := by
      unfold repair
      simp only [if_neg hdeficit, if_neg hexcess]
    rw [hsame]
    exact ⟨.refl c.field q, rfl⟩

/-! ## Candidates -/

/-- The candidates are the nodes of the contested fields that are outside their windows. -/
theorem mem_candidates {rivals : List (String × List Nat)} :
    c ∈ candidates q (w.survey q rivals) ↔ ∃ f ∈ rivals, c.field = f.2 ∧ c.node ∈ f.2 ∧
      c.violation = (w.window q (some f.1) c.node).violation (q.share c.node) ∧ c.violation ≠ 0 := by
  unfold candidates survey
  simp only [List.mem_flatMap, List.mem_map, List.mem_filterMap]
  constructor
  · rintro ⟨_, ⟨f, hf, rfl⟩, _, hmem, hc⟩
    obtain ⟨v, hv, rfl⟩ := List.mem_map.1 hmem
    simp only [Option.ite_none_left_eq_some, Option.some.injEq] at hc
    obtain ⟨hviolation, rfl⟩ := hc
    exact ⟨f, hf, rfl, hv, rfl, hviolation⟩
  · rintro ⟨f, hf, hfield, hnode, hviolation, hne⟩
    refine ⟨_, ⟨f, hf, rfl⟩, _, List.mem_map.2 ⟨c.node, hnode, rfl⟩, ?_⟩
    simp only [← hviolation, ← hfield, if_neg hne]

theorem mem_holder {ticket : Nat} (h : holder cs ticket = some c) : c ∈ cs := by
  induction cs generalizing ticket with
  | nil => simp [holder] at h
  | cons c' cs ih =>
    unfold holder at h
    by_cases ht : ticket < c'.violation
    · rw [if_pos ht] at h
      simp [Option.some.inj h]
    · rw [if_neg ht] at h
      exact List.mem_cons_of_mem _ (ih h)

/-- Every ticket belongs to a candidate. -/
theorem exists_holder {ticket : Nat} (h : ticket < tickets cs) : ∃ c, holder cs ticket = some c := by
  induction cs generalizing ticket with
  | nil => exact absurd h (Nat.not_lt_zero ticket)
  | cons c cs ih =>
    unfold holder
    by_cases ht : ticket < c.violation
    · exact ⟨c, if_pos ht⟩
    · rw [if_neg ht]
      have hsum : tickets (c :: cs) = c.violation + tickets cs := rfl
      exact ih (by omega)

/-- There is no ticket if and only if every node is inside its window. -/
theorem tickets_eq_zero_iff {rivals : List (String × List Nat)} :
    tickets (candidates q (w.survey q rivals)) = 0 ↔
      ∀ f ∈ rivals, ∀ v ∈ f.2, (w.window q (some f.1) v).admits (q.share v) = true := by
  unfold tickets
  rw [sumOf_eq_zero_iff]
  constructor
  · intro hzero f hf v hv
    by_contra hout
    have hviolation : (w.window q (some f.1) v).violation (q.share v) ≠ 0 := by
      simpa [Window.admits] using hout
    exact hviolation (hzero ⟨v, f.2, _⟩ (mem_candidates.2 ⟨f, hf, rfl, hv, rfl, hviolation⟩))
  · intro hadmits c hc
    obtain ⟨f, hf, -, hnode, hviolation, -⟩ := mem_candidates.1 hc
    rw [hviolation]
    simpa [Window.admits] using hadmits f hf c.node hnode

/-! ## Steps -/

/-- What a step can do: nothing where there is no ticket, else repair the node that the ticket drawn
belongs to. -/
theorem step_cases (w : View) (damped : Nat → Nat) (ch : Chooser σ) (rivals : List (String × List Nat))
    (q : Quantities) (s : σ) :
    tickets (candidates q (w.survey q rivals)) = 0 ∧ w.step damped ch rivals q s = none ∨
      ∃ (h : 0 < tickets (candidates q (w.survey q rivals))) (c : Candidate),
        holder (candidates q (w.survey q rivals)) (ch.pick _ h s).1 = some c ∧
        w.step damped ch rivals q s =
          some (w.repair damped ch (limits (w.survey q rivals)) c q (ch.pick _ h s).2) := by
  by_cases h : 0 < tickets (candidates q (w.survey q rivals))
  · obtain ⟨c, hc⟩ := exists_holder (ch.pick _ h s).1.2
    refine .inr ⟨h, c, hc, ?_⟩
    unfold step
    simp only [dif_pos h, hc, Option.or, Option.map]
  · refine .inl ⟨Nat.eq_zero_of_not_pos h, ?_⟩
    unfold step
    simp only [dif_neg h]

theorem step_jointSplit {fields : List (String × List Nat)} {ch : Chooser σ} {s s' : σ}
    {start : Quantities} (hd : Damping damped) (hc : Contest w.rule fields)
    (hj : JointSplit fields start q) (h : w.step damped ch fields q s = some (q', s')) :
    JointSplit fields start q' := by
  rcases step_cases w damped ch fields q s with ⟨-, hnone⟩ | ⟨ht, c, hholder, hrepair⟩
  · rw [hnone] at h
    exact absurd h (by simp)
  · obtain ⟨f, hf, hfield, hnode, -⟩ := mem_candidates.1 (mem_holder hholder)
    have hspec := repair_spec hd w ch (limits (w.survey q fields)) (hfield ▸ hc.nodup f hf)
      (hfield ▸ hnode) q (ch.pick _ ht s).2
    rw [Option.some.inj (hrepair.symm.trans h)] at hspec
    obtain ⟨hconfined, hsum⟩ := hspec
    exact hj.move hc hf (hfield ▸ hconfined) (hfield ▸ hsum)

end RuleCardinality.View
