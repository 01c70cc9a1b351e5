import RuleCardinality.Proofs.Rule.Document
import RuleCardinality.Proofs.Search.Step
import RuleCardinality.Proofs.View.Child

/-!
# Sums of violations that fit a word

What a node demands is made of the shares and the actions below it: a group demands no more than its busiest
child, an alternative as much as all its branches together, and no two children have a node in common. So no
minimum is larger than all shares and all actions together, or one (`minCount_le_bound`). A violation is at
most a minimum and a share, hence the violations of all assigned nodes, and those of all candidates of a
step, add up to a number that is known beforehand. Where that number fits a word, neither sum overflows on
the way (`sum_violations_fits`).
-/

namespace RuleCardinality

/-- The actions of a rule. -/
def Rule.actions (r : Rule) : List Nat := r.ids.filter fun v => r.shape v == .action

/-- What all shares of the nodes of a rule add up to. -/
def Quantities.held (q : Quantities) (r : Rule) : Nat := sumOf q.share (q.assigned r)

/-- A sum of words, one after the other; nothing if one of the sums on the way is too large for a word. -/
def wordSum? (xs : List Nat) : Option Nat :=
  xs.foldlM (fun sum x => if sum + x < 2 ^ 64 then some (sum + x) else none) 0

theorem wordSum?_eq {xs : List Nat} (h : xs.sum < 2 ^ 64) : wordSum? xs = some xs.sum := by
  have hfold : ∀ sum, sum + xs.sum < 2 ^ 64 →
      xs.foldlM (fun sum x => if sum + x < 2 ^ 64 then some (sum + x) else none) sum =
        some (sum + xs.sum) := by
    clear h
    induction xs with
    | nil => exact fun sum _ => rfl
    | cons x xs ih =>
      intro sum h
      rw [List.sum_cons, ← Nat.add_assoc] at h ⊢
      rw [List.foldlM_cons, if_pos (by omega)]
      exact ih (sum + x) h
  simpa [wordSum?] using hfold 0 (by simpa using h)

namespace View

variable {w : View} {q : Quantities} {v n : Nat} {rivals : List (String × List Nat)}

/-! ## What demands are made of -/

/-- What a node adds to the demands above it: its share, and one firing if it is an action. -/
def weight (w : View) (q : Quantities) (v : Nat) : Nat :=
  q.share v + if w.rule.shape v == .action then 1 else 0

/-- The largest minimum that there can be: all shares and all actions, and one at least. -/
def bound (w : View) (q : Quantities) : Nat := max 1 (q.held w.rule + w.rule.actions.length)

theorem sumOf_weight_ids (w : View) (q : Quantities) :
    sumOf (w.weight q) w.rule.ids = q.held w.rule + w.rule.actions.length := by
  have hheld : q.held w.rule = sumOf q.share w.rule.ids := sumOf_filter fun v _ hv => by
    have hnone : q.share? v = none := by simpa using hv
    simp [Quantities.share, hnone]
  have hactions : w.rule.actions.length =
      sumOf (fun v => if w.rule.shape v == .action then 1 else 0) w.rule.ids :=
    length_filter_eq_sumOf _ _
  rw [hheld, hactions, ← sumOf_add]
  rfl

theorem sumOf_weight_children (w : View) (q : Quantities) (v : Nat) :
    sumOf (fun c => sumOf (w.weight q) (w.rule.subtree c)) (w.rule.children v) ≤
      sumOf (w.weight q) (w.rule.subtree v) := by
  rw [Rule.subtree_eq, sumOf_cons, sumOf_flatMap]
  exact Nat.le_add_left _ _

/-- A demand is made of the weights of the node and of all nodes below it. -/
theorem demand_le_weight (w : View) (q : Quantities) (v : Nat) :
    w.demand q v ≤ .finite (sumOf (w.weight q) (w.rule.subtree v)) := by
  induction v using Rule.induction_down (r := w.rule) with
  | step v ih =>
    have hown : w.weight q v ≤ sumOf (w.weight q) (w.rule.subtree v) := by
      rw [Rule.subtree_eq, sumOf_cons]
      exact Nat.le_add_right _ _
    have hbelow := sumOf_weight_children w q v
    cases hb : w.blocked v with
    | true =>
      rw [demand_eq, if_pos hb]
      exact Count.zero_le_finite
    | false =>
      refine le_trans (demand_le_load hb) ?_
      cases hs : w.rule.shape v with
      | assignment field =>
        have hload : w.load q v = q.shareCount v := by
          unfold load
          rw [hs]
        have hshare : q.share v ≤ w.weight q v := Nat.le_add_right _ _
        rw [hload]
        unfold Quantities.shareCount
        cases hq : q.share? v with
        | none => exact Count.undefined_le _
        | some m =>
          rw [Quantities.share_of_share? hq] at hshare
          exact Count.finite_le_finite.2 (Nat.le_trans hshare hown)
      | group =>
        refine load_group_le hs fun c hc => le_trans (ih c hc) (Count.finite_le_finite.2 ?_)
        exact Nat.le_trans (le_sumOf (f := fun c => sumOf (w.weight q) (w.rule.subtree c)) hc) hbelow
      | alternative =>
        unfold load
        rw [hs]
        refine le_trans (Count.foldl_plus_le (m := 0) (Count.undefined_le _) ih) ?_
        exact Count.finite_le_finite.2 (by omega)
      | action =>
        have hone : 1 ≤ w.weight q v := by
          unfold weight
          simp [hs]
        unfold load
        rw [hs]
        exact Count.finite_le_finite.2 (Nat.le_trans hone hown)

/-! ## Minimums -/

theorem demand_le_bound (w : View) (q : Quantities) (v : Nat) : w.demand q v ≤ .finite (w.bound q) := by
  by_cases hv : v ∈ w.rule.ids
  · have hsub : ∀ x ∈ w.rule.subtree v, x ∈ w.rule.ids := by
      intro x hx
      rcases Rule.mem_line_iff.1 (Rule.mem_subtree_iff.1 hx) with rfl | ⟨p, hp, -⟩
      · exact hv
      · exact List.mem_range.2 (Rule.container_lt_size hp)
    have hle : sumOf (w.weight q) (w.rule.subtree v) ≤ sumOf (w.weight q) w.rule.ids :=
      sumOf_le_of_subset List.nodup_range (Rule.nodup_subtree w.rule v) hsub
    rw [sumOf_weight_ids] at hle
    exact le_trans (demand_le_weight w q v) (Count.finite_le_finite.2 (Nat.le_trans hle (Nat.le_max_right 1 _)))
  · -- A number that no node has stands for an action, which is demanded once at most.
    have hs : w.rule.shape v = .action := by
      by_contra hs
      exact hv (Rule.mem_ids_of_shape_ne hs)
    rw [demand_eq, hs]
    split
    · exact Count.zero_le_finite
    · exact Count.finite_le_finite.2 (Nat.le_max_left 1 _)

/-- A minimum is a number, and no larger than all shares and all actions together, or one. -/
theorem minCount_le_bound (w : View) (q : Quantities) (v : Nat) :
    ∃ m, w.minCount q v = .finite m ∧ m ≤ w.bound q := by
  have hle : w.minCount q v ≤ .finite (w.bound q) :=
    minCount_le (Nat.le_max_left 1 _) (demand_le_bound w q) v
  have hzero : 0 ≤ w.minCount q v := zero_le_minCount v
  cases hm : w.minCount q v with
  | undefined =>
    rw [hm] at hzero
    exact absurd hzero Count.not_finite_le_undefined
  | finite m => exact ⟨m, rfl, Count.finite_le_finite.1 (hm ▸ hle)⟩
  | unbounded =>
    rw [hm] at hle
    exact absurd hle Count.not_unbounded_le_finite

/-! ## Sums of violations -/

theorem violation_le_bound (w : View) (q : Quantities) (exclude : Option String) (v : Nat) :
    (w.window q exclude v).violation (q.share v) ≤ w.bound q + q.share v := by
  obtain ⟨m, hm, hle⟩ := minCount_le_bound w q v
  have hmin : (w.window q exclude v).min ≤ .finite (w.bound q) :=
    le_trans (le_of_eq hm) (Count.finite_le_finite.2 hle)
  exact Window.violation_le hmin (q.share v)

/-- The largest sum of violations that there can be. -/
def most (w : View) (q : Quantities) : Nat :=
  (q.assigned w.rule).length * w.bound q + q.held w.rule

/-- The violations of distinct assigned nodes, whichever field is excluded at each. -/
theorem sumOf_violation_le {nodes : List Nat} (hn : nodes.Nodup)
    (ha : ∀ v ∈ nodes, v ∈ q.assigned w.rule) {f : Nat → Nat}
    (hf : ∀ v ∈ nodes, f v ≤ w.bound q + q.share v) : sumOf f nodes ≤ w.most q :=
  calc sumOf f nodes ≤ sumOf (fun v => w.bound q + q.share v) nodes := sumOf_le_sumOf hf
    _ ≤ sumOf (fun v => w.bound q + q.share v) (q.assigned w.rule) :=
        sumOf_le_of_subset (Quantities.nodup_assigned q w.rule) hn ha
    _ = w.most q := by rw [sumOf_add, sumOf_const]; rfl

theorem quality_le_most (w : View) (q : Quantities) : w.quality q ≤ w.most q :=
  sumOf_violation_le (Quantities.nodup_assigned q w.rule) (fun _ hv => hv)
    fun v _ => violation_le_bound w q _ v

/-- The tickets are the violations of all competing nodes; those inside their windows add none. -/
theorem tickets_candidates (w : View) (q : Quantities) (rivals : List (String × List Nat)) :
    tickets (candidates q (w.survey q rivals)) =
      sumOf (fun f => sumOf (fun v => (w.window q (some f.1) v).violation (q.share v)) f.2) rivals := by
  unfold tickets candidates survey
  rw [sumOf_flatMap, sumOf_map]
  refine sumOf_congr fun f _ => ?_
  rw [sumOf_filterMap, sumOf_map]
  refine sumOf_congr fun v _ => ?_
  by_cases hzero : (w.window q (some f.1) v).violation (q.share v) = 0
  · simp [hzero]
  · simp [hzero]

theorem tickets_le_most (hn : (rivals.flatMap Prod.snd).Nodup)
    (ha : ∀ v ∈ rivals.flatMap Prod.snd, v ∈ q.assigned w.rule) :
    tickets (candidates q (w.survey q rivals)) ≤ w.most q :=
  calc tickets (candidates q (w.survey q rivals))
      = sumOf (fun f => sumOf (fun v => (w.window q (some f.1) v).violation (q.share v)) f.2) rivals :=
        tickets_candidates w q rivals
    _ ≤ sumOf (fun f => sumOf (fun v => w.bound q + q.share v) f.2) rivals :=
        sumOf_le_sumOf fun f _ => sumOf_le_sumOf fun v _ => violation_le_bound w q (some f.1) v
    _ = sumOf (fun v => w.bound q + q.share v) (rivals.flatMap Prod.snd) := (sumOf_flatMap _ _ _).symm
    _ ≤ w.most q := sumOf_violation_le hn ha fun _ _ => Nat.le_refl _

/-- Minimums are numbers, no larger than all shares and all actions together, or one, and maximums are known.
So the violations of all assigned nodes add up to no more than that number for each of them and all shares.
Where this fits a word, so do all sums on the way to the quality and to the tickets of a step, in which each
competing node is assigned and stands once. That is so in every joint split of a contest, hence at every
step of a search. -/
theorem sum_violations_fits (w : View) (q : Quantities) :
    let bound := max 1 (q.held w.rule + w.rule.actions.length)
    let most := (q.assigned w.rule).length * bound + q.held w.rule
    (∀ v, ∃ m, w.minCount q v = .finite m ∧ m ≤ bound) ∧
      (∀ exclude v, w.maxCount q exclude v ≠ .undefined) ∧
      w.quality q ≤ most ∧
      (most < 2 ^ 64 →
        wordSum? ((q.assigned w.rule).map fun v => (w.ownWindow q v).violation (q.share v)) =
            some (w.quality q) ∧
          ∀ rivals : List (String × List Nat), (rivals.flatMap Prod.snd).Nodup →
            (∀ v ∈ rivals.flatMap Prod.snd, v ∈ q.assigned w.rule) →
            wordSum? ((candidates q (w.survey q rivals)).map Candidate.violation) =
              some (tickets (candidates q (w.survey q rivals)))) ∧
      ∀ rivals start, Contest w.rule rivals → JointSplit rivals start q →
        (rivals.flatMap Prod.snd).Nodup ∧ ∀ v ∈ rivals.flatMap Prod.snd, v ∈ q.assigned w.rule := by
  intro bound most
  refine ⟨minCount_le_bound w q, fun exclude v hm => ?_, quality_le_most w q,
    fun hfits => ⟨?_, fun rivals hn ha => ?_⟩,
    fun rivals start hc hj => ⟨hc.nodup_nodes, hj.mem_assigned hc⟩⟩
  · have hdefined := isDefined_maxCount w q exclude v
    rw [hm] at hdefined
    cases hdefined
  · have hsum : ((q.assigned w.rule).map fun v => (w.ownWindow q v).violation (q.share v)).sum =
        w.quality q := (sumOf_eq_sum _ _).symm
    rw [wordSum?_eq (by rw [hsum]; exact Nat.lt_of_le_of_lt (quality_le_most w q) hfits), hsum]
  · have hsum : ((candidates q (w.survey q rivals)).map Candidate.violation).sum =
        tickets (candidates q (w.survey q rivals)) := (sumOf_eq_sum _ _).symm
    rw [wordSum?_eq (by rw [hsum]; exact Nat.lt_of_le_of_lt (tickets_le_most hn ha) hfits), hsum]

end View

end RuleCardinality
