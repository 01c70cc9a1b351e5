import RuleCardinality.Proofs.Search.Contest
import RuleCardinality.Search.Greedy

/-!
# The greedy split is a joint split

Everything that the greedy split does is pouring: what leaves the budget arrives at one of the nodes.
`Poured` states this for any number of such steps. Since the first pass comes to every node, each one
ends with a share, and since the top-up takes all that is left, nothing of the count is lost.
-/

namespace RuleCardinality.View

variable {w : View} {nodes vs : List Nat} {s s' s'' : Quantities × Nat} {v : Nat}

/-! ## Pouring -/

/-- As much as leaves the budget arrives in the shares of `nodes`. -/
structure Poured (nodes : List Nat) (s s' : Quantities × Nat) : Prop where
  confined : Quantities.Confined nodes s.1 s'.1
  kept : sumOf s'.1.share nodes + s'.2 = sumOf s.1.share nodes + s.2
  rest_le : s'.2 ≤ s.2

theorem Poured.refl (nodes : List Nat) (s : Quantities × Nat) : Poured nodes s s :=
  ⟨.refl nodes s.1, rfl, Nat.le_refl _⟩

theorem Poured.trans (a : Poured nodes s s') (b : Poured nodes s' s'') : Poured nodes s s'' :=
  ⟨a.confined.trans b.confined, b.kept.trans a.kept, Nat.le_trans b.rest_le a.rest_le⟩

theorem Poured.foldl {step : Quantities × Nat → Nat → Quantities × Nat}
    (h : ∀ s, ∀ v ∈ vs, Poured nodes s (step s v)) (s : Quantities × Nat) :
    Poured nodes s (vs.foldl step s) := by
  refine List.foldlRecOn (motive := fun s' => Poured nodes s s') vs step (.refl nodes s) ?_
  intro s' ih v hv
  exact ih.trans (h s' v hv)

theorem poured_assign (hn : nodes.Nodup) (hv : v ∈ nodes) {n : Nat} (hle : n ≤ s.2) :
    Poured nodes s (s.1.assign v (s.1.share v + n), s.2 - n) := by
  refine ⟨.assign hv s.1 _, ?_, Nat.sub_le _ _⟩
  have := Quantities.sumOf_share_assign (q := s.1) (n := s.1.share v + n) hn hv
  show sumOf (s.1.assign v _).share nodes + (s.2 - n) = _
  omega

theorem poured_pour (hn : nodes.Nodup) (hv : v ∈ nodes) (room : Nat → Nat) (s : Quantities × Nat) :
    Poured nodes s (pour room s v) :=
  poured_assign hn hv (Nat.min_le_right _ _)

theorem poured_raise (hn : nodes.Nodup) (hvs : ∀ v ∈ vs, v ∈ nodes)
    (limits : Quantities → Nat → Window) (s : Quantities × Nat) :
    Poured nodes s (raise limits vs s) :=
  Poured.foldl (fun s v hv => poured_pour hn (hvs v hv) _ s) s

theorem poured_fill (hn : nodes.Nodup) (hvs : ∀ v ∈ vs, v ∈ nodes)
    (limits : Quantities → Nat → Window) (s : Quantities × Nat) :
    Poured nodes s (fill limits vs s) := by
  refine Poured.foldl (fun s v hv => ?_) s
  by_cases hs : s.2 = 0
  · rw [if_pos hs]
    exact .refl nodes s
  · rw [if_neg hs]
    exact poured_pour hn (hvs v hv) _ s

theorem poured_distribute (hn : nodes.Nodup) (hvs : ∀ v ∈ vs, v ∈ nodes)
    (limits : Quantities → Nat → Window) (s : Quantities × Nat) :
    Poured nodes s (distribute limits vs s) :=
  (poured_raise hn hvs limits s).trans (poured_fill hn hvs limits _)

/-- The first pass comes to every node. -/
theorem isSome_share?_raise (hn : nodes.Nodup) (limits : Quantities → Nat → Window) (hv : v ∈ vs)
    (hvs : ∀ v ∈ vs, v ∈ nodes) (s : Quantities × Nat) : ((raise limits vs s).1.share? v).isSome := by
  induction vs generalizing s with
  | nil => simp at hv
  | cons x vs ih =>
    have hrest : ∀ v ∈ vs, v ∈ nodes := fun v hv => hvs v (by simp [hv])
    unfold raise
    rw [List.foldl_cons]
    rcases List.mem_cons.1 hv with rfl | hv
    · refine (poured_raise hn hrest limits _).confined.keeps v ?_
      unfold pour
      simp [Quantities.share?_assign_self]
    · exact ih hv hrest _

/-! ## One field -/

theorem mem_descending {measure : Nat → Nat} : v ∈ descending measure nodes ↔ v ∈ nodes := by
  unfold descending
  exact List.mem_mergeSort

theorem descending_ne_nil {measure : Nat → Nat} (h : nodes ≠ []) : descending measure nodes ≠ [] := by
  obtain ⟨v, hv⟩ := List.exists_mem_of_ne_nil nodes h
  exact List.ne_nil_of_mem (mem_descending.2 hv)

theorem poured_topUp (hn : nodes.Nodup) (hvs : ∀ v ∈ vs, v ∈ nodes) (hne : vs ≠ [])
    (s : Quantities × Nat) : Poured nodes s (topUp vs s, 0) := by
  cases vs with
  | nil => exact absurd rfl hne
  | cons v vs =>
    simp only [topUp]
    by_cases hs : s.2 = 0
    · rw [if_pos hs]
      exact ⟨.refl nodes s.1, by rw [hs], Nat.zero_le _⟩
    · rw [if_neg hs]
      simpa using poured_assign hn (hvs v (by simp)) (Nat.le_refl s.2)

/-- The greedy split of one field pours the whole count, and it comes to every node. -/
theorem settle_spec (w : View) (q : Quantities) (field : String) (hn : nodes.Nodup) (hne : nodes ≠ []) :
    Poured nodes (q, q.count field) (w.settle q field nodes, 0) ∧
      ∀ v ∈ nodes, ((w.settle q field nodes).share? v).isSome := by
  have hsub : ∀ v ∈ w.rule.dependencyOrder nodes, v ∈ nodes := fun v => Rule.mem_dependencyOrder.1
  set limits : Quantities → Nat → Window := fun q v => w.window q (some field) v
  set s := distribute limits (w.rule.dependencyOrder nodes) (q, q.count field)
  have hpoured : Poured nodes (q, q.count field) s := poured_distribute hn hsub limits _
  have hassigned : ∀ v ∈ nodes, (s.1.share? v).isSome := fun v hv =>
    (poured_fill hn hsub limits _).confined.keeps v
      (isSome_share?_raise hn limits (Rule.mem_dependencyOrder.2 hv) hsub _)
  unfold settle
  simp only
  by_cases hrest : s.2 = 0
  · rw [if_pos hrest]
    exact ⟨⟨hpoured.confined, by rw [← hpoured.kept, hrest], Nat.zero_le _⟩, hassigned⟩
  · rw [if_neg hrest]
    set rich := descending s.1.share (w.rule.dependencyOrder nodes)
    have hrich : ∀ v ∈ rich, v ∈ nodes := fun v hv => hsub v (mem_descending.1 hv)
    have hne' : rich ≠ [] := descending_ne_nil (Rule.dependencyOrder_ne_nil hne)
    -- Whatever the hard windows leave goes to the richest node, so the second pass ends with zero.
    have hmore : Poured nodes s (topUp rich (distribute (fun _ v => w.hardWindow v) rich s), 0) :=
      (poured_distribute hn hrich _ s).trans (poured_topUp hn hrich hne' _)
    exact ⟨hpoured.trans hmore, fun v hv => hmore.confined.keeps v (hassigned v hv)⟩

/-! ## All fields -/

/-- Settling one field after the other makes a joint split, if no competing node has a share yet. -/
theorem jointSplit_foldl_settle {fields : List (String × List Nat)} (hc : Contest w.rule fields) :
    ∀ {q : Quantities}, (∀ f ∈ fields, ∀ v ∈ f.2, q.share? v = none) →
      JointSplit fields q (fields.foldl (fun q f => w.settle q f.1 f.2) q) := by
  induction fields with
  | nil => exact fun _ => JointSplit.nil_iff.2 rfl
  | cons f fields ih =>
    intro q hfresh
    obtain ⟨hpoured, hassigned⟩ := settle_spec w q f.1 hc.head (hc.nonempty f (by simp))
    have hzero : sumOf q.share f.2 = 0 := sumOf_eq_zero_iff.2 fun v hv => by
      simp [Quantities.share, hfresh f (by simp) v hv]
    have hconf : Quantities.Confined f.2 q (w.settle q f.1 f.2) := hpoured.confined
    have hkept : sumOf (w.settle q f.1 f.2).share f.2 + 0 = sumOf q.share f.2 + q.count f.1 :=
      hpoured.kept
    refine .cons hc hconf hassigned (by omega) (ih hc.tail fun g hg v hv => ?_)
    rw [hconf.outside v fun hvf => hc.not_mem_of_mem_head hg hvf hv]
    exact hfresh g (by simp [hg]) v hv

theorem Ready.greedy {rivals : Rivals} {q : Quantities} (h : w.Ready rivals q) :
    JointSplit rivals.toList q (w.greedy q rivals) := by
  unfold View.greedy
  refine jointSplit_foldl_settle h.contest fun f hf v hv => ?_
  exact h.fresh (mem_rivals_iff_exists.2 ⟨f, hf, rfl⟩) v (h.contest.writes f hf v hv)

end RuleCardinality.View
