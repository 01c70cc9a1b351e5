import RuleCardinality.Proofs.Search.Greedy
import RuleCardinality.Proofs.Window

/-!
# Greedy splits within fixed bounds

Where the windows of the competing nodes are the same in all states, the first pass gives each node what
its window requires and the second one fills the nodes up. If the count covers what is required and full
nodes use it up, every node ends inside its window (`admits_greedy`), and there is nothing to search for.
-/

namespace RuleCardinality.View

variable {w : View} {bounds : Nat → Window} {limits : Quantities → Nat → Window}
  {nodes vs : List Nat} {q : Quantities} {s : Quantities × Nat} {v : Nat} {field : String}

/-! ## One pass -/

theorem share_pour_self (room : Nat → Nat) (s : Quantities × Nat) (v : Nat) :
    (pour room s v).1.share v = s.1.share v + min (room (s.1.share v)) s.2 :=
  Quantities.share_assign_self _ _ _

theorem share_pour_ne (room : Nat → Nat) (s : Quantities × Nat) {x : Nat} (hx : x ≠ v) :
    (pour room s v).1.share x = s.1.share x :=
  Quantities.share_assign_ne hx

/-- A budget that covers what all nodes require gives it to each. -/
theorem share_raise (hn : vs.Nodup) (hl : ∀ q, ∀ v ∈ vs, limits q v = bounds v)
    (hzero : ∀ v ∈ vs, s.1.share v = 0) (hreq : sumOf (fun v => (bounds v).required) vs ≤ s.2) :
    ∀ v ∈ vs, (raise limits vs s).1.share v = (bounds v).required := by
  induction vs generalizing s with
  | nil => simp
  | cons x vs ih =>
    obtain ⟨hx, hn⟩ := List.nodup_cons.1 hn
    rw [sumOf_cons] at hreq
    set s' := pour (fun n => (limits s.1 x).required - n) s x with hs'
    have hraise : raise limits (x :: vs) s = raise limits vs s' := rfl
    have hfirst : s'.1.share x = (bounds x).required ∧ s'.2 = s.2 - (bounds x).required := by
      rw [hs', share_pour_self]
      unfold pour
      simp only [hl s.1 x (by simp), hzero x (by simp)]
      omega
    have hrest : ∀ v ∈ vs, s'.1.share v = 0 := fun v hv => by
      have hne : v ≠ x := fun e => hx (e ▸ hv)
      rw [hs', share_pour_ne _ _ hne]
      exact hzero v (by simp [hv])
    have hpoured : Poured vs s' (raise limits vs s') := poured_raise hn (fun _ h => h) limits s'
    intro v hv
    rw [hraise]
    rcases List.mem_cons.1 hv with rfl | hv
    · rw [Quantities.share_congr (hpoured.confined.outside v hx)]
      exact hfirst.1
    · exact ih hn (fun q u hu => hl q u (by simp [hu])) hrest (by omega) v hv

/-- Filling up keeps the nodes inside their bounds. -/
theorem admits_fill (hl : ∀ q, ∀ v ∈ vs, limits q v = bounds v)
    (hin : ∀ v ∈ vs, (bounds v).admits (s.1.share v) = true) :
    ∀ v ∈ vs, (bounds v).admits ((fill limits vs s).1.share v) = true := by
  unfold fill
  refine List.foldlRecOn (motive := fun s : Quantities × Nat =>
    ∀ v ∈ vs, (bounds v).admits (s.1.share v) = true) vs _ hin fun s ih x hx v hv => ?_
  split
  · exact ih v hv
  · by_cases he : v = x
    · subst he
      rw [share_pour_self, hl s.1 v hv]
      exact Window.admits_add (ih v hv) (Nat.min_le_left _ _)
    · rw [share_pour_ne _ _ he]
      exact ih v hv

/-- Filling up uses up the budget or leaves no node any room. -/
theorem fill_rest (hn : vs.Nodup) (hl : ∀ q, ∀ v ∈ vs, limits q v = bounds v) (hs : s.2 ≤ cap) :
    (fill limits vs s).2 = 0 ∨
      ∀ v ∈ vs, (bounds v).headroom ((fill limits vs s).1.share v) = 0 := by
  induction vs generalizing s with
  | nil => exact .inr (by simp)
  | cons x vs ih =>
    obtain ⟨hx, hn⟩ := List.nodup_cons.1 hn
    set s' := if s.2 = 0 then s else pour (limits s.1 x).headroom s x with hs'
    have hfill : fill limits (x :: vs) s = fill limits vs s' := rfl
    have hpoured : Poured vs s' (fill limits vs s') := poured_fill hn (fun _ h => h) limits s'
    have hfirst : s'.2 = 0 ∨ (bounds x).headroom (s'.1.share x) = 0 := by
      rw [hs']
      split
      · exact .inl ‹_›
      · rw [share_pour_self, hl s.1 x (by simp)]
        exact Window.headroom_add hs
    have hle : s'.2 ≤ s.2 := by
      rw [hs']
      split
      · exact Nat.le_refl _
      · exact Nat.sub_le _ _
    rw [hfill]
    rcases hfirst with hzero | hfull
    · exact .inl (Nat.le_zero.1 (hzero ▸ hpoured.rest_le))
    · refine (ih hn (fun q u hu => hl q u (by simp [hu])) (Nat.le_trans hle hs)).imp_right
        fun hrest v hv => ?_
      rcases List.mem_cons.1 hv with rfl | hv
      · rwa [Quantities.share_congr (hpoured.confined.outside v hx)]
      · exact hrest v hv

/-! ## One field -/

/-- A count that covers what the nodes require and that full nodes use up. -/
structure Fillable (bounds : Nat → Window) (n : Nat) (nodes : List Nat) : Prop where
  proper : ∀ v ∈ nodes, (bounds v).admits (bounds v).required = true
  required : sumOf (fun v => (bounds v).required) nodes ≤ n
  room : ∀ share : Nat → Nat, (∀ v ∈ nodes, (bounds v).headroom (share v) = 0) → n ≤ sumOf share nodes
  le_cap : n ≤ cap

theorem Fillable.perm {n : Nat} (h : Fillable bounds n nodes) (hp : vs.Perm nodes) :
    Fillable bounds n vs where
  proper v hv := h.proper v (hp.mem_iff.1 hv)
  required := by
    rw [sumOf_perm hp]
    exact h.required
  room share hfull := by
    rw [sumOf_perm hp]
    exact h.room share fun v hv => hfull v (hp.mem_iff.2 hv)
  le_cap := h.le_cap

/-- A fillable count is shared out completely, and every node ends inside its bounds. -/
theorem distribute_fillable (hn : vs.Nodup) (hl : ∀ q, ∀ v ∈ vs, limits q v = bounds v)
    (hzero : ∀ v ∈ vs, s.1.share v = 0) (hf : Fillable bounds s.2 vs) :
    (distribute limits vs s).2 = 0 ∧
      ∀ v ∈ vs, (bounds v).admits ((distribute limits vs s).1.share v) = true := by
  have hraise := poured_raise hn (fun _ h => h) limits s
  have hin : ∀ v ∈ vs, (bounds v).admits ((raise limits vs s).1.share v) = true := fun v hv => by
    rw [share_raise hn hl hzero hf.required v hv]
    exact hf.proper v hv
  refine ⟨?_, admits_fill hl hin⟩
  rcases fill_rest hn hl (Nat.le_trans hraise.rest_le hf.le_cap) with hrest | hfull
  · exact hrest
  · -- Full nodes hold the whole count, so nothing can be left.
    have hkept := (poured_distribute hn (fun _ h => h) limits s).kept
    have hempty : sumOf s.1.share vs = 0 := sumOf_eq_zero_iff.2 hzero
    have hroom := hf.room _ hfull
    unfold distribute at hkept ⊢
    omega

theorem admits_settle (hn : nodes.Nodup)
    (hl : ∀ q, ∀ v ∈ nodes, w.window q (some field) v = bounds v)
    (hzero : ∀ v ∈ nodes, q.share v = 0) (hf : Fillable bounds (q.count field) nodes) :
    ∀ v ∈ nodes, (bounds v).admits ((w.settle q field nodes).share v) = true := by
  have hperm := Rule.dependencyOrder_perm (r := w.rule) hn
  have hlimits : ∀ q, ∀ v ∈ w.rule.dependencyOrder nodes, w.window q (some field) v = bounds v :=
    fun q v hv => hl q v (hperm.mem_iff.1 hv)
  obtain ⟨hrest, hin⟩ := distribute_fillable (s := (q, q.count field)) (hperm.nodup_iff.2 hn) hlimits
    (fun v hv => hzero v (hperm.mem_iff.1 hv)) (hf.perm hperm)
  unfold settle
  simp only [hrest, if_true]
  exact fun v hv => hin v (hperm.mem_iff.2 hv)

/-! ## All fields -/

theorem admits_foldl_settle {fields : List (String × List Nat)} (hc : Contest w.rule fields)
    (hl : ∀ f ∈ fields, ∀ q, ∀ v ∈ f.2, w.window q (some f.1) v = bounds v)
    (hzero : ∀ f ∈ fields, ∀ v ∈ f.2, q.share v = 0)
    (hf : ∀ f ∈ fields, Fillable bounds (q.count f.1) f.2) :
    ∀ f ∈ fields, ∀ v ∈ f.2,
      (bounds v).admits ((fields.foldl (fun q f => w.settle q f.1 f.2) q).share v) = true := by
  induction fields generalizing q with
  | nil => simp
  | cons f fields ih =>
    obtain ⟨hpoured, -⟩ := settle_spec w q f.1 hc.head (hc.nonempty f (by simp))
    have hconf : Quantities.Confined f.2 q (w.settle q f.1 f.2) := hpoured.confined
    have hnone : ∀ g ∈ fields, ∀ v ∈ g.2, v ∉ f.2 := fun g hg v hv hvf =>
      hc.not_mem_of_mem_head hg hvf hv
    have hrest := ih (q := w.settle q f.1 f.2) hc.tail (fun g hg => hl g (by simp [hg]))
      (fun g hg v hv => by
        rw [Quantities.share_congr (hconf.outside v (hnone g hg v hv))]
        exact hzero g (by simp [hg]) v hv)
      (fun g hg => by
        rw [hconf.count_eq]
        exact hf g (by simp [hg]))
    intro g hg v hv
    rcases List.mem_cons.1 hg with rfl | hg
    · -- The fields that follow leave the nodes of the first one alone.
      have hkept : (fields.foldl (fun q f => w.settle q f.1 f.2) (w.settle q g.1 g.2)).share v =
          (w.settle q g.1 g.2).share v := by
        refine List.foldlRecOn (motive := fun q' : Quantities =>
          q'.share v = (w.settle q g.1 g.2).share v) fields _ rfl fun q' hq' f hf => ?_
        obtain ⟨hpoured', -⟩ := settle_spec w q' f.1 (hc.nodup f (by simp [hf]))
          (hc.nonempty f (by simp [hf]))
        rw [← hq']
        exact Quantities.share_congr
          (hpoured'.confined.outside v fun hvf => hnone f hf v hvf hv)
      rw [List.foldl_cons, hkept]
      exact admits_settle hc.head (hl g (by simp)) (hzero g (by simp)) (hf g (by simp)) v hv
    · exact hrest g hg v hv

/-- Where the bounds are fixed and the counts fillable, the greedy split puts every competing node inside
its bounds. -/
theorem admits_greedy {rivals : Rivals} (h : w.Ready rivals q)
    (hl : ∀ f ∈ rivals.toList, ∀ q, ∀ v ∈ f.2, w.window q (some f.1) v = bounds v)
    (hf : ∀ f ∈ rivals.toList, Fillable bounds (q.count f.1) f.2) :
    ∀ f ∈ rivals.toList, ∀ v ∈ f.2, (bounds v).admits ((w.greedy q rivals).share v) = true := by
  refine admits_foldl_settle h.contest hl (fun f hmem v hv => ?_) hf
  have hnone := h.fresh (mem_rivals_iff_exists.2 ⟨f, hmem, rfl⟩) v (h.contest.writes f hmem v hv)
  simp [Quantities.share, hnone]

end RuleCardinality.View
