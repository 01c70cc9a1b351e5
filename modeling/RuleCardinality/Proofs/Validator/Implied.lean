import RuleCardinality.Proofs.Validator.Plan
import RuleCardinality.Proofs.View.Apart

/-!
# Implied fields

To imply a field gives something to a node only if that node is active, so the steps of a plan make no node
active, and below groups alone they leave every active node active (`pressed_imply`). A field that is implied
in its turn might as well have been set: whatever is implied before it is implied either way, and in the end
both plans are the same (`Forked.eq_of_implied`). A field that is not implied stands below a node that need not
fire; if nothing competes, the plans with and without it agree but for what is below that node
(`Forked.trails`).
-/

namespace RuleCardinality.Validator

open Quantities

variable {r : Rule} {w : View} {p p' : Plan} {q q' : Quantities} {f : String × List Nat}
  {done fields : List (String × List Nat)} {nodes : List Nat} {d n u v : Nat}

/-! ## Implied counts -/

theorem impliedCount_ne_zero_iff :
    impliedCount w q nodes ≠ 0 ↔ ∃ v ∈ nodes, 0 < w.minCount q v := by
  rw [← Count.pos_foldl_plus_map]
  unfold impliedCount
  split
  · rename_i h
    exact iff_of_true Nat.one_ne_zero h
  · rename_i h
    exact iff_of_false (fun hne => hne rfl) h

theorem impliedCount_congr (h : ∀ v ∈ nodes, 0 < w.minCount q v ↔ 0 < w.minCount q' v) :
    impliedCount w q nodes = impliedCount w q' nodes := by
  have hiff : impliedCount w q nodes ≠ 0 ↔ impliedCount w q' nodes ≠ 0 := by
    rw [impliedCount_ne_zero_iff, impliedCount_ne_zero_iff]
    exact exists_congr fun v => and_congr_right (h v)
  have hle := impliedCount_le_one w q nodes
  have hle' := impliedCount_le_one w q' nodes
  omega

theorem eq_of_length_le_one (hone : nodes.length ≤ 1) (hu : u ∈ nodes) (hv : v ∈ nodes) : u = v := by
  obtain ⟨x, xs, rfl⟩ := List.exists_cons_of_ne_nil (List.ne_nil_of_mem hu)
  obtain rfl : xs = [] := List.length_eq_zero_iff.1 (by simpa using hone)
  rw [List.mem_singleton.1 hu, List.mem_singleton.1 hv]

/-! ## Pressing -/

/-- Only active nodes get something. -/
theorem pressed_give (hfresh : ∀ v ∈ f.2, p.quantities.share? v = none)
    (hactive : n ≠ 0 → f.2.length ≤ 1 → ∀ v ∈ f.2, w.Active p.quantities v) :
    w.Pressed p.quantities (p.give f n).quantities where
  keeps {x m} hx := by
    rw [Plan.share?_give, if_neg]
    · exact hx
    · rintro ⟨hmem, -⟩
      rw [hfresh x hmem] at hx
      cases hx
  pressed {x} hpos := by
    unfold Quantities.shareCount at hpos ⊢
    rw [Plan.share?_give] at hpos
    split at hpos
    · rename_i h
      have hn : n ≠ 0 := by
        rintro rfl
        exact absurd hpos (by decide)
      exact .inr (hactive hn (by omega) x h.1)
    · exact .inl hpos

theorem pressed_imply (hc : Contest w.rule (done ++ [f])) (hs : Plan.Sound done p) :
    w.Pressed p.quantities (p.imply w f).quantities := by
  refine pressed_give (fun v hv => hs.fresh hc hv) fun hn hone v hv => .inr ?_
  obtain ⟨u, hu, hpos⟩ := impliedCount_ne_zero_iff.1 hn
  rwa [eq_of_length_le_one hone hv hu]

theorem pressed_foldl_imply (hc : Contest w.rule (done ++ fields)) (hs : Plan.Sound done p) :
    w.Pressed p.quantities (fields.foldl (Plan.imply w) p).quantities := by
  induction fields generalizing done p with
  | nil => exact .refl w p.quantities
  | cons f fields ih =>
    rw [show done ++ f :: fields = (done ++ [f]) ++ fields by simp] at hc
    have hlast := hc.sublist (List.sublist_append_left _ _)
    exact (pressed_imply hlast hs).trans (ih hc (hs.imply w hlast))

/-! ## A field that is implied -/

/-- It makes no difference for the fields implied first whether a field that is about to be implied has its
value already. -/
theorem foldl_imply_give (hc : Contest w.rule (done ++ fields ++ [f])) (hs : Plan.Sound done p)
    (hactive : n ≠ 0 → f.2.length ≤ 1 → ∀ v ∈ f.2, w.Active p.quantities v)
    (hstraight : ∀ v ∈ f.2, ∀ u ∈ w.rule.line v, w.rule.shape u ≠ .alternative) :
    fields.foldl (Plan.imply w) (p.give f n) = (fields.foldl (Plan.imply w) p).give f n := by
  induction fields generalizing done p with
  | nil => rfl
  | cons e fields ih =>
    have hlast : Contest w.rule (done ++ [e]) := hc.sublist (by simp)
    have hf : Contest w.rule (done ++ [f]) := hc.sublist (by simp)
    have hef : Contest w.rule ([e] ++ [f]) := hc.sublist (by simp)
    have hpressed : w.Pressed p.quantities (p.give f n).quantities :=
      pressed_give (fun v hv => hs.fresh hf hv) hactive
    have hcount : impliedCount w (p.give f n).quantities e.2 = impliedCount w p.quantities e.2 := by
      refine impliedCount_congr fun v hv => hpressed.minCount_pos_iff ?_ (hs.fresh hlast hv) ?_
      · simp [hlast.writes e (by simp) v hv]
      · intro x hx
        rw [Plan.share?_give] at hx
        split at hx
        · rename_i hmem
          exact hstraight x hmem.1
        · exact absurd rfl hx
    have hstep : (p.give f n).imply w e = (p.imply w e).give f n := by
      unfold Plan.imply
      rw [hcount]
      exact (Plan.give_comm (hef.name_ne_last (by simp)) fun v hv => hef.not_mem_last (by simp) hv).symm
    rw [List.foldl_cons, List.foldl_cons, hstep]
    rw [show done ++ e :: fields ++ [f] = (done ++ [e]) ++ fields ++ [f] by simp] at hc
    refine ih hc (hs.imply w hlast) fun hn hone v hv => ?_
    exact (pressed_imply hlast hs).stays (hstraight v hv) (hactive hn hone v hv)

/-! ## A field that is not implied -/

/-- Plans of an unset field and of the same field with one value, which is given to the node `v`. Nothing competes
in the first plan, and it differs from the second in open nodes below `d` alone, which need not fire. -/
structure Trails (w : View) (d v : Nat) (p p' : Plan) : Prop where
  relaxed : w.Relaxed d p.quantities p'.quantities
  written : p'.quantities.share? v = some 1
  rivals : p.rivals = ∅

namespace Trails

theorem demand (hs : q.share? v = some 1) (ho : w.Open d v) (hv : (w.rule.field? v).isSome) :
    0 < w.demand q d := by
  refine View.demand_pos_of_open ho hv ?_
  unfold Quantities.shareCount
  rw [hs]
  exact Count.finite_lt_finite.2 Nat.one_pos

/-- A step of both plans. -/
theorem imply (h : Trails w d v p p') (hc : Contest w.rule (done ++ [f])) (hs : Plan.Sound done p)
    (ho : w.Open d v) (hv : (w.rule.field? v).isSome) (hvf : v ∉ f.2)
    (hfree : ∀ u ∈ f.2, w.blocked u = false) (hr : (p'.imply w f).rivals = ∅) :
    Trails w d v (p.imply w f) (p'.imply w f) := by
  have hfresh := fun u hu => hs.fresh (v := u) hc hu
  have hiff : ∀ u ∈ f.2, ¬ w.Open d u → (0 < w.minCount p.quantities u ↔ 0 < w.minCount p'.quantities u) :=
    fun u hu hnot => h.relaxed.minCount_pos_iff hnot (hfree u hu) (by simp [hc.writes f (by simp) u hu])
      (hfresh u hu)
  obtain ⟨hshared', -⟩ := Plan.rivals_of_give hr
  -- What the first plan implies the second implies as well.
  have hle : impliedCount w p.quantities f.2 ≠ 0 → impliedCount w p'.quantities f.2 ≠ 0 := by
    rw [impliedCount_ne_zero_iff, impliedCount_ne_zero_iff]
    rintro ⟨u, hu, hpos⟩
    have hnot : ¬ w.Open d u := fun hopen => h.relaxed.not_active hopen (.inr hpos)
    exact ⟨u, hu, (hiff u hu hnot).1 hpos⟩
  have hshared : ¬ (1 < f.2.length ∧ impliedCount w p.quantities f.2 ≠ 0) := fun hs =>
    hshared' ⟨hs.1, hle hs.2⟩
  have hwritten : (p'.imply w f).quantities.share? v = some 1 := by
    unfold Plan.imply
    rw [Plan.share?_give, if_neg fun hmem => hvf hmem.1]
    exact h.written
  refine ⟨h.relaxed.press (pressed_imply hc hs) (fun u hu => ?_) (demand hwritten ho hv), hwritten, ?_⟩
  · unfold Plan.imply
    rw [Plan.share?_give, Plan.share?_give]
    by_cases huf : u ∈ f.2
    · rw [if_pos ⟨huf, hshared⟩, if_pos ⟨huf, hshared'⟩]
      have hsame : impliedCount w p'.quantities f.2 ≠ 0 → impliedCount w p.quantities f.2 ≠ 0 := by
        -- With a count to give there is one node only.
        intro hne
        obtain ⟨x, hx, hpos⟩ := impliedCount_ne_zero_iff.1 hne
        obtain rfl : x = u := eq_of_length_le_one (by omega) hx huf
        exact impliedCount_ne_zero_iff.2 ⟨x, hx, (hiff x hx hu).2 hpos⟩
      have hone := impliedCount_le_one w p.quantities f.2
      have hone' := impliedCount_le_one w p'.quantities f.2
      exact congrArg some (by omega)
    · rw [if_neg fun hmem => huf hmem.1, if_neg fun hmem => huf hmem.1]
      exact h.relaxed.same u hu
  · unfold Plan.imply
    rw [Plan.rivals_give, if_neg hshared]
    exact h.rivals

theorem foldl_imply (h : Trails w d v p p') (hc : Contest w.rule (done ++ fields))
    (hs : Plan.Sound done p) (ho : w.Open d v) (hv : (w.rule.field? v).isSome)
    (hvf : ∀ f ∈ fields, v ∉ f.2) (hfree : ∀ f ∈ fields, ∀ u ∈ f.2, w.blocked u = false)
    (hr : (fields.foldl (Plan.imply w) p').rivals = ∅) :
    Trails w d v (fields.foldl (Plan.imply w) p) (fields.foldl (Plan.imply w) p') := by
  induction fields generalizing done p p' with
  | nil => exact h
  | cons f fields ih =>
    rw [show done ++ f :: fields = (done ++ [f]) ++ fields by simp] at hc
    have hlast := hc.sublist (List.sublist_append_left _ _)
    have hstep := h.imply hlast hs ho hv (hvf f (by simp)) (hfree f (by simp))
      (Plan.rivals_of_foldl_imply hr)
    exact ih hstep hc (hs.imply w hlast) (fun g hg => hvf g (by simp [hg]))
      (fun g hg => hfree g (by simp [hg])) hr

/-- The step that the first plan makes alone. -/
theorem skip (h : Trails w d v p p') (ho : w.Open d v) (hf : f.2 = [v])
    (hfresh : p.quantities.share? v = none) : Trails w d v (p.imply w f) p' := by
  have hzero : impliedCount w p.quantities f.2 = 0 := by
    by_contra hne
    obtain ⟨u, hu, hpos⟩ := impliedCount_ne_zero_iff.1 hne
    rw [hf, List.mem_singleton] at hu
    exact h.relaxed.not_active ho (.inr (hu ▸ hpos))
  have hpressed : w.Pressed p.quantities (p.give f 0).quantities := by
    refine pressed_give (fun u hu => ?_) fun hn => absurd rfl hn
    rw [hf, List.mem_singleton] at hu
    rw [hu, hfresh]
  unfold Plan.imply
  rw [hzero]
  refine ⟨h.relaxed.press hpressed (fun u hu => ?_) h.relaxed.demand, h.written, ?_⟩
  · rw [Plan.share?_give, if_neg]
    · exact h.relaxed.same u hu
    · rintro ⟨huf, -⟩
      rw [hf, List.mem_singleton] at huf
      exact hu (huf ▸ ho)
  · rw [Plan.rivals_give, if_neg (by simp)]
    exact h.rivals

/-- If the node with the value need not fire, there is a topmost node of which this holds. -/
theorem exists_give (hv : (w.rule.field? v).isSome)
    (hstraight : ∀ u ∈ w.rule.line v, w.rule.shape u ≠ .alternative)
    (hfree : ∀ u ∈ w.rule.line v, w.blocked u = false) (hidle : ¬ w.Active p.quantities v)
    (hf : f.2 = [v]) (hr : p.rivals = ∅) : ∃ d, w.Open d v ∧ Trails w d v p (p.give f 1) := by
  obtain ⟨d, hd, hnot, habove⟩ := View.exists_topmost hidle
  have hopen : w.Open d v := ⟨hd, hfree⟩
  have hwritten : (p.give f 1).quantities.share? v = some 1 := by
    rw [Plan.share?_give, if_pos (by simp [hf])]
  have hmem : ∀ u ∈ w.rule.line d, u ∈ w.rule.line v := fun u hu => Rule.mem_line_trans hu hd
  refine ⟨d, hopen, ⟨fun u hu => ?_, fun u hu => hstraight u (hmem u hu), fun u hu => hfree u (hmem u hu),
    hnot, habove, demand hwritten hopen hv⟩, hwritten, hr⟩
  rw [Plan.share?_give, if_neg]
  rintro ⟨huf, -⟩
  rw [hf, List.mem_singleton] at huf
  exact hu (huf ▸ hopen)

end Trails

/-! ## Both plans -/

/-- The plans of an unset field and of the same field with one value, once the fields `done` have been placed:
the one implies the field between some others, the other has its value from the beginning. -/
structure Forked (w : View) (f : String × List Nat) (start : Plan)
    (done before after : List (String × List Nat)) (p p' : Plan) : Prop where
  contest : Contest w.rule (done ++ before ++ [f] ++ after)
  sound : Plan.Sound done start
  unset : p = after.foldl (Plan.imply w) ((before.foldl (Plan.imply w) start).imply w f)
  written : p' = after.foldl (Plan.imply w) (before.foldl (Plan.imply w) (start.give f 1))

namespace Forked

variable {start : Plan} {before after : List (String × List Nat)}

theorem contest_last (h : Forked w f start done before after p p') :
    Contest w.rule (done ++ before ++ [f]) := h.contest.sublist (List.sublist_append_left _ _)

theorem contest_before (h : Forked w f start done before after p p') :
    Contest w.rule (done ++ before) := h.contest_last.sublist (List.sublist_append_left _ _)

theorem sound_before (h : Forked w f start done before after p p') :
    Plan.Sound (done ++ before) (before.foldl (Plan.imply w) start) :=
  Plan.Sound.foldl (fun hc hs => hs.imply w hc) h.contest_before h.sound

theorem contest_others (h : Forked w f start done before after p p') :
    Contest w.rule (done ++ (before ++ after) ++ [f]) := by
  refine h.contest.perm ?_
  simp only [List.append_assoc]
  exact .append_left done (.append_left before List.perm_append_comm)

/-- In the end the field has the count that is implied in its turn. -/
theorem count_eq (h : Forked w f start done before after p p') :
    p.quantities.count f.1 =
      impliedCount w (before.foldl (Plan.imply w) start).quantities f.2 := by
  rw [h.unset, Plan.count_foldl_imply, Plan.imply, Plan.count_give]
  exact fun g hg => Ne.symm (h.contest_others.name_ne_last (by simp [hg]))

theorem count_written (h : Forked w f start done before after p p') : p'.quantities.count f.1 = 1 := by
  have hne : ∀ g ∈ before ++ after, f.1 ≠ g.1 := fun g hg =>
    Ne.symm (h.contest_others.name_ne_last (List.mem_append_right done hg))
  rw [h.written, Plan.count_foldl_imply fun g hg => hne g (List.mem_append_right before hg),
    Plan.count_foldl_imply fun g hg => hne g (List.mem_append_left after hg), Plan.count_give]

theorem rivals_start (h : Forked w f start done before after p p') (hr : p'.rivals = ∅) :
    f.2.length ≤ 1 ∧ start.rivals = ∅ := by
  rw [h.written] at hr
  obtain ⟨hshared, hstart⟩ := Plan.rivals_of_give (Plan.rivals_of_foldl_imply (Plan.rivals_of_foldl_imply hr))
  exact ⟨by omega, hstart⟩

/-- A field that is implied might as well be set. -/
theorem eq_of_implied (h : Forked w f start done before after p p')
    (hstraight : ∀ v ∈ f.2, ∀ u ∈ w.rule.line v, w.rule.shape u ≠ .alternative)
    (hone : p.quantities.count f.1 = 1) : p' = p := by
  rw [h.count_eq] at hone
  have hactive : (1 : Nat) ≠ 0 → f.2.length ≤ 1 → ∀ v ∈ f.2, w.Active start.quantities v := by
    intro _ hlength v hv
    have hne : impliedCount w (before.foldl (Plan.imply w) start).quantities f.2 ≠ 0 := by omega
    obtain ⟨u, hu, hpos⟩ := impliedCount_ne_zero_iff.1 hne
    obtain rfl := eq_of_length_le_one hlength hu hv
    exact (pressed_foldl_imply h.contest_before h.sound).active (.inr hpos)
  rw [h.written, h.unset, foldl_imply_give h.contest_last h.sound hactive hstraight, Plan.imply, hone]

/-- A field that is not implied belongs to a node that need not fire. -/
theorem trails (h : Forked w f start done before after p p') (hf : f.2 = [v])
    (hstraight : ∀ u ∈ w.rule.line v, w.rule.shape u ≠ .alternative)
    (hopen : ∀ u ∈ w.rule.line v, w.blocked u = false)
    (hfree : ∀ g ∈ before ++ after, ∀ u ∈ g.2, w.blocked u = false)
    (hnone : p.quantities.count f.1 ≠ 1) (hr : p'.rivals = ∅) : ∃ d, Trails w d v p p' := by
  have hv : (w.rule.field? v).isSome := by simp [h.contest_last.writes f (by simp) v (by simp [hf])]
  have hfresh : (before.foldl (Plan.imply w) start).quantities.share? v = none :=
    h.sound_before.fresh h.contest_last (by simp [hf])
  have hidle : ¬ w.Active start.quantities v := by
    intro ha
    have hlast := (pressed_foldl_imply h.contest_before h.sound).stays hstraight ha
    refine View.not_active_of_share? hv hfresh (fun hpos => ?_) hlast
    have hne : impliedCount w (before.foldl (Plan.imply w) start).quantities f.2 ≠ 0 :=
      impliedCount_ne_zero_iff.2 ⟨v, by simp [hf], hpos⟩
    have hle := impliedCount_le_one w (before.foldl (Plan.imply w) start).quantities f.2
    rw [h.count_eq] at hnone
    omega
  have hr' := Plan.rivals_of_foldl_imply (h.written ▸ hr)
  have hother : ∀ g ∈ before ++ after, v ∉ g.2 := fun g hg hvg =>
    h.contest_others.not_mem_last (List.mem_append_right done hg) hvg (by simp [hf])
  obtain ⟨d, ho, hbegin⟩ := Trails.exists_give hv hstraight hopen hidle hf (h.rivals_start hr).2
  have hbefore := hbegin.foldl_imply h.contest_before h.sound ho hv
    (fun g hg => hother g (List.mem_append_left after hg))
    (fun g hg => hfree g (List.mem_append_left after hg)) hr'
  refine ⟨d, ?_⟩
  rw [h.unset, h.written]
  exact (hbefore.skip ho hf hfresh).foldl_imply h.contest (h.sound_before.imply w h.contest_last) ho hv
    (fun g hg => hother g (List.mem_append_right before hg))
    (fun g hg => hfree g (List.mem_append_right before hg)) (h.written ▸ hr)

end Forked

end RuleCardinality.Validator
