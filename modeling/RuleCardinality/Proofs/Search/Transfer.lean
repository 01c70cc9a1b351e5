import RuleCardinality.Proofs.Search.Greedy
import RuleCardinality.Search.Transfer

/-!
# Transfers lose nothing

`pull` draws: what the siblings lose is what is no longer wanted, and what is missing at the end is what
they did not have (`missing_pull`). `push` pours, and nothing is missing where there is a sibling
(`missing_push`). Both hold for every way to choose siblings, since a chosen index always belongs to one
of them, and since a sibling that was not chosen stays among those still to be chosen from.
-/

namespace RuleCardinality.View

variable {σ : Type} {nodes vs : List Nat} {t t' t'' : Transfer} {v : Nat}

/-! ## Drawing -/

/-- As much as the shares of `nodes` go down is no longer wanted. -/
structure Drawn (nodes : List Nat) (t t' : Transfer) : Prop where
  confined : Quantities.Confined nodes t.1 t'.1
  kept : sumOf t'.1.share nodes + t.2 = sumOf t.1.share nodes + t'.2
  rest_le : t'.2 ≤ t.2

theorem Drawn.refl (nodes : List Nat) (t : Transfer) : Drawn nodes t t :=
  ⟨.refl nodes t.1, rfl, Nat.le_refl _⟩

theorem Drawn.trans (a : Drawn nodes t t') (b : Drawn nodes t' t'') : Drawn nodes t t'' := by
  have ha := a.kept
  have hb := b.kept
  exact ⟨a.confined.trans b.confined, by omega, Nat.le_trans b.rest_le a.rest_le⟩

theorem drawn_draw (hn : nodes.Nodup) (hv : v ∈ nodes) {spare : Nat → Nat}
    (hspare : ∀ n, spare n ≤ n) (t : Transfer) : Drawn nodes t (draw spare t v) := by
  unfold draw
  set n := min (spare (t.1.share v)) t.2
  have hshare : n ≤ t.1.share v := Nat.le_trans (Nat.min_le_left _ _) (hspare _)
  have hwanted : n ≤ t.2 := Nat.min_le_right _ _
  refine ⟨.assign hv t.1 _, ?_, Nat.sub_le _ _⟩
  have := Quantities.sumOf_share_assign (q := t.1) (n := t.1.share v - n) hn hv
  show sumOf (t.1.assign v _).share nodes + t.2 = sumOf t.1.share nodes + (t.2 - n)
  omega

theorem mem_of_mem_swapRemove {i : Nat} (hv : v ∈ swapRemove vs i) (hne : vs ≠ []) :
    v ∈ vs := by
  unfold swapRemove at hv
  rcases List.mem_or_eq_of_mem_set (List.dropLast_subset _ hv) with hv | rfl
  · exact hv
  · rw [List.getLast?_eq_some_getLast hne, Option.getD_some]
    exact List.getLast_mem hne

theorem drawn_drain (ch : Chooser σ) (hn : nodes.Nodup) (hvs : ∀ v ∈ vs, v ∈ nodes) (t : Transfer)
    (s : σ) : Drawn nodes t (drain ch vs t s).1 := by
  induction vs, t, s using drain.induct ch with
  | case1 t s =>
    rw [drain]
    exact .refl nodes t
  | case2 t s v vs ht =>
    rw [drain, if_pos ht]
    exact .refl nodes t
  | case3 t s v vs ht i s' hpick ih =>
    rw [drain, if_neg ht, hpick]
    -- The chosen sibling gives all it has; those that remain in the list are siblings still.
    refine (drawn_draw hn (hvs _ (List.getElem_mem _)) (fun n => Nat.le_refl n) t).trans (ih ?_)
    exact fun x hx => hvs x (mem_of_mem_swapRemove hx (by simp))

theorem drawn_pull (ch : Chooser σ) (limits : Nat → Window) (hn : vs.Nodup) (q : Quantities)
    (wanted : Nat) (s : σ) : Drawn vs (q, wanted) (pull ch limits vs q wanted s).1 := by
  unfold pull
  set order := descending (fun v => (limits v).surplus (q.share v)) vs
  have horder : ∀ v ∈ order, v ∈ vs := fun v hv => mem_descending.1 hv
  have hspared : Drawn vs (q, wanted) (order.foldl
      (fun t v => if t.2 = 0 then t else draw (limits v).surplus t v) (q, wanted)) := by
    refine List.foldlRecOn (motive := fun t => Drawn vs (q, wanted) t) order _ (.refl vs _) ?_
    intro t ih v hv
    by_cases ht : t.2 = 0
    · rw [if_pos ht]
      exact ih
    · rw [if_neg ht]
      exact ih.trans (drawn_draw hn (horder v hv) (fun n => Nat.sub_le _ _) t)
  exact hspared.trans (drawn_drain ch hn horder _ s)

/-! ## What is missing -/

theorem share_draw_le (spare : Nat → Nat) (t : Transfer) (v x : Nat) :
    (draw spare t v).1.share x ≤ t.1.share x := by
  unfold draw
  by_cases hx : x = v
  · rw [hx, Quantities.share_assign_self]
    exact Nat.sub_le _ _
  · exact Nat.le_of_eq (Quantities.share_assign_ne hx)

/-- A node that may give all it has ends empty, or nothing more is wanted. -/
theorem draw_id_cases (t : Transfer) (v : Nat) :
    (draw id t v).2 = 0 ∨ (draw id t v).1.share v = 0 := by
  unfold draw
  simp only [id, Quantities.share_assign_self]
  omega

/-- Who is not removed stays, the last element at another place. -/
theorem mem_swapRemove {i : Nat} (hi : i < vs.length) (hv : v ∈ vs) :
    v = vs[i] ∨ v ∈ swapRemove vs i := by
  have hne : vs ≠ [] := List.ne_nil_of_length_pos (by omega)
  obtain ⟨j, hj, rfl⟩ := List.mem_iff_getElem.1 hv
  by_cases hij : j = i
  · exact .inl (by simp only [hij])
  · refine .inr (List.mem_iff_getElem.2 ?_)
    unfold swapRemove
    rw [List.getLast?_eq_some_getLast hne, Option.getD_some]
    by_cases hlast : j = vs.length - 1
    · refine ⟨i, by simp; omega, ?_⟩
      simp [List.getLast_eq_getElem, hlast]
    · refine ⟨j, by simp; omega, ?_⟩
      simp [List.getElem_set_ne (Ne.symm hij)]

/-- No share grows, and no more is wanted than before. -/
theorem drain_le (ch : Chooser σ) (vs : List Nat) (t : Transfer) (s : σ) :
    (drain ch vs t s).1.2 ≤ t.2 ∧ ∀ x, (drain ch vs t s).1.1.share x ≤ t.1.share x := by
  induction vs, t, s using drain.induct ch with
  | case1 t s =>
    rw [drain]
    exact ⟨Nat.le_refl _, fun _ => Nat.le_refl _⟩
  | case2 t s v vs ht =>
    rw [drain, if_pos ht]
    exact ⟨Nat.le_refl _, fun _ => Nat.le_refl _⟩
  | case3 t s v vs ht i s' hpick ih =>
    rw [drain, if_neg ht, hpick]
    obtain ⟨hrest, hshare⟩ := ih
    exact ⟨Nat.le_trans hrest (Nat.sub_le _ _),
      fun x => Nat.le_trans (hshare x) (share_draw_le id t _ x)⟩

/-- Something is still wanted only when every sibling has given all it had. -/
theorem drain_cases (ch : Chooser σ) (vs : List Nat) (t : Transfer) (s : σ) :
    (drain ch vs t s).1.2 = 0 ∨ ∀ v ∈ vs, (drain ch vs t s).1.1.share v = 0 := by
  induction vs, t, s using drain.induct ch with
  | case1 t s => exact .inr (by simp)
  | case2 t s v vs ht =>
    rw [drain, if_pos ht]
    exact .inl ht
  | case3 t s v vs ht i s' hpick ih =>
    rw [drain, if_neg ht, hpick]
    simp only
    set chosen := (v :: vs)[i]
    set rest := swapRemove (v :: vs) i
    obtain ⟨hrest, hshare⟩ := drain_le ch rest (draw id t chosen) s'
    rcases ih with hdone | hempty
    · exact .inl hdone
    · rcases draw_id_cases t chosen with hdone | hzero
      · exact .inl (Nat.le_zero.1 (hdone ▸ hrest))
      · refine .inr fun x hx => ?_
        rcases mem_swapRemove i.2 hx with rfl | hx
        · exact Nat.le_zero.1 (hzero ▸ hshare chosen)
        · exact hempty x hx

/-- Of what is wanted, that is missing which the siblings did not have. -/
theorem missing_pull (ch : Chooser σ) (limits : Nat → Window) (hn : vs.Nodup) (q : Quantities)
    (wanted : Nat) (s : σ) :
    (pull ch limits vs q wanted s).1.2 = wanted - sumOf q.share vs := by
  obtain ⟨-, hkept, hle⟩ := drawn_pull ch limits hn q wanted s
  have hend : (pull ch limits vs q wanted s).1.2 = 0 ∨
      sumOf (pull ch limits vs q wanted s).1.1.share vs = 0 := by
    rw [sumOf_eq_zero_iff]
    unfold pull
    refine (drain_cases ch _ _ s).imp_right fun hempty v hv => hempty v (mem_descending.2 hv)
  simp only at hkept hle
  omega

/-! ## Giving -/

theorem poured_give (limits : Nat → Window) (hn : vs.Nodup) (t : Transfer) :
    Poured vs t (give limits vs t) :=
  poured_fill hn (fun _ hv => mem_descending.1 hv) _ t

theorem poured_push (ch : Chooser σ) (limits hard : Nat → Window) (hn : vs.Nodup) (q : Quantities)
    (wanted : Nat) (s : σ) : Poured vs (q, wanted) (push ch limits hard vs q wanted s).1 := by
  cases vs with
  | nil => exact .refl [] _
  | cons v vs =>
    simp only [push]
    set t := give hard (v :: vs) (give limits (v :: vs) (q, wanted))
    have ht : Poured (v :: vs) (q, wanted) t := (poured_give limits hn _).trans (poured_give hard hn _)
    by_cases hrest : t.2 = 0
    · rw [if_pos hrest]
      exact ht
    · rw [if_neg hrest]
      have hmem := List.getElem_mem (l := v :: vs) (ch.pick (vs.length + 1) (Nat.succ_pos _) s).1.2
      simpa using ht.trans (poured_assign hn hmem (Nat.le_refl t.2))

/-- Nothing is missing where there is a sibling to give it to. -/
theorem missing_push (ch : Chooser σ) (limits hard : Nat → Window) (vs : List Nat) (q : Quantities)
    (wanted : Nat) (s : σ) :
    (push ch limits hard vs q wanted s).1.2 = if vs = [] then wanted else 0 := by
  cases vs with
  | nil => rfl
  | cons v vs =>
    simp only [push]
    by_cases hrest : (give hard (v :: vs) (give limits (v :: vs) (q, wanted))).2 = 0
    · rw [if_pos hrest]
      exact hrest
    · rw [if_neg hrest]
      rfl

end RuleCardinality.View
