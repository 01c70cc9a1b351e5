import RuleCardinality.Proofs.Shares
import RuleCardinality.Proofs.Window
import RuleCardinality.View.Range

/-!
# Laws of firing windows

Minimums are numbers, as far as they are known at all (`minCount_ne_unbounded`), and no larger than the
largest share can be (`minCount_le_cap`). Maximums are always known (`isDefined_maxCount`). To exclude a field either leaves
a maximum as it is or makes it zero (`maxCount_exclude`), so a node inside its own window is inside its
window without exclusion.
-/

namespace RuleCardinality.View

variable {w : View} {q : Quantities} {v child : Nat} {field : String}

/-! ## Demand and minimum

A bound on the shares is a bound on demands, unless it is below `cap`, where a sum of demands stops, and a
bound on demands is a bound on minimums. Since a state has finitely many shares there always is such a
bound, so no minimum is unbounded. -/

section

variable {n : Nat}

theorem shareCount_le (hq : ∀ v, q.share v ≤ n) (v : Nat) : q.shareCount v ≤ .finite n := by
  unfold Quantities.shareCount
  cases hs : q.share? v with
  | none => exact Count.undefined_le _
  | some n =>
    have := hq v
    rw [Quantities.share_of_share? hs] at this
    exact Count.finite_le_finite.2 this

theorem one_le_cap : (1 : Count) ≤ .finite cap := by decide

theorem zero_le_cap : (0 : Count) ≤ .finite cap := by decide

theorem demand_le (hn : cap ≤ n) (hq : ∀ v, q.share v ≤ n) (v : Nat) : w.demand q v ≤ .finite n := by
  have hcap : Count.finite cap ≤ .finite n := Count.finite_le_finite.2 hn
  induction v using Rule.induction_down (r := w.rule) with
  | step v ih =>
    have hbelow : ∀ c ∈ (w.rule.children v).map (w.demand q), c ≤ .finite n := by
      intro c hc
      obtain ⟨x, hx, rfl⟩ := List.mem_map.1 hc
      exact ih x hx
    have honce : ∀ c : Count, c ≤ .finite n →
        (if w.rule.repeatable v && 1 < c then 1 else c) ≤ .finite n := by
      intro c hc
      split
      · exact one_le_cap.trans hcap
      · exact hc
    rw [demand_eq]
    split
    · exact zero_le_cap.trans hcap
    · cases w.rule.shape v with
      | assignment field => exact honce _ (shareCount_le hq v)
      | group => exact honce _ (Count.foldl_max_le (Count.undefined_le _) hbelow)
      | alternative => exact honce _ (Count.foldl_plus_le_of_cap_le hn (Count.undefined_le _) hbelow)
      | action => exact one_le_cap.trans hcap

/-- A bound on all demands is a bound on what containers leave to their children. -/
theorem leastIn_le (hone : 1 ≤ n) (hd : ∀ v, w.demand q v ≤ .finite n) (v child : Nat) :
    w.leastIn q v child ≤ .finite n := by
  have hzero : (0 : Count) ≤ .finite n := Count.finite_le_finite.2 (Nat.zero_le n)
  have hone : (1 : Count) ≤ .finite n := Count.finite_le_finite.2 hone
  induction v using Rule.induction_up (r := w.rule) generalizing child with
  | step v ih =>
    have habove : ((w.rule.container v).map fun c => w.leastIn q c v).getD 1 ≤ .finite n := by
      cases hc : w.rule.container v with
      | none => exact hone
      | some c => exact ih c hc v
    have hbusiest : ((w.rule.others v child).map (w.demand q)).foldl max .undefined ≤ .finite n := by
      refine Count.foldl_max_le (Count.undefined_le _) fun c hc => ?_
      obtain ⟨x, _, rfl⟩ := List.mem_map.1 hc
      exact hd x
    rw [leastIn_eq]
    split
    · exact hzero
    · cases w.rule.shape v with
      | group =>
        simp only
        split
        · exact hone
        · split
          · split
            · exact hbusiest
            · exact hzero
          · exact Count.max_le habove hbusiest
      | alternative =>
        simp only
        split
        · exact hzero
        · split
          · exact hzero
          · exact habove
      | assignment field => exact Count.undefined_le _
      | action => exact Count.undefined_le _

theorem minCount_le (hone : 1 ≤ n) (hd : ∀ v, w.demand q v ≤ .finite n) (v : Nat) :
    w.minCount q v ≤ .finite n := by
  unfold minCount
  split
  · exact Count.finite_le_finite.2 (Nat.zero_le n)
  · cases w.rule.container v with
    | none => exact Count.finite_le_finite.2 hone
    | some c => exact leastIn_le hone hd c v

end

theorem shareCount_le_cap (hq : ∀ v, q.share v ≤ cap) (v : Nat) : q.shareCount v ≤ .finite cap :=
  shareCount_le hq v

theorem demand_le_cap (hq : ∀ v, q.share v ≤ cap) (v : Nat) : w.demand q v ≤ .finite cap :=
  demand_le (Nat.le_refl cap) hq v

/-- A minimum is no larger than the largest share can be. -/
theorem minCount_le_cap (hq : ∀ v, q.share v ≤ cap) (v : Nat) : w.minCount q v ≤ .finite cap :=
  minCount_le (by decide) (demand_le_cap hq) v

/-- A minimum is a number, if anything is known about it, however large the shares are. -/
theorem minCount_ne_unbounded (w : View) (q : Quantities) (v : Nat) : w.minCount q v ≠ .unbounded := by
  obtain ⟨n, hn⟩ := q.exists_share_le
  have hle : ∀ v, q.share v ≤ max n cap := fun v => Nat.le_trans (hn v) (Nat.le_max_left n cap)
  have hcap : cap ≤ max n cap := Nat.le_max_right n cap
  exact Count.ne_unbounded_of_le
    (minCount_le (Nat.le_trans (by decide) hcap) (demand_le hcap hle) v)

/-! ## Maximum -/

/-- The most firings of a container that its own container leaves to it. -/
def mostAbove (w : View) (q : Quantities) (exclude : Option String) (v : Nat) : Count :=
  (w.rule.container v).elim (if w.rule.repeatable v then .unbounded else 1)
    fun c => w.mostIn q exclude c v

theorem mostIn_eq_mostAbove (w : View) (q : Quantities) (exclude : Option String) (v child : Nat) :
    w.mostIn q exclude v child =
      if w.blocked v then 0
      else if w.mostAbove q exclude v = 0 then 0
      else
        match w.rule.shape v with
        | .group =>
          let most := if w.rule.repeatable v then .unbounded else w.mostAbove q exclude v
          let narrowed :=
            if w.rule.optional v || most = .unbounded then
              ((w.rule.others v child).map (w.supply q)).foldl .narrow most
            else most
          if narrowed = 0 && !w.rule.optional v then 1 else narrowed
        | .alternative =>
          if w.rule.repeatable v then .unbounded
          else if w.branchDead q exclude v child then 0
          else w.mostAbove q exclude v
        | _ => 1 :=
  mostIn_eq w q exclude v child

theorem isDefined_mostIn (w : View) (q : Quantities) (exclude : Option String) (v child : Nat) :
    (w.mostIn q exclude v child).isDefined = true := by
  induction v using Rule.induction_up (r := w.rule) generalizing child with
  | step v ih =>
    have habove : (w.mostAbove q exclude v).isDefined = true := by
      unfold mostAbove
      cases hc : w.rule.container v with
      | none => exact Count.isDefined_ite rfl rfl
      | some c => exact ih c hc v
    rw [mostIn_eq_mostAbove]
    refine Count.isDefined_ite rfl (Count.isDefined_ite rfl ?_)
    cases w.rule.shape v with
    | group =>
      have hmost : (if w.rule.repeatable v then .unbounded else
          w.mostAbove q exclude v : Count).isDefined = true := Count.isDefined_ite rfl habove
      exact Count.isDefined_ite rfl (Count.isDefined_ite (Count.isDefined_foldl_narrow hmost) hmost)
    | alternative => exact Count.isDefined_ite rfl (Count.isDefined_ite rfl habove)
    | assignment field => rfl
    | action => rfl

/-- A maximum is always known. -/
theorem isDefined_maxCount (w : View) (q : Quantities) (exclude : Option String) (v : Nat) :
    (w.maxCount q exclude v).isDefined = true := by
  unfold maxCount
  simp only
  split
  · rfl
  · cases w.rule.container v with
    | none => rfl
    | some c => exact isDefined_mostIn w q exclude c v

/-! ## Exclusion -/

/-- Where a field is excluded, a branch is dead also for what it lacks itself. -/
theorem branchDead_some_iff :
    w.branchDead q (some field) v child = true ↔
      child ∈ w.rule.children v ∧ w.unavailable q field child = true ∨
        w.branchDead q none v child = true := by
  unfold branchDead
  simp only [List.any_eq_true]
  constructor
  · rintro ⟨c, hc, hdead⟩
    by_cases he : c = child
    · subst he
      exact .inl ⟨hc, by simpa using hdead⟩
    · rw [if_neg he] at hdead
      exact .inr ⟨c, hc, by rwa [if_neg he]⟩
  · rintro (⟨hc, hlacks⟩ | ⟨c, hc, hdead⟩)
    · exact ⟨child, hc, by simpa using hlacks⟩
    · have he : c ≠ child := fun he => by simp [he] at hdead
      rw [if_neg he] at hdead
      exact ⟨c, hc, by rwa [if_neg he]⟩

theorem mostIn_exclude (w : View) (q : Quantities) (field : String) (v child : Nat) :
    w.mostIn q (some field) v child = 0 ∨
      w.mostIn q (some field) v child = w.mostIn q none v child := by
  induction v using Rule.induction_up (r := w.rule) generalizing child with
  | step v ih =>
    have habove : w.mostAbove q (some field) v = 0 ∨
        w.mostAbove q (some field) v = w.mostAbove q none v := by
      unfold mostAbove
      cases hc : w.rule.container v with
      | none => exact .inr rfl
      | some c => exact ih c hc v
    rw [mostIn_eq_mostAbove w q (some field), mostIn_eq_mostAbove w q none]
    by_cases hb : w.blocked v = true
    · exact .inl (if_pos hb)
    rw [if_neg hb, if_neg hb]
    rcases habove with hzero | hsame
    · exact .inl (if_pos hzero)
    rw [hsame]
    by_cases hzero : w.mostAbove q none v = 0
    · exact .inl (if_pos hzero)
    rw [if_neg hzero, if_neg hzero]
    cases w.rule.shape v with
    | alternative =>
      -- The only place where the excluded field is looked at.
      simp only
      by_cases hr : w.rule.repeatable v = true
      · rw [if_pos hr, if_pos hr]
        exact .inr rfl
      · rw [if_neg hr, if_neg hr]
        by_cases hdead : w.branchDead q (some field) v child = true
        · exact .inl (if_pos hdead)
        · rw [if_neg hdead, if_neg fun h => hdead (branchDead_some_iff.2 (.inr h))]
          exact .inr rfl
    | group => exact .inr rfl
    | assignment own => exact .inr rfl
    | action => exact .inr rfl

/-- To exclude a field leaves a maximum as it is or makes it zero. -/
theorem maxCount_exclude (w : View) (q : Quantities) (field : String) (v : Nat) :
    w.maxCount q (some field) v = 0 ∨ w.maxCount q (some field) v = w.maxCount q none v := by
  unfold maxCount
  cases w.rule.container v with
  | none => exact .inr rfl
  | some c =>
    rcases mostIn_exclude w q field c v with hzero | hsame
    · simp only [Option.elim_some, hzero]
      exact .inl (by cases w.rule.repeatable v <;> rfl)
    · simp only [Option.elim_some, hsame]
      exact .inr rfl

/-- Over its own maximum a share goes by at least as much as without exclusion. -/
theorem excess_window_le (w : View) (q : Quantities) (v n : Nat) :
    (w.window q none v).excess n ≤ (w.ownWindow q v).excess n := by
  unfold ownWindow
  cases w.rule.field? v with
  | none => exact Nat.le_refl _
  | some field =>
    rcases maxCount_exclude w q field v with hzero | hsame
    · have hown : (w.window q (some field) v).excess n = n - 0 := Window.excess_eq hzero n
      rw [hown]
      exact Window.excess_le _ n
    · have he : (w.window q none v).excess n = (w.window q (some field) v).excess n := by
        unfold window Window.excess
        rw [hsame]
      exact Nat.le_of_eq he

/-! ## Quality -/

theorem quality_eq_zero_iff :
    w.quality q = 0 ↔ ∀ v ∈ q.assigned w.rule, (w.ownWindow q v).admits (q.share v) = true := by
  unfold quality
  rw [sumOf_eq_zero_iff]
  simp only [Window.admits, decide_eq_true_eq]

end RuleCardinality.View
