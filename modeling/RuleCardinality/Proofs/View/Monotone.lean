import RuleCardinality.Proofs.View.Active

/-!
# Windows grow with the shares

In a rule without alternatives, larger shares of the same nodes make no minimum and no maximum smaller
(`window_mono`). For minimums this is because demands grow. Maximums are narrowed by supplies only where the
container has no limit or may be left out, and one that is narrowed to nothing may jump back to one; so they
are compared by kind: which supplies are known, and which are without limit, is the same in both states
(`Count.Rises`), and so is which maximums are without limit, unless the first is zero
(`rises_maxCount`).
-/

namespace RuleCardinality

/-! ## Counts of one kind -/

namespace Count

/-- The counts are of one kind, and the first is no larger. -/
inductive Rises : Count → Count → Prop where
  | undefined : Rises .undefined .undefined
  | finite {m n : Nat} (h : m ≤ n) : Rises (.finite m) (.finite n)
  | unbounded : Rises .unbounded .unbounded

namespace Rises

variable {a b c d : Count}

theorem refl (a : Count) : Rises a a := by
  cases a with
  | undefined => exact .undefined
  | finite n => exact .finite le_rfl
  | unbounded => exact .unbounded

theorem le (h : Rises a b) : a ≤ b := by
  cases h with
  | undefined => exact le_rfl
  | finite h => exact finite_le_finite.2 h
  | unbounded => exact le_rfl

theorem unbounded_iff (h : Rises a b) : a = .unbounded ↔ b = .unbounded := by
  cases h <;> simp

theorem ne_zero (h : Rises a b) (ha : a ≠ 0) : b ≠ 0 := by
  cases h with
  | undefined => exact ha
  | unbounded => exact ha
  | @finite m n h =>
    intro hn
    obtain rfl : n = 0 := Count.finite.inj hn
    exact ha (by rw [Nat.le_zero.1 h]; rfl)

theorem narrow (h : Rises a b) (h' : Rises c d) : Rises (a.narrow c) (b.narrow d) := by
  cases h' with
  | undefined => exact h
  | unbounded =>
    have hmin : ∀ e : Count, e.narrow .unbounded = e := fun e => min_eq_left (le_unbounded e)
    rwa [hmin, hmin]
  | @finite m n h' =>
    cases h with
    | undefined => exact .undefined
    | unbounded => exact .finite h'
    | @finite i j h =>
      have hmin : ∀ k l : Nat, (Count.finite k).narrow (.finite l) = .finite (min k l) := by
        intro k l
        show (if Count.finite k ≤ .finite l then .finite k else .finite l) = Count.finite (min k l)
        simp only [finite_le_finite]
        rw [Nat.min_def, apply_ite Count.finite]
      rw [hmin, hmin]
      exact .finite (by omega)

theorem foldl_narrow {α : Type} {f g : α → Count} {xs : List α} (h : Rises a b)
    (hxs : ∀ x ∈ xs, Rises (f x) (g x)) :
    Rises ((xs.map f).foldl Count.narrow a) ((xs.map g).foldl Count.narrow b) := by
  induction xs generalizing a b with
  | nil => exact h
  | cons x xs ih => exact ih (h.narrow (hxs x (by simp))) fun y hy => hxs y (by simp [hy])

/-- To raise nothing to one keeps the order. -/
theorem raise (h : Rises a b) (p : Bool) :
    Rises (if a = 0 && p then 1 else a) (if b = 0 && p then 1 else b) := by
  cases p with
  | false => simpa using h
  | true =>
    cases h with
    | undefined => exact .undefined
    | unbounded => exact .unbounded
    | @finite m n h =>
      have hone : ∀ k : Nat, (if Count.finite k = 0 && true then 1 else .finite k) =
          Count.finite (max k 1) := by
        intro k
        cases k with
        | zero => rfl
        | succ k => simp [show Count.finite (k + 1) ≠ 0 from nofun]
      rw [hone, hone]
      exact .finite (by omega)

end Rises

end Count

/-! ## Rules without alternatives -/

/-- No node of the rule is an alternative. -/
def Rule.Choiceless (r : Rule) : Prop := ∀ v ∈ r.ids, r.shape v ≠ .alternative

instance (r : Rule) : Decidable r.Choiceless :=
  inferInstanceAs (Decidable (∀ v ∈ r.ids, r.shape v ≠ .alternative))

theorem Rule.Choiceless.shape_ne {r : Rule} (hr : r.Choiceless) (v : Nat) :
    r.shape v ≠ .alternative := by
  intro hs
  exact hr v (mem_ids_of_shape_ne (by simp [hs])) hs

theorem Rule.Choiceless.group {r : Rule} (hr : r.Choiceless) {v c : Nat} (hc : c ∈ r.children v) :
    r.shape v = .group :=
  (composite_of_mem_children hc).resolve_right (hr.shape_ne v)

namespace View

variable {w : View} {q q' : Quantities} {exclude : Option String} {v : Nat}

/-- The shares of the nodes of a rule as counts are of one kind and no larger in the first state, where the
same nodes are assigned in both. -/
theorem rises_shareCount {r : Rule} (hset : ∀ v ∈ r.ids, (q.share? v).isSome = (q'.share? v).isSome)
    (hle : ∀ v ∈ r.ids, q.share v ≤ q'.share v) (hv : (r.field? v).isSome) :
    (q.shareCount v).Rises (q'.shareCount v) := by
  obtain ⟨field, hfield⟩ := Option.isSome_iff_exists.1 hv
  have hmem : v ∈ r.ids := Rule.mem_ids_of_field? hfield
  have hset := hset v hmem
  have hle := hle v hmem
  unfold Quantities.share at hle
  unfold Quantities.shareCount
  cases hq : q.share? v with
  | none =>
    cases hq' : q'.share? v with
    | none => exact .undefined
    | some n => simp [hq, hq'] at hset
  | some m =>
    cases hq' : q'.share? v with
    | none => simp [hq, hq'] at hset
    | some n => exact .finite (by simpa [hq, hq'] using hle)

section

variable (hr : w.rule.Choiceless)
  (hq : ∀ v, (w.rule.field? v).isSome → (q.shareCount v).Rises (q'.shareCount v))

include hr hq

theorem demand_mono (v : Nat) : w.demand q v ≤ w.demand q' v := by
  induction v using Rule.induction_down (r := w.rule) with
  | step v ih =>
    cases hb : w.blocked v with
    | true => rw [demand_eq, demand_eq, if_pos hb, if_pos hb]
    | false =>
      rw [demand_eq_load hb, demand_eq_load hb]
      refine once_le_once ?_ _
      cases hs : w.rule.shape v with
      | assignment field =>
        unfold load
        rw [hs]
        exact (hq v (by rw [Rule.field?_of_assignment hs]; rfl)).le
      | group => exact load_group_le hs fun c hc => le_trans (ih c hc) (demand_le_load_group hs hc)
      | alternative => exact absurd hs (hr.shape_ne v)
      | action =>
        unfold load
        rw [hs]

theorem minCount_mono (v : Nat) : w.minCount q v ≤ w.minCount q' v := by
  refine le_of_not_gt fun hlt => lt_irrefl _ (lt_minCount_of_lt (zero_le_minCount v) ?_ ?_ hlt)
  · intro p _ _ d _ hd
    exact lt_of_lt_of_le hd (demand_mono hr hq d)
  · intro p _ hs
    exact absurd hs (hr.shape_ne p)

theorem rises_supply (v : Nat) : (w.supply q v).Rises (w.supply q' v) := by
  induction v using Rule.induction_down (r := w.rule) with
  | step v ih =>
    cases hb : w.blocked v with
    | true =>
      rw [supply_eq, supply_eq, if_pos hb, if_pos hb]
      exact .refl 0
    | false =>
      rw [supply_eq_reach hb, supply_eq_reach hb]
      split
      · exact .unbounded
      · unfold reach
        cases hs : w.rule.shape v with
        | assignment field => exact hq v (by rw [Rule.field?_of_assignment hs]; rfl)
        | group => exact Count.Rises.unbounded.foldl_narrow ih
        | alternative => exact absurd hs (hr.shape_ne v)
        | action => exact .unbounded

theorem rises_narrowed {p : Nat} (h : (w.maxCount q exclude p).Rises (w.maxCount q' exclude p))
    (child : Nat) : (w.narrowed q exclude p child).Rises (w.narrowed q' exclude p child) := by
  have hlimit : decide (w.maxCount q exclude p = .unbounded) =
      decide (w.maxCount q' exclude p = .unbounded) := decide_eq_decide.2 h.unbounded_iff
  unfold narrowed
  rw [hlimit]
  split
  · exact h.foldl_narrow fun d _ => rises_supply hr hq d
  · exact h

/-- A maximum is zero in the first state, or of one kind in both and no larger in the first. -/
theorem rises_maxCount (exclude : Option String) (v : Nat) :
    w.maxCount q exclude v = 0 ∨ (w.maxCount q exclude v).Rises (w.maxCount q' exclude v) := by
  induction v using Rule.induction_up (r := w.rule) with
  | step v ih =>
    have habove : w.mostAbove q exclude v = 0 ∨
        (w.mostAbove q exclude v).Rises (w.mostAbove q' exclude v) := by
      cases hp : w.rule.container v with
      | none =>
        unfold mostAbove
        rw [hp]
        exact .inr (.refl _)
      | some p =>
        have hc : v ∈ w.rule.children p := Rule.mem_children.2 hp
        rw [mostAbove_child hc, mostAbove_child hc]
        cases hb : w.blocked p with
        | true => exact .inl (by rw [mostIn_eq_mostAbove, if_pos hb])
        | false =>
          have hs : w.rule.shape p = .group := hr.group hc
          rw [mostIn_group hb hs, mostIn_group hb hs]
          by_cases hzero : w.maxCount q exclude p = 0
          · exact .inl (if_pos hzero)
          · have hmax := (ih p hp).resolve_left hzero
            rw [if_neg hzero, if_neg (hmax.ne_zero hzero)]
            exact .inr ((rises_narrowed hr hq hmax v).raise _)
    rw [maxCount_eq_mostAbove, maxCount_eq_mostAbove]
    by_cases hzero : w.mostAbove q exclude v = 0
    · exact .inl (if_pos hzero)
    · have hmost := habove.resolve_left hzero
      rw [if_neg hzero, if_neg (hmost.ne_zero hzero)]
      right
      split
      · exact .unbounded
      · exact hmost

end

/-! ## Windows -/

/-- In a rule without alternatives, where the same nodes are assigned and none holds less in the second state,
no end of a window is smaller there. -/
theorem window_mono (hr : w.rule.Choiceless)
    (hset : ∀ v ∈ w.rule.ids, (q.share? v).isSome = (q'.share? v).isSome)
    (hle : ∀ v ∈ w.rule.ids, q.share v ≤ q'.share v) (exclude : Option String) (v : Nat) :
    w.minCount q v ≤ w.minCount q' v ∧ w.maxCount q exclude v ≤ w.maxCount q' exclude v := by
  have hq : ∀ v, (w.rule.field? v).isSome → (q.shareCount v).Rises (q'.shareCount v) :=
    fun v hv => rises_shareCount hset hle hv
  refine ⟨minCount_mono hr hq v, ?_⟩
  rcases rises_maxCount hr hq exclude v with hzero | hrises
  · rw [hzero]
    exact Count.finite_le_of_le_floor (isDefined_maxCount w q' exclude v) (Nat.zero_le _)
  · exact hrises.le

/-- A customer, any number of lines with an article and an amount, which a sale books, and in a draft perhaps
a remark. -/
def receipt : Rule :=
  ((Rule.ofAdditions "Receipt"
    [.root { shape := .group }, .child 0 { shape := .assignment "customer" },
      .child 0 { shape := .group, optional := true, repeatable := true },
      .child 2 { shape := .action, types := some (.ofList ["Sale"]) },
      .child 2 { shape := .assignment "article" }, .child 2 { shape := .assignment "amount" },
      .child 0 { shape := .assignment "remark", optional := true,
                 types := some (.ofList ["Draft"]) }]).toOption).get (by decide +kernel)

/-- A customer and some articles. -/
def articles (n : Nat) : Quantities := (Quantities.empty.assign 1 1).assign 4 n

/-- One more article asks for one more amount, and allows it. -/
theorem window_mono_receipt :
    receipt.Choiceless ∧
    (∀ v ∈ receipt.ids, ((articles 2).share? v).isSome = ((articles 3).share? v).isSome) ∧
    (∀ v ∈ receipt.ids, (articles 2).share v ≤ (articles 3).share v) ∧
    View.window ⟨receipt, "Sale"⟩ (articles 2) (some "amount") 5 = ⟨2, 2⟩ ∧
    View.window ⟨receipt, "Sale"⟩ (articles 3) (some "amount") 5 = ⟨3, 3⟩ ∧
    View.minCount ⟨receipt, "Sale"⟩ (articles 2) 5 ≤ View.minCount ⟨receipt, "Sale"⟩ (articles 3) 5 ∧
    View.maxCount ⟨receipt, "Sale"⟩ (articles 2) (some "amount") 5 ≤
      View.maxCount ⟨receipt, "Sale"⟩ (articles 3) (some "amount") 5 := by
  have hr : receipt.Choiceless := by decide +kernel
  have hset : ∀ v ∈ receipt.ids,
      ((articles 2).share? v).isSome = ((articles 3).share? v).isSome := by decide +kernel
  have hle : ∀ v ∈ receipt.ids, (articles 2).share v ≤ (articles 3).share v := by decide +kernel
  obtain ⟨hmin, hmax⟩ := window_mono (w := ⟨receipt, "Sale"⟩) hr hset hle (some "amount") 5
  exact ⟨hr, hset, hle, by decide +kernel, by decide +kernel, hmin, hmax⟩

end View

end RuleCardinality
