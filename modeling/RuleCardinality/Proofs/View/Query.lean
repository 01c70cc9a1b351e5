import RuleCardinality.Proofs.Count
import RuleCardinality.View.Reads

/-!
# What queries answer and what they look up

Run on a state, the queries for a window answer the two ends of it, and they look up the shares that the
lists of `Reads` name (`eval_minQuery`, `eval_maxQuery`). Whatever a query finds it has looked up before, so
two states that agree on what it looks up in one of them are the same to it (`eval_congr`); and the set that
it starts from makes no difference (`run_eq_union`).
-/

namespace RuleCardinality

namespace Query

variable {α β : Type} {q q' : Quantities} {t : Query α}

/-- The answer of a query on a state and the nodes that it looks up, in order. -/
def eval (q : Quantities) : Query α → α × List Nat
  | .answer a => (a, [])
  | .ask v next => (((next (q.share? v)).eval q).1, v :: ((next (q.share? v)).eval q).2)

@[simp] theorem eval_pure (q : Quantities) (a : α) : (pure a : Query α).eval q = (a, []) := rfl

@[simp] theorem eval_ask (q : Quantities) (v : Nat) (next : Option Nat → Query α) :
    (Query.ask v next).eval q =
      (((next (q.share? v)).eval q).1, v :: ((next (q.share? v)).eval q).2) := rfl

@[simp] theorem eval_bind (q : Quantities) (t : Query α) (f : α → Query β) :
    (t >>= f).eval q =
      (((f (t.eval q).1).eval q).1, (t.eval q).2 ++ ((f (t.eval q).1).eval q).2) := by
  induction t with
  | answer a => rfl
  | ask v next ih =>
    show (Query.ask v fun n => next n >>= f).eval q = _
    simp only [eval_ask, ih, List.cons_append]

/-! ## Runs -/

/-- A run adds to the set what the query looks up. -/
theorem run_eq (q : Quantities) (t : Query α) (known : IdSet) :
    t.run q known = ((t.eval q).1, known.insertMany (t.eval q).2) := by
  induction t generalizing known with
  | answer a => rfl
  | ask v next ih => simp only [run, ih, eval_ask, Std.ExtTreeSet.insertMany_cons]

theorem mem_run {known : IdSet} {x : Nat} : x ∈ (t.run q known).2 ↔ x ∈ known ∨ x ∈ (t.eval q).2 := by
  simp [run_eq]

theorem mem_run_empty {x : Nat} : x ∈ (t.run q ∅).2 ↔ x ∈ (t.eval q).2 := by
  simp [mem_run]

/-- The set that a run starts from makes no difference to the answer. -/
theorem run_eq_union (q : Quantities) (t : Query α) (known : IdSet) :
    t.run q known = ((t.run q ∅).1, known ∪ (t.run q ∅).2) := by
  have hset : known.insertMany (t.eval q).2 = known ∪ (t.run q ∅).2 := by
    apply Std.ExtTreeSet.ext_mem
    intro x
    simp [mem_run_empty]
  rw [← hset, run_eq, run_eq]

/-- On a state with the same shares for what it looks up, a query goes the same way. -/
theorem eval_congr (h : ∀ x ∈ (t.eval q).2, q.share? x = q'.share? x) : t.eval q' = t.eval q := by
  induction t with
  | answer a => rfl
  | ask v next ih =>
    simp only [eval_ask, List.mem_cons, forall_eq_or_imp] at h ⊢
    obtain ⟨hv, hnext⟩ := h
    rw [← hv, ih _ hnext]

theorem run_congr (h : ∀ x ∈ (t.run q ∅).2, q.share? x = q'.share? x) (known : IdSet) :
    t.run q' known = t.run q known := by
  have heval : t.eval q' = t.eval q := eval_congr fun x hx => h x (mem_run_empty.2 hx)
  rw [run_eq, run_eq, heval]

/-! ## Queries one after the other -/

section Lists

open View (upTo)

variable {cs : List Nat} {reads : Nat → List Nat}

theorem eval_combine {f : Nat → Query Count} {g : Nat → Count} (op : Count → Count → Count) (n : Count)
    (h : ∀ c ∈ cs, (f c).eval q = (g c, reads c)) :
    (combine op n (cs.map f)).eval q = ((cs.map g).foldl op n, cs.flatMap reads) := by
  unfold combine
  induction cs generalizing n with
  | nil => rfl
  | cons c cs ih =>
    have hc := h c List.mem_cons_self
    have hcs := ih (op n (g c)) fun d hd => h d (List.mem_cons_of_mem c hd)
    simp only [List.map_cons, List.foldlM_cons, eval_bind, eval_pure, hc, hcs, List.append_nil,
      List.foldl_cons, List.flatMap_cons]

/-- A sum without limit is settled by the first summand without limit. -/
theorem eval_sumUp {f : Nat → Query Count} {g : Nat → Count} (n : Count)
    (h : ∀ c ∈ cs, (f c).eval q = (g c, reads c)) :
    (sumUp n (cs.map f)).eval q = ((cs.map g).foldl .plus n,
      (upTo (fun b => b.1 = .unbounded) (cs.map fun c => (g c, reads c))).flatMap Prod.snd) := by
  induction cs generalizing n with
  | nil => rfl
  | cons c cs ih =>
    have hc := h c List.mem_cons_self
    have hcs := ih (n.plus (g c)) fun d hd => h d (List.mem_cons_of_mem c hd)
    by_cases hg : g c = .unbounded
    · have hsum : ((c :: cs).map g).foldl .plus n = .unbounded :=
        Count.foldl_plus_unbounded (by simp [hg])
      rw [hsum]
      simp [sumUp, upTo, hc, hg]
    · simp [sumUp, upTo, hc, hg, hcs]

theorem eval_anyM {f : Nat → Query Bool} {look : Nat → Bool × List Nat}
    (h : ∀ c ∈ cs, (f c).eval q = look c) :
    ((cs.map f).anyM id).eval q =
      (cs.any fun c => (look c).1, (upTo Prod.fst (cs.map look)).flatMap Prod.snd) := by
  induction cs with
  | nil => rfl
  | cons c cs ih =>
    have hc := h c List.mem_cons_self
    have hcs := ih fun d hd => h d (List.mem_cons_of_mem c hd)
    cases hg : (look c).1 with
    | true => simp [upTo, hc, hg]
    | false => simp [upTo, hc, hg, hcs]

theorem eval_allM {f : Nat → Query Bool} {look : Nat → Bool × List Nat}
    (h : ∀ c ∈ cs, (f c).eval q = look c) :
    ((cs.map f).allM id).eval q =
      (cs.all fun c => (look c).1, (upTo (fun b => !b.1) (cs.map look)).flatMap Prod.snd) := by
  induction cs with
  | nil => rfl
  | cons c cs ih =>
    have hc := h c List.mem_cons_self
    have hcs := ih fun d hd => h d (List.mem_cons_of_mem c hd)
    cases hg : (look c).1 with
    | true => simp [upTo, hc, hg, hcs]
    | false => simp [upTo, hc, hg]

end Lists

end Query

namespace View

/-! ## From below -/

theorem eval_demandQuery (w : View) (q : Quantities) (v : Nat) :
    (w.demandQuery v).eval q = (w.demand q v, w.demandReads v) := by
  induction v using Rule.induction_down (r := w.rule) with
  | step v ih =>
    rw [demandQuery_eq, demand_eq, demandReads_eq]
    cases w.blocked v with
    | true => rfl
    | false =>
      cases w.rule.shape v with
      | assignment field => rfl
      | group => simp [Query.eval_combine max .undefined ih]
      | alternative => simp [Query.eval_combine .plus .undefined ih]
      | action => rfl

theorem eval_demandsQuery (w : View) (q : Quantities) (v : Nat) :
    (w.demandsQuery v).eval q = (decide (0 < w.demand q v), w.demandReads v) := by
  simp [demandsQuery, eval_demandQuery]

theorem eval_supplyQuery (w : View) (q : Quantities) (v : Nat) :
    (w.supplyQuery v).eval q = (w.supply q v, w.supplyReads q v) := by
  induction v using Rule.induction_down (r := w.rule) with
  | step v ih =>
    rw [supplyQuery_eq, supply_eq, supplyReads_eq]
    cases w.blocked v with
    | true => rfl
    | false =>
      cases w.rule.optional v with
      | true => rfl
      | false =>
        cases w.rule.shape v with
        | assignment field => rfl
        | group => simp [Query.eval_combine .narrow .unbounded ih, List.flatMap_map]
        | alternative => simp [Query.eval_sumUp .undefined ih]
        | action => rfl

theorem eval_unavailableQuery (w : View) (q : Quantities) (field : String) (v : Nat) :
    (w.unavailableQuery field v).eval q = (w.unavailable q field v, w.unavailableReads q field v) := by
  induction v using Rule.induction_down (r := w.rule) with
  | step v ih =>
    rw [unavailableQuery_eq, unavailable_eq, unavailableReads_eq]
    cases w.rule.optional v with
    | true => rfl
    | false =>
      cases w.rule.shape v with
      | assignment own =>
        by_cases ho : own = field
        · simp [ho]
        · simp [ho]
      | group => simp [Query.eval_anyM ih]
      | alternative => simp [Query.eval_allM ih]
      | action => simp

/-! ## Minimum -/

theorem upTo_map {α β : Type} (stop : β → Bool) (f : α → β) (as : List α) :
    upTo stop (as.map f) = (upTo (fun a => stop (f a)) as).map f := by
  induction as with
  | nil => rfl
  | cons a as ih =>
    cases hs : stop (f a) with
    | true => simp [upTo, hs]
    | false => simp [upTo, hs, ih]

theorem eval_leastQuery (w : View) (q : Quantities) (v child : Nat) :
    (w.leastQuery v child).eval q = (w.leastIn q v child, w.leastReads q v child) := by
  induction v using Rule.induction_up (r := w.rule) generalizing child with
  | step v ih =>
    have habove : ((w.rule.container v).elim (pure 1) fun c => w.leastQuery c v).eval q =
        (((w.rule.container v).map fun c => w.leastIn q c v).getD 1,
          (w.rule.container v).elim [] fun c => w.leastReads q c v) := by
      cases hc : w.rule.container v with
      | none => rfl
      | some c => exact ih c hc v
    have hbusiest : (Query.combine max .undefined ((w.rule.others v child).map w.demandQuery)).eval q =
        (((w.rule.others v child).map (w.demand q)).foldl max .undefined,
          (w.rule.others v child).flatMap w.demandReads) :=
      Query.eval_combine max .undefined fun c _ => w.eval_demandQuery q c
    have hany : (((w.rule.others v child).map w.demandsQuery).anyM id).eval q =
        ((w.rule.others v child).any fun c => 0 < w.demand q c,
          (upTo (fun c => 0 < w.demand q c) (w.rule.others v child)).flatMap w.demandReads) := by
      rw [Query.eval_anyM fun c _ => w.eval_demandsQuery q c, upTo_map, List.flatMap_map]
    rw [leastQuery_eq, leastIn_eq, leastReads_eq]
    cases w.blocked v with
    | true => rfl
    | false =>
      cases w.rule.shape v with
      | assignment field => rfl
      | action => rfl
      | group =>
        cases w.plainRoot v with
        | true => rfl
        | false => cases w.rule.optional v <;> simp [hbusiest, habove]
      | alternative =>
        cases w.rule.optional v with
        | true => rfl
        | false =>
          cases hd : (w.rule.others v child).any fun c => decide (0 < w.demand q c) with
          | true => simp [hany, hd]
          | false => simp [hany, hd, habove]

theorem eval_minQuery (w : View) (q : Quantities) (v : Nat) :
    (w.minQuery v).eval q = (w.minCount q v, w.minReads q v) := by
  unfold minQuery minCount minReads
  cases w.rule.optional v with
  | true => rfl
  | false =>
    cases w.rule.container v with
    | none => rfl
    | some c => exact w.eval_leastQuery q c v

/-! ## Maximum -/

theorem eval_branchQuery (w : View) (q : Quantities) (exclude : Option String) (v child : Nat) :
    (w.branchQuery exclude v child).eval q =
      (w.branchDead q exclude v child, w.branchReads q exclude v child) := by
  have hlook : ∀ c ∈ w.rule.children v,
      (if c = child then exclude.elim (pure false) fun field => w.unavailableQuery field c
        else w.demandsQuery c).eval q =
      if c = child then
        exclude.elim (false, []) fun field =>
          (w.unavailable q field c, w.unavailableReads q field c)
      else (decide (0 < w.demand q c), w.demandReads c) := by
    intro c _
    by_cases hc : c = child
    · cases exclude with
      | none => simp [hc]
      | some field => simp [hc, eval_unavailableQuery]
    · simp [hc, eval_demandsQuery]
  have hdead : ((w.rule.children v).any fun c =>
      (if c = child then
        exclude.elim (false, []) fun field =>
          (w.unavailable q field c, w.unavailableReads q field c)
      else (decide (0 < w.demand q c), w.demandReads c)).1) = w.branchDead q exclude v child := by
    unfold branchDead
    congr 1
    funext c
    by_cases hc : c = child
    · cases exclude <;> simp [hc]
    · simp [hc]
  unfold branchQuery
  rw [Query.eval_anyM hlook, hdead]
  rfl

theorem eval_mostQuery (w : View) (q : Quantities) (exclude : Option String) (v child : Nat) :
    (w.mostQuery exclude v child).eval q =
      (w.mostIn q exclude v child, w.mostReads q exclude v child) := by
  induction v using Rule.induction_up (r := w.rule) generalizing child with
  | step v ih =>
    rw [mostQuery_eq, mostIn_eq, mostReads_eq]
    cases w.blocked v with
    | true => rfl
    | false =>
      -- What the container finds, as a pair.
      generalize habove : (w.rule.container v).elim
        (if w.rule.repeatable v then Count.unbounded else 1, ([] : List Nat))
        (fun p => (w.mostIn q exclude p v, w.mostReads q exclude p v)) = above
      have hquery : ((w.rule.container v).elim (pure (if w.rule.repeatable v then .unbounded else 1))
          fun p => w.mostQuery exclude p v).eval q = above := by
        rw [← habove]
        cases hp : w.rule.container v with
        | none => rfl
        | some p => exact ih p hp v
      have hcount : ((w.rule.container v).elim (if w.rule.repeatable v then .unbounded else 1)
          fun p => w.mostIn q exclude p v) = above.1 := by
        rw [← habove]
        cases w.rule.container v <;> rfl
      simp only [Bool.false_eq_true, if_false, Query.eval_bind, hquery, hcount]
      by_cases hzero : above.1 = 0
      · simp [hzero]
      · cases w.rule.shape v with
        | assignment field => simp [hzero]
        | action => simp [hzero]
        | group =>
          have hnarrow : ∀ most : Count,
              (Query.combine .narrow most ((w.rule.others v child).map w.supplyQuery)).eval q =
                (((w.rule.others v child).map (w.supply q)).foldl .narrow most,
                  (w.rule.others v child).flatMap (w.supplyReads q)) := fun most =>
            Query.eval_combine .narrow most fun c _ => w.eval_supplyQuery q c
          simp only [hzero, if_false]
          generalize (if w.rule.repeatable v then Count.unbounded else above.1) = most
          by_cases hopen : (w.rule.optional v || most = .unbounded) = true
          · simp [hopen, hnarrow]
          · simp only [hopen]
            rfl
        | alternative =>
          cases w.rule.repeatable v with
          | true => simp [hzero]
          | false =>
            cases hdead : w.branchDead q exclude v child <;>
              simp [hzero, eval_branchQuery, hdead]

theorem eval_maxQuery (w : View) (q : Quantities) (exclude : Option String) (v : Nat) :
    (w.maxQuery exclude v).eval q = (w.maxCount q exclude v, w.maxReads q exclude v) := by
  unfold maxQuery maxCount maxReads
  cases w.rule.container v with
  | none => rfl
  | some c =>
    simp only [Option.elim_some, Query.eval_bind, Query.eval_pure, eval_mostQuery, List.append_nil]
    rfl

end View

end RuleCardinality
