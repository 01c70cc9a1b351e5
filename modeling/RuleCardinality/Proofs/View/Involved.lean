import RuleCardinality.Proofs.View.Query
import RuleCardinality.Proofs.View.Reads
import RuleCardinality.Validator.Check

/-!
# Involved nodes

The nodes that a window collects are the nodes that it rests on: a state with the same shares for them has
the same window and collects the same nodes, and what has been collected before changes nothing
(`involved_complete`). The nodes of a violation are collected that way, too (`involved_eq_foldl`). A node is
not among the nodes of its own window, so its share never moves the window
(`window_frame`).
-/

namespace RuleCardinality.View

variable {w : View} {q q' : Quantities} {exclude : Option String} {known : IdSet} {v x : Nat}

theorem mem_minInvolved : x ∈ w.minInvolved q known v ↔ x ∈ known ∨ x ∈ w.minReads q v := by
  unfold minInvolved
  rw [Query.mem_run, eval_minQuery]

theorem mem_maxInvolved :
    x ∈ w.maxInvolved q exclude known v ↔ x ∈ known ∨ x ∈ w.maxReads q exclude v := by
  unfold maxInvolved
  rw [Query.mem_run, eval_maxQuery]

theorem mem_minInvolved_empty : x ∈ w.minInvolved q ∅ v ↔ x ∈ w.minReads q v := by
  simp [mem_minInvolved]

theorem mem_maxInvolved_empty : x ∈ w.maxInvolved q exclude ∅ v ↔ x ∈ w.maxReads q exclude v := by
  simp [mem_maxInvolved]

theorem run_minQuery_empty : (w.minQuery v).run q ∅ = (w.minCount q v, w.minInvolved q ∅ v) := by
  have hcount : ((w.minQuery v).run q ∅).1 = w.minCount q v := by
    rw [Query.run_eq, eval_minQuery]
  rw [← hcount]
  rfl

theorem run_maxQuery_empty :
    (w.maxQuery exclude v).run q ∅ = (w.maxCount q exclude v, w.maxInvolved q exclude ∅ v) := by
  have hcount : ((w.maxQuery exclude v).run q ∅).1 = w.maxCount q exclude v := by
    rw [Query.run_eq, eval_maxQuery]
  rw [← hcount]
  rfl

/-! ## Nothing else is involved -/

/-- The nodes that a minimum or a maximum collects decide what it is and which nodes it collects. Nodes that
were collected before stay in the set and change nothing else. -/
theorem involved_complete (w : View) (q : Quantities) (exclude : Option String) (v : Nat) :
    (∀ q' : Quantities, (∀ x ∈ w.minInvolved q ∅ v, q.share? x = q'.share? x) →
      w.minCount q' v = w.minCount q v ∧ w.minInvolved q' ∅ v = w.minInvolved q ∅ v) ∧
    (∀ q' : Quantities, (∀ x ∈ w.maxInvolved q exclude ∅ v, q.share? x = q'.share? x) →
      w.maxCount q' exclude v = w.maxCount q exclude v ∧
        w.maxInvolved q' exclude ∅ v = w.maxInvolved q exclude ∅ v) ∧
    ∀ known : IdSet,
      (w.minQuery v).run q known = (w.minCount q v, known ∪ w.minInvolved q ∅ v) ∧
      (w.maxQuery exclude v).run q known =
        (w.maxCount q exclude v, known ∪ w.maxInvolved q exclude ∅ v) := by
  refine ⟨fun q' h => ?_, fun q' h => ?_, fun known => ⟨?_, ?_⟩⟩
  · have hrun := Query.run_congr h ∅
    rw [run_minQuery_empty, run_minQuery_empty] at hrun
    exact Prod.mk.inj hrun
  · have hrun := Query.run_congr h ∅
    rw [run_maxQuery_empty, run_maxQuery_empty] at hrun
    exact Prod.mk.inj hrun
  · rw [Query.run_eq_union, run_minQuery_empty]
  · rw [Query.run_eq_union, run_maxQuery_empty]

/-- A name and one way to reach its bearer: by mail, by telephone or at an address. -/
def reachable : Rule :=
  ((Rule.ofAdditions "Reachable"
    [.root { shape := .group }, .child 0 { shape := .assignment "name" },
      .child 0 { shape := .alternative }, .child 2 { shape := .assignment "mail" },
      .child 2 { shape := .assignment "phone" }, .child 2 { shape := .group },
      .child 5 { shape := .assignment "street" },
      .child 5 { shape := .assignment "city" }]).toOption).get (by decide)

/-- The telephone is used, and nothing else is known. -/
def called : Quantities := Quantities.empty.assign 4 1

/-- The telephone is used, and there is a name and half an address. -/
def calledAt : Quantities := (called.assign 1 1).assign 6 1

/-- The telephone alone settles the window of the mail. -/
theorem involved_complete_called :
    (∀ x ∈ View.minInvolved ⟨reachable, "T"⟩ called ∅ 3, called.share? x = calledAt.share? x) ∧
    (∀ x ∈ View.maxInvolved ⟨reachable, "T"⟩ called (some "mail") ∅ 3,
      called.share? x = calledAt.share? x) ∧
    called.share? 6 ≠ calledAt.share? 6 ∧
    View.minCount ⟨reachable, "T"⟩ calledAt 3 = View.minCount ⟨reachable, "T"⟩ called 3 ∧
    View.maxCount ⟨reachable, "T"⟩ calledAt (some "mail") 3 =
      View.maxCount ⟨reachable, "T"⟩ called (some "mail") 3 := by
  have hmin : ∀ x ∈ View.minInvolved ⟨reachable, "T"⟩ called ∅ 3,
      called.share? x = calledAt.share? x := by
    have hreads : View.minReads ⟨reachable, "T"⟩ called 3 = [4] := by decide +kernel
    intro x hx
    rw [mem_minInvolved_empty, hreads, List.mem_singleton] at hx
    rw [hx]
    decide +kernel
  have hmax : ∀ x ∈ View.maxInvolved ⟨reachable, "T"⟩ called (some "mail") ∅ 3,
      called.share? x = calledAt.share? x := by
    have hreads : View.maxReads ⟨reachable, "T"⟩ called (some "mail") 3 = [4] := by decide +kernel
    intro x hx
    rw [mem_maxInvolved_empty, hreads, List.mem_singleton] at hx
    rw [hx]
    decide +kernel
  obtain ⟨hcount, hmost, -⟩ := involved_complete ⟨reachable, "T"⟩ called (some "mail") 3
  exact ⟨hmin, hmax, by decide +kernel, (hcount calledAt hmin).1, (hmost calledAt hmax).1⟩

/-- The nodes of a violation are the nodes that the windows of its writers collect one after the other, with
the writers themselves. -/
theorem involved_eq_foldl (w : View) (q : Quantities) (nodes : List Nat) :
    w.involved q nodes = nodes.foldl
      (fun known v => w.maxInvolved q none (w.minInvolved q (known.insert v) v) v) ∅ := by
  have hfold : ∀ (known : IdSet) (x : Nat), x ∈ nodes.foldl
        (fun known v => w.maxInvolved q none (w.minInvolved q (known.insert v) v) v) known ↔
      x ∈ known ∨ x ∈ nodes.flatMap fun v => v :: w.minReads q v ++ w.maxReads q none v := by
    intro known x
    induction nodes generalizing known with
    | nil => simp
    | cons v nodes ih =>
      rw [List.foldl_cons, ih, mem_maxInvolved, mem_minInvolved, Std.ExtTreeSet.mem_insert,
        List.flatMap_cons]
      simp only [Nat.compare_eq_eq, List.cons_append, List.mem_cons, List.mem_append, eq_comm (a := v),
        or_assoc]
      exact or_left_comm
  apply Std.ExtTreeSet.ext_mem
  intro x
  rw [hfold]
  simp [involved]

/-! ## A node is not involved in its own window -/

/-- Two states that differ in the share of a node alone, or in whether it has one, give it the same window;
the node is never collected for it. -/
theorem window_frame (he : exclude = none ∨ exclude = w.rule.field? v)
    (h : ∀ x, x ≠ v → q.share? x = q'.share? x) :
    w.window q exclude v = w.window q' exclude v ∧
      ∀ p : Quantities, v ∉ w.minInvolved p ∅ v ∧ v ∉ w.maxInvolved p exclude ∅ v := by
  have hleast : ∀ p, v ∉ w.minInvolved p ∅ v := fun p hv => not_mem_minReads (mem_minInvolved_empty.1 hv)
  have hmost : ∀ p, v ∉ w.maxInvolved p exclude ∅ v := fun p hv =>
    not_mem_maxReads he (mem_maxInvolved_empty.1 hv)
  have hmin : (w.minQuery v).run q' ∅ = (w.minQuery v).run q ∅ := by
    apply Query.run_congr
    intro x hx
    exact h x fun heq => hleast q (heq ▸ hx)
  have hmax : (w.maxQuery exclude v).run q' ∅ = (w.maxQuery exclude v).run q ∅ := by
    apply Query.run_congr
    intro x hx
    exact h x fun heq => hmost q (heq ▸ hx)
  rw [run_minQuery_empty, run_minQuery_empty] at hmin
  rw [run_maxQuery_empty, run_maxQuery_empty] at hmax
  refine ⟨?_, fun p => ⟨hleast p, hmost p⟩⟩
  unfold window
  rw [(Prod.mk.inj hmin).1, (Prod.mk.inj hmax).1]

/-- Whether streets are counted makes no difference to the window of the street. -/
theorem window_frame_street :
    (some "street" = none ∨ some "street" = reachable.field? 6) ∧
    (∀ x, x ≠ 6 → called.share? x = (called.assign 6 1).share? x) ∧
    View.window ⟨reachable, "T"⟩ called (some "street") 6 =
      View.window ⟨reachable, "T"⟩ (called.assign 6 1) (some "street") 6 := by
  have he : some "street" = none ∨ some "street" = reachable.field? 6 := .inr (by decide +kernel)
  have h : ∀ x, x ≠ 6 → called.share? x = (called.assign 6 1).share? x := by
    intro x hx
    rw [Quantities.share?_assign, if_neg hx.symm]
  exact ⟨he, h, (window_frame (w := ⟨reachable, "T"⟩) he h).1⟩

end RuleCardinality.View
