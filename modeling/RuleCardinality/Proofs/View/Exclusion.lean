import RuleCardinality.Proofs.Rule.Common
import RuleCardinality.Proofs.View.Child

/-!
# What the exclusion of a field does to a maximum

With a field excluded, a branch of an alternative is dead also for what it lacks itself, unless the alternative
can repeat. Nothing in such a branch can fire (`maxCount_of_starved`), since a maximum of zero is handed down as
it is. Every other maximum stays the same, because a container with the same maximum hands down the same
(`mostIn_some`). So exclusion takes away whole branches and changes nothing else (`maxCount_exclude_kills`).
-/

namespace RuleCardinality.View

variable {w : View} {q : Quantities} {field : String} {v c p : Nat}

/-- The node stands in a branch that lacks something of another field, in an alternative that cannot repeat. -/
def Starved (w : View) (q : Quantities) (field : String) (v : Nat) : Prop :=
  ∃ b ∈ w.rule.line v, ∃ a, w.rule.container b = some a ∧ w.rule.shape a = .alternative ∧
    w.rule.repeatable a = false ∧ w.unavailable q field b = true

theorem starved_child (hc : c ∈ w.rule.children p) (h : w.Starved q field p) : w.Starved q field c := by
  obtain ⟨b, hb, hlacks⟩ := h
  exact ⟨b, Rule.mem_line_iff.2 (.inr ⟨p, Rule.mem_children.1 hc, hb⟩), hlacks⟩

theorem maxCount_of_starved (h : w.Starved q field v) : w.maxCount q (some field) v = 0 := by
  obtain ⟨b, hbv, a, ha, hs, hr, hlacks⟩ := h
  have hc : b ∈ w.rule.children a := Rule.mem_children.2 ha
  refine maxCount_eq_zero_of_mem_subtree ?_ (Rule.mem_subtree_iff.2 hbv)
  rw [maxCount_eq_zero_iff, mostAbove_child hc]
  cases hb : w.blocked a with
  | true => rw [mostIn_eq_mostAbove, if_pos hb]
  | false =>
    have hdead : w.branchDead q (some field) a b = true := branchDead_some_iff.2 (.inl ⟨hc, hlacks⟩)
    rw [mostIn_alternative hb hs, hr, hdead]
    rfl

/-- A container whose maximum is not changed hands down the same to a child, unless the child is a branch that
lacks something. -/
theorem mostIn_some (hc : c ∈ w.rule.children p)
    (hsame : w.maxCount q (some field) p = w.maxCount q none p)
    (hlacks : w.rule.shape p = .alternative → w.rule.repeatable p = false →
      w.unavailable q field c = false) :
    w.mostIn q (some field) p c = w.mostIn q none p c := by
  cases hb : w.blocked p with
  | true => rw [mostIn_eq_mostAbove, mostIn_eq_mostAbove, if_pos hb, if_pos hb]
  | false =>
    rcases Rule.composite_of_mem_children hc with hs | hs
    · rw [mostIn_group hb hs, mostIn_group hb hs]
      unfold narrowed
      rw [hsame]
    · rw [mostIn_alternative hb hs, mostIn_alternative hb hs, hsame]
      cases hr : w.rule.repeatable p with
      | true => rfl
      | false =>
        have hdead : w.branchDead q (some field) p c = w.branchDead q none p c := by
          rw [Bool.eq_iff_iff, branchDead_some_iff, hlacks hs hr]
          simp
        rw [hdead]

/-- What can fire only without exclusion stands in a branch that lacks something. -/
theorem starved_of_maxCount (hzero : w.maxCount q (some field) v = 0)
    (hfires : w.maxCount q none v ≠ 0) : w.Starved q field v := by
  induction v using Rule.induction_up (r := w.rule) with
  | step v ih =>
    rw [maxCount_eq_zero_iff] at hzero
    rw [Ne, maxCount_eq_zero_iff] at hfires
    cases hp : w.rule.container v with
    | none =>
      unfold mostAbove at hzero hfires
      rw [hp] at hzero hfires
      exact absurd hzero hfires
    | some p =>
      have hc : v ∈ w.rule.children p := Rule.mem_children.2 hp
      rw [mostAbove_child hc] at hzero hfires
      have habove : w.maxCount q none p ≠ 0 := fun h => hfires (mostIn_of_maxCount_eq_zero h v)
      rcases maxCount_exclude w q field p with hkilled | hsame
      · exact starved_child hc (ih p hp hkilled habove)
      · -- The container is as it was, so it is the node itself that lacks something.
        by_contra hnot
        refine hfires ((mostIn_some hc hsame fun hs hr => ?_) ▸ hzero)
        by_contra hlacks
        exact hnot ⟨v, w.rule.self_mem_line v, p, hp, hs, hr, by simpa using hlacks⟩

/-- To exclude a field either leaves a maximum as it is or makes it zero. It is zero for the nodes that cannot
fire anyway, and for those in a branch that lacks something of another field in an alternative that cannot
repeat. -/
theorem maxCount_exclude_kills (w : View) (q : Quantities) (field : String) (v : Nat) :
    (w.maxCount q (some field) v = 0 ∨ w.maxCount q (some field) v = w.maxCount q none v) ∧
      (w.maxCount q (some field) v = 0 ↔ w.maxCount q none v = 0 ∨ w.Starved q field v) := by
  refine ⟨maxCount_exclude w q field v, fun hzero => ?_, ?_⟩
  · by_cases hfires : w.maxCount q none v = 0
    · exact .inl hfires
    · exact .inr (starved_of_maxCount hzero hfires)
  · rintro (hnone | hstarved)
    · rcases maxCount_exclude w q field v with hzero | hsame
      · exact hzero
      · exact hsame.trans hnone
    · exact maxCount_of_starved hstarved

/-- A journey is a route from somewhere to somewhere in one or more legs, or a place. -/
def journey : Rule :=
  ((Rule.ofAdditions "Journey"
    [.root { shape := .alternative }, .child 0 { shape := .group }, .child 1 { shape := .assignment "from" },
      .child 1 { shape := .assignment "to" },
      .child 1 { shape := .group, repeatable := true }, .child 4 { shape := .assignment "leg" },
      .child 0 { shape := .assignment "place" }]).toOption).get (by decide +kernel)

/-- Without a destination there is no route to put a leg in, although the legs could be any number. -/
example :
    let q := Quantities.empty.assign 3 0
    View.maxCount ⟨journey, "T"⟩ q none 4 = .unbounded ∧
      View.maxCount ⟨journey, "T"⟩ q (some "leg") 4 = 0 ∧
      View.maxCount ⟨journey, "T"⟩ q (some "to") 4 = .unbounded := by
  decide +kernel

end RuleCardinality.View
