import RuleCardinality.Proofs.Rule.Common
import RuleCardinality.Proofs.Rule.Firing
import RuleCardinality.View.Reads

/-!
# Windows rest on the shares of assignments

Every node that a computation of a demand, a supply or a window consults is an assignment of the rule
(`isSome_field?_minReads`, `isSome_field?_maxReads`). Demands and supplies of a node consult nodes at or
below it. A window consults the other branches at the containers above its node, and the branch of the node
itself only for a lack of a field that is not excluded; so it does not consult its own node
(`not_mem_minReads`, `not_mem_maxReads`).
-/

namespace RuleCardinality.View

variable {w : View} {q : Quantities} {exclude : Option String} {field : String} {u v c d x : Nat}

theorem mem_of_mem_upTo {α : Type} {stop : α → Bool} {as : List α} {a : α} (h : a ∈ upTo stop as) :
    a ∈ as := by
  induction as with
  | nil => exact h
  | cons b as ih =>
    unfold upTo at h
    split at h
    · exact List.mem_cons.2 (.inl (List.mem_singleton.1 h))
    · exact List.mem_cons.2 ((List.mem_cons.1 h).imp_right ih)

/-! ## From below -/

/-- The node `x` is an assignment at or below `v`. -/
structure Feeds (w : View) (x v : Nat) : Prop where
  line : v ∈ w.rule.line x
  assigns : (w.rule.field? x).isSome

namespace Feeds

theorem self {own : String} (hs : w.rule.shape v = .assignment own) : w.Feeds v v :=
  ⟨w.rule.self_mem_line v, by rw [Rule.field?_of_assignment hs]; rfl⟩

theorem container (h : w.Feeds x c) (hc : c ∈ w.rule.children v) : w.Feeds x v :=
  ⟨Rule.mem_line_of_container h.line (Rule.mem_children.1 hc), h.assigns⟩

/-- What feeds another child of a node does not stand below the child. -/
theorem not_mem_line (h : w.Feeds x d) (hd : d ∈ w.rule.others v c) (hc : c ∈ w.rule.children v) :
    c ∉ w.rule.line x := by
  intro hcx
  obtain ⟨hdv, hdc⟩ := Rule.mem_others.1 hd
  exact hdc (Rule.eq_of_mem_line h.line hcx (Rule.mem_children.1 hdv) (Rule.mem_children.1 hc))

end Feeds

theorem feeds_demandReads (hx : x ∈ w.demandReads v) : w.Feeds x v := by
  induction v using Rule.induction_down (r := w.rule) with
  | step v ih =>
    have hbelow : x ∈ (w.rule.children v).flatMap w.demandReads → w.Feeds x v := by
      intro hx
      obtain ⟨c, hc, hxc⟩ := List.mem_flatMap.1 hx
      exact (ih c hc hxc).container hc
    rw [demandReads_eq] at hx
    split at hx
    · cases hx
    · split at hx
      · rename_i own hs
        rw [List.mem_singleton.1 hx]
        exact .self hs
      · exact hbelow hx
      · exact hbelow hx
      · cases hx

theorem feeds_supplyReads (hx : x ∈ w.supplyReads q v) : w.Feeds x v := by
  induction v using Rule.induction_down (r := w.rule) with
  | step v ih =>
    have hbelow : ∀ b ∈ (w.rule.children v).map fun c => (w.supply q c, w.supplyReads q c),
        x ∈ b.2 → w.Feeds x v := by
      rintro b hb hx
      obtain ⟨c, hc, rfl⟩ := List.mem_map.1 hb
      exact (ih c hc hx).container hc
    rw [supplyReads_eq] at hx
    split at hx
    · cases hx
    · split at hx
      · cases hx
      · simp only at hx
        split at hx
        · rename_i own hs
          rw [List.mem_singleton.1 hx]
          exact .self hs
        · obtain ⟨b, hb, hxb⟩ := List.mem_flatMap.1 hx
          exact hbelow b hb hxb
        · obtain ⟨b, hb, hxb⟩ := List.mem_flatMap.1 hx
          exact hbelow b (mem_of_mem_upTo hb) hxb
        · cases hx

/-- A lack is looked for in other fields only. -/
theorem feeds_unavailableReads (hx : x ∈ w.unavailableReads q field v) :
    w.Feeds x v ∧ w.rule.field? x ≠ some field := by
  induction v using Rule.induction_down (r := w.rule) with
  | step v ih =>
    have hbelow : ∀ b ∈ (w.rule.children v).map fun c =>
          (w.unavailable q field c, w.unavailableReads q field c),
        x ∈ b.2 → w.Feeds x v ∧ w.rule.field? x ≠ some field := by
      rintro b hb hx
      obtain ⟨c, hc, rfl⟩ := List.mem_map.1 hb
      exact ⟨(ih c hc hx).1.container hc, (ih c hc hx).2⟩
    rw [unavailableReads_eq] at hx
    split at hx
    · cases hx
    · simp only at hx
      split at hx
      · rename_i own hs
        split at hx
        · cases hx
        · rename_i hother
          rw [List.mem_singleton.1 hx]
          refine ⟨.self hs, ?_⟩
          rw [Rule.field?_of_assignment hs]
          exact fun h => hother (Option.some.inj h)
      · obtain ⟨b, hb, hxb⟩ := List.mem_flatMap.1 hx
        exact hbelow b (mem_of_mem_upTo hb) hxb
      · obtain ⟨b, hb, hxb⟩ := List.mem_flatMap.1 hx
        exact hbelow b (mem_of_mem_upTo hb) hxb
      · cases hx

/-! ## Windows -/

/-- What a container leaves at least to a child is read off the other branches. -/
theorem aside_leastReads (hc : c ∈ w.rule.children v) (hx : x ∈ w.leastReads q v c) :
    (w.rule.field? x).isSome ∧ c ∉ w.rule.line x := by
  induction v using Rule.induction_up (r := w.rule) generalizing c with
  | step v ih =>
    have habove : x ∈ (w.rule.container v).elim [] (fun p => w.leastReads q p v) →
        (w.rule.field? x).isSome ∧ c ∉ w.rule.line x := by
      intro hx
      cases hp : w.rule.container v with
      | none => simp [hp] at hx
      | some p =>
        obtain ⟨hf, hv⟩ := ih p hp (Rule.mem_children.2 hp) (by simpa [hp] using hx)
        exact ⟨hf, fun hcx => hv (Rule.mem_line_of_container hcx (Rule.mem_children.1 hc))⟩
    have hothers : ∀ cs : List Nat, (∀ d ∈ cs, d ∈ w.rule.others v c) → x ∈ cs.flatMap w.demandReads →
        (w.rule.field? x).isSome ∧ c ∉ w.rule.line x := by
      intro cs hcs hx
      obtain ⟨d, hd, hxd⟩ := List.mem_flatMap.1 hx
      have hfeeds := feeds_demandReads hxd
      exact ⟨hfeeds.assigns, hfeeds.not_mem_line (hcs d hd) hc⟩
    rw [leastReads_eq] at hx
    split at hx
    · cases hx
    · simp only at hx
      split at hx
      · split at hx
        · cases hx
        · rcases List.mem_append.1 hx with hx | hx
          · exact hothers _ (fun _ => id) hx
          · exact habove (List.mem_ite_nil_left.1 hx).2
      · split at hx
        · cases hx
        · rcases List.mem_append.1 hx with hx | hx
          · exact hothers _ (fun _ => mem_of_mem_upTo) hx
          · exact habove (List.mem_ite_nil_left.1 hx).2
      · cases hx

/-- Whether a branch is dead is read off the other branches, and off its own without the excluded field. -/
theorem aside_branchReads (hc : c ∈ w.rule.children v) (hx : x ∈ w.branchReads q exclude v c) :
    (w.rule.field? x).isSome ∧
      (exclude = none ∨ exclude = w.rule.field? x → c ∉ w.rule.line x) := by
  unfold branchReads at hx
  obtain ⟨b, hb, hxb⟩ := List.mem_flatMap.1 hx
  obtain ⟨d, hd, rfl⟩ := List.mem_map.1 (mem_of_mem_upTo hb)
  split at hxb
  · cases exclude with
    | none => cases hxb
    | some field =>
      obtain ⟨hfeeds, hne⟩ := feeds_unavailableReads hxb
      refine ⟨hfeeds.assigns, ?_⟩
      rintro (hnone | hown)
      · cases hnone
      · exact absurd hown.symm hne
  · rename_i hne
    have hfeeds := feeds_demandReads hxb
    exact ⟨hfeeds.assigns, fun _ => hfeeds.not_mem_line (Rule.mem_others.2 ⟨hd, hne⟩) hc⟩

theorem aside_mostReads (hc : c ∈ w.rule.children v) (hx : x ∈ w.mostReads q exclude v c) :
    (w.rule.field? x).isSome ∧
      (exclude = none ∨ exclude = w.rule.field? x → c ∉ w.rule.line x) := by
  induction v using Rule.induction_up (r := w.rule) generalizing c with
  | step v ih =>
    rw [mostReads_eq] at hx
    split at hx
    · cases hx
    · generalize habove : (w.rule.container v).elim
        (if w.rule.repeatable v then Count.unbounded else 1, ([] : List Nat))
        (fun p => (w.mostIn q exclude p v, w.mostReads q exclude p v)) = above at hx
      simp only at hx
      rcases List.mem_append.1 hx with hx | hx
      · cases hp : w.rule.container v with
        | none => simp [← habove, hp] at hx
        | some p =>
          obtain ⟨hf, hv⟩ :=
            ih p hp (Rule.mem_children.2 hp) (by simpa [← habove, hp] using hx)
          refine ⟨hf, fun he hcx => hv he ?_⟩
          exact Rule.mem_line_of_container hcx (Rule.mem_children.1 hc)
      · split at hx
        · cases hx
        · split at hx
          · obtain ⟨d, hd, hxd⟩ := List.mem_flatMap.1 (List.mem_ite_nil_right.1 hx).2
            have hfeeds := feeds_supplyReads hxd
            exact ⟨hfeeds.assigns, fun _ => hfeeds.not_mem_line hd hc⟩
          · exact aside_branchReads hc (List.mem_ite_nil_left.1 hx).2
          · cases hx

theorem aside_minReads (hx : x ∈ w.minReads q v) :
    (w.rule.field? x).isSome ∧ v ∉ w.rule.line x := by
  unfold minReads at hx
  split at hx
  · cases hx
  · cases hp : w.rule.container v with
    | none => simp [hp] at hx
    | some p => exact aside_leastReads (Rule.mem_children.2 hp) (by simpa [hp] using hx)

theorem aside_maxReads (hx : x ∈ w.maxReads q exclude v) :
    (w.rule.field? x).isSome ∧
      (exclude = none ∨ exclude = w.rule.field? x → v ∉ w.rule.line x) := by
  unfold maxReads at hx
  cases hp : w.rule.container v with
  | none => simp [hp] at hx
  | some p => exact aside_mostReads (Rule.mem_children.2 hp) (by simpa [hp] using hx)

theorem isSome_field?_minReads (hx : x ∈ w.minReads q v) : (w.rule.field? x).isSome :=
  (aside_minReads hx).1

theorem isSome_field?_maxReads (hx : x ∈ w.maxReads q exclude v) : (w.rule.field? x).isSome :=
  (aside_maxReads hx).1

theorem not_mem_minReads : v ∉ w.minReads q v := fun hv =>
  (aside_minReads hv).2 (w.rule.self_mem_line v)

theorem not_mem_maxReads (he : exclude = none ∨ exclude = w.rule.field? v) :
    v ∉ w.maxReads q exclude v := fun hv =>
  (aside_maxReads hv).2 he (w.rule.self_mem_line v)

end RuleCardinality.View
