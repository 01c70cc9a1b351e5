import Mathlib.Logic.ExistsUnique
import RuleCardinality.Proofs.Rule.Firing

/-!
# Choices of firing nodes

Where no composite node repeats, a run is a choice of the nodes that fire. The choice leaves values
under every node that fires and is not nullable (`Choice.filled_of_nonNullable`), and it leaves none
under a node that does not fire, so in a selective rule its branches can be told from the values.
-/

namespace RuleCardinality.Rule

variable {r : Rule} {count : String → Nat} {on : Nat → Prop} {v c d k : Nat} {field : String}

/-- Whether a node leaves a value whenever it is visited. -/
def nonNullable (r : Rule) (v : Nat) : Bool :=
  !r.optional v &&
    match r.shape v with
    | .assignment _ => true
    | .group => (r.children v).attach.any fun c => r.nonNullable c.1
    | .alternative => (r.children v).attach.all fun c => r.nonNullable c.1
    | .action => false
termination_by r.size - v
decreasing_by all_goals exact sub_lt_of_mem_children c.2

theorem nonNullable_eq (r : Rule) (v : Nat) :
    r.nonNullable v = (!r.optional v &&
      match r.shape v with
      | .assignment _ => true
      | .group => (r.children v).any r.nonNullable
      | .alternative => (r.children v).all r.nonNullable
      | .action => false) := by
  rw [nonNullable]; simp

theorem optional_of_nonNullable (h : r.nonNullable v = true) : r.optional v = false := by
  rw [nonNullable_eq, Bool.and_eq_true, Bool.not_eq_true'] at h
  exact h.1

theorem exists_nonNullable_child (h : r.nonNullable v = true) (hs : r.shape v = .group) :
    ∃ c ∈ r.children v, r.nonNullable c = true := by
  rw [nonNullable_eq, hs, Bool.and_eq_true] at h
  exact List.any_eq_true.1 h.2

/-- A rule without actions in which only assignments repeat, every alternative has branches, and no branch
can be taken without leaving a value. -/
structure Selective (r : Rule) : Prop where
  actionless : r.Actionless
  single : ∀ v ∈ r.ids, r.field? v = none → r.repeatable v = false
  nonempty : ∀ v ∈ r.ids, r.shape v = .alternative → r.children v ≠ []
  nonNullable : ∀ v ∈ r.ids, r.shape v = .alternative → ∀ c ∈ r.children v, r.nonNullable c = true

theorem Selective.exists_branch (hr : r.Selective) (hs : r.shape v = .alternative) :
    ∃ c ∈ r.children v, r.nonNullable c = true := by
  have hv : v ∈ r.ids := mem_ids_of_shape_ne (by simp [hs])
  obtain ⟨c, hc⟩ := List.exists_mem_of_ne_nil _ (hr.nonempty v hv hs)
  exact ⟨c, hc, hr.nonNullable v hv hs c hc⟩

theorem Selective.repeatable_of_mem_children (hr : r.Selective) (hc : c ∈ r.children v) :
    r.repeatable v = false := by
  refine hr.single v (mem_ids_of_mem_children hc) ?_
  rcases composite_of_mem_children hc with hs | hs
  · exact field?_of_group hs
  · exact field?_of_alternative hs

/-- Above a node that does not repeat nothing does. -/
theorem Selective.repeatable_line (hr : r.Selective) (hrep : r.repeatable v = false) :
    ∀ x ∈ r.line v, r.repeatable x = false := by
  induction v using induction_up (r := r) with
  | step v ih =>
    intro x hx
    rcases mem_line_iff.1 hx with rfl | ⟨p, hp, hx⟩
    · exact hrep
    · exact ih p hp (hr.repeatable_of_mem_children (mem_children.2 hp)) x hx

/-- A choice of nodes that fire together: the root unless it may be left out, the mandatory children of a
group exactly with the group and the optional ones only with it, one branch of each firing alternative.
A field is unset if its assignment does not fire, and else set once, or at least once if the assignment
repeats. -/
structure Choice (r : Rule) (count : String → Nat) (on : Nat → Prop) : Prop where
  root : r.optional r.root = false → on r.root
  mandatory : ∀ {v : Nat}, r.shape v = .group → ∀ c ∈ r.children v, r.optional c = false → (on c ↔ on v)
  optional : ∀ {v : Nat}, r.shape v = .group → ∀ c ∈ r.children v, r.optional c = true → on c → on v
  branch : ∀ {v : Nat}, r.shape v = .alternative → on v → ∃! c, c ∈ r.children v ∧ on c
  silent : ∀ {v : Nat}, r.shape v = .alternative → ¬ on v → ∀ c ∈ r.children v, ¬ on c
  unset : ∀ v field, r.field? v = some field → ¬ on v → count field = 0
  once : ∀ v field, r.field? v = some field → on v → r.repeatable v = false → count field = 1
  often : ∀ v field, r.field? v = some field → on v → r.repeatable v = true → 1 ≤ count field

namespace Choice

theorem on_container (h : r.Choice count on) (hc : c ∈ r.children v) (hon : on c) : on v := by
  rcases composite_of_mem_children hc with hs | hs
  · by_cases ho : r.optional c = true
    · exact h.optional hs c hc ho hon
    · exact (h.mandatory hs c hc (by simpa using ho)).1 hon
  · by_contra hoff
    exact h.silent hs hoff c hc hon

/-! ## The run of a choice -/

open Classical in
/-- How often the nodes of a choice fire. -/
noncomputable def fired (r : Rule) (count : String → Nat) (on : Nat → Prop) (v : Nat) : Nat :=
  if on v then (r.field? v).elim 1 count else 0

open Classical in
/-- How often the nodes of a choice are visited: with their group, or only if their alternative takes
them. -/
noncomputable def visits (r : Rule) (on : Nat → Prop) (v : Nat) : Nat :=
  (r.container v).elim 1 fun p =>
    if r.shape p = .alternative then (if on v then 1 else 0) else if on p then 1 else 0

theorem visits_root : visits r on r.root = 1 := by
  rw [visits, container_root]
  rfl

theorem visits_group (hs : r.shape v = .group) (hc : c ∈ r.children v) :
    visits r on c = fired r count on v := by
  rw [visits, fired, mem_children.1 hc, field?_of_group hs]
  simp [hs]

theorem visits_of_taken (hs : r.shape v = .alternative) (hc : c ∈ r.children v) (hon : on c) :
    visits r on c = 1 := by
  rw [visits, mem_children.1 hc]
  simp [hs, hon]

theorem visits_of_passed (hs : r.shape v = .alternative) (hc : c ∈ r.children v) (hoff : ¬ on c) :
    visits r on c = 0 := by
  rw [visits, mem_children.1 hc]
  simp [hs, hoff]

theorem fired_of_on (hon : on v) : fired r count on v = (r.field? v).elim 1 count := if_pos hon

theorem fired_of_off (hoff : ¬ on v) : fired r count on v = 0 := if_neg hoff

theorem fired_composite (hf : r.field? v = none) (hon : on v) : fired r count on v = 1 := by
  rw [fired_of_on hon, hf]
  rfl

theorem fired_assignment (h : r.Choice count on) (hf : r.field? v = some field) :
    fired r count on v = count field := by
  by_cases hon : on v
  · rw [fired_of_on hon, hf]
    rfl
  · rw [fired_of_off hon, h.unset v field hf hon]

theorem fits_fired (h : r.Choice count on) (hon : on v) :
    r.Fits v (fired r count on v) 1 := by
  rw [fits_iff]
  cases hf : r.field? v with
  | none =>
    rw [fired_composite hf hon]
    exact ⟨fun _ => Nat.le_refl 1, fun _ => Nat.le_refl 1, fun h => absurd h (by decide)⟩
  | some field =>
    rw [fired_assignment h hf]
    cases hrep : r.repeatable v with
    | false =>
      rw [h.once v field hf hon hrep]
      exact ⟨fun _ => Nat.le_refl 1, fun _ => Nat.le_refl 1, fun h => absurd h (by decide)⟩
    | true =>
      exact ⟨fun _ => h.often v field hf hon hrep, fun h => absurd h (by decide),
        fun h => absurd h (by decide)⟩

theorem fits (h : r.Choice count on) (hv : v < r.size) :
    r.Fits v (fired r count on v) (visits r on v) := by
  cases hp : r.container v with
  | none =>
    rw [eq_root_of_container hv hp, visits_root]
    by_cases hon : on r.root
    · exact h.fits_fired hon
    · rw [fired_of_off hon]
      exact fits_zero fun ho => absurd (h.root ho) hon
  | some p =>
    have hc : v ∈ r.children p := mem_children.2 hp
    rcases composite_of_mem_children hc with hs | hs
    · have hvisits : visits r on v = fired r count on p := visits_group hs hc
      rw [hvisits]
      by_cases hon : on v
      · rw [fired_composite (field?_of_group hs) (h.on_container hc hon)]
        exact h.fits_fired hon
      · rw [fired_of_off hon]
        refine fits_zero fun ho => fired_of_off ?_
        rwa [← h.mandatory hs v hc ho]
    · by_cases hon : on v
      · rw [visits_of_taken hs hc hon]
        exact h.fits_fired hon
      · rw [visits_of_passed hs hc hon, fired_of_off hon]
        exact fits_zero fun _ => rfl

theorem sum_visits (h : r.Choice count on) (hs : r.shape v = .alternative) :
    sumOf (visits r on) (r.children v) = fired r count on v := by
  by_cases hon : on v
  · obtain ⟨c, ⟨hc, hcon⟩, hunique⟩ := h.branch hs hon
    have hothers : sumOf (visits r on) ((r.children v).filter (· != c)) = 0 := by
      rw [sumOf_eq_zero_iff]
      intro d hd
      obtain ⟨hd, hne⟩ := List.mem_filter.1 hd
      refine visits_of_passed hs hd fun hdon => ?_
      simp [hunique d ⟨hd, hdon⟩] at hne
    rw [sumOf_eq_add_filter (nodup_children r v) hc, hothers, visits_of_taken hs hc hcon,
      fired_composite (field?_of_alternative hs) hon]
  · rw [fired_of_off hon, sumOf_eq_zero_iff]
    intro c hc
    exact visits_of_passed hs hc (h.silent hs hon c hc)

theorem flow (h : r.Choice count on) : r.Flow (visits r on) (fired r count on) where
  root := visits_root
  fits _ hv := h.fits (List.mem_range.1 hv)
  group hs _ hc := visits_group hs hc
  alternative hs := h.sum_visits hs

/-! ## Its values -/

theorem on_of_filled (h : r.Choice count on) (hf : r.Filled (fired r count on) v) : on v := by
  induction v using induction_down (r := r) with
  | step v ih =>
    rcases filled_iff.1 hf with ⟨-, hpos⟩ | ⟨c, hc, hfc⟩
    · by_contra hoff
      rw [fired_of_off hoff] at hpos
      exact absurd hpos (Nat.lt_irrefl 0)
    · exact h.on_container hc (ih c hc hfc)

theorem filled_of_nonNullable (h : r.Choice count on) (hv : r.nonNullable v = true) (hon : on v) :
    r.Filled (fired r count on) v := by
  induction v using induction_down (r := r) with
  | step v ih =>
    cases hs : r.shape v with
    | assignment field =>
      have hf : r.field? v = some field := field?_of_assignment hs
      rw [filled_assignment_iff hf, h.fired_assignment hf]
      cases hrep : r.repeatable v with
      | false => exact Nat.lt_of_lt_of_eq Nat.one_pos (h.once v field hf hon hrep).symm
      | true => exact h.often v field hf hon hrep
    | group =>
      obtain ⟨c, hc, hcn⟩ := exists_nonNullable_child hv hs
      have hcon : on c := (h.mandatory hs c hc (optional_of_nonNullable hcn)).2 hon
      exact filled_of_child hc (ih c hc hcn hcon)
    | alternative =>
      obtain ⟨c, ⟨hc, hcon⟩, -⟩ := h.branch hs hon
      rw [nonNullable_eq, hs, Bool.and_eq_true] at hv
      exact filled_of_child hc (ih c hc (List.all_eq_true.1 hv.2 c hc) hcon)
    | action =>
      rw [nonNullable_eq, hs] at hv
      simp at hv

theorem exclusive (h : r.Choice count on) : r.Exclusive (fired r count on) := by
  intro v _ hs _ c hc d hd hfc hfd
  have hon : on v := h.on_container hc (h.on_of_filled hfc)
  obtain ⟨_, _, hunique⟩ := h.branch hs hon
  rw [hunique c ⟨hc, h.on_of_filled hfc⟩, hunique d ⟨hd, h.on_of_filled hfd⟩]

theorem visible (h : r.Choice count on) (hr : r.Selective) :
    r.Visible (visits r on) (fired r count on) := by
  intro v hv hs _ c _ _ d hd _ hpos
  refine h.filled_of_nonNullable (hr.nonNullable v hv hs d hd) ?_
  by_contra hoff
  rw [visits_of_passed hs hd hoff] at hpos
  exact absurd hpos (Nat.lt_irrefl 0)

end Choice

end RuleCardinality.Rule
