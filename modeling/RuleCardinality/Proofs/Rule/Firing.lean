import RuleCardinality.Proofs.Rule.Order
import RuleCardinality.Proofs.Sums

/-!
# How often nodes fire

One run of a rule visits every node some number of times, and at each visit the node fires as often as
its cardinality allows. A firing group visits all its children and a firing alternative one of them.
`Flow` is what this leaves between the numbers of visits and of firings; `Exclusive` and `Visible` say how
much the firings of the assignments tell about the branches taken. In a rule of groups and assignments
the visits follow from the firings, and `Firing` is about the latter alone.
-/

namespace RuleCardinality.Rule

variable {r : Rule} {v c m m' k k' : Nat} {field : String} {n n' : Nat → Nat}

/-! ## Shapes -/

/-- No node of the rule is an action. -/
def Actionless (r : Rule) : Prop := ∀ v ∈ r.ids, r.shape v ≠ .action

instance (r : Rule) : Decidable r.Actionless :=
  inferInstanceAs (Decidable (∀ v ∈ r.ids, r.shape v ≠ .action))

theorem lt_size_of_shape_ne (hs : r.shape v ≠ .action) : v < r.size := by
  by_contra hv
  have hnone : r.parts[v]? = none := Array.getElem?_eq_none (Nat.le_of_not_lt hv)
  exact hs (by simp [shape, spec, hnone, inert])

theorem mem_ids_of_shape_ne (hs : r.shape v ≠ .action) : v ∈ r.ids :=
  List.mem_range.2 (lt_size_of_shape_ne hs)

theorem shape_of_field? (hf : r.field? v = some field) : r.shape v = .assignment field := by
  unfold field? at hf
  cases hs : r.shape v <;> simp_all [Shape.field?]

theorem field?_of_assignment (hs : r.shape v = .assignment field) : r.field? v = some field := by
  simp [field?, hs, Shape.field?]

theorem field?_of_group (hs : r.shape v = .group) : r.field? v = none := by
  simp [field?, hs, Shape.field?]

theorem field?_of_alternative (hs : r.shape v = .alternative) : r.field? v = none := by
  simp [field?, hs, Shape.field?]

/-- A node with children is a group or an alternative. -/
theorem composite_of_mem_children (hc : c ∈ r.children v) :
    r.shape v = .group ∨ r.shape v = .alternative := by
  obtain ⟨p, hp, hcontainer⟩ := Option.bind_eq_some_iff.1 (mem_children.1 hc)
  have hlt : v < r.parts.size := Nat.lt_trans (lt_of_mem_children hc).1 (lt_of_mem_children hc).2
  have hleaf := r.wellFormed.composite hp hcontainer (Array.getElem?_eq_getElem hlt)
  have hshape : r.shape v = r.parts[v].shape := by
    simp [shape, spec, Array.getElem?_eq_getElem hlt]
  rw [← hshape] at hleaf
  cases hs : r.shape v with
  | assignment field => rw [hs] at hleaf; exact absurd hleaf (by simp [Shape.isLeaf])
  | action => rw [hs] at hleaf; exact absurd hleaf (by simp [Shape.isLeaf])
  | group => exact .inl rfl
  | alternative => exact .inr rfl

theorem children_of_isLeaf (hv : (r.shape v).isLeaf = true) : r.children v = [] := by
  refine List.eq_nil_iff_forall_not_mem.2 fun c hc => ?_
  rcases composite_of_mem_children hc with hs | hs <;> simp [hs, Shape.isLeaf] at hv

theorem children_of_field? (hf : r.field? v = some field) : r.children v = [] :=
  children_of_isLeaf (by rw [shape_of_field? hf]; rfl)

/-! ## Nodes that leave values -/

/-- Some assignment at or below the node has a number above zero. -/
def Filled (r : Rule) (n : Nat → Nat) (v : Nat) : Prop :=
  ∃ x ∈ r.subtree v, (r.field? x).isSome ∧ 0 < n x

instance (r : Rule) (n : Nat → Nat) (v : Nat) : Decidable (r.Filled n v) :=
  inferInstanceAs (Decidable (∃ x ∈ r.subtree v, (r.field? x).isSome ∧ 0 < n x))

theorem filled_iff :
    r.Filled n v ↔ ((r.field? v).isSome ∧ 0 < n v) ∨ ∃ c ∈ r.children v, r.Filled n c := by
  unfold Filled
  rw [subtree_eq]
  constructor
  · rintro ⟨x, hx, hf⟩
    rcases List.mem_cons.1 hx with rfl | hx
    · exact .inl hf
    · obtain ⟨c, hc, hxc⟩ := List.mem_flatMap.1 hx
      exact .inr ⟨c, hc, x, hxc, hf⟩
  · rintro (hf | ⟨c, hc, x, hxc, hf⟩)
    · exact ⟨v, List.mem_cons_self, hf⟩
    · exact ⟨x, List.mem_cons_of_mem _ (List.mem_flatMap.2 ⟨c, hc, hxc⟩), hf⟩

theorem filled_of_child (hc : c ∈ r.children v) (h : r.Filled n c) : r.Filled n v :=
  filled_iff.2 (.inr ⟨c, hc, h⟩)

theorem filled_composite_iff (hf : r.field? v = none) :
    r.Filled n v ↔ ∃ c ∈ r.children v, r.Filled n c := by
  rw [filled_iff, hf]
  simp

theorem filled_assignment_iff (hf : r.field? v = some field) : r.Filled n v ↔ 0 < n v := by
  rw [filled_iff, hf, children_of_field? hf]
  simp

theorem filled_congr (h : ∀ x, (r.field? x).isSome → n x = n' x) : r.Filled n v ↔ r.Filled n' v :=
  exists_congr fun x => and_congr_right fun _ => and_congr_right fun hx => by rw [h x hx]

/-- Whether some assignment at or below the node can only be left out together with the node: neither
the node nor any node from there down to the assignment is optional. -/
def insists (r : Rule) (v : Nat) : Bool :=
  !r.optional v && ((r.field? v).isSome || (r.children v).attach.any fun c => r.insists c.1)
termination_by r.size - v
decreasing_by exact sub_lt_of_mem_children c.2

theorem insists_eq (r : Rule) (v : Nat) :
    r.insists v = (!r.optional v && ((r.field? v).isSome || (r.children v).any r.insists)) := by
  rw [insists]; simp

theorem optional_of_insists (h : r.insists v = true) : r.optional v = false := by
  rw [insists_eq, Bool.and_eq_true, Bool.not_eq_true'] at h
  exact h.1

theorem insists_of_child (ho : r.optional v = false) (hc : c ∈ r.children v)
    (h : r.insists c = true) : r.insists v = true := by
  rw [insists_eq, ho, List.any_eq_true.2 ⟨c, hc, h⟩]
  simp

/-! ## Cardinalities -/

/-- Whether a node can fire `m` times at `k` visits, by its cardinality. -/
def Fits (r : Rule) (v m k : Nat) : Prop :=
  match r.optional v, r.repeatable v with
  | false, false => m = k
  | true, false => m ≤ k
  | false, true => k ≤ m ∧ (k = 0 → m = 0)
  | true, true => k = 0 → m = 0

theorem fits_iff :
    r.Fits v m k ↔ (r.optional v = false → k ≤ m) ∧ (r.repeatable v = false → m ≤ k) ∧
      (k = 0 → m = 0) := by
  unfold Fits
  cases r.optional v <;> cases r.repeatable v <;> simp <;> omega

instance (r : Rule) (v m k : Nat) : Decidable (r.Fits v m k) := decidable_of_iff _ fits_iff.symm

theorem Fits.add (h : r.Fits v m k) (h' : r.Fits v m' k') : r.Fits v (m + m') (k + k') := by
  rw [fits_iff] at *
  obtain ⟨ho, hr, hz⟩ := h
  obtain ⟨ho', hr', hz'⟩ := h'
  refine ⟨fun h => ?_, fun h => ?_, fun h => ?_⟩
  · exact Nat.add_le_add (ho h) (ho' h)
  · exact Nat.add_le_add (hr h) (hr' h)
  · rw [hz (by omega), hz' (by omega)]

theorem fits_self (r : Rule) (v k : Nat) : r.Fits v k k := by
  rw [fits_iff]
  simp

theorem fits_zero (hk : r.optional v = false → k = 0) : r.Fits v 0 k := by
  rw [fits_iff]
  exact ⟨fun ho => Nat.le_of_eq (hk ho), fun _ => Nat.zero_le k, fun _ => rfl⟩

/-- A visited node that repeats can do with one visit less. -/
theorem Fits.fewer (h : r.Fits v m (k + 1)) (hrep : r.repeatable v = true) (hk : 0 < k) :
    r.Fits v m k := by
  rw [fits_iff] at *
  refine ⟨fun ho => ?_, fun hr => ?_, fun hz => ?_⟩
  · have := h.1 ho
    omega
  · simp [hrep] at hr
  · omega

/-! ## Visits and firings -/

/-- What one run of a rule leaves between the numbers of visits and of firings of its nodes. -/
structure Flow (r : Rule) (visits fired : Nat → Nat) : Prop where
  /-- The root is visited once. -/
  root : visits r.root = 1
  /-- At its visits a node fires as often as its cardinality allows. -/
  fits : ∀ v ∈ r.ids, r.Fits v (fired v) (visits v)
  /-- Each firing of a group visits each child. -/
  group : ∀ {v : Nat}, r.shape v = .group → ∀ c ∈ r.children v, visits c = fired v
  /-- Each firing of an alternative visits one branch. -/
  alternative : ∀ {v : Nat}, r.shape v = .alternative → sumOf visits (r.children v) = fired v

/-- One branch at most of an alternative that cannot repeat leaves values. -/
def Exclusive (r : Rule) (fired : Nat → Nat) : Prop :=
  ∀ v ∈ r.ids, r.shape v = .alternative → r.repeatable v = false →
    ∀ c ∈ r.children v, ∀ d ∈ r.children v, r.Filled fired c → r.Filled fired d → c = d

/-- Where a branch of a mandatory alternative insists, each other branch that is visited leaves values. -/
def Visible (r : Rule) (visits fired : Nat → Nat) : Prop :=
  ∀ v ∈ r.ids, r.shape v = .alternative → r.optional v = false →
    ∀ c ∈ r.children v, r.insists c = true → ∀ d ∈ r.children v, d ≠ c → 0 < visits d →
      r.Filled fired d

instance (r : Rule) (fired : Nat → Nat) : Decidable (r.Exclusive fired) :=
  inferInstanceAs (Decidable (∀ v ∈ r.ids, r.shape v = .alternative → r.repeatable v = false →
    ∀ c ∈ r.children v, ∀ d ∈ r.children v, r.Filled fired c → r.Filled fired d → c = d))

instance (r : Rule) (visits fired : Nat → Nat) : Decidable (r.Visible visits fired) :=
  inferInstanceAs (Decidable (∀ v ∈ r.ids, r.shape v = .alternative → r.optional v = false →
    ∀ c ∈ r.children v, r.insists c = true → ∀ d ∈ r.children v, d ≠ c → 0 < visits d →
      r.Filled fired d))

/-- Firing numbers of the nodes of a rule in which every composite node is a group: the root fires as
its cardinality says, each child as its cardinality says at each firing of its group, and each
assignment as often as its field is set. -/
structure Firing (r : Rule) (count : String → Nat) (fired : Nat → Nat) : Prop where
  root : r.Fits r.root (fired r.root) 1
  child : ∀ v, ∀ c ∈ r.children v, r.Fits c (fired c) (fired v)
  counted : ∀ v field, r.field? v = some field → fired v = count field

/-- Where no node is an alternative, firing numbers are a flow. -/
theorem Firing.flow {count : String → Nat} {fired : Nat → Nat} (h : r.Firing count fired)
    (ha : ∀ v, r.shape v ≠ .alternative) :
    r.Flow (fun v => (r.container v).elim 1 fired) fired where
  root := by simp [container_root]
  fits v hv := by
    cases hc : r.container v with
    | none =>
      rw [eq_root_of_container (List.mem_range.1 hv) hc]
      exact h.root
    | some p => exact h.child p v (mem_children.2 hc)
  group _ c hc := by simp [mem_children.1 hc]
  alternative hs := absurd hs (ha _)

end RuleCardinality.Rule
