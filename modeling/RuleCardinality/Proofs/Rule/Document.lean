import Mathlib.Data.List.Nodup
import Mathlib.Data.List.NodupEquivFin
import Mathlib.Data.Set.Function
import RuleCardinality.Proofs.Rule.Common
import RuleCardinality.Proofs.Rule.Firing

/-!
# Document order

The loop over a stack numbers the nodes as a recursive descent meets them (`getElem?_number`), so the place
of a node is its index in document order (`position_eq`). There every subtree is a stretch of nodes that
starts with its top (`standsAt_subtree`): a child comes right after its container or after the subtree of the
child before it (`position_preorder`), and a node is in a subtree exactly if its place is in that stretch
(`mem_subtree_iff_position`).
-/

namespace RuleCardinality.Rule

variable {r : Rule} {v c x n : Nat} {stack nodes more before after : List Nat} {places : Array Nat}

/-! ## The descent -/

theorem nodup_subtree (r : Rule) (v : Nat) : (r.subtree v).Nodup := by
  induction v using induction_down (r := r) with
  | step v ih =>
    rw [subtree_eq, List.nodup_cons, List.nodup_flatMap]
    refine ⟨fun hv => ?_, ih, (r.nodup_children v).pairwise_of_forall_ne fun c hc d hd hne x hxc hxd => ?_⟩
    · obtain ⟨c, hc, hvc⟩ := List.mem_flatMap.1 hv
      have hle := le_of_mem_line (mem_subtree_iff.1 hvc)
      exact absurd (lt_of_mem_children hc).1 (Nat.not_lt_of_le hle)
    · exact hne (eq_of_mem_line (mem_subtree_iff.1 hxc) (mem_subtree_iff.1 hxd) (mem_children.1 hc)
        (mem_children.1 hd))

theorem nodup_document (r : Rule) : r.document.Nodup := nodup_subtree r r.root

theorem mem_document : v ∈ r.document ↔ v ∈ r.ids := by
  rw [document, mem_subtree_iff]
  refine ⟨fun h => ?_, root_mem_line⟩
  rcases mem_line_iff.1 h with rfl | ⟨c, hc, -⟩
  · exact root_mem_ids r
  · exact List.mem_range.2 (container_lt_size hc)

theorem length_document (r : Rule) : r.document.length = r.size := by
  have hperm : r.document.Perm r.ids :=
    (List.perm_ext_iff_of_nodup r.nodup_document List.nodup_range).2 fun _ => mem_document
  rw [hperm.length_eq, ids, List.length_range]

/-! ## The loop -/

theorem size_number (r : Rule) (stack : List Nat) (next : Nat) (places : Array Nat) :
    (r.number stack next places).2.size = places.size := by
  fun_induction r.number stack next places with
  | case1 => rfl
  | case2 v stack next places ih => rw [ih, Array.size_setIfInBounds]

/-- Each round of the loop deals with one node. -/
theorem rounds_number (r : Rule) (stack : List Nat) (next : Nat) (places : Array Nat) :
    (r.number stack next places).1 = next + (stack.flatMap r.subtree).length := by
  fun_induction r.number stack next places with
  | case1 => rfl
  | case2 v stack next places ih =>
    rw [ih, flatMap_stacked r.subtree_eq v stack, List.length_cons]
    omega

/-- The nodes on the stack and those below them get consecutive numbers, in the order of the descent; other
nodes keep theirs. -/
theorem getElem?_number (stack : List Nat) (next : Nat) (places : Array Nat)
    (hn : (stack.flatMap r.subtree).Nodup) (hsize : ∀ v ∈ stack.flatMap r.subtree, v < places.size)
    (x : Nat) : (r.number stack next places).2[x]? =
      if x ∈ stack.flatMap r.subtree then some (next + (stack.flatMap r.subtree).idxOf x)
      else places[x]? := by
  fun_induction r.number stack next places with
  | case1 => simp
  | case2 v stack next places ih =>
    rw [flatMap_stacked r.subtree_eq v stack] at hn hsize ⊢
    set rest := (stacked stack (r.children v).reverse).flatMap r.subtree
    obtain ⟨hv, hn⟩ := List.nodup_cons.1 hn
    rw [ih hn fun u hu => by simpa using hsize u (by simp [hu]), Array.getElem?_setIfInBounds]
    by_cases hx : x ∈ rest
    · have hne : v ≠ x := fun he => hv (he ▸ hx)
      rw [if_pos hx, if_pos (List.mem_cons_of_mem v hx), List.idxOf_cons_ne rest hne]
      congr 1
      omega
    · rw [if_neg hx]
      by_cases he : v = x
      · subst he
        rw [if_pos rfl, if_pos (hsize v (by simp)), if_pos (by simp), List.idxOf_cons_self]
        rfl
      · have hnot : x ∉ v :: rest := by simp [hx, Ne.symm he]
        rw [if_neg he, if_neg hnot]

/-- The place of a node is its index in document order. -/
theorem position_eq (hv : v ∈ r.ids) : r.position v = r.document.idxOf v := by
  have hstack : [r.root].flatMap r.subtree = r.document := List.flatMap_singleton r.subtree r.root
  have hplace := getElem?_number (r := r) [r.root] 0 (Array.replicate r.size 0)
    (by rw [hstack]; exact r.nodup_document)
    (fun u hu => by
      rw [hstack] at hu
      simpa using List.mem_range.1 (mem_document.1 hu)) v
  rw [hstack, if_pos (mem_document.2 hv), Nat.zero_add] at hplace
  rw [position, places, Array.getD_eq_getD_getElem?, hplace]
  rfl

theorem position_lt (hv : v ∈ r.ids) : r.position v < r.size := by
  rw [position_eq hv, ← length_document]
  exact List.idxOf_lt_length_of_mem (mem_document.2 hv)

theorem position_inj (hv : v ∈ r.ids) (hx : x ∈ r.ids) : r.position v = r.position x ↔ v = x := by
  rw [position_eq hv, position_eq hx]
  exact List.idxOf_inj (mem_document.2 hv)

theorem bijOn_position (r : Rule) : Set.BijOn r.position {v | v ∈ r.ids} {n | n < r.size} := by
  refine ⟨fun v => position_lt, fun v hv x hx => (position_inj hv hx).1, fun n hn => ?_⟩
  have hn : n < r.document.length := r.length_document.symm ▸ hn
  have hmem : r.document[n] ∈ r.ids := mem_document.1 (List.getElem_mem hn)
  exact ⟨r.document[n], hmem, (position_eq hmem).trans (r.nodup_document.idxOf_getElem n hn)⟩

/-! ## Stretches -/

/-- The nodes of a list follow one another in document order, the first at a given place. -/
def StandsAt (r : Rule) (n : Nat) (nodes : List Nat) : Prop :=
  ∃ before after, before.length = n ∧ r.document = before ++ nodes ++ after

theorem standsAt_document (r : Rule) : r.StandsAt 0 r.document := ⟨[], [], rfl, by simp⟩

theorem StandsAt.left (h : r.StandsAt n (nodes ++ more)) : r.StandsAt n nodes := by
  obtain ⟨before, after, hn, hd⟩ := h
  exact ⟨before, more ++ after, hn, by rw [hd]; simp⟩

theorem StandsAt.right (h : r.StandsAt n (nodes ++ more)) : r.StandsAt (n + nodes.length) more := by
  obtain ⟨before, after, hn, hd⟩ := h
  exact ⟨before ++ nodes, after, by simp [hn], by rw [hd]; simp⟩

theorem StandsAt.position_eq (h : r.StandsAt n (v :: nodes)) : r.position v = n := by
  obtain ⟨before, after, rfl, hd⟩ := h
  have hmem : v ∈ r.document := by simp [hd]
  have hbefore : v ∉ before := by
    have hn := r.nodup_document
    rw [hd, List.append_assoc, List.nodup_append] at hn
    exact fun hv => hn.2.2 v hv v (by simp) rfl
  rw [Rule.position_eq (mem_document.1 hmem), hd, List.append_assoc, List.idxOf_append_of_notMem hbefore]
  simp

/-- After the top of a subtree come the subtrees of its children, one after the other. -/
theorem StandsAt.child (h : r.StandsAt n (r.subtree v)) (hc : r.children v = before ++ c :: after) :
    r.StandsAt (n + 1 + (before.flatMap r.subtree).length) (r.subtree c) := by
  rw [subtree_eq, hc, List.flatMap_append, List.flatMap_cons, ← List.singleton_append] at h
  exact h.right.right.left

/-- Every subtree is a stretch of document order that starts with its top. -/
theorem standsAt_subtree (hv : v ∈ r.ids) : r.StandsAt (r.position v) (r.subtree v) := by
  suffices h : ∃ n, r.StandsAt n (r.subtree v) by
    obtain ⟨n, hn⟩ := h
    have hplace : r.position v = n := StandsAt.position_eq (subtree_eq r v ▸ hn)
    rwa [hplace]
  induction v using induction_up (r := r) with
  | step v ih =>
    cases hc : r.container v with
    | none =>
      rw [eq_root_of_container (List.mem_range.1 hv) hc]
      exact ⟨0, r.standsAt_document⟩
    | some c =>
      obtain ⟨n, hn⟩ := ih c hc (mem_ids_of_container hc)
      obtain ⟨before, after, hchildren⟩ := List.append_of_mem (mem_children.2 hc)
      exact ⟨_, hn.child hchildren⟩

theorem position_child (hc : r.children v = before ++ c :: after) :
    r.position c = r.position v + 1 + (before.flatMap r.subtree).length := by
  have hv : v ∈ r.ids := mem_ids_of_mem_children (c := c) (by simp [hc])
  exact StandsAt.position_eq (subtree_eq r c ▸ (standsAt_subtree hv).child hc)

/-- The nodes of a subtree are those with a place in its stretch. -/
theorem mem_subtree_iff_position (hv : v ∈ r.ids) (hx : x ∈ r.ids) :
    x ∈ r.subtree v ↔
      r.position v ≤ r.position x ∧ r.position x < r.position v + (r.subtree v).length := by
  have hstands := standsAt_subtree hv
  have hplace : ∀ i, (hi : i < (r.subtree v).length) → r.position (r.subtree v)[i] = r.position v + i := by
    intro i hi
    rw [← List.take_append_drop i (r.subtree v), List.drop_eq_getElem_cons hi] at hstands
    have := hstands.right.position_eq
    rwa [List.length_take_of_le (Nat.le_of_lt hi)] at this
  constructor
  · intro hmem
    obtain ⟨i, hi, rfl⟩ := List.getElem_of_mem hmem
    rw [hplace i hi]
    omega
  · rintro ⟨hle, hlt⟩
    have hi : r.position x - r.position v < (r.subtree v).length := by omega
    have hmem := List.getElem_mem hi
    have hids : (r.subtree v)[r.position x - r.position v] ∈ r.ids := by
      obtain ⟨before, after, -, hd⟩ := hstands
      exact mem_document.1 (by rw [hd]; simp [hmem])
    have hsame := hplace _ hi
    rw [Nat.add_sub_cancel' hle, position_inj hids hx] at hsame
    rwa [hsame] at hmem

/-! ## Assignments -/

theorem pairwise_document (r : Rule) : r.document.Pairwise fun a b => r.position a < r.position b := by
  refine List.pairwise_iff_getElem.2 fun i j hi hj hlt => ?_
  rw [position_eq (mem_document.1 (List.getElem_mem hi)), position_eq (mem_document.1 (List.getElem_mem hj)),
    r.nodup_document.idxOf_getElem, r.nodup_document.idxOf_getElem]
  exact hlt

/-- Sorted by their places, the assignments come as the descent meets them. -/
theorem assignments_eq (r : Rule) :
    r.assignments = r.document.filter fun v => (r.field? v).isSome := by
  unfold assignments
  set leaves := r.ids.filter fun v => (r.field? v).isSome
  have hsorted : (leaves.mergeSort fun a b => r.position a ≤ r.position b).Pairwise
      fun a b => r.position a ≤ r.position b := by
    have hle : (leaves.mergeSort fun a b => r.position a ≤ r.position b).Pairwise
        fun a b => decide (r.position a ≤ r.position b) = true :=
      List.pairwise_mergeSort (fun a b c hab hbc => by simp only [decide_eq_true_eq] at *; omega)
        (fun a b => by simp only [Bool.or_eq_true, decide_eq_true_eq]; omega) leaves
    simpa only [decide_eq_true_eq] using hle
  have hdescent : (r.document.filter fun v => (r.field? v).isSome).Pairwise
      fun a b => r.position a ≤ r.position b :=
    (r.pairwise_document.filter _).imp Nat.le_of_lt
  have hperm : leaves.Perm (r.document.filter fun v => (r.field? v).isSome) :=
    .filter _ ((List.perm_ext_iff_of_nodup List.nodup_range r.nodup_document).2 fun _ => mem_document.symm)
  refine List.Perm.eq_of_pairwise (fun a b ha hb hab hba => ?_) hsorted hdescent
    ((List.mergeSort_perm _ _).trans hperm)
  have ha : a ∈ r.ids := (List.mem_filter.1 ((List.mergeSort_perm leaves _).mem_iff.1 ha)).1
  have hb : b ∈ r.ids := mem_document.1 (List.mem_filter.1 hb).1
  exact (position_inj ha hb).1 (Nat.le_antisymm hab hba)

theorem mem_assignments_iff : v ∈ r.assignments ↔ ∃ field, r.shape v = .assignment field := by
  rw [assignments_eq, List.mem_filter, Option.isSome_iff_exists]
  constructor
  · rintro ⟨-, field, hf⟩
    exact ⟨field, shape_of_field? hf⟩
  · rintro ⟨field, hs⟩
    have hf := field?_of_assignment hs
    exact ⟨mem_document.2 (mem_ids_of_field? hf), field, hf⟩

/-- In whatever order the nodes were added, the numbering takes one round for each node and gives it its place
in the order of a recursive descent: each place is given once, the root comes first, the first child of a node
right after it and every other child right after the subtree of the child before it. So the places of a
subtree follow one another, and the assignments are listed as the descent meets them. -/
theorem position_preorder (r : Rule) :
    (r.number [r.root] 0 (Array.replicate r.size 0)).1 = r.size ∧
      r.places.size = r.size ∧
      Set.BijOn r.position {v | v ∈ r.ids} {n | n < r.size} ∧
      r.position r.root = 0 ∧
      (∀ v c after, r.children v = c :: after → r.position c = r.position v + 1) ∧
      (∀ v before c d after, r.children v = before ++ c :: d :: after →
        r.position d = r.position c + (r.subtree c).length) ∧
      (∀ v, (r.subtree v).Nodup ∧ ∀ x, x ∈ r.subtree v ↔ r.Covers v x) ∧
      (∀ v ∈ r.ids, ∀ x ∈ r.ids, r.Covers v x ↔
        r.position v ≤ r.position x ∧ r.position x < r.position v + (r.subtree v).length) ∧
      r.assignments = (r.subtree r.root).filter (fun v => (r.field? v).isSome) ∧
      ∀ v, v ∈ r.assignments ↔ ∃ field, r.shape v = .assignment field := by
  have hcovers : ∀ v x, x ∈ r.subtree v ↔ r.Covers v x := fun v x =>
    mem_subtree_iff.trans covers_iff_mem_line.symm
  refine ⟨?_, ?_, r.bijOn_position, ?_, fun v c after hc => ?_, fun v before c d after hc => ?_,
    fun v => ⟨r.nodup_subtree v, hcovers v⟩, fun v hv x hx => ?_, r.assignments_eq,
    fun v => mem_assignments_iff⟩
  · rw [rounds_number, List.flatMap_singleton, Nat.zero_add]
    exact r.length_document
  · rw [places, size_number, Array.size_replicate]
  · have hroot : r.StandsAt 0 (r.root :: (r.children r.root).flatMap r.subtree) := by
      rw [← subtree_eq]
      exact r.standsAt_document
    exact hroot.position_eq
  · have hfirst : r.children v = [] ++ c :: after := hc
    exact position_child hfirst
  · have hnext : r.children v = (before ++ [c]) ++ d :: after := by simpa using hc
    rw [position_child hnext, position_child hc, List.flatMap_append, List.length_append,
      List.flatMap_singleton]
    omega
  · rw [← hcovers]
    exact mem_subtree_iff_position hv hx

/-- The second branch of the alternative was added last. It comes right after the first, and before the
assignment that was added before it. -/
theorem position_preorder_late :
    lateBranch.children 0 = [1, 3] ∧ lateBranch.children 1 = [2, 4] ∧
      lateBranch.position 2 = lateBranch.position 1 + 1 ∧
      lateBranch.position 4 = lateBranch.position 2 + (lateBranch.subtree 2).length ∧
      lateBranch.position 3 = lateBranch.position 1 + (lateBranch.subtree 1).length ∧
      1 ∈ lateBranch.ids ∧ 4 ∈ lateBranch.ids ∧ lateBranch.Covers 1 4 ∧
      lateBranch.assignments = [2, 4, 3] := by
  have hroot : lateBranch.children 0 = [1, 3] := by decide +kernel
  have halternative : lateBranch.children 1 = [2, 4] := by decide +kernel
  obtain ⟨-, -, -, -, hfirst, hnext, -, hinterval, hassignments, -⟩ := position_preorder lateBranch
  have hcovers : lateBranch.Covers 1 4 :=
    (hinterval 1 (by decide) 4 (by decide)).2 (by decide +kernel)
  exact ⟨hroot, halternative, hfirst 1 2 [4] halternative, hnext 1 [] 2 4 [] halternative,
    hnext 0 [] 1 3 [] hroot, by decide, by decide, hcovers, hassignments.trans (by decide +kernel)⟩

end RuleCardinality.Rule
