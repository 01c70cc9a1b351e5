import Mathlib.Logic.Relation
import RuleCardinality.Proofs.Rule.Order

/-!
# Nearest common containers

The nodes on a line are on each other's lines, so of the nodes that lines have in common there is one below
all others. `Nearest` says which one that is for the lines of a list of nodes, and `commonOf` finds it
(`nearest_commonOf`). Since it is the only one (`Nearest.unique`), neither the order of the nodes nor how
often they are listed matters (`common_nearest`). Read downwards, a node is on the lines of exactly the
nodes in its subtree (`mem_subtree_iff`).
-/

namespace RuleCardinality.Rule

variable {r : Rule} {a b u v x y : Nat} {nodes nodes' : List Nat}

/-! ## Lines and subtrees -/

theorem self_mem_line (r : Rule) (v : Nat) : v ∈ r.line v := List.mem_cons_self

theorem mem_line_of_mem_ancestors (h : x ∈ r.ancestors v) : x ∈ r.line v := List.mem_cons_of_mem v h

theorem lt_of_mem_ancestors (h : x ∈ r.ancestors v) : x < v := by
  cases hc : r.container v with
  | none =>
    rw [ancestors_eq, hc] at h
    cases h
  | some c =>
    rw [ancestors_of_container hc] at h
    exact Nat.lt_of_le_of_lt (le_of_mem_line h) (lt_of_container hc)

theorem mem_line_trans (hxy : x ∈ r.line y) (hyv : y ∈ r.line v) : x ∈ r.line v := by
  induction y using induction_up (r := r) with
  | step y ih =>
    rcases mem_line_iff.1 hxy with rfl | ⟨c, hc, hxc⟩
    · exact hyv
    · exact ih c hc hxc (mem_line_of_container hyv hc)

theorem mem_line_antisymm (hxy : x ∈ r.line y) (hyx : y ∈ r.line x) : x = y :=
  Nat.le_antisymm (le_of_mem_line hxy) (le_of_mem_line hyx)

/-- Of two nodes on one line, one is on the line of the other. -/
theorem mem_line_or_mem_line (hx : x ∈ r.line v) (hy : y ∈ r.line v) :
    x ∈ r.line y ∨ y ∈ r.line x := by
  induction v using induction_up (r := r) with
  | step v ih =>
    rcases mem_line_iff.1 hx with rfl | ⟨c, hc, hxc⟩
    · exact .inr hy
    · rcases mem_line_iff.1 hy with rfl | ⟨d, hd, hyd⟩
      · exact .inl hx
      · obtain rfl : c = d := Option.some.inj (hc.symm.trans hd)
        exact ih c hc hxc hyd

/-- Of two nodes on one line, one that is not below the other stands above it. -/
theorem mem_ancestors_of_not_mem_line (hx : x ∈ r.line v) (hy : y ∈ r.line v) (hn : y ∉ r.line x) :
    x ∈ r.ancestors y := by
  rcases mem_line_or_mem_line hx hy with hxy | hyx
  · rcases List.mem_cons.1 hxy with rfl | habove
    · exact absurd (r.self_mem_line x) hn
    · exact habove
  · exact absurd hyx hn

theorem root_mem_line (hv : v ∈ r.ids) : r.root ∈ r.line v := by
  induction v using induction_up (r := r) with
  | step v ih =>
    cases hc : r.container v with
    | none =>
      rw [eq_root_of_container (List.mem_range.1 hv) hc]
      exact r.self_mem_line r.root
    | some c => exact mem_line_iff.2 (.inr ⟨c, hc, ih c hc (mem_ids_of_container hc)⟩)

theorem mem_ids_of_mem_line (hu : u ∈ r.line v) (hv : v ∈ r.ids) : u ∈ r.ids :=
  List.mem_range.2 (Nat.lt_of_le_of_lt (le_of_mem_line hu) (List.mem_range.1 hv))

/-- Above a node, a line goes on through one of its children. -/
theorem exists_child_of_mem_line (hv : v ∈ r.line x) (hne : x ≠ v) :
    ∃ c ∈ r.children v, c ∈ r.line x := by
  induction x using induction_up (r := r) with
  | step x ih =>
    rcases mem_line_iff.1 hv with rfl | ⟨p, hp, hvp⟩
    · exact absurd rfl hne
    · by_cases he : p = v
      · exact ⟨x, mem_children.2 (he ▸ hp), r.self_mem_line x⟩
      · obtain ⟨c, hc, hcp⟩ := ih p hp hvp he
        exact ⟨c, hc, mem_line_iff.2 (.inr ⟨p, hp, hcp⟩)⟩

theorem mem_subtree_iff : x ∈ r.subtree v ↔ v ∈ r.line x := by
  constructor
  · intro hx
    induction v using induction_down (r := r) with
    | step v ih =>
      rw [subtree_eq, List.mem_cons, List.mem_flatMap] at hx
      rcases hx with rfl | ⟨c, hc, hxc⟩
      · exact r.self_mem_line x
      · exact mem_line_of_container (ih c hc hxc) (mem_children.1 hc)
  · intro hv
    induction v using induction_down (r := r) with
    | step v ih =>
      rw [subtree_eq, List.mem_cons, List.mem_flatMap]
      by_cases he : x = v
      · exact .inl he
      · obtain ⟨c, hc, hcx⟩ := exists_child_of_mem_line hv he
        exact .inr ⟨c, hc, ih c hc hcx⟩

/-- From a node down to another one stand the node itself and what stands from its child on down. -/
theorem forall_between_child {p : Nat → Prop} (hu : u ∈ r.children v) (hux : u ∈ r.line x) :
    (∀ y ∈ r.line x, v ∈ r.line y → p y) ↔ p v ∧ ∀ y ∈ r.line x, u ∈ r.line y → p y := by
  have hc : r.container u = some v := mem_children.1 hu
  constructor
  · intro h
    exact ⟨h v (mem_line_of_container hux hc) (r.self_mem_line v),
      fun y hy huy => h y hy (mem_line_of_container huy hc)⟩
  · rintro ⟨hv, h⟩ y hy hvy
    by_cases huy : u ∈ r.line y
    · exact h y hy huy
    · -- Above the child there is only the node itself.
      have habove := mem_ancestors_of_not_mem_line hy hux huy
      rw [ancestors_of_container hc] at habove
      rwa [mem_line_antisymm habove hvy]

theorem forall_between_self {p : Nat → Prop} : (∀ y ∈ r.line v, v ∈ r.line y → p y) ↔ p v := by
  constructor
  · exact fun h => h v (r.self_mem_line v) (r.self_mem_line v)
  · intro hv y hy hvy
    rwa [mem_line_antisymm hy hvy]

/-- The first node is or contains the second. -/
def Covers (r : Rule) : Nat → Nat → Prop := Relation.ReflTransGen fun c v => r.container v = some c

theorem covers_iff_mem_line : r.Covers u v ↔ u ∈ r.line v := by
  constructor
  · intro h
    induction h with
    | refl => exact r.self_mem_line u
    | tail _ hc ih => exact mem_line_iff.2 (.inr ⟨_, hc, ih⟩)
  · intro h
    induction v using induction_up (r := r) with
    | step v ih =>
      rcases mem_line_iff.1 h with rfl | ⟨c, hc, huc⟩
      · exact .refl
      · exact (ih c hc huc).tail hc

/-! ## Common containers -/

/-- The node is or contains all nodes of a list, and whatever else does is or contains that node. -/
structure Nearest (r : Rule) (u : Nat) (nodes : List Nat) : Prop where
  contains : ∀ v ∈ nodes, u ∈ r.line v
  nearest : ∀ x, (∀ v ∈ nodes, x ∈ r.line v) → x ∈ r.line u

theorem nearest_pair_iff : r.Nearest u [a, b] ↔
    u ∈ r.line a ∧ u ∈ r.line b ∧ ∀ x, x ∈ r.line a → x ∈ r.line b → x ∈ r.line u := by
  constructor
  · intro h
    exact ⟨h.contains a (by simp), h.contains b (by simp), fun x hxa hxb => h.nearest x (by simp [hxa, hxb])⟩
  · rintro ⟨ha, hb, hnearest⟩
    exact ⟨by simp [ha, hb], fun x hx => hnearest x (hx a (by simp)) (hx b (by simp))⟩

theorem common_eq (r : Rule) (a b : Nat) :
    r.common a b = if b ∈ r.line a then b else (r.container b).elim r.root (r.common a) := by
  unfold common
  rw [line_eq r b, List.find?_cons]
  by_cases hb : b ∈ r.line a
  · rw [if_pos hb, List.contains_iff_mem.2 hb]
    rfl
  · rw [if_neg hb, Bool.eq_false_iff.2 fun h => hb (List.contains_iff_mem.1 h)]
    cases r.container b <;> rfl

theorem nearest_common (ha : a ∈ r.ids) (hb : b ∈ r.ids) : r.Nearest (r.common a b) [a, b] := by
  rw [nearest_pair_iff]
  induction b using induction_up (r := r) with
  | step b ih =>
    rw [common_eq]
    split
    · rename_i hba
      exact ⟨hba, r.self_mem_line b, fun x _ hx => hx⟩
    · rename_i hba
      cases hc : r.container b with
      | none =>
        rw [eq_root_of_container (List.mem_range.1 hb) hc] at hba
        exact absurd (root_mem_line ha) hba
      | some p =>
        obtain ⟨hpa, hpb, hnearest⟩ := ih p hc (mem_ids_of_container hc)
        refine ⟨hpa, mem_line_iff.2 (.inr ⟨p, hc, hpb⟩), fun x hxa hxb => ?_⟩
        rcases mem_line_iff.1 hxb with rfl | ⟨p', hp', hxp⟩
        · exact absurd hxa hba
        · obtain rfl : p = p' := Option.some.inj (hc.symm.trans hp')
          exact hnearest x hxa hxp

theorem Nearest.unique (h : r.Nearest u nodes) (h' : r.Nearest x nodes') (hsame : ∀ v, v ∈ nodes' ↔ v ∈ nodes) :
    u = x := by
  have hux : u ∈ r.line x := h'.nearest u fun v hv => h.contains v ((hsame v).1 hv)
  have hxu : x ∈ r.line u := h.nearest x fun v hv => h'.contains v ((hsame v).2 hv)
  exact mem_line_antisymm hux hxu

theorem common_comm (ha : a ∈ r.ids) (hb : b ∈ r.ids) : r.common a b = r.common b a :=
  (nearest_common ha hb).unique (nearest_common hb ha) fun v => by simp [or_comm]

/-- The walk up from the second node meets the line of the first before it ends. -/
theorem find?_line (ha : a ∈ r.ids) (hb : b ∈ r.ids) :
    (r.line b).find? (r.line a).contains = some (r.common a b) := by
  have hroot : ((r.line b).find? (r.line a).contains).isSome :=
    List.find?_isSome.2 ⟨r.root, root_mem_line hb, List.contains_iff_mem.2 (root_mem_line ha)⟩
  obtain ⟨c, hc⟩ := Option.isSome_iff_exists.1 hroot
  rw [common, hc]
  rfl

/-- One more node to contain. -/
theorem Nearest.append (h : r.Nearest u nodes) (hu : u ∈ r.ids) (hv : v ∈ r.ids) :
    r.Nearest (r.common u v) (nodes ++ [v]) := by
  obtain ⟨hcu, hcv, hnearest⟩ := nearest_pair_iff.1 (nearest_common hu hv)
  constructor
  · intro x hx
    rcases List.mem_append.1 hx with hx | hx
    · exact mem_line_trans hcu (h.contains x hx)
    · rw [List.mem_singleton.1 hx]
      exact hcv
  · intro x hx
    exact hnearest x (h.nearest x fun y hy => hx y (by simp [hy])) (hx v (by simp))

theorem nearest_foldl_common {more : List Nat} (h : r.Nearest u nodes) (hu : u ∈ r.ids)
    (hmore : ∀ v ∈ more, v ∈ r.ids) : r.Nearest (more.foldl r.common u) (nodes ++ more) := by
  induction more generalizing u nodes with
  | nil => rwa [List.append_nil]
  | cons v more ih =>
    have hv : v ∈ r.ids := hmore v (by simp)
    have hcommon : r.common u v ∈ r.ids :=
      mem_ids_of_mem_line ((nearest_common hu hv).contains u (by simp)) hu
    have hrest := ih (h.append hu hv) hcommon fun x hx => hmore x (by simp [hx])
    rwa [List.append_assoc] at hrest

theorem nearest_commonOf (hne : nodes ≠ []) (hmem : ∀ v ∈ nodes, v ∈ r.ids) :
    r.Nearest (r.commonOf nodes) nodes := by
  cases nodes with
  | nil => exact absurd rfl hne
  | cons v more =>
    have hself : r.Nearest v [v] := ⟨by simp [self_mem_line], fun x hx => hx v (by simp)⟩
    exact nearest_foldl_common hself (hmem v (by simp)) fun x hx => hmem x (by simp [hx])

/-- Two nodes have a nearest common container, whichever of them comes first, and the walk upwards ends there
and does not fall back on the root. So have the nodes of any list that is not empty, in whatever order and
however often they are listed. -/
theorem common_nearest (r : Rule) :
    (∀ a ∈ r.ids, ∀ b ∈ r.ids,
      r.Covers (r.common a b) a ∧ r.Covers (r.common a b) b ∧
      (∀ x, r.Covers x a → r.Covers x b → r.Covers x (r.common a b)) ∧
      (r.line b).find? (r.line a).contains = some (r.common a b) ∧
      r.common a b = r.common b a) ∧
    ∀ nodes, nodes ≠ [] → (∀ v ∈ nodes, v ∈ r.ids) →
      (∀ v ∈ nodes, r.Covers (r.commonOf nodes) v) ∧
      (∀ x, (∀ v ∈ nodes, r.Covers x v) → r.Covers x (r.commonOf nodes)) ∧
      ∀ nodes', (∀ v, v ∈ nodes' ↔ v ∈ nodes) → r.commonOf nodes' = r.commonOf nodes := by
  simp only [covers_iff_mem_line]
  refine ⟨fun a ha b hb => ?_, fun nodes hne hmem => ?_⟩
  · obtain ⟨hca, hcb, hnearest⟩ := nearest_pair_iff.1 (nearest_common ha hb)
    exact ⟨hca, hcb, hnearest, find?_line ha hb, common_comm ha hb⟩
  · have h := nearest_commonOf hne hmem
    refine ⟨h.contains, h.nearest, fun nodes' hsame => ?_⟩
    have hne' : nodes' ≠ [] := by
      obtain ⟨v, hv⟩ := List.exists_mem_of_ne_nil nodes hne
      exact List.ne_nil_of_mem ((hsame v).2 hv)
    have h' := nearest_commonOf hne' fun v hv => hmem v ((hsame v).1 hv)
    exact (h.unique h' hsame).symm

/-- A group of an alternative and an optional assignment. The second branch of the alternative comes before
that assignment and is added after it. -/
def lateBranch : Rule :=
  ((Rule.ofAdditions "Late"
    [.root { shape := .group }, .child 0 { shape := .alternative }, .child 1 { shape := .assignment "a" },
      .child 0 { shape := .assignment "c", optional := true },
      .child 1 { shape := .assignment "b" }]).toOption).get (by decide)

/-- The branches meet in the alternative, which the root covers, and each meets the other assignment in the
root. -/
theorem common_nearest_late :
    2 ∈ lateBranch.ids ∧ 4 ∈ lateBranch.ids ∧ lateBranch.common 2 4 = 1 ∧ lateBranch.common 4 2 = 1 ∧
      lateBranch.Covers 1 2 ∧ lateBranch.Covers 1 4 ∧ lateBranch.Covers 0 1 ∧
      [4, 3, 4] ≠ [] ∧ (∀ v ∈ [4, 3, 4], v ∈ lateBranch.ids) ∧ (∀ v, v ∈ [3, 4] ↔ v ∈ [4, 3, 4]) ∧
      lateBranch.commonOf [4, 3, 4] = 0 ∧ lateBranch.commonOf [3, 4] = 0 := by
  have hcommon : lateBranch.common 2 4 = 1 := by decide +kernel
  have hcommonOf : lateBranch.commonOf [4, 3, 4] = 0 := by decide +kernel
  have hmem : ∀ v ∈ [4, 3, 4], v ∈ lateBranch.ids := by decide
  have hsame : ∀ v, v ∈ [3, 4] ↔ v ∈ [4, 3, 4] := by simp
  obtain ⟨hpair, hlist⟩ := common_nearest lateBranch
  obtain ⟨hfirst, hsecond, hnearest, -, hcomm⟩ := hpair 2 (by decide) 4 (by decide)
  obtain ⟨-, -, hagree⟩ := hlist [4, 3, 4] (by decide) hmem
  rw [hcommon] at hfirst hsecond hnearest hcomm
  have habove : lateBranch.Covers 0 1 :=
    hnearest 0 (covers_iff_mem_line.2 (root_mem_line (by decide)))
      (covers_iff_mem_line.2 (root_mem_line (by decide)))
  exact ⟨by decide, by decide, hcommon, hcomm.symm, hfirst, hsecond, habove, by decide, hmem, hsame,
    hcommonOf, (hagree [3, 4] hsame).trans hcommonOf⟩

end RuleCardinality.Rule
