import Mathlib.Tactic.ByContra
import RuleCardinality.Rule.Order

/-!
# Lines of containers and dependency order

Two children of one node are not both on the line of containers of a third node (`eq_of_mem_line`), so
walks down different children never meet. Arranging nodes by dependency only changes their order: nodes
listed once each come out as a permutation of the list.
-/

namespace RuleCardinality

theorem nodup_toList_ofList {α : Type} [Ord α] [Std.TransOrd α] [Std.LawfulEqOrd α] (xs : List α) :
    (Std.ExtTreeSet.ofList xs).toList.Nodup := by
  refine List.Pairwise.imp ?_ Std.ExtTreeSet.distinct_toList
  intro a b hab e
  exact hab (e ▸ Std.ReflCmp.compare_self)

theorem mem_toList_ofList {α : Type} [Ord α] [Std.TransOrd α] [Std.LawfulEqOrd α] [BEq α]
    [LawfulBEq α] [Std.LawfulBEqOrd α] {xs : List α} {x : α} :
    x ∈ (Std.ExtTreeSet.ofList xs).toList ↔ x ∈ xs := by
  rw [Std.ExtTreeSet.mem_toList, Std.ExtTreeSet.mem_ofList, List.contains_iff_mem]

theorem pairwise_toList_ofList (xs : List Nat) :
    (Std.ExtTreeSet.ofList xs).toList.Pairwise (· < ·) :=
  Std.ExtTreeSet.ordered_toList.imp Nat.compare_eq_lt.1

namespace Rule

variable {r : Rule} {nodes : List Nat} {v : Nat}

/-- Only nodes of the rule write fields. -/
theorem lt_size_of_field? {field : String} (hf : r.field? v = some field) : v < r.size := by
  by_contra hv
  have : r.parts[v]? = none := Array.getElem?_eq_none (Nat.le_of_not_lt hv)
  simp [field?, shape, spec, this, inert, Shape.field?] at hf

theorem mem_ids_of_field? {field : String} (hf : r.field? v = some field) : v ∈ r.ids :=
  List.mem_range.2 (lt_size_of_field? hf)

theorem mem_ids_of_mem_children {c : Nat} (hc : c ∈ r.children v) : v ∈ r.ids := by
  have hlt := lt_of_mem_children hc
  exact List.mem_range.2 (Nat.lt_trans hlt.1 hlt.2)

theorem mem_ids_of_child {c : Nat} (hc : c ∈ r.children v) : c ∈ r.ids :=
  List.mem_range.2 (lt_of_mem_children hc).2

theorem mem_ids_of_container {c : Nat} (hc : r.container v = some c) : c ∈ r.ids :=
  mem_ids_of_mem_children (mem_children.2 hc)

theorem root_mem_ids (r : Rule) : r.root ∈ r.ids := List.mem_range.2 r.size_pos

/-- Only the root stands in no container. -/
theorem eq_root_of_container (hv : v < r.size) (hc : r.container v = none) : v = r.root := by
  have hp : r.parts[v]? = some r.parts[v] := Array.getElem?_eq_getElem hv
  simp only [container, hp, Option.bind_some] at hc
  exact (r.wellFormed.root hp).1 hc

theorem container_root (r : Rule) : r.container r.root = none := by
  have hpos : 0 < r.parts.size := r.size_pos
  have hp : r.parts[0]? = some r.parts[0] := Array.getElem?_eq_getElem hpos
  simp only [container, root, hp, Option.bind_some]
  exact (r.wellFormed.root hp).2 rfl

/-! ## Lines -/

theorem line_eq (r : Rule) (v : Nat) : r.line v = v :: (r.container v).elim [] r.line := by
  rw [line, ancestors_eq]
  rfl

theorem mem_line_iff {x : Nat} : x ∈ r.line v ↔ x = v ∨ ∃ p, r.container v = some p ∧ x ∈ r.line p := by
  rw [line_eq, List.mem_cons]
  cases r.container v <;> simp

theorem ancestors_of_container {c : Nat} (hc : r.container v = some c) : r.ancestors v = r.line c := by
  rw [ancestors_eq, hc]
  rfl

theorem mem_line_of_container {c v x : Nat} (hc : c ∈ r.line x) (hv : r.container c = some v) :
    v ∈ r.line x := by
  induction x using induction_up (r := r) with
  | step x ih =>
    rcases mem_line_iff.1 hc with rfl | ⟨p, hp, hc⟩
    · exact mem_line_iff.2 (.inr ⟨v, hv, List.mem_cons_self⟩)
    · exact mem_line_iff.2 (.inr ⟨p, hp, ih p hp hc⟩)

theorem le_of_mem_line {c x : Nat} (hc : c ∈ r.line x) : c ≤ x := by
  induction x using induction_up (r := r) with
  | step x ih =>
    rcases mem_line_iff.1 hc with rfl | ⟨p, hp, hc⟩
    · exact Nat.le_refl c
    · exact Nat.le_trans (ih p hp hc) (Nat.le_of_lt (lt_of_container hp))

/-- A line passes through one child of a node at most. -/
theorem eq_of_mem_line {c d x : Nat} (hc : c ∈ r.line x) (hd : d ∈ r.line x)
    (hcv : r.container c = some v) (hdv : r.container d = some v) : c = d := by
  have hvc : v < c := lt_of_container hcv
  have hvd : v < d := lt_of_container hdv
  induction x using induction_up (r := r) with
  | step x ih =>
    rcases mem_line_iff.1 hc with rfl | ⟨p, hp, hc⟩ <;> rcases mem_line_iff.1 hd with rfl | ⟨p', hp', hd⟩
    · rfl
    · obtain rfl : v = p' := Option.some.inj (hcv.symm.trans hp')
      exact absurd (le_of_mem_line hd) (Nat.not_le_of_lt hvd)
    · obtain rfl : v = p := Option.some.inj (hdv.symm.trans hp)
      exact absurd (le_of_mem_line hc) (Nat.not_le_of_lt hvc)
    · obtain rfl : p = p' := Option.some.inj (hp.symm.trans hp')
      exact ih p hp hc hd

theorem mem_others {c d : Nat} : d ∈ r.others v c ↔ d ∈ r.children v ∧ d ≠ c := by
  simp [others]

theorem nodup_children (r : Rule) (v : Nat) : (r.children v).Nodup := by
  rw [children_eq]
  exact List.nodup_range.filter _

/-! ## Dependency order -/

theorem arrange_perm (r : Rule) (pending : List Nat) : (r.arrange pending).Perm pending := by
  fun_induction r.arrange pending with
  | case1 => exact .refl []
  | case2 v vs _ ih => exact ih.cons v
  | case3 v vs next hnext ih =>
    have hmem : next ∈ v :: vs := List.mem_of_find?_eq_some hnext
    exact (ih.cons next).trans (List.perm_cons_erase hmem).symm

theorem mem_dependencyOrder : v ∈ r.dependencyOrder nodes ↔ v ∈ nodes :=
  (r.arrange_perm _).mem_iff.trans mem_toList_ofList

theorem dependencyOrder_perm (hn : nodes.Nodup) : (r.dependencyOrder nodes).Perm nodes := by
  refine (List.perm_ext_iff_of_nodup ?_ hn).2 fun _ => mem_dependencyOrder
  exact (r.arrange_perm _).nodup_iff.2 (nodup_toList_ofList nodes)

theorem dependencyOrder_ne_nil (hne : nodes ≠ []) : r.dependencyOrder nodes ≠ [] := by
  intro he
  apply hne
  apply List.eq_nil_iff_forall_not_mem.2
  intro v hv
  have := (mem_dependencyOrder (r := r)).2 hv
  simp [he] at this

end Rule

end RuleCardinality
