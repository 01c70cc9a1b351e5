import Mathlib.Data.List.MinMax
import RuleCardinality.Proofs.Rule.Document

/-!
# Dependency order

A node that contains two others also contains what comes between them in document order. So of three nodes in
this order, the first and the last meet where the one in the middle meets one of them (`common_between`), and
dependency is transitive. As it only goes back in document order, some node of any list depends on none of
them (`exists_nextFree`), and the selection loop never falls back on the first pending node. What it arranges
is the lexicographically least of all arrangements (`dependencyOrder_least`).
-/

namespace RuleCardinality.Rule

variable {r : Rule} {a b c v x : Nat} {nodes nodes' pending order : List Nat}

/-! ## Dependency as an order -/

theorem dependsOn_iff :
    r.dependsOn a b = true ↔ a ≠ b ∧ r.shape (r.common a b) = .group ∧ r.position b < r.position a := by
  simp [dependsOn, and_assoc]

theorem dependsOn_self (r : Rule) (a : Nat) : r.dependsOn a a = false := by
  simp [dependsOn]

theorem position_lt_of_dependsOn (h : r.dependsOn a b = true) : r.position b < r.position a :=
  (dependsOn_iff.1 h).2.2

theorem dependsOn_asymm (h : r.dependsOn a b = true) : r.dependsOn b a = false := by
  refine Bool.eq_false_iff.2 fun h' => ?_
  exact Nat.lt_asymm (position_lt_of_dependsOn h) (position_lt_of_dependsOn h')

/-- What contains two nodes contains all that comes between them in document order. -/
theorem mem_line_between (ha : a ∈ r.ids) (hb : b ∈ r.ids) (hc : c ∈ r.ids) (hva : v ∈ r.line a)
    (hvc : v ∈ r.line c) (hcb : r.position c ≤ r.position b) (hba : r.position b ≤ r.position a) :
    v ∈ r.line b := by
  have hv : v ∈ r.ids := mem_ids_of_mem_line hva ha
  have hfirst := (mem_subtree_iff_position hv hc).1 (mem_subtree_iff.2 hvc)
  have hlast := (mem_subtree_iff_position hv ha).1 (mem_subtree_iff.2 hva)
  exact mem_subtree_iff.1 ((mem_subtree_iff_position hv hb).2 (by omega))

theorem common_between (ha : a ∈ r.ids) (hb : b ∈ r.ids) (hc : c ∈ r.ids)
    (hcb : r.position c ≤ r.position b) (hba : r.position b ≤ r.position a) :
    r.common a c = r.common a b ∨ r.common a c = r.common b c := by
  obtain ⟨habA, habB, habN⟩ := nearest_pair_iff.1 (nearest_common ha hb)
  obtain ⟨hbcB, hbcC, hbcN⟩ := nearest_pair_iff.1 (nearest_common hb hc)
  obtain ⟨hacA, hacC, hacN⟩ := nearest_pair_iff.1 (nearest_common ha hc)
  have hacB : r.common a c ∈ r.line b := mem_line_between ha hb hc hacA hacC hcb hba
  rcases mem_line_or_mem_line habB hbcB with habove | habove
  · have hle := le_of_mem_line (habN _ hacA hacB)
    exact .inl (Nat.le_antisymm hle (le_of_mem_line (hacN _ habA (mem_line_trans habove hbcC))))
  · have hle := le_of_mem_line (hbcN _ hacB hacC)
    exact .inr (Nat.le_antisymm hle (le_of_mem_line (hacN _ (mem_line_trans habove habA) hbcC)))

theorem dependsOn_trans (ha : a ∈ r.ids) (hb : b ∈ r.ids) (hc : c ∈ r.ids)
    (hab : r.dependsOn a b = true) (hbc : r.dependsOn b c = true) : r.dependsOn a c = true := by
  obtain ⟨-, hgroup, hlt⟩ := dependsOn_iff.1 hab
  obtain ⟨-, hgroup', hlt'⟩ := dependsOn_iff.1 hbc
  refine dependsOn_iff.2 ⟨fun he => ?_, ?_, Nat.lt_trans hlt' hlt⟩
  · subst he
    exact Nat.lt_asymm hlt hlt'
  · rcases common_between ha hb hc (Nat.le_of_lt hlt') (Nat.le_of_lt hlt) with he | he <;> rw [he]
    · exact hgroup
    · exact hgroup'

/-! ## Selection -/

theorem nextFree_spec (h : r.nextFree pending = some v) :
    v ∈ pending ∧ ∀ b ∈ pending, r.dependsOn v b = false := by
  refine ⟨List.mem_of_find?_eq_some h, ?_⟩
  simpa using List.find?_some h

/-- The pending node that comes first in document order depends on no other. -/
theorem exists_nextFree (hne : pending ≠ []) : ∃ v, r.nextFree pending = some v := by
  have hmin : pending.argmin r.position ≠ none := fun h => hne (List.argmin_eq_none.1 h)
  obtain ⟨v, hv⟩ := Option.ne_none_iff_exists'.1 hmin
  refine Option.isSome_iff_exists.1 (List.find?_isSome.2 ⟨v, List.argmin_mem hv, ?_⟩)
  simp only [Bool.not_eq_true', List.any_eq_false]
  intro b hb hdep
  have hle : r.position v ≤ r.position b := List.le_of_mem_argmin hb hv
  exact Nat.not_lt_of_le hle (position_lt_of_dependsOn hdep)

/-- In ascending order, no free node is smaller than the next one. -/
theorem nextFree_le (hs : pending.Pairwise (· < ·)) (h : r.nextFree pending = some v) (hx : x ∈ pending)
    (hfree : ∀ b ∈ pending, r.dependsOn x b = false) : v ≤ x := by
  obtain ⟨-, before, after, rfl, hbefore⟩ := List.find?_eq_some_iff_append.1 h
  rcases List.mem_append.1 hx with hx | hx
  · have hnot := hbefore x hx
    simp only [Bool.not_not, List.any_eq_true] at hnot
    obtain ⟨b, hb, hdep⟩ := hnot
    rw [hfree b hb] at hdep
    cases hdep
  · rcases List.mem_cons.1 hx with rfl | hx
    · exact Nat.le_refl x
    · exact Nat.le_of_lt ((List.pairwise_cons.1 (List.pairwise_append.1 hs).2.1).1 x hx)

theorem pairwise_arrange (r : Rule) (pending : List Nat) :
    (r.arrange pending).Pairwise fun a b => r.dependsOn a b = false := by
  fun_induction r.arrange pending with
  | case1 => exact .nil
  | case2 v vs hnone _ =>
    obtain ⟨next, hnext⟩ := exists_nextFree (r := r) (List.cons_ne_nil v vs)
    rw [hnext] at hnone
    cases hnone
  | case3 v vs next hnext ih =>
    refine List.pairwise_cons.2 ⟨fun b hb => ?_, ih⟩
    exact (nextFree_spec hnext).2 b (List.mem_of_mem_erase ((r.arrange_perm _).mem_iff.1 hb))

/-- Of all orders of the pending nodes in which none comes before one that it depends on, the selection makes
the least. -/
theorem arrange_least (hs : pending.Pairwise (· < ·)) (hperm : order.Perm pending)
    (horder : order.Pairwise fun a b => r.dependsOn a b = false) :
    r.arrange pending = order ∨ r.arrange pending < order := by
  fun_induction r.arrange pending generalizing order with
  | case1 => exact .inl hperm.eq_nil.symm
  | case2 v vs hnone _ =>
    obtain ⟨next, hnext⟩ := exists_nextFree (r := r) (List.cons_ne_nil v vs)
    rw [hnext] at hnone
    cases hnone
  | case3 v vs next hnext ih =>
    cases order with
    | nil => exact absurd hperm.symm.eq_nil (List.cons_ne_nil v vs)
    | cons x rest =>
      obtain ⟨hfirst, hrest⟩ := List.pairwise_cons.1 horder
      have hfree : ∀ b ∈ v :: vs, r.dependsOn x b = false := fun b hb => by
        rcases List.mem_cons.1 (hperm.mem_iff.2 hb) with rfl | hb
        · exact r.dependsOn_self b
        · exact hfirst b hb
      rcases Nat.eq_or_lt_of_le (nextFree_le hs hnext (hperm.mem_iff.1 (by simp)) hfree) with rfl | hlt
      · have hperm' := (List.cons_perm_iff_perm_erase.1 hperm).2
        rcases ih (hs.sublist List.erase_sublist) hperm' hrest with he | hlt
        · exact .inl (congrArg _ he)
        · exact .inr (List.cons_lt_cons_iff.2 (.inr ⟨rfl, hlt⟩))
      · exact .inr (List.cons_lt_cons_iff.2 (.inl hlt))

/-! ## Arrangements -/

/-- Some nodes, each of them once, and none before one that it depends on. -/
structure Arranges (r : Rule) (nodes order : List Nat) : Prop where
  nodup : order.Nodup
  mem_iff : ∀ v, v ∈ order ↔ v ∈ nodes
  follows : ∀ a before after, order = before ++ a :: after → ∀ b ∈ nodes, r.dependsOn a b = true → b ∈ before

theorem Arranges.pairwise (h : r.Arranges nodes order) :
    order.Pairwise fun a b => r.dependsOn a b = false := by
  refine List.pairwise_iff_getElem.2 fun i j hi hj hlt => Bool.eq_false_iff.2 fun hdep => ?_
  have hsplit : order = order.take i ++ order[i] :: order.drop (i + 1) := by simp
  have hmem := h.follows _ _ _ hsplit order[j] ((h.mem_iff _).1 (List.getElem_mem hj)) hdep
  obtain ⟨k, hk, he⟩ := List.getElem_of_mem hmem
  rw [List.getElem_take] at he
  rw [List.length_take] at hk
  have := (h.nodup.getElem_inj_iff).1 he
  omega

theorem arranges_of_pairwise (hn : order.Nodup) (hmem : ∀ v, v ∈ order ↔ v ∈ nodes)
    (hp : order.Pairwise fun a b => r.dependsOn a b = false) : r.Arranges nodes order := by
  refine ⟨hn, hmem, fun a before after he b hb hdep => ?_⟩
  have hb : b ∈ order := (hmem b).2 hb
  rw [he] at hp hb
  rcases List.mem_append.1 hb with hb | hb
  · exact hb
  · rcases List.mem_cons.1 hb with rfl | hb
    · rw [r.dependsOn_self] at hdep
      cases hdep
    · rw [(List.pairwise_cons.1 (List.pairwise_append.1 hp).2.1).1 b hb] at hdep
      cases hdep

theorem arranges_dependencyOrder (r : Rule) (nodes : List Nat) :
    r.Arranges nodes (r.dependencyOrder nodes) :=
  arranges_of_pairwise ((r.arrange_perm _).nodup_iff.2 (nodup_toList_ofList nodes))
    (fun _ => mem_dependencyOrder) (r.pairwise_arrange _)

theorem dependencyOrder_congr (hsame : ∀ v, v ∈ nodes' ↔ v ∈ nodes) :
    r.dependencyOrder nodes' = r.dependencyOrder nodes := by
  have hset : Std.ExtTreeSet.ofList nodes' = Std.ExtTreeSet.ofList nodes := by
    refine Std.ExtTreeSet.ext_mem fun v => ?_
    rw [← Std.ExtTreeSet.mem_toList, ← Std.ExtTreeSet.mem_toList, mem_toList_ofList, mem_toList_ofList, hsame]
  rw [dependencyOrder, dependencyOrder, hset]

/-- Dependency is a strict order of the nodes of a rule. The dependency order of some nodes lists each of them
once, after all those that it depends on, and is the lexicographically least list of that kind. So it depends
neither on their order nor on how often they are listed. -/
theorem dependencyOrder_least (r : Rule) :
    (∀ a ∈ r.ids, r.dependsOn a a = false) ∧
      (∀ a ∈ r.ids, ∀ b ∈ r.ids, r.dependsOn a b = true → r.dependsOn b a = false) ∧
      (∀ a ∈ r.ids, ∀ b ∈ r.ids, ∀ c ∈ r.ids, r.dependsOn a b = true → r.dependsOn b c = true →
        r.dependsOn a c = true) ∧
      ∀ nodes, r.Arranges nodes (r.dependencyOrder nodes) ∧
        (∀ order, r.Arranges nodes order →
          r.dependencyOrder nodes = order ∨ r.dependencyOrder nodes < order) ∧
        ∀ nodes', (∀ v, v ∈ nodes' ↔ v ∈ nodes) → r.dependencyOrder nodes' = r.dependencyOrder nodes := by
  refine ⟨fun a _ => r.dependsOn_self a, fun a _ b _ => dependsOn_asymm,
    fun a ha b hb c hc => dependsOn_trans ha hb hc, fun nodes =>
    ⟨r.arranges_dependencyOrder nodes, fun order horder => ?_, fun nodes' => dependencyOrder_congr⟩⟩
  refine arrange_least (pairwise_toList_ofList nodes) ?_ horder.pairwise
  refine (List.perm_ext_iff_of_nodup horder.nodup (nodup_toList_ofList nodes)).2 fun v => ?_
  rw [horder.mem_iff, mem_toList_ofList]

/-- The last assignment depends on the alternative and on the branch that was added after it, but the branches
do not depend on each other. So the branches come first, the one with the smaller number before the other. -/
theorem dependencyOrder_least_late :
    (∀ v ∈ [0, 1, 3], v ∈ lateBranch.ids) ∧
      lateBranch.dependsOn 3 1 = true ∧ lateBranch.dependsOn 1 0 = true ∧
      lateBranch.dependsOn 3 0 = true ∧ lateBranch.dependsOn 0 3 = false ∧
      lateBranch.dependsOn 3 4 = true ∧
      lateBranch.Arranges [3, 4, 2] [4, 2, 3] ∧ [2, 4, 3] < [4, 2, 3] ∧
      (∀ v, v ∈ [4, 3, 2, 3] ↔ v ∈ [3, 4, 2]) ∧
      lateBranch.dependencyOrder [3, 4, 2] = [2, 4, 3] ∧
      lateBranch.dependencyOrder [4, 3, 2, 3] = [2, 4, 3] := by
  have hmem : ∀ v ∈ [0, 1, 3], v ∈ lateBranch.ids := by decide
  have hfirst : lateBranch.dependsOn 3 1 = true := by decide +kernel
  have hsecond : lateBranch.dependsOn 1 0 = true := by decide +kernel
  have horder : lateBranch.dependencyOrder [3, 4, 2] = [2, 4, 3] := by decide +kernel
  have hother : lateBranch.Arranges [3, 4, 2] [4, 2, 3] :=
    arranges_of_pairwise (by decide) (by simp; omega) (by decide +kernel)
  have hsame : ∀ v, v ∈ [4, 3, 2, 3] ↔ v ∈ [3, 4, 2] := by simp; omega
  obtain ⟨-, hasymm, htrans, harrange⟩ := dependencyOrder_least lateBranch
  obtain ⟨-, hleast, hcongr⟩ := harrange [3, 4, 2]
  have hthird := htrans 3 (by decide) 1 (by decide) 0 (by decide) hfirst hsecond
  rw [horder] at hleast hcongr
  exact ⟨hmem, hfirst, hsecond, hthird, hasymm 3 (by decide) 0 (by decide) hthird, by decide +kernel, hother,
    (hleast _ hother).resolve_left (by decide), hsame, horder, hcongr _ hsame⟩

end RuleCardinality.Rule
