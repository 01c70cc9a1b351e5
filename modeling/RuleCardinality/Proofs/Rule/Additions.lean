import Mathlib.Data.List.Induction
import Mathlib.Data.List.Nodup
import Mathlib.Data.List.TakeWhile
import Mathlib.Logic.Relation
import RuleCardinality.Proofs.Rule.Firing

/-!
# Rules made by additions

Whatever is asked of a draft, in whatever order, a call that fails leaves it as it is, and one that succeeds
puts one more node at its end (`call_cases`). So the numbers that calls return are the places of the nodes, and
a finished rule is a tree under its root (`Rule.IsTree`). A draft can be finished exactly if it was given a
root (`finish_addAll`).
-/

namespace RuleCardinality

theorem Text.trim_eq_nil_iff (s : String) : Text.trim s = [] ↔ Text.isBlank s = true := by
  unfold trim isBlank
  rw [List.reverse_eq_nil_iff, List.dropWhile_eq_nil_iff, List.all_eq_true]
  constructor
  · intro h c hc
    rw [← List.takeWhile_append_dropWhile (p := isSpace) (l := s.toList), List.mem_append] at hc
    rcases hc with hc | hc
    · exact List.mem_takeWhile_imp hc
    · exact h c (List.mem_reverse.2 hc)
  · intro h c hc
    exact h c ((List.dropWhile_sublist _).mem (List.mem_reverse.1 hc))

namespace Draft

variable {d d' : Draft} {a : Addition} {as pre post : List Addition} {n v : Nat} {p : Part}
  {fault : Fault}

/-! ## One call -/

theorem add_ok (h : d.add a = .ok d') : d'.name = d.name ∧ d'.parts = d.parts.push (a.part d.size) := by
  cases a with
  | root s =>
    simp only [add, addRoot] at h
    split at h
    · cases h
    · split at h
      · cases h
        have hzero : d.parts.size = 0 := by omega
        refine ⟨rfl, ?_⟩
        rw [size, hzero, Array.eq_empty_of_size_eq_zero hzero]
        rfl
      · cases h
  | child parent s =>
    simp only [add, addChild] at h
    split at h
    · cases h
    · split at h
      · split at h
        · cases h
          exact ⟨rfl, rfl⟩
        · cases h
      · cases h

/-- A call either fails and leaves the draft as it is, or it returns the number of nodes so far and puts
the new node after them. -/
theorem call_cases (d : Draft) (a : Addition) :
    (∃ fault, d.call a = (.error fault, d)) ∨
      ∃ d', d.call a = (.ok d.size, d') ∧ d'.name = d.name ∧ d'.parts = d.parts.push (a.part d.size) := by
  unfold call
  cases h : d.add a with
  | error fault => exact .inl ⟨fault, rfl⟩
  | ok d' => exact .inr ⟨d', rfl, add_ok h⟩

theorem call_fault (h : (d.call a).1 = .error fault) : (d.call a).2 = d := by
  rcases call_cases d a with ⟨fault, hc⟩ | ⟨d', hc, -⟩
  · rw [hc]
  · rw [hc] at h
    cases h

theorem call_ok (h : (d.call a).1 = .ok n) :
    n = d.size ∧ (d.call a).2.parts = d.parts.push (a.part d.size) := by
  rcases call_cases d a with ⟨fault, hc⟩ | ⟨d', hc, -, hparts⟩
  · rw [hc] at h
    cases h
  · rw [hc] at h
    cases h
    exact ⟨rfl, by rw [hc, hparts]⟩

/-! ## Many calls -/

theorem addAll_append (d : Draft) (as bs : List Addition) :
    d.addAll (as ++ bs) = (d.addAll as).addAll bs :=
  List.foldl_append

theorem addAll_cons (d : Draft) (a : Addition) (as : List Addition) :
    d.addAll (a :: as) = (d.call a).2.addAll as := rfl

theorem name_addAll (d : Draft) (as : List Addition) : (d.addAll as).name = d.name := by
  induction as generalizing d with
  | nil => rfl
  | cons a as ih =>
    rw [addAll_cons, ih]
    rcases call_cases d a with ⟨fault, hc⟩ | ⟨d', hc, hname, -⟩
    · rw [hc]
    · rw [hc, hname]

/-- Nodes keep their places. -/
theorem getElem?_addAll (h : d.parts[v]? = some p) (as : List Addition) :
    (d.addAll as).parts[v]? = some p := by
  induction as generalizing d with
  | nil => exact h
  | cons a as ih =>
    rw [addAll_cons]
    refine ih ?_
    rcases call_cases d a with ⟨fault, hc⟩ | ⟨d', hc, -, hparts⟩
    · rw [hc]
      exact h
    · rw [hc, hparts, Array.getElem?_push_lt (Array.getElem?_eq_some_iff.1 h).1]
      exact congrArg some (Array.getElem?_eq_some_iff.1 h).2

/-- Every node comes from a call that returned its number. -/
theorem exists_call_of_getElem? {name : String} (h : ((empty name).addAll as).parts[v]? = some p) :
    ∃ pre a post, as = pre ++ a :: post ∧ (((empty name).addAll pre).call a).1 = .ok v ∧
      p = a.part v := by
  induction as using List.reverseRecOn with
  | nil => simp [addAll, empty] at h
  | append_singleton as a ih =>
    have hearlier : ((empty name).addAll as).parts[v]? = some p →
        ∃ pre x post, as ++ [a] = pre ++ x :: post ∧ (((empty name).addAll pre).call x).1 = .ok v ∧
          p = x.part v := by
      intro hv
      obtain ⟨pre, x, post, rfl, hcall, hp⟩ := ih hv
      exact ⟨pre, x, post ++ [a], by simp, hcall, hp⟩
    rw [addAll_append, addAll_cons] at h
    rcases call_cases ((empty name).addAll as) a with ⟨fault, hc⟩ | ⟨d', hc, -, hparts⟩
    · rw [hc] at h
      exact hearlier h
    · rw [hc] at h
      change d'.parts[v]? = some p at h
      rw [hparts, Array.getElem?_push] at h
      split at h
      · rename_i hv
        cases h
        subst hv
        exact ⟨as, a, [], rfl, by rw [hc]; rfl, rfl⟩
      · exact hearlier h

/-! ## Finished rules -/

theorem finish_ok {r : Rule} (h : d.finish = .ok r) : r.name = d.name ∧ r.parts = d.parts := by
  unfold finish at h
  split at h
  · cases h
    exact ⟨rfl, rfl⟩
  · cases h

theorem exists_finish_ok_iff : (∃ r, d.finish = .ok r) ↔ 0 < d.size := by
  unfold finish
  split
  · rename_i hpos
    exact iff_of_true ⟨_, rfl⟩ hpos
  · rename_i hpos
    exact iff_of_false (by rintro ⟨r, hr⟩; cases hr) hpos

theorem finish_fault (h : d.finish = .error fault) : fault = .missingRoot d.name := by
  unfold finish at h
  split at h
  · cases h
  · cases h
    rfl

/-- The first node of a draft is the root that was asked for. -/
theorem exists_root_call {name : String} (h : 0 < ((empty name).addAll as).size) :
    ∃ pre s post n, as = pre ++ .root s :: post ∧
      (((empty name).addAll pre).call (.root s)).1 = .ok n := by
  obtain ⟨pre, a, post, has, hcall, hp⟩ := exists_call_of_getElem? (Array.getElem?_eq_getElem h)
  have hroot := (((empty name).addAll as).wellFormed.root (Array.getElem?_eq_getElem h)).2 rfl
  rw [hp] at hroot
  cases a with
  | root s => exact ⟨pre, s, post, 0, has, hcall⟩
  | child parent s => cases hroot

/-- What a call that returned a number asked for is the node of that number from then on. -/
theorem getElem?_of_call {name : String} (has : as = pre ++ a :: post)
    (h : (((empty name).addAll pre).call a).1 = .ok n) :
    ((empty name).addAll as).parts[n]? = some (a.part n) := by
  obtain ⟨rfl, hparts⟩ := call_ok h
  rw [has, addAll_append, addAll_cons]
  exact getElem?_addAll (by rw [hparts]; exact Array.getElem?_push_size) post

end Draft

namespace Rule

variable {r : Rule} {v : Nat} {field : String} {a : Addition}

/-- The nodes of a rule have their places for their numbers and form a tree under the root: the root alone has no
container and leads to every node, the children of a node are the nodes whose container it is, each listed
once, edges lead from smaller to larger numbers, and leaves have no children. Assignments write fields
with a proper name. -/
structure IsTree (r : Rule) : Prop where
  id : ∀ (v : Nat) (p : Part), r.parts[v]? = some p → p.id = v
  root_iff : ∀ v ∈ r.ids, r.container v = none ↔ v = r.root
  reachable : ∀ v ∈ r.ids, Relation.ReflTransGen (fun p c => c ∈ r.children p) r.root v
  count_children : ∀ p c, (r.children p).count c = if r.container c = some p then 1 else 0
  container_lt : ∀ v p, r.container v = some p → p < v
  leaf : ∀ v, (r.shape v).isLeaf = true → r.children v = []
  named : ∀ v field, r.field? v = some field → Text.trim field ≠ []

theorem reachable_of_mem_ids (hv : v ∈ r.ids) :
    Relation.ReflTransGen (fun p c => c ∈ r.children p) r.root v := by
  induction v using induction_up (r := r) with
  | step v ih =>
    cases hc : r.container v with
    | none => rw [eq_root_of_container (List.mem_range.1 hv) hc]
    | some p => exact (ih p hc (mem_ids_of_container hc)).tail (mem_children.2 hc)

theorem count_children (r : Rule) (p c : Nat) :
    (r.children p).count c = if r.container c = some p then 1 else 0 := by
  split
  · rename_i hc
    exact List.count_eq_one_of_mem (r.nodup_children p) (mem_children.2 hc)
  · rename_i hc
    exact List.count_eq_zero.2 fun hmem => hc (mem_children.1 hmem)

theorem trim_field?_ne_nil (hf : r.field? v = some field) : Text.trim field ≠ [] := by
  have hpart := Array.getElem?_eq_getElem (lt_size_of_field? hf)
  have hshape := shape_of_field? hf
  simp only [shape, spec, hpart, Option.elim_some] at hshape
  have hnamed := r.wellFormed.named hpart
  rw [hshape] at hnamed
  rw [Ne, Text.trim_eq_nil_iff]
  exact Bool.eq_false_iff.1 hnamed

theorem isTree (r : Rule) : r.IsTree where
  id _ _ := r.wellFormed.id
  root_iff _ hv := ⟨eq_root_of_container (List.mem_range.1 hv), fun he => he ▸ container_root r⟩
  reachable _ := reachable_of_mem_ids
  count_children := count_children r
  container_lt _ _ := lt_of_container
  leaf _ := children_of_isLeaf
  named _ _ := trim_field?_ne_nil

theorem spec_of_getElem? (h : r.parts[v]? = some (a.part v)) :
    v < r.size ∧ r.spec v = a.spec ∧ r.container v = a.container := by
  refine ⟨(Array.getElem?_eq_some_iff.1 h).1, ?_, ?_⟩
  · rw [spec, h]
    rfl
  · rw [container, h]
    rfl

end Rule

namespace Draft

/-- Whatever is asked of a draft: a call that fails leaves it as it is and might as well not have been made.
The draft can be finished exactly if some call gave it a root, and is then a tree whose nodes are those that
the successful calls asked for, each numbered by what its call returned. -/
theorem finish_addAll (name : String) (as : List Addition) :
    (∀ pre a post fault, as = pre ++ a :: post →
      (((empty name).addAll pre).call a).1 = .error fault →
        (((empty name).addAll pre).call a).2 = (empty name).addAll pre ∧
        (empty name).addAll as = (empty name).addAll (pre ++ post)) ∧
    ((∃ r, ((empty name).addAll as).finish = .ok r) ↔
      ∃ pre s post n, as = pre ++ .root s :: post ∧
        (((empty name).addAll pre).call (.root s)).1 = .ok n) ∧
    (∀ fault, ((empty name).addAll as).finish = .error fault → fault = .missingRoot name) ∧
    ∀ r, ((empty name).addAll as).finish = .ok r →
      r.name = name ∧ r.IsTree ∧
      (∀ pre a post n, as = pre ++ a :: post → (((empty name).addAll pre).call a).1 = .ok n →
        n < r.size ∧ r.spec n = a.spec ∧ r.container n = a.container) ∧
      ∀ v ∈ r.ids, ∃ pre a post, as = pre ++ a :: post ∧
        (((empty name).addAll pre).call a).1 = .ok v := by
  refine ⟨fun pre a post fault has h => ?_, ?_, fun fault h => ?_, fun r h => ?_⟩
  · have hsame := call_fault h
    exact ⟨hsame, by rw [has, addAll_append, addAll_append, addAll_cons, hsame]⟩
  · rw [exists_finish_ok_iff]
    refine ⟨exists_root_call, ?_⟩
    rintro ⟨pre, s, post, n, has, h⟩
    exact Nat.zero_lt_of_lt (Array.getElem?_eq_some_iff.1 (getElem?_of_call has h)).1
  · rw [finish_fault h, name_addAll]
    rfl
  · obtain ⟨hname, hparts⟩ := finish_ok h
    refine ⟨by rw [hname, name_addAll]; rfl, r.isTree, fun pre a post n has hcall => ?_,
      fun v hv => ?_⟩
    · exact Rule.spec_of_getElem? (by rw [hparts]; exact getElem?_of_call has hcall)
    · have hv : v < ((empty name).addAll as).parts.size := by
        rw [← hparts]
        exact List.mem_range.1 hv
      obtain ⟨pre, a, post, has, hcall, -⟩ := exists_call_of_getElem? (Array.getElem?_eq_getElem hv)
      exact ⟨pre, a, post, has, hcall⟩

end Draft

end RuleCardinality
