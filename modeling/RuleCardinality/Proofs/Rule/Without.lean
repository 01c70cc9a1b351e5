import Mathlib.Data.List.Induction
import Mathlib.Data.List.Nodup
import RuleCardinality.Proofs.Rule.Order

/-!
# Rules without one of their parts

`Rule.without` adds the nodes of a rule once more, in the same order, but for one node and all nodes below
it. The additions succeed (`exists_without`), and the nodes of the smaller rule, read as nodes of the
larger one, have the same descriptions and the same containers (`Without`). A node is `Harmless` if nothing
on the way up from it can be narrowed by what it supplies.
-/

namespace RuleCardinality

/-- The addition that a node comes from. -/
def Part.addition (p : Part) : Addition :=
  match p.container with
  | none => .root p.toSpec
  | some c => .child c p.toSpec

/-! ## Adding well-formed parts -/

theorem WellFormed.initial {ps : List Part} {p : Part} (wf : WellFormed (ps ++ [p]).toArray) :
    WellFormed ps.toArray := by
  have hkeep : ∀ {v : Nat} {q : Part}, ps.toArray[v]? = some q → (ps ++ [p]).toArray[v]? = some q := by
    intro v q h
    simp only [List.getElem?_toArray] at h ⊢
    rw [List.getElem?_append_left (List.getElem?_eq_some_iff.1 h).1, h]
  exact ⟨fun h => wf.id (hkeep h), fun h => wf.root (hkeep h), fun h hc => wf.container_lt (hkeep h) hc,
    fun h hc hq => wf.composite (hkeep h) hc (hkeep hq), fun h => wf.named (hkeep h)⟩

theorem Draft.eq_of_parts {d d' : Draft} (hname : d.name = d'.name) (hparts : d.parts = d'.parts) :
    d = d' := by
  obtain ⟨name, parts, branches, wf, rfl⟩ := d
  obtain ⟨name', parts', branches', wf', rfl⟩ := d'
  obtain rfl := hname
  obtain rfl := hparts
  rfl

theorem Draft.add_addition {d d' : Draft} {p : Part} (hname : d'.name = d.name)
    (hparts : d'.parts = d.parts.push p) : d.add p.addition = .ok d' := by
  have hlast : d'.parts[d.parts.size]? = some p := by simp [hparts]
  have hnamed := d'.wellFormed.named hlast
  have hid : d.parts.size = p.id := (d'.wellFormed.id hlast).symm
  have hpart : ∀ c, p.container = c → (⟨p.toSpec, d.parts.size, c⟩ : Part) = p := by
    rintro c rfl
    rw [hid]
  cases hc : p.container with
  | none =>
    have haddition : p.addition = .root p.toSpec := by
      unfold Part.addition
      rw [hc]
    have hzero : d.parts.size = 0 := (d'.wellFormed.root hlast).1 hc
    have hempty : d.parts = #[] := Array.eq_empty_of_size_eq_zero hzero
    rw [haddition]
    show d.addRoot p.toSpec = .ok d'
    unfold addRoot
    rw [if_neg (by omega), dif_pos hnamed]
    have hpush : #[(⟨p.toSpec, 0, none⟩ : Part)] = d'.parts := by
      rw [← hzero, hpart none hc, hparts, hempty]
      rfl
    exact congrArg Except.ok (Draft.eq_of_parts hname.symm hpush)
  | some c =>
    have haddition : p.addition = .child c p.toSpec := by
      unfold Part.addition
      rw [hc]
    have hlt : c < d.parts.size := d'.wellFormed.container_lt hlast hc
    have hcontainer : d'.parts[c]? = d.parts[c]? := by
      rw [hparts, Array.getElem?_push_lt hlt, Array.getElem?_eq_getElem hlt]
    rw [haddition]
    show d.addChild c p.toSpec = .ok d'
    unfold addChild
    split
    · rename_i hnone
      rw [Array.getElem?_eq_getElem hlt] at hnone
      cases hnone
    · rename_i q hq
      rw [dif_pos (d'.wellFormed.composite hlast hc (hcontainer.trans hq)), dif_pos hnamed]
      have hpush : d.parts.push ⟨p.toSpec, d.parts.size, some c⟩ = d'.parts := by rw [hparts, hpart (some c) hc]
      exact congrArg Except.ok (Draft.eq_of_parts hname.symm hpush)

/-- Well-formed parts can be added one after the other. -/
theorem Draft.foldlM_add {name : String} {ps : List Part} (wf : WellFormed ps.toArray) :
    (ps.map Part.addition).foldlM Draft.add (Draft.empty name) =
      .ok ⟨name, ps.toArray, childLists ps.toArray, wf, rfl⟩ := by
  induction ps using List.reverseRecOn with
  | nil => exact congrArg Except.ok (Draft.eq_of_parts rfl rfl)
  | append_singleton ps p ih =>
    rw [List.map_append, List.foldlM_append, ih wf.initial]
    have hadd : Draft.add ⟨name, ps.toArray, childLists ps.toArray, wf.initial, rfl⟩ p.addition =
        .ok ⟨name, (ps ++ [p]).toArray, childLists (ps ++ [p]).toArray, wf, rfl⟩ :=
      Draft.add_addition rfl (by simp)
    simp only [List.map_cons, List.map_nil, List.foldlM_cons, List.foldlM_nil]
    exact congrArg (· >>= pure) hadd

theorem Rule.ofAdditions_parts (name : String) {ps : List Part} (wf : WellFormed ps.toArray)
    (hne : ps ≠ []) :
    ∃ r, Rule.ofAdditions name (ps.map Part.addition) = .ok r ∧ r.name = name ∧ r.parts = ps.toArray := by
  have hpos : 0 < ps.toArray.size := by simpa using List.length_pos_iff.2 hne
  refine ⟨⟨name, ps.toArray, wf, hpos, childLists ps.toArray, rfl⟩, ?_, rfl, rfl⟩
  unfold ofAdditions
  rw [Draft.foldlM_add wf]
  exact dif_pos hpos

namespace Rule

variable {r r' : Rule} {x v c p : Nat} {e : Nat → Nat}

/-! ## The nodes that stay -/

/-- The nodes other than a node and those below it. -/
def kept (r : Rule) (x : Nat) : List Nat := r.ids.filter fun v => !(r.line v).contains x

/-- A node, with its container, as numbered once a node and those below it are left out. -/
def partWithout (r : Rule) (x v : Nat) : Part where
  toSpec := r.spec v
  id := (r.kept x).idxOf v
  container := (r.container v).map (r.kept x).idxOf

/-- The rule from the same descriptions, but for a node and those below it. -/
def without (r : Rule) (x : Nat) : Except Fault Rule :=
  ofAdditions r.name (((r.kept x).map (r.partWithout x)).map Part.addition)

theorem mem_kept : v ∈ r.kept x ↔ v < r.size ∧ x ∉ r.line v := by
  simp [kept, ids]

theorem pairwise_kept (r : Rule) (x : Nat) : (r.kept x).Pairwise (· < ·) :=
  List.pairwise_lt_range.filter _

theorem nodup_kept (r : Rule) (x : Nat) : (r.kept x).Nodup := List.nodup_range.filter _

theorem container_mem_kept (hv : v ∈ r.kept x) (hc : r.container v = some c) : c ∈ r.kept x := by
  rw [mem_kept] at hv ⊢
  exact ⟨Nat.lt_trans (lt_of_container hc) hv.1, fun hx => hv.2 (mem_line_iff.2 (.inr ⟨c, hc, hx⟩))⟩

theorem root_mem_kept (hx : r.container x = some p) : r.root ∈ r.kept x := by
  rw [mem_kept, line_eq, container_root]
  refine ⟨r.size_pos, fun hmem => ?_⟩
  obtain rfl : x = r.root := by simpa using hmem
  simp [container_root] at hx

theorem getElem_kept_lt {i j : Nat} (hi : i < (r.kept x).length) (hj : j < (r.kept x).length)
    (h : i < j) : (r.kept x)[i] < (r.kept x)[j] :=
  List.pairwise_iff_getElem.1 (r.pairwise_kept x) i j hi hj h

/-- The root stays the first node. -/
theorem getElem_kept_eq_root (hx : r.container x = some p) {i : Nat} (hi : i < (r.kept x).length) :
    (r.kept x)[i] = r.root ↔ i = 0 := by
  obtain ⟨j, hj, hroot⟩ := List.getElem_of_mem (root_mem_kept hx)
  have hzero : j = 0 := by
    by_contra hne
    have hlt := getElem_kept_lt (by omega) hj (Nat.pos_of_ne_zero hne)
    rw [hroot] at hlt
    exact Nat.not_lt_zero _ hlt
  subst hzero
  constructor
  · intro he
    by_contra hne
    have hlt := getElem_kept_lt hj hi (Nat.pos_of_ne_zero hne)
    rw [hroot, he] at hlt
    exact Nat.lt_irrefl _ hlt
  · rintro rfl
    exact hroot

/-- A container stays before the nodes in it. -/
theorem idxOf_kept_lt {i : Nat} (hi : i < (r.kept x).length)
    (hc : r.container (r.kept x)[i] = some c) : (r.kept x).idxOf c < i := by
  have hmem : c ∈ r.kept x := container_mem_kept (List.getElem_mem hi) hc
  have hlt : c < (r.kept x)[i] := lt_of_container hc
  have hidx := List.idxOf_lt_length_of_mem hmem
  have hget : (r.kept x)[(r.kept x).idxOf c] = c := List.getElem_idxOf hidx
  by_contra hle
  rcases Nat.lt_or_eq_of_le (Nat.le_of_not_lt hle) with hgt | he
  · have := getElem_kept_lt hi hidx hgt
    omega
  · simp only [← he] at hget
    omega

theorem getElem?_partsWithout {i : Nat} {q : Part}
    (h : ((r.kept x).map (r.partWithout x)).toArray[i]? = some q) :
    ∃ hi : i < (r.kept x).length, q = r.partWithout x (r.kept x)[i] := by
  rw [List.getElem?_toArray, List.getElem?_map, Option.map_eq_some_iff] at h
  obtain ⟨v, hv, rfl⟩ := h
  obtain ⟨hi, rfl⟩ := List.getElem?_eq_some_iff.1 hv
  exact ⟨hi, rfl⟩

theorem shape_eq_of_parts {q : Part} (h : r.parts[v]? = some q) : r.shape v = q.shape := by
  simp [shape, spec, h]

theorem wellFormed_without (hx : r.container x = some p) :
    WellFormed ((r.kept x).map (r.partWithout x)).toArray where
  id {i q} h := by
    obtain ⟨hi, rfl⟩ := getElem?_partsWithout h
    exact (r.nodup_kept x).idxOf_getElem i hi
  root {i q} h := by
    obtain ⟨hi, rfl⟩ := getElem?_partsWithout h
    rw [← getElem_kept_eq_root hx hi]
    have hlt := (mem_kept.1 (List.getElem_mem hi)).1
    constructor
    · intro hnone
      exact eq_root_of_container hlt (Option.map_eq_none_iff.1 hnone)
    · intro hroot
      unfold partWithout
      rw [hroot, container_root]
      rfl
  container_lt {i c q} h hc := by
    obtain ⟨hi, rfl⟩ := getElem?_partsWithout h
    obtain ⟨d, hd, rfl⟩ := Option.map_eq_some_iff.1 hc
    exact idxOf_kept_lt hi hd
  composite {i c q q'} h hc h' := by
    obtain ⟨hi, rfl⟩ := getElem?_partsWithout h
    obtain ⟨d, hd, rfl⟩ := Option.map_eq_some_iff.1 hc
    obtain ⟨hj, rfl⟩ := getElem?_partsWithout h'
    have hlt := (mem_kept.1 (container_mem_kept (List.getElem_mem hi) hd)).1
    obtain ⟨q, hq, hqc⟩ := Option.bind_eq_some_iff.1 hd
    have hleaf := r.wellFormed.composite hq hqc (Array.getElem?_eq_getElem hlt)
    rw [← shape_eq_of_parts (Array.getElem?_eq_getElem hlt)] at hleaf
    unfold partWithout
    rw [List.getElem_idxOf]
    exact hleaf
  named {i q} h := by
    obtain ⟨hi, rfl⟩ := getElem?_partsWithout h
    have hlt := (mem_kept.1 (List.getElem_mem hi)).1
    have hnamed := r.wellFormed.named (Array.getElem?_eq_getElem hlt)
    rw [← shape_eq_of_parts (Array.getElem?_eq_getElem hlt)] at hnamed
    exact hnamed

/-! ## The smaller rule as a part of the larger one -/

/-- The nodes of `r'`, read as nodes of `r` by `e`, are those that stay when `x` is left out, with the same
descriptions and containers. -/
structure Without (r : Rule) (x : Nat) (r' : Rule) (e : Nat → Nat) : Prop where
  ids : r'.ids.map e = r.kept x
  spec : ∀ v ∈ r'.ids, r'.spec v = r.spec (e v)
  container : ∀ v ∈ r'.ids, r.container (e v) = (r'.container v).map e

theorem exists_without (hx : r.container x = some p) :
    ∃ r' e, r.without x = .ok r' ∧ r.Without x r' e := by
  have hne : (r.kept x).map (r.partWithout x) ≠ [] :=
    List.ne_nil_of_mem (List.mem_map_of_mem (root_mem_kept hx))
  obtain ⟨r', hr', -, hparts⟩ := ofAdditions_parts r.name (wellFormed_without hx) hne
  have hsize : r'.size = (r.kept x).length := by simp [size, hparts]
  have hpart : ∀ v ∈ r'.ids, ∃ hv : v < (r.kept x).length,
      r'.parts[v]? = some (r.partWithout x (r.kept x)[v]) := by
    intro v hv
    have hlt : v < (r.kept x).length := hsize ▸ List.mem_range.1 hv
    refine ⟨hlt, ?_⟩
    rw [hparts, List.getElem?_toArray, List.getElem?_map, List.getElem?_eq_getElem hlt]
    rfl
  have he : ∀ {v : Nat} (hv : v < (r.kept x).length), (r.kept x).getD v 0 = (r.kept x)[v] := by
    intro v hv
    simp [List.getD, List.getElem?_eq_getElem hv]
  refine ⟨r', fun v => (r.kept x).getD v 0, hr', ?_, fun v hv => ?_, fun v hv => ?_⟩
  · refine List.ext_getElem (by simp [ids, hsize]) fun i hi hj => ?_
    rw [List.getElem_map, he (by simpa [ids, hsize] using hi)]
    simp [ids]
  · obtain ⟨hlt, hv⟩ := hpart v hv
    simp only [he hlt]
    simp [Rule.spec, hv, partWithout]
  · obtain ⟨hlt, hv⟩ := hpart v hv
    have hc : r'.container v = (r.container (r.kept x)[v]).map (r.kept x).idxOf := by
      simp only [container, hv, Option.bind_some]
      rfl
    simp only [he hlt, hc, Option.map_map]
    cases hcontainer : r.container (r.kept x)[v] with
    | none => rfl
    | some c =>
      have hmem : c ∈ r.kept x := container_mem_kept (List.getElem_mem hlt) hcontainer
      have hidx := List.idxOf_lt_length_of_mem hmem
      simp only [Option.map_some, Function.comp_apply, he hidx, List.getElem_idxOf]

namespace Without

variable {u : Nat}

theorem mem_kept (h : r.Without x r' e) (hv : v ∈ r'.ids) : e v ∈ r.kept x :=
  h.ids ▸ List.mem_map_of_mem hv

theorem inj (h : r.Without x r' e) (hu : u ∈ r'.ids) (hv : v ∈ r'.ids) : e u = e v ↔ u = v :=
  ⟨List.inj_on_of_nodup_map (h.ids ▸ nodup_kept r x) hu hv, congrArg e⟩

theorem shape (h : r.Without x r' e) (hv : v ∈ r'.ids) : r'.shape v = r.shape (e v) :=
  congrArg Spec.shape (h.spec v hv)

theorem optional (h : r.Without x r' e) (hv : v ∈ r'.ids) : r'.optional v = r.optional (e v) :=
  congrArg Spec.optional (h.spec v hv)

theorem repeatable (h : r.Without x r' e) (hv : v ∈ r'.ids) : r'.repeatable v = r.repeatable (e v) :=
  congrArg Spec.repeatable (h.spec v hv)

theorem field? (h : r.Without x r' e) (hv : v ∈ r'.ids) : r'.field? v = r.field? (e v) :=
  congrArg Shape.field? (h.shape hv)

theorem root (h : r.Without x r' e) : e r'.root = r.root := by
  refine eq_root_of_container (Rule.mem_kept.1 (h.mem_kept (root_mem_ids r'))).1 ?_
  rw [h.container _ (root_mem_ids r'), container_root]
  rfl

theorem container_iff (h : r.Without x r' e) (hv : v ∈ r'.ids) (hc : c ∈ r'.ids) :
    r.container (e c) = some (e v) ↔ r'.container c = some v := by
  rw [h.container c hc]
  cases hd : r'.container c with
  | none => simp
  | some d => simp [h.inj (mem_ids_of_container hd) hv]

/-- Only the node that is left out is missing among the children. -/
theorem children (h : r.Without x r' e) (hv : v ∈ r'.ids) :
    (r'.children v).map e = r.others (e v) x := by
  have hcontainer : r'.ids.filter (fun c => r'.container c == some v) =
      r'.ids.filter ((fun c => r.container c == some (e v)) ∘ e) := by
    refine List.filter_congr fun c hc => Bool.eq_iff_iff.2 ?_
    rw [Function.comp_apply, beq_iff_eq, beq_iff_eq]
    exact (h.container_iff hv hc).symm
  rw [children_eq, hcontainer, ← List.filter_map, h.ids]
  unfold others kept
  rw [children_eq, List.filter_filter, List.filter_filter]
  refine List.filter_congr fun c _ => ?_
  by_cases hc : r.container c = some (e v)
  · -- Its container stays, so a child is left out exactly if it is the node itself.
    have hout := (Rule.mem_kept.1 (h.mem_kept hv)).2
    have hline : (r.line c).contains x = (c == x) := by
      rw [Bool.eq_iff_iff, List.contains_iff_mem, beq_iff_eq, mem_line_iff, hc, or_iff_left, eq_comm]
      rintro ⟨p, hp, hx⟩
      exact hout (Option.some.inj hp ▸ hx)
    rw [hline, hc, beq_self_eq_true, Bool.true_and, Bool.and_true]
    rfl
  · have hb : (r.container c == some (e v)) = false := by simpa using hc
    rw [hb, Bool.false_and, Bool.and_false]

theorem others (h : r.Without x r' e) (hv : v ∈ r'.ids) (hu : u ∈ r'.ids) :
    (r'.others v u).map e = (r.others (e v) (e u)).filter (· != x) := by
  have hne : (r'.children v).filter (· != u) = (r'.children v).filter ((· != e u) ∘ e) := by
    refine List.filter_congr fun c hc => ?_
    simp [bne, h.inj (mem_ids_of_child hc) hu]
  unfold Rule.others
  rw [hne, ← List.filter_map, h.children hv]
  unfold Rule.others
  rw [List.filter_filter, List.filter_filter]
  exact List.filter_congr fun c _ => Bool.and_comm _ _

theorem mem_children_iff (h : r.Without x r' e) (hv : v ∈ r'.ids) :
    c ∈ r.children (e v) ∧ c ≠ x ↔ ∃ d ∈ r'.children v, e d = c := by
  rw [← List.mem_map, h.children hv]
  simp [Rule.others]

theorem mem_others_iff (h : r.Without x r' e) (hv : v ∈ r'.ids) (hu : u ∈ r'.ids) :
    c ∈ r.others (e v) (e u) ∧ c ≠ x ↔ ∃ d ∈ r'.others v u, e d = c := by
  rw [← List.mem_map, h.others hv hu]
  simp

theorem written_sublist (h : r.Without x r' e) : (r'.ids.filterMap r'.field?).Sublist
    (r.ids.filterMap r.field?) := by
  have hmap : r'.ids.filterMap r'.field? = (r.kept x).filterMap r.field? := by
    rw [← h.ids, List.filterMap_map]
    exact List.filterMap_congr fun v hv => h.field? hv
  rw [hmap]
  exact List.filter_sublist.filterMap _

end Without

/-! ## Nodes that narrow nothing -/

/-- A node, and all its containers up to the first one that may be left out. -/
inductive Exposed (r : Rule) (x : Nat) : Nat → Prop
  | self : Exposed r x x
  | container {a b : Nat} : Exposed r x a → r.container a = some b → r.optional b = false → Exposed r x b

/-- No container of the node repeats, and the nearest one that may be left out, if there is one, is an
alternative. -/
structure Harmless (r : Rule) (x : Nat) : Prop where
  once : ∀ a ∈ r.ancestors x, r.repeatable a = false
  nearest : ∀ a ∈ (r.ancestors x).find? r.optional, r.shape a = .alternative

instance (r : Rule) (x : Nat) : Decidable (r.Harmless x) :=
  decidable_of_iff ((∀ a ∈ r.ancestors x, r.repeatable a = false) ∧
    ∀ a ∈ (r.ancestors x).find? r.optional, r.shape a = .alternative)
    ⟨fun h => ⟨h.1, h.2⟩, fun h => ⟨h.once, h.nearest⟩⟩

/-- The containers of an exposed node are no more of a danger than those of the node itself. -/
theorem Harmless.exposed {a : Nat} (h : r.Harmless x) (ha : r.Exposed x a) : r.Harmless a := by
  induction ha with
  | self => exact h
  | container _ hc ho ih =>
    obtain ⟨honce, hnearest⟩ := ih
    rw [ancestors_of_container hc] at honce hnearest
    rw [line, List.find?_cons, ho] at hnearest
    exact ⟨fun y hy => honce y (List.mem_cons_of_mem _ hy), hnearest⟩

theorem Harmless.repeatable_line {b : Nat} (h : r.Harmless x) (hc : r.container x = some b) :
    ∀ y ∈ r.line b, r.repeatable y = false := by
  have honce := h.once
  rw [ancestors_of_container hc] at honce
  exact honce

/-- A group that contains an exposed node may not be left out. -/
theorem Harmless.optional_group {b : Nat} (h : r.Harmless x) (hc : r.container x = some b)
    (hs : r.shape b = .group) : r.optional b = false := by
  by_contra ho
  have hfind : (r.ancestors x).find? r.optional = some b := by
    rw [ancestors_of_container hc, line, List.find?_cons_of_pos (by simpa using ho)]
  have halternative := h.nearest b hfind
  rw [hs] at halternative
  cases halternative

end Rule

end RuleCardinality
