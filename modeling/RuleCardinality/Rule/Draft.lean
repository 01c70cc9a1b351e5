import RuleCardinality.Fault
import RuleCardinality.Rule.Spec

/-!
# Rules under construction

A `Draft` is a rule whose nodes are still being added, the root first and every other node under a
node that is already there. Nodes are numbered in the order in which they were added. An addition that
cannot be made is a fault and leaves no trace. What every addition keeps is `WellFormed`: a container
has a smaller number than the nodes in it, leaves contain nothing, only the first node has no
container, and no assignment writes a nameless field. The children of every node are kept beside the
nodes and grow with them (`childLists_push`).
-/

namespace RuleCardinality

/-- A node in its place (`ConstraintNode`, node.rs:139). -/
structure Part extends Spec where
  id : Nat
  /-- The containing node, or nothing for the root. -/
  container : Option Nat

/-- What holds of the nodes of a rule after any sequence of additions. -/
structure WellFormed (parts : Array Part) : Prop where
  id : ∀ {v : Nat} {p : Part}, parts[v]? = some p → p.id = v
  root : ∀ {v : Nat} {p : Part}, parts[v]? = some p → (p.container = none ↔ v = 0)
  /-- A container was added before the nodes in it. -/
  container_lt : ∀ {v c : Nat} {p : Part}, parts[v]? = some p → p.container = some c → c < v
  composite : ∀ {v c : Nat} {p q : Part}, parts[v]? = some p → p.container = some c →
    parts[c]? = some q → q.shape.isLeaf = false
  named : ∀ {v : Nat} {p : Part}, parts[v]? = some p → p.shape.isNameless = false

namespace WellFormed

theorem empty : WellFormed #[] where
  id h := by simp at h
  root h := by simp at h
  container_lt h := by simp at h
  composite h := by simp at h
  named h := by simp at h

theorem singleton {s : Spec} (h : s.shape.isNameless = false) : WellFormed #[⟨s, 0, none⟩] where
  id {v p} hv := by
    cases v with
    | zero => simp at hv; subst hv; rfl
    | succ n => simp at hv
  root {v p} hv := by
    obtain ⟨rfl, rfl⟩ : v = 0 ∧ p = ⟨s, 0, none⟩ := by
      cases v with
      | zero => simpa [eq_comm] using hv
      | succ n => simp at hv
    simp
  container_lt {v c p} hv hc := by
    cases v with
    | zero => simp at hv; subst hv; simp at hc
    | succ n => simp at hv
  composite {v c p q} hv hc := by
    cases v with
    | zero => simp at hv; subst hv; simp at hc
    | succ n => simp at hv
  named {v p} hv := by
    cases v with
    | zero => simp at hv; subst hv; exact h
    | succ n => simp at hv

theorem push {parts : Array Part} (wf : WellFormed parts) {parent : Nat} {q : Part} {s : Spec}
    (hq : parts[parent]? = some q) (leaf : q.shape.isLeaf = false)
    (named : s.shape.isNameless = false) : WellFormed (parts.push ⟨s, parts.size, some parent⟩) := by
  have hlt : parent < parts.size := (Array.getElem?_eq_some_iff.1 hq).1
  have split : ∀ {v : Nat} {p : Part}, (parts.push ⟨s, parts.size, some parent⟩)[v]? = some p →
      (v = parts.size ∧ p = ⟨s, parts.size, some parent⟩) ∨ (v < parts.size ∧ parts[v]? = some p) := by
    intro v p h
    rw [Array.getElem?_push] at h
    split at h
    · exact .inl ⟨‹_›, by simpa [eq_comm] using h⟩
    · exact .inr ⟨(Array.getElem?_eq_some_iff.1 h).1, h⟩
  refine ⟨fun h => ?_, fun h => ?_, fun h hc => ?_, fun h hc hr => ?_, fun h => ?_⟩
  · rcases split h with ⟨rfl, rfl⟩ | ⟨_, h⟩
    · rfl
    · exact wf.id h
  · rcases split h with ⟨rfl, rfl⟩ | ⟨_, h⟩
    · simp only [reduceCtorEq, false_iff]; omega
    · exact wf.root h
  · rcases split h with ⟨rfl, rfl⟩ | ⟨_, h⟩
    · simp only [Option.some.injEq] at hc; omega
    · exact wf.container_lt h hc
  · rcases split h with ⟨rfl, rfl⟩ | ⟨hv, h⟩
    · simp only [Option.some.injEq] at hc
      subst hc
      rcases split hr with ⟨rfl, _⟩ | ⟨_, hr⟩
      · omega
      · rw [hq] at hr; cases hr; exact leaf
    · rcases split hr with ⟨rfl, _⟩ | ⟨_, hr⟩
      · exact absurd (wf.container_lt h hc) (by omega)
      · exact wf.composite h hc hr
  · rcases split h with ⟨rfl, rfl⟩ | ⟨_, h⟩
    · exact named
    · exact wf.named h

end WellFormed

/-! ## Children -/

/-- The children of each node, in the order in which they were added. -/
def childLists (parts : Array Part) : Array (List Nat) :=
  (Array.range parts.size).map fun v =>
    (List.range parts.size).filter fun c => (parts[c]?).bind Part.container == some v

theorem childLists_empty : childLists #[] = #[] := by
  simp [childLists]

theorem childLists_singleton (s : Spec) : childLists #[⟨s, 0, none⟩] = #[[]] := by
  have hrange : Array.range 1 = #[0] := rfl
  simp [childLists, hrange]

/-- A new node has no children yet, and is the last child of its container. -/
theorem childLists_push {parts : Array Part} (wf : WellFormed parts) (parent : Nat) (s : Spec) :
    childLists (parts.push ⟨s, parts.size, some parent⟩) =
      ((childLists parts).push []).modify parent (· ++ [parts.size]) := by
  refine Array.ext (by simp [childLists]) fun v hv hv' => ?_
  have hold : (List.range parts.size).filter (fun c =>
        ((parts.push ⟨s, parts.size, some parent⟩)[c]?).bind Part.container == some v) =
      (List.range parts.size).filter fun c => (parts[c]?).bind Part.container == some v := by
    refine List.filter_congr fun c hc => ?_
    rw [Array.getElem?_push, if_neg (Nat.ne_of_lt (List.mem_range.1 hc))]
  have hnew : ((parts.push ⟨s, parts.size, some parent⟩)[parts.size]?).bind Part.container = some parent := by
    simp
  have hleft : (childLists (parts.push ⟨s, parts.size, some parent⟩))[v] =
      ((List.range parts.size).filter fun c => (parts[c]?).bind Part.container == some v) ++
        if parent = v then [parts.size] else [] := by
    simp only [childLists, Array.getElem_map, Array.getElem_range, Array.size_push,
      List.range_succ, List.filter_append, hold, List.filter_cons, List.filter_nil, hnew]
    by_cases hp : parent = v <;> simp [hp]
  have hw : v < ((childLists parts).push []).size := by simpa using hv'
  have hright : ((childLists parts).push [])[v] =
      (List.range parts.size).filter fun c => (parts[c]?).bind Part.container == some v := by
    rw [Array.getElem_push]
    split
    · simp [childLists]
    · -- Containers come before what they contain, so nothing is in the new node.
      refine (List.filter_eq_nil_iff.2 fun c hc hcv => ?_).symm
      obtain ⟨p, hp, hpc⟩ := Option.bind_eq_some_iff.1 (by simpa using hcv)
      have hlt := wf.container_lt hp hpc
      have hc := List.mem_range.1 hc
      simp only [childLists, Array.size_map, Array.size_range] at *
      omega
  rw [hleft, Array.getElem_modify, hright]
  split <;> simp

/-! ## Drafts -/

/-- A rule to which nodes can still be added (`TreeBuilder`, tree.rs:189). -/
structure Draft where
  name : String
  parts : Array Part
  branches : Array (List Nat)
  wellFormed : WellFormed parts
  branches_eq : branches = childLists parts

namespace Draft

def empty (name : String) : Draft := ⟨name, #[], #[], .empty, childLists_empty.symm⟩

/-- The number of nodes added so far, which the next node gets as its number. -/
def size (d : Draft) : Nat := d.parts.size

/-- The `root` of tree.rs:209. -/
def addRoot (d : Draft) (s : Spec) : Except Fault Draft :=
  if 0 < d.parts.size then .error (.secondRoot d.name)
  else if named : s.shape.isNameless = false then
    .ok ⟨d.name, #[⟨s, 0, none⟩], #[[]], .singleton named, (childLists_singleton s).symm⟩
  else .error (.blankField d.name)

/-- The `child` of tree.rs:227. -/
def addChild (d : Draft) (parent : Nat) (s : Spec) : Except Fault Draft :=
  match h : d.parts[parent]? with
  | none => .error (.unknownNode d.name parent)
  | some q =>
    if leaf : q.shape.isLeaf = false then
      if named : s.shape.isNameless = false then
        .ok {
          name := d.name
          parts := d.parts.push ⟨s, d.parts.size, some parent⟩
          branches := (d.branches.push []).modify parent (· ++ [d.parts.size])
          wellFormed := d.wellFormed.push h leaf named
          branches_eq := by rw [d.branches_eq, childLists_push d.wellFormed] }
      else .error (.blankField d.name)
    else .error (.leafParent d.name parent q.shape.name)

end Draft

/-- A request to add a node: as the root, or under a node. -/
inductive Addition where
  | root (spec : Spec)
  | child (parent : Nat) (spec : Spec)

namespace Addition

def spec : Addition → Spec
  | root spec => spec
  | child _ spec => spec

def container : Addition → Option Nat
  | root _ => none
  | child parent _ => some parent

/-- The node that is asked for, with the number it gets. -/
def part (a : Addition) (id : Nat) : Part := ⟨a.spec, id, a.container⟩

end Addition

namespace Draft

def add (d : Draft) : Addition → Except Fault Draft
  | .root spec => d.addRoot spec
  | .child parent spec => d.addChild parent spec

/-- Tries an addition: the number of the new node or the fault, and the draft as it is afterwards. -/
def call (d : Draft) (a : Addition) : Except Fault Nat × Draft :=
  match d.add a with
  | .ok d' => (.ok d.size, d')
  | .error fault => (.error fault, d)

/-- Makes the additions that can be made and passes over the others. -/
def addAll (d : Draft) (additions : List Addition) : Draft :=
  additions.foldl (fun d a => (d.call a).2) d

end Draft

end RuleCardinality
