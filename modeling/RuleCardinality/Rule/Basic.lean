import RuleCardinality.Rule.Draft

/-!
# Rules

A finished rule: a non-empty, well-formed list of nodes, numbered from the root's `0` on, with the
children of every node at hand. All look-ups are total: a number that no node has is taken for an
action without container, children or guard. Since a container has a smaller number than the nodes in
it, every walk down ends (`lt_of_mem_children`) and so does every walk up (`lt_of_container`).
-/

namespace RuleCardinality

/-- A named rule with at least one node (`ConstraintTree`, tree.rs:12). -/
structure Rule where
  name : String
  parts : Array Part
  wellFormed : WellFormed parts
  size_pos : 0 < parts.size
  branches : Array (List Nat)
  branches_eq : branches = childLists parts

/-- The `build` of tree.rs:265. -/
def Draft.finish (d : Draft) : Except Fault Rule :=
  if h : 0 < d.parts.size then .ok ⟨d.name, d.parts, d.wellFormed, h, d.branches, d.branches_eq⟩
  else .error (.missingRoot d.name)

namespace Rule

/-- The rule made of some additions, or the fault of the first that cannot be made. -/
def ofAdditions (name : String) (additions : List Addition) : Except Fault Rule := do
  let d ← additions.foldlM Draft.add (Draft.empty name)
  d.finish

def size (r : Rule) : Nat := r.parts.size

def ids (r : Rule) : List Nat := List.range r.size

def root (_ : Rule) : Nat := 0

def has (r : Rule) (v : Nat) : Bool := v < r.size

/-- What a number stands for if no node has it. -/
def inert : Spec where
  shape := .action

def spec (r : Rule) (v : Nat) : Spec := (r.parts[v]?).elim inert Part.toSpec

def container (r : Rule) (v : Nat) : Option Nat := (r.parts[v]?).bind Part.container

/-- The children of a node, in the order in which they were added. -/
def children (r : Rule) (v : Nat) : List Nat := (r.branches[v]?).getD []

def shape (r : Rule) (v : Nat) : Shape := (r.spec v).shape

def optional (r : Rule) (v : Nat) : Bool := (r.spec v).optional

def repeatable (r : Rule) (v : Nat) : Bool := (r.spec v).repeatable

/-- The `target_field` of node.rs:192. -/
def field? (r : Rule) (v : Nat) : Option String := (r.shape v).field?

/-- The children of a node other than one of them. -/
def others (r : Rule) (v child : Nat) : List Nat := (r.children v).filter (· != child)

/-! ## Containers and children -/

theorem container_lt_size {r : Rule} {v c : Nat} (h : r.container v = some c) : v < r.size := by
  obtain ⟨p, hp, _⟩ := Option.bind_eq_some_iff.1 h
  exact (Array.getElem?_eq_some_iff.1 hp).1

theorem lt_of_container {r : Rule} {v c : Nat} (h : r.container v = some c) : c < v := by
  obtain ⟨p, hp, hc⟩ := Option.bind_eq_some_iff.1 h
  exact r.wellFormed.container_lt hp hc

theorem children_eq (r : Rule) (v : Nat) :
    r.children v = r.ids.filter fun c => r.container c == some v := by
  rcases r with ⟨name, parts, wf, pos, branches, rfl⟩
  by_cases hv : v < parts.size
  · simp [children, childLists, ids, size, container, hv]
  · have : ∀ c : Nat, (parts[c]?).bind Part.container ≠ some v := by
      intro c hc
      obtain ⟨p, hp, hc⟩ := Option.bind_eq_some_iff.1 hc
      have := wf.container_lt hp hc
      have := (Array.getElem?_eq_some_iff.1 hp).1
      omega
    simp [children, childLists, container, hv, this]

theorem mem_children {r : Rule} {v c : Nat} : c ∈ r.children v ↔ r.container c = some v := by
  rw [children_eq]
  simp only [ids, List.mem_filter, List.mem_range, beq_iff_eq]
  exact ⟨And.right, fun h => ⟨container_lt_size h, h⟩⟩

theorem lt_of_mem_children {r : Rule} {v c : Nat} (h : c ∈ r.children v) : v < c ∧ c < r.size :=
  ⟨lt_of_container (mem_children.1 h), container_lt_size (mem_children.1 h)⟩

theorem sub_lt_of_mem_children {r : Rule} {v c : Nat} (h : c ∈ r.children v) :
    r.size - c < r.size - v := by
  have := lt_of_mem_children h
  omega

theorem mem_children_of_mem_others {r : Rule} {v c x : Nat} (h : x ∈ r.others v c) :
    x ∈ r.children v :=
  (List.mem_filter.1 h).1

/-- What holds of a node whenever it holds of its children holds of all nodes. -/
theorem induction_down {r : Rule} {P : Nat → Prop}
    (step : ∀ v, (∀ c ∈ r.children v, P c) → P v) (v : Nat) : P v :=
  step v fun c hc => by
    have := sub_lt_of_mem_children hc
    exact induction_down step c
termination_by r.size - v

/-- What holds of a node whenever it holds of its container holds of all nodes. -/
theorem induction_up {r : Rule} {P : Nat → Prop}
    (step : ∀ v, (∀ c, r.container v = some c → P c) → P v) (v : Nat) : P v :=
  step v fun c hc => by
    have := lt_of_container hc
    exact induction_up step c
termination_by v

end Rule

end RuleCardinality
