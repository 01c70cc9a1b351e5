import RuleCardinality.Rule.Order

/-!
# Rules seen by a type

A `View` is a rule together with the type of the object under validation. Type guards may keep nodes
from firing for that type. A node is `blocked` if its own guard rejects the type, or if it cannot fire
without a node that is. The nodes to blame for a blocked mandatory node are its `misfits`.
-/

namespace RuleCardinality

abbrev IdSet := Std.ExtTreeSet Nat

/-- A rule as objects of one type see it (`BoundsCalculator`, bounds.rs:115). -/
structure View where
  rule : Rule
  type : String

namespace View

/-- Whether the guard of a node accepts the type (`applies`, bounds.rs:133). -/
def applies (w : View) (v : Nat) : Bool := (w.rule.spec v).appliesTo w.type

/-- Whether a node can never fire for the type (`blocked`, bounds.rs:139). -/
def blocked (w : View) (v : Nat) : Bool :=
  !w.applies v ||
    match w.rule.shape v with
    | .group => (w.rule.children v).attach.any fun c => !w.rule.optional c.1 && w.blocked c.1
    | .alternative =>
      !(w.rule.children v).isEmpty &&
        (w.rule.children v).attach.all fun c => !w.rule.optional c.1 && w.blocked c.1
    | _ => false
termination_by w.rule.size - v
decreasing_by all_goals exact Rule.sub_lt_of_mem_children c.2

theorem blocked_eq (w : View) (v : Nat) :
    w.blocked v = (!w.applies v ||
      match w.rule.shape v with
      | .group => (w.rule.children v).any fun c => !w.rule.optional c && w.blocked c
      | .alternative =>
        !(w.rule.children v).isEmpty &&
          (w.rule.children v).all fun c => !w.rule.optional c && w.blocked c
      | _ => false) := by
  rw [blocked]; simp

/-- The mandatory nodes at or below a node whose guards reject the type and that no branch of an
alternative leads around. -/
def misfits (w : View) (v : Nat) : List Nat :=
  if w.rule.optional v then []
  else if !w.applies v then [v]
  else
    let below := (w.rule.children v).attach.map fun c => w.misfits c.1
    match w.rule.shape v with
    | .group => below.flatten
    | .alternative => if below.any List.isEmpty then [] else below.flatten
    | _ => []
termination_by w.rule.size - v
decreasing_by exact Rule.sub_lt_of_mem_children c.2

theorem misfits_eq (w : View) (v : Nat) :
    w.misfits v =
      if w.rule.optional v then []
      else if !w.applies v then [v]
      else
        match w.rule.shape v with
        | .group => ((w.rule.children v).map w.misfits).flatten
        | .alternative =>
          if ((w.rule.children v).map w.misfits).any List.isEmpty then []
          else ((w.rule.children v).map w.misfits).flatten
        | _ => [] := by
  rw [misfits]; simp

/-- The `unfulfilled` of bounds.rs:468. -/
def unfulfilled (w : View) (v : Nat) : IdSet := .ofList (w.misfits v)

end View

end RuleCardinality
