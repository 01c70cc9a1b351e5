import RuleCardinality.Search.Solve
import RuleCardinality.Validator.Basic
import RuleCardinality.Validator.Check

/-!
# Examining an object by one rule

An object is examined in stages, and a stage that finds something is the last one. First the object's
type must fit the rule. Then every assignment that the type can reach must be declared, and every field
that is set must be assigned. Then the counts are shared out: a field with one node gives it its count,
one with several leaves the sharing to the search, and a field that is unset but may stand for a written
standard value counts once if the rule demands it. Last come the final bounds.
-/

namespace RuleCardinality

namespace View

/-- The nodes that a descent comes to (`collect_assignments`, validator.rs:382): the one on top of the
stack is taken off, and if it applies to the type its children are put on, the last one first. -/
def walk (w : View) : List Nat → List Nat
  | [] => []
  | v :: stack =>
    if w.applies v then v :: w.walk (stacked stack (w.rule.children v).reverse) else w.walk stack
termination_by stack => (stack.flatMap w.rule.subtree).length
decreasing_by
  · rw [flatMap_stacked w.rule.subtree_eq v stack]
    exact Nat.lt_succ_self _
  · rw [List.flatMap_cons, w.rule.subtree_eq v, List.length_append, List.length_cons]
    omega

/-- The assignments that the type reaches, in document order, each with its field. -/
def targets (w : View) : List (String × Nat) :=
  (w.walk [w.rule.root]).filterMap fun v => (w.rule.field? v).map fun field => (field, v)

/-- The event of a finished search (distributor.rs:123-134). -/
def solvedEvent (w : View) (q : Quantities) (r : Report) : Event where
  level := .debug
  component := .distribution
  op := "distribute"
  name := EventName.solved
  fields :=
    [(Key.rule, w.rule.name), (Key.maxTries, toString r.maxTries), (Key.tries, toString r.tries),
      (Key.quality, toString r.bestQuality), ("solved", toString r.solved),
      ("exhaustive", toString r.exhaustive),
      ("quantities", q.render w.rule fun v => some (w.ownWindow q v))]

end View

namespace Validator

variable {σ : Type}

/-- The fields of reached assignments that the object declares, with their nodes in document order. -/
def assignable (o : Object) (targets : List (String × Nat)) : List (String × List Nat) :=
  let declared := targets.filter fun t => (o.feature? t.1).isSome
  (Std.ExtTreeSet.ofList (declared.map Prod.fst)).toList.map fun field =>
    (field, (declared.filter (·.1 = field)).map Prod.snd)

/-- The diagnostics of assignments without a declaration (validator.rs:403) and of set fields without an
assignment (validator.rs:301). -/
def mismatches (counter : Counter) (w : View) (o : Object) (targets : List (String × Nat)) :
    List Diagnostic :=
  ((targets.filter fun t => (o.feature? t.1).isNone).map fun t =>
      Diagnostic.undeclared w.rule o.type t.2) ++
    ((o.features.filter fun f =>
        0 < counter.count o f.name && !targets.any fun t => t.1 = f.name).map fun f =>
      Diagnostic.unassigned w.rule o f.name)

/-- The counts of all declared fields, with nothing assigned yet. -/
def counted (counter : Counter) (o : Object) : Quantities :=
  o.features.foldl (fun q f => q.record f.name (counter.count o f.name)) .empty

/-- Shares settled so far, and the fields left to the search. -/
structure Plan where
  quantities : Quantities
  rivals : View.Rivals := ∅

/-- Gives a field's count to each of its nodes, or leaves a count that several nodes have to share to the
search (validator.rs:321-327). -/
def Plan.place (p : Plan) (field : String) (nodes : List Nat) : Plan :=
  let count := p.quantities.count field
  if 1 < nodes.length ∧ count ≠ 0 then { p with rivals := p.rivals.insert field nodes }
  else { p with quantities := p.quantities.assignAll (nodes.map (·, count)) }

/-- Whether an unset field may stand for one written with its standard value (validator.rs:314-317). -/
def implicit (o : Object) (q : Quantities) (field : String) : Bool :=
  q.count field = 0 && (o.feature? field).any fun f => !f.many && f.implicitZero

/-- The count of an unset field of that kind: one if its nodes have to fire, else zero
(validator.rs:332-336). -/
def impliedCount (w : View) (q : Quantities) (nodes : List Nat) : Nat :=
  if (0 : Count) < (nodes.map (w.minCount q)).foldl .plus .undefined then 1 else 0

/-- Places all fields, those that may be implied after the others (validator.rs:310-345). -/
def plan (w : View) (o : Object) (q : Quantities) (fields : List (String × List Nat)) : Plan :=
  let (implied, plain) := fields.partition fun f => implicit o q f.1
  let p := plain.foldl (fun p f => p.place f.1 f.2) ⟨q, ∅⟩
  implied.foldl
    (fun p f =>
      { p with quantities := p.quantities.record f.1 (impliedCount w p.quantities f.2) }.place f.1 f.2)
    p

/-- Shares out what is left to the search, and checks the result. -/
def settle (V : Validator) (ch : Chooser σ) (w : View) (o : Object) (p : Plan) (s : σ) :
    Finding × σ :=
  if p.rivals.isEmpty then ({ result := w.check p.quantities }, s)
  else
    let out := w.solve V.config ch p.rivals o.volume p.quantities s
    match out.report with
    | .error fault => ({ result := .error fault }, out.source)
    | .ok report =>
      ({ result := w.check out.quantities, events := [w.solvedEvent out.quantities report] },
        out.source)

/-- What one rule says about an object (`validate_rule`, validator.rs:274). -/
def examine (V : Validator) (ch : Chooser σ) (o : Object) (r : Rule) (s : σ) : Finding × σ :=
  let w : View := ⟨r, o.type⟩
  match (w.unfulfilled r.root).toList with
  | v :: vs => ({ result := .ok [Diagnostic.shape r o.type (v :: vs)] }, s)
  | [] =>
    match mismatches V.counter w o w.targets with
    | d :: ds => ({ result := .ok (d :: ds) }, s)
    | [] => V.settle ch w o (plan w o (counted V.counter o) (assignable o w.targets)) s

end Validator

end RuleCardinality
