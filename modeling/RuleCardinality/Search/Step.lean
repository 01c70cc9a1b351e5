import RuleCardinality.Search.Transfer
import RuleCardinality.Sum

/-!
# One step of the search

A step repairs one competing node that is outside its window. It is chosen at random, each with a
chance in proportion to its violation: a ticket below the sum of the violations is drawn, and the
candidates hold consecutive intervals of tickets. A damped part of the violation is then moved from or
to the other nodes of its field.
-/

namespace RuleCardinality.View

variable {σ : Type}

/-- A competing node outside its window. -/
structure Candidate where
  node : Nat
  field : List Nat
  violation : Nat

/-- The nodes of each field with their windows, the field itself excluded. -/
abbrev Survey := List (List Nat × List (Nat × Window))

/-- The windows of all competing nodes. -/
def survey (w : View) (q : Quantities) (rivals : List (String × List Nat)) : Survey :=
  rivals.map fun r => (r.2, r.2.map fun v => (v, w.window q (some r.1) v))

/-- The competing nodes outside their windows (distributor.rs:308-313). -/
def candidates (q : Quantities) (survey : Survey) : List Candidate :=
  survey.flatMap fun field =>
    field.2.filterMap fun (v, window) =>
      let violation := window.violation (q.share v)
      if violation = 0 then none else some ⟨v, field.1, violation⟩

/-- The window of a node in a survey; if it stands under several fields, that of the last. -/
def limits (survey : Survey) (v : Nat) : Window :=
  ((survey.flatMap Prod.snd).reverse.lookup v).getD ⟨.undefined, .undefined⟩

/-- The sum of the violations, which is the number of tickets. -/
def tickets (cs : List Candidate) : Nat := sumOf Candidate.violation cs

/-- The candidate that holds a ticket (distributor.rs:321-329). -/
def holder : List Candidate → Nat → Option Candidate
  | [], _ => none
  | c :: cs, ticket => if ticket < c.violation then some c else holder cs (ticket - c.violation)

/-- Repairs a damped part of the violation of one node (distributor.rs:331-347). -/
def repair (w : View) (damped : Nat → Nat) (ch : Chooser σ) (limits : Nat → Window) (c : Candidate)
    (q : Quantities) (s : σ) : Quantities × σ :=
  let siblings := c.field.filter (· != c.node)
  let share := q.share c.node
  let window := limits c.node
  if 0 < window.deficit share then
    let wanted := damped (window.deficit share)
    let ((q, missing), s) := pull ch limits siblings q wanted s
    (q.assign c.node (share + (wanted - missing)), s)
  else if 0 < window.excess share then
    let wanted := damped (window.excess share)
    let ((q, missing), s) := push ch limits w.hardWindow siblings q wanted s
    (q.assign c.node (share - (wanted - missing)), s)
  else (q, s)

/-- The `optimize_step` of distributor.rs:296; nothing if no competing node is outside its window. -/
def step (w : View) (damped : Nat → Nat) (ch : Chooser σ) (rivals : List (String × List Nat))
    (q : Quantities) (s : σ) : Option (Quantities × σ) :=
  let survey := w.survey q rivals
  let cs := candidates q survey
  if h : 0 < tickets cs then
    let (ticket, s) := ch.pick (tickets cs) h s
    ((holder cs ticket).or cs.head?).map fun c => w.repair damped ch (limits survey) c q s
  else none

end RuleCardinality.View
