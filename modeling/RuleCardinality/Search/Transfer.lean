import RuleCardinality.Chooser
import RuleCardinality.Search.Greedy

/-!
# Moving shares between siblings

A node outside its window is repaired at the cost of the other nodes of its field. `pull` takes from
them what they can spare, the richest first, and then from siblings chosen at random. `push` gives to
them what they have room for, by their windows and then by their hard windows, and what is left to one
chosen at random.
-/

namespace RuleCardinality.View

variable {σ : Type}

/-- The state of a transfer: the shares, and what is still to be moved. -/
abbrev Transfer := Quantities × Nat

/-- Takes from a node as much as `spare` allows and is still wanted. -/
def draw (spare : Nat → Nat) (t : Transfer) (v : Nat) : Transfer :=
  let n := min (spare (t.1.share v)) t.2
  (t.1.assign v (t.1.share v - n), t.2 - n)

/-- Removes an element and moves the last one to its place. -/
def swapRemove (nodes : List Nat) (i : Nat) : List Nat :=
  (nodes.set i (nodes.getLast?.getD 0)).dropLast

theorem length_swapRemove (nodes : List Nat) (i : Nat) :
    (swapRemove nodes i).length = nodes.length - 1 := by
  simp [swapRemove]

/-- Empties siblings chosen at random until nothing more is wanted (distributor.rs:427-433). -/
def drain (ch : Chooser σ) (nodes : List Nat) (t : Transfer) (s : σ) : Transfer × σ :=
  match _h : nodes with
  | [] => (t, s)
  | v :: vs =>
    if t.2 = 0 then (t, s)
    else
      let (i, s) := ch.pick (vs.length + 1) (Nat.succ_pos _) s
      drain ch (swapRemove (v :: vs) i) (draw id t ((v :: vs)[i])) s
termination_by nodes.length
decreasing_by simp [length_swapRemove]

/-- Takes up to `wanted` from the siblings; the result says how much is still missing (`pull`,
distributor.rs:406). -/
def pull (ch : Chooser σ) (limits : Nat → Window) (siblings : List Nat) (q : Quantities)
    (wanted : Nat) (s : σ) : Transfer × σ :=
  let order := descending (fun v => (limits v).surplus (q.share v)) siblings
  let t := order.foldl (fun t v => if t.2 = 0 then t else draw (limits v).surplus t v) (q, wanted)
  drain ch order t s

/-- Gives to the siblings what they have room for under some limits, the roomiest first
(distributor.rs:453-463). -/
def give (limits : Nat → Window) (siblings : List Nat) (t : Transfer) : Transfer :=
  fill (fun _ => limits) (descending (fun v => (limits v).headroom (t.1.share v)) siblings) t

/-- Gives all of `wanted` to the siblings; without siblings nothing is given (`push`,
distributor.rs:440). -/
def push (ch : Chooser σ) (limits hard : Nat → Window) (siblings : List Nat) (q : Quantities)
    (wanted : Nat) (s : σ) : Transfer × σ :=
  match siblings with
  | [] => ((q, wanted), s)
  | v :: vs =>
    let t := give hard (v :: vs) (give limits (v :: vs) (q, wanted))
    if t.2 = 0 then (t, s)
    else
      let (i, s) := ch.pick (vs.length + 1) (Nat.succ_pos _) s
      let node := (v :: vs)[i]
      ((t.1.assign node (t.1.share node + t.2), 0), s)

end RuleCardinality.View
