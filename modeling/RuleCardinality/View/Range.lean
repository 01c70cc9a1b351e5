import RuleCardinality.Sum
import RuleCardinality.View.Demand

/-!
# Firing windows

How often a node can fire, given the shares of the nodes around it. The minimum and the maximum of a
node come from its container: what the container itself must or may do (`leastIn`, `mostIn`), which in
turn comes from the container's container and from what the other children demand and supply. The
maximum may exclude a field: then a branch of an alternative that needs a zero share of another field
is taken to be dead. The hard window comes from cardinalities alone.
-/

namespace RuleCardinality.View

/-- Whether a node is a root that fires exactly once. -/
def plainRoot (w : View) (v : Nat) : Bool :=
  (w.rule.container v).isNone && !w.rule.optional v && !w.rule.repeatable v

/-! ## Minimum -/

/-- The fewest firings of a container that its other children and its own container leave to a child
(`min_by_parent`, bounds.rs:203). -/
def leastIn (w : View) (q : Quantities) (v child : Nat) : Count :=
  if w.blocked v then 0
  else
    let above : Option Count :=
      match _h : w.rule.container v with
      | none => none
      | some c => some (w.leastIn q c v)
    match w.rule.shape v with
    | .group =>
      if w.plainRoot v then 1
      else
        let busiest := ((w.rule.others v child).map (w.demand q)).foldl max .undefined
        if w.rule.optional v then (if busiest.isDefined then busiest else 0)
        else max (above.getD 1) busiest
    | .alternative =>
      if w.rule.optional v then 0
      else if (w.rule.others v child).any fun c => 0 < w.demand q c then 0
      else above.getD 1
    | _ => .undefined
termination_by v
decreasing_by exact Rule.lt_of_container _h

theorem leastIn_eq (w : View) (q : Quantities) (v child : Nat) :
    w.leastIn q v child =
      if w.blocked v then 0
      else
        let above := (w.rule.container v).map fun c => w.leastIn q c v
        match w.rule.shape v with
        | .group =>
          if w.plainRoot v then 1
          else
            let busiest := ((w.rule.others v child).map (w.demand q)).foldl max .undefined
            if w.rule.optional v then (if busiest.isDefined then busiest else 0)
            else max (above.getD 1) busiest
        | .alternative =>
          if w.rule.optional v then 0
          else if (w.rule.others v child).any fun c => 0 < w.demand q c then 0
          else above.getD 1
        | _ => .undefined := by
  rw [leastIn]; split
  · rfl
  · split <;> rename_i h <;> simp [h]

/-- The fewest times a node can fire (`min_count`, bounds.rs:164). -/
def minCount (w : View) (q : Quantities) (v : Nat) : Count :=
  if w.rule.optional v then 0
  else (w.rule.container v).elim 1 fun c => w.leastIn q c v

/-! ## Maximum -/

/-- Whether the other branches of an alternative, or a lack of its own, leave nothing to a branch. -/
def branchDead (w : View) (q : Quantities) (exclude : Option String) (v child : Nat) : Bool :=
  (w.rule.children v).any fun c =>
    if c = child then exclude.any fun field => w.unavailable q field c
    else 0 < w.demand q c

/-- The most firings of a container that its other children and its own container leave to a child
(`max_by_parent`, bounds.rs:290). -/
def mostIn (w : View) (q : Quantities) (exclude : Option String) (v child : Nat) : Count :=
  if w.blocked v then 0
  else
    let above : Count :=
      match _h : w.rule.container v with
      | none => if w.rule.repeatable v then .unbounded else 1
      | some c => w.mostIn q exclude c v
    if above = 0 then 0
    else
      match w.rule.shape v with
      | .group =>
        let most := if w.rule.repeatable v then .unbounded else above
        let narrowed :=
          if w.rule.optional v || most = .unbounded then
            ((w.rule.others v child).map (w.supply q)).foldl .narrow most
          else most
        if narrowed = 0 && !w.rule.optional v then 1 else narrowed
      | .alternative =>
        if w.rule.repeatable v then .unbounded
        else if w.branchDead q exclude v child then 0
        else above
      | _ => 1
termination_by v
decreasing_by exact Rule.lt_of_container _h

theorem mostIn_eq (w : View) (q : Quantities) (exclude : Option String) (v child : Nat) :
    w.mostIn q exclude v child =
      if w.blocked v then 0
      else
        let above := (w.rule.container v).elim (if w.rule.repeatable v then .unbounded else 1)
          fun c => w.mostIn q exclude c v
        if above = 0 then 0
        else
          match w.rule.shape v with
          | .group =>
            let most := if w.rule.repeatable v then .unbounded else above
            let narrowed :=
              if w.rule.optional v || most = .unbounded then
                ((w.rule.others v child).map (w.supply q)).foldl .narrow most
              else most
            if narrowed = 0 && !w.rule.optional v then 1 else narrowed
          | .alternative =>
            if w.rule.repeatable v then .unbounded
            else if w.branchDead q exclude v child then 0
            else above
          | _ => 1 := by
  rw [mostIn]; split
  · rfl
  · split <;> rename_i h <;> simp [h]

/-- The most times a node can fire (`max_count`, bounds.rs:184). -/
def maxCount (w : View) (q : Quantities) (exclude : Option String) (v : Nat) : Count :=
  let most := (w.rule.container v).elim 1 fun c => w.mostIn q exclude c v
  if w.rule.repeatable v && 0 < most then .unbounded else most

/-! ## Windows -/

/-- How often a node can fire, with a field excluded from the search for dead branches (`bounds`,
bounds.rs:155). -/
def window (w : View) (q : Quantities) (exclude : Option String) (v : Nat) : Window where
  min := w.minCount q v
  max := w.maxCount q exclude v

/-- How often a node can fire, with its own field excluded. -/
def ownWindow (w : View) (q : Quantities) (v : Nat) : Window := w.window q (w.rule.field? v) v

/-- How far the shares lie outside the windows of their nodes, taken together (`quality`,
distributor.rs:140). -/
def quality (w : View) (q : Quantities) : Nat :=
  sumOf (fun v => (w.ownWindow q v).violation (q.share v)) (q.assigned w.rule)

/-! ## Hard windows -/

/-- The fewest times a node fires by the cardinalities above it (`hard_min`, bounds.rs:438). -/
def hardMin (w : View) (v : Nat) : Count :=
  if w.rule.optional v || w.rule.shape v == .alternative then 0
  else
    match _h : w.rule.container v with
    | none => 1
    | some c => w.hardMin c
termination_by v
decreasing_by exact Rule.lt_of_container _h

theorem hardMin_eq (w : View) (v : Nat) :
    w.hardMin v =
      if w.rule.optional v || w.rule.shape v == .alternative then 0
      else (w.rule.container v).elim 1 w.hardMin := by
  rw [hardMin]; split
  · rfl
  · split <;> rename_i h <;> simp [h]

/-- The `hard_max` of bounds.rs:450. -/
def hardMax (w : View) (v : Nat) : Count :=
  if w.rule.repeatable v then .unbounded
  else
    match _h : w.rule.container v with
    | none => 1
    | some c => w.hardMax c
termination_by v
decreasing_by exact Rule.lt_of_container _h

theorem hardMax_eq (w : View) (v : Nat) :
    w.hardMax v =
      if w.rule.repeatable v then .unbounded else (w.rule.container v).elim 1 w.hardMax := by
  rw [hardMax]; split
  · rfl
  · split <;> rename_i h <;> simp [h]

/-- The `hard_bounds` of bounds.rs:461. -/
def hardWindow (w : View) (v : Nat) : Window where
  min := w.hardMin v
  max := w.hardMax v

end RuleCardinality.View
