import RuleCardinality.View.Range

/-!
# Windows as queries

To find a window one looks up the shares of assignments, one after the other, and what is found decides
where to look next. A `Query` is such a computation by itself, before there is a state to run it on. Run on
a state it gives its answer and adds the nodes it has looked up to a set. The queries below follow `Demand`
and `Range` step by step; `minInvolved` and `maxInvolved` collect the nodes behind the two ends of a window.
-/

namespace RuleCardinality

/-- A computation that looks up shares. -/
inductive Query (α : Type) where
  | answer (a : α)
  /-- Looks up the share of a node and goes on with what it finds. -/
  | ask (v : Nat) (next : Option Nat → Query α)

namespace Query

variable {α β : Type}

def bind : Query α → (α → Query β) → Query β
  | .answer a, f => f a
  | .ask v next, f => .ask v fun n => (next n).bind f

instance : Monad Query where
  pure := .answer
  bind := bind

/-- Looks up the share of a node, as a count. -/
def shareCount (v : Nat) : Query Count := .ask v fun n => .answer (n.elim .undefined .finite)

/-- Combines the answers of some queries, one after the other. -/
def combine (op : Count → Count → Count) (n : Count) (ts : List (Query Count)) : Query Count :=
  ts.foldlM (fun n t => do return op n (← t)) n

/-- Adds up the answers of some queries; one without limit settles the sum. -/
def sumUp (n : Count) : List (Query Count) → Query Count
  | [] => return n
  | t :: ts => do
    let m ← t
    if m = .unbounded then return .unbounded else sumUp (n.plus m) ts

/-- Runs a query on a state. The nodes it looks up are added to a set. -/
def run (q : Quantities) : Query α → IdSet → α × IdSet
  | .answer a, known => (a, known)
  | .ask v next, known => (next (q.share? v)).run q (known.insert v)

end Query

namespace View

/-! ## From below -/

/-- The `min_for_child` of bounds.rs:252 with its look-ups. -/
def demandQuery (w : View) (v : Nat) : Query Count :=
  if w.blocked v then return 0
  else
    let below := (w.rule.children v).attach.map fun c => w.demandQuery c.1
    let once (n : Count) : Count := if w.rule.repeatable v && 1 < n then 1 else n
    match w.rule.shape v with
    | .assignment _ => do return once (← .shareCount v)
    | .group => do return once (← .combine max .undefined below)
    | .alternative => do return once (← .combine .plus .undefined below)
    | .action => return 1
termination_by w.rule.size - v
decreasing_by exact Rule.sub_lt_of_mem_children c.2

theorem demandQuery_eq (w : View) (v : Nat) :
    w.demandQuery v =
      if w.blocked v then return 0
      else
        let below := (w.rule.children v).map w.demandQuery
        let once (n : Count) : Count := if w.rule.repeatable v && 1 < n then 1 else n
        match w.rule.shape v with
        | .assignment _ => do return once (← .shareCount v)
        | .group => do return once (← .combine max .undefined below)
        | .alternative => do return once (← .combine .plus .undefined below)
        | .action => return 1 := by
  rw [demandQuery]; simp

def demandsQuery (w : View) (v : Nat) : Query Bool := do return 0 < (← w.demandQuery v)

/-- The `max_for_child` of bounds.rs:352 with its look-ups. -/
def supplyQuery (w : View) (v : Nat) : Query Count :=
  if w.blocked v then return 0
  else if w.rule.optional v then return .unbounded
  else
    let below := (w.rule.children v).attach.map fun c => w.supplyQuery c.1
    match w.rule.shape v with
    | .assignment _ => .shareCount v
    | .group => .combine .narrow .unbounded below
    | .alternative => .sumUp .undefined below
    | .action => return .unbounded
termination_by w.rule.size - v
decreasing_by exact Rule.sub_lt_of_mem_children c.2

theorem supplyQuery_eq (w : View) (v : Nat) :
    w.supplyQuery v =
      if w.blocked v then return 0
      else if w.rule.optional v then return .unbounded
      else
        let below := (w.rule.children v).map w.supplyQuery
        match w.rule.shape v with
        | .assignment _ => .shareCount v
        | .group => .combine .narrow .unbounded below
        | .alternative => .sumUp .undefined below
        | .action => return .unbounded := by
  rw [supplyQuery]; simp

/-- The `contains_unavailable_field` of bounds.rs:398 with its look-ups. -/
def unavailableQuery (w : View) (field : String) (v : Nat) : Query Bool :=
  if w.rule.optional v then return false
  else
    let below := (w.rule.children v).attach.map fun c => w.unavailableQuery field c.1
    match w.rule.shape v with
    | .assignment own => if own = field then return false else .ask v fun n => return n == some 0
    | .group => below.anyM id
    | .alternative => below.allM id
    | .action => return !w.applies v
termination_by w.rule.size - v
decreasing_by exact Rule.sub_lt_of_mem_children c.2

theorem unavailableQuery_eq (w : View) (field : String) (v : Nat) :
    w.unavailableQuery field v =
      if w.rule.optional v then return false
      else
        let below := (w.rule.children v).map (w.unavailableQuery field)
        match w.rule.shape v with
        | .assignment own => if own = field then return false else .ask v fun n => return n == some 0
        | .group => below.anyM id
        | .alternative => below.allM id
        | .action => return !w.applies v := by
  rw [unavailableQuery]; simp

/-! ## Minimum -/

/-- The `min_by_parent` of bounds.rs:203 with its look-ups. -/
def leastQuery (w : View) (v child : Nat) : Query Count :=
  if w.blocked v then return 0
  else
    let above : Query Count :=
      match _h : w.rule.container v with
      | none => return 1
      | some c => w.leastQuery c v
    match w.rule.shape v with
    | .group =>
      if w.plainRoot v then return 1
      else do
        let busiest ← .combine max .undefined ((w.rule.others v child).map w.demandQuery)
        if w.rule.optional v then return if busiest.isDefined then busiest else 0
        else return max (← above) busiest
    | .alternative =>
      if w.rule.optional v then return 0
      else do
        if ← ((w.rule.others v child).map w.demandsQuery).anyM id then return 0 else above
    | _ => return .undefined
termination_by v
decreasing_by exact Rule.lt_of_container _h

theorem leastQuery_eq (w : View) (v child : Nat) :
    w.leastQuery v child =
      if w.blocked v then return 0
      else
        let above : Query Count := (w.rule.container v).elim (return 1) fun c => w.leastQuery c v
        match w.rule.shape v with
        | .group =>
          if w.plainRoot v then return 1
          else do
            let busiest ← .combine max .undefined ((w.rule.others v child).map w.demandQuery)
            if w.rule.optional v then return if busiest.isDefined then busiest else 0
            else return max (← above) busiest
        | .alternative =>
          if w.rule.optional v then return 0
          else do
            if ← ((w.rule.others v child).map w.demandsQuery).anyM id then return 0 else above
        | _ => return .undefined := by
  rw [leastQuery]; split
  · rfl
  · split <;> rename_i h <;> simp [h]

/-- The `min_count` of bounds.rs:164 with its look-ups. -/
def minQuery (w : View) (v : Nat) : Query Count :=
  if w.rule.optional v then return 0
  else (w.rule.container v).elim (return 1) fun c => w.leastQuery c v

/-! ## Maximum -/

/-- Finds out whether a branch is dead; the first reason settles it. -/
def branchQuery (w : View) (exclude : Option String) (v child : Nat) : Query Bool :=
  ((w.rule.children v).map fun c =>
    if c = child then exclude.elim (return false) fun field => w.unavailableQuery field c
    else w.demandsQuery c).anyM id

/-- The `max_by_parent` of bounds.rs:290 with its look-ups. -/
def mostQuery (w : View) (exclude : Option String) (v child : Nat) : Query Count :=
  if w.blocked v then return 0
  else
    let above : Query Count :=
      match _h : w.rule.container v with
      | none => return if w.rule.repeatable v then .unbounded else 1
      | some c => w.mostQuery exclude c v
    do
      let above ← above
      if above = 0 then return 0
      else
        match w.rule.shape v with
        | .group =>
          let most := if w.rule.repeatable v then .unbounded else above
          let narrowed ←
            if w.rule.optional v || most = .unbounded then
              .combine .narrow most ((w.rule.others v child).map w.supplyQuery)
            else pure most
          return if narrowed = 0 && !w.rule.optional v then 1 else narrowed
        | .alternative =>
          if w.rule.repeatable v then return .unbounded
          else if ← w.branchQuery exclude v child then return 0
          else return above
        | _ => return 1
termination_by v
decreasing_by exact Rule.lt_of_container _h

theorem mostQuery_eq (w : View) (exclude : Option String) (v child : Nat) :
    w.mostQuery exclude v child =
      if w.blocked v then return 0
      else do
        let above ← (w.rule.container v).elim (return if w.rule.repeatable v then .unbounded else 1)
          fun c => w.mostQuery exclude c v
        if above = 0 then return 0
        else
          match w.rule.shape v with
          | .group =>
            let most := if w.rule.repeatable v then .unbounded else above
            let narrowed ←
              if w.rule.optional v || most = .unbounded then
                .combine .narrow most ((w.rule.others v child).map w.supplyQuery)
              else pure most
            return if narrowed = 0 && !w.rule.optional v then 1 else narrowed
          | .alternative =>
            if w.rule.repeatable v then return .unbounded
            else if ← w.branchQuery exclude v child then return 0
            else return above
          | _ => return 1 := by
  rw [mostQuery]; split
  · rfl
  · split <;> rename_i h <;> simp [h]

/-- The `max_count` of bounds.rs:184 with its look-ups. -/
def maxQuery (w : View) (exclude : Option String) (v : Nat) : Query Count := do
  let most ← (w.rule.container v).elim (return 1) fun c => w.mostQuery exclude c v
  return if w.rule.repeatable v && 0 < most then .unbounded else most

/-! ## Involved sets -/

/-- A set with the nodes looked up for a minimum added. -/
def minInvolved (w : View) (q : Quantities) (known : IdSet) (v : Nat) : IdSet :=
  ((w.minQuery v).run q known).2

/-- A set with the nodes looked up for a maximum added. -/
def maxInvolved (w : View) (q : Quantities) (exclude : Option String) (known : IdSet) (v : Nat) :
    IdSet :=
  ((w.maxQuery exclude v).run q known).2

end View

end RuleCardinality
