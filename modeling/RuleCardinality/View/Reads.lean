import RuleCardinality.View.Query

/-!
# Which shares a window rests on

For each query of `Query`, the assignments whose shares it consults on a state, in the order in which it
comes to them. A query that can stop early consults nothing after it stops.
-/

namespace RuleCardinality.View

/-- The first elements of a list up to and with the first one that ends the search. -/
def upTo {α : Type} (stop : α → Bool) : List α → List α
  | [] => []
  | a :: as => if stop a then [a] else a :: upTo stop as

def demandReads (w : View) (v : Nat) : List Nat :=
  if w.blocked v then []
  else
    match w.rule.shape v with
    | .assignment _ => [v]
    | .group | .alternative => (w.rule.children v).attach.flatMap fun c => w.demandReads c.1
    | .action => []
termination_by w.rule.size - v
decreasing_by exact Rule.sub_lt_of_mem_children c.2

theorem demandReads_eq (w : View) (v : Nat) :
    w.demandReads v =
      if w.blocked v then []
      else
        match w.rule.shape v with
        | .assignment _ => [v]
        | .group | .alternative => (w.rule.children v).flatMap w.demandReads
        | .action => [] := by
  rw [demandReads]; simp

/-- The nodes consulted for the supply of a node; a branch without limit settles an alternative. -/
def supplyReads (w : View) (q : Quantities) (v : Nat) : List Nat :=
  if w.blocked v then []
  else if w.rule.optional v then []
  else
    let below := (w.rule.children v).attach.map fun c => (w.supply q c.1, w.supplyReads q c.1)
    match w.rule.shape v with
    | .assignment _ => [v]
    | .group => below.flatMap Prod.snd
    | .alternative => (upTo (fun b => b.1 = .unbounded) below).flatMap Prod.snd
    | .action => []
termination_by w.rule.size - v
decreasing_by exact Rule.sub_lt_of_mem_children c.2

theorem supplyReads_eq (w : View) (q : Quantities) (v : Nat) :
    w.supplyReads q v =
      if w.blocked v then []
      else if w.rule.optional v then []
      else
        let below := (w.rule.children v).map fun c => (w.supply q c, w.supplyReads q c)
        match w.rule.shape v with
        | .assignment _ => [v]
        | .group => below.flatMap Prod.snd
        | .alternative => (upTo (fun b => b.1 = .unbounded) below).flatMap Prod.snd
        | .action => [] := by
  rw [supplyReads]; simp

def unavailableReads (w : View) (q : Quantities) (field : String) (v : Nat) : List Nat :=
  if w.rule.optional v then []
  else
    let below := (w.rule.children v).attach.map fun c =>
      (w.unavailable q field c.1, w.unavailableReads q field c.1)
    match w.rule.shape v with
    | .assignment own => if own = field then [] else [v]
    | .group => (upTo Prod.fst below).flatMap Prod.snd
    | .alternative => (upTo (fun b => !b.1) below).flatMap Prod.snd
    | .action => []
termination_by w.rule.size - v
decreasing_by exact Rule.sub_lt_of_mem_children c.2

theorem unavailableReads_eq (w : View) (q : Quantities) (field : String) (v : Nat) :
    w.unavailableReads q field v =
      if w.rule.optional v then []
      else
        let below := (w.rule.children v).map fun c =>
          (w.unavailable q field c, w.unavailableReads q field c)
        match w.rule.shape v with
        | .assignment own => if own = field then [] else [v]
        | .group => (upTo Prod.fst below).flatMap Prod.snd
        | .alternative => (upTo (fun b => !b.1) below).flatMap Prod.snd
        | .action => [] := by
  rw [unavailableReads]; simp

/-! ## Minimum -/

def leastReads (w : View) (q : Quantities) (v child : Nat) : List Nat :=
  if w.blocked v then []
  else
    let above : List Nat :=
      match _h : w.rule.container v with
      | none => []
      | some c => w.leastReads q c v
    match w.rule.shape v with
    | .group =>
      if w.plainRoot v then []
      else
        (w.rule.others v child).flatMap w.demandReads ++ (if w.rule.optional v then [] else above)
    | .alternative =>
      if w.rule.optional v then []
      else
        (upTo (fun c => 0 < w.demand q c) (w.rule.others v child)).flatMap w.demandReads ++
          (if (w.rule.others v child).any fun c => 0 < w.demand q c then [] else above)
    | _ => []
termination_by v
decreasing_by exact Rule.lt_of_container _h

theorem leastReads_eq (w : View) (q : Quantities) (v child : Nat) :
    w.leastReads q v child =
      if w.blocked v then []
      else
        let above := (w.rule.container v).elim [] fun c => w.leastReads q c v
        match w.rule.shape v with
        | .group =>
          if w.plainRoot v then []
          else
            (w.rule.others v child).flatMap w.demandReads ++
              (if w.rule.optional v then [] else above)
        | .alternative =>
          if w.rule.optional v then []
          else
            (upTo (fun c => 0 < w.demand q c) (w.rule.others v child)).flatMap w.demandReads ++
              (if (w.rule.others v child).any fun c => 0 < w.demand q c then [] else above)
        | _ => [] := by
  rw [leastReads]; split
  · rfl
  · split <;> rename_i h <;> simp [h]

def minReads (w : View) (q : Quantities) (v : Nat) : List Nat :=
  if w.rule.optional v then []
  else (w.rule.container v).elim [] fun c => w.leastReads q c v

/-! ## Maximum -/

/-- The nodes consulted to find out whether a branch is dead; the first reason settles it. -/
def branchReads (w : View) (q : Quantities) (exclude : Option String) (v child : Nat) : List Nat :=
  let looks := (w.rule.children v).map fun c =>
    if c = child then
      exclude.elim (false, []) fun field =>
        (w.unavailable q field c, w.unavailableReads q field c)
    else (decide (0 < w.demand q c), w.demandReads c)
  (upTo Prod.fst looks).flatMap Prod.snd

def mostReads (w : View) (q : Quantities) (exclude : Option String) (v child : Nat) : List Nat :=
  if w.blocked v then []
  else
    let above : Count × List Nat :=
      match _h : w.rule.container v with
      | none => (if w.rule.repeatable v then .unbounded else 1, [])
      | some c => (w.mostIn q exclude c v, w.mostReads q exclude c v)
    above.2 ++
      if above.1 = 0 then []
      else
        match w.rule.shape v with
        | .group =>
          let most := if w.rule.repeatable v then .unbounded else above.1
          if w.rule.optional v || most = .unbounded then
            (w.rule.others v child).flatMap (w.supplyReads q)
          else []
        | .alternative =>
          if w.rule.repeatable v then [] else w.branchReads q exclude v child
        | _ => []
termination_by v
decreasing_by exact Rule.lt_of_container _h

theorem mostReads_eq (w : View) (q : Quantities) (exclude : Option String) (v child : Nat) :
    w.mostReads q exclude v child =
      if w.blocked v then []
      else
        let above : Count × List Nat :=
          (w.rule.container v).elim (if w.rule.repeatable v then .unbounded else 1, [])
            fun c => (w.mostIn q exclude c v, w.mostReads q exclude c v)
        above.2 ++
          if above.1 = 0 then []
          else
            match w.rule.shape v with
            | .group =>
              let most := if w.rule.repeatable v then .unbounded else above.1
              if w.rule.optional v || most = .unbounded then
                (w.rule.others v child).flatMap (w.supplyReads q)
              else []
            | .alternative =>
              if w.rule.repeatable v then [] else w.branchReads q exclude v child
            | _ => [] := by
  rw [mostReads]; split
  · rfl
  · split <;> rename_i h <;> simp [h]

def maxReads (w : View) (q : Quantities) (exclude : Option String) (v : Nat) : List Nat :=
  (w.rule.container v).elim [] fun c => w.mostReads q exclude c v

end RuleCardinality.View
