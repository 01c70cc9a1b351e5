import RuleCardinality.Count

/-!
# Windows

A `Window` is the least and the greatest number of times a node may fire. A quantity below a finite
minimum falls short by its `deficit`; one above a finite maximum goes over by its `excess`; the sum of
the two is its `violation`. An end that is not finite never rejects a quantity.
-/

namespace RuleCardinality

/-- The admissible firing counts of a node (`Bounds`, bounds.rs:71). -/
structure Window where
  min : Count
  max : Count
deriving DecidableEq, Repr, Inhabited

namespace Window

/-- How far a quantity falls short of the minimum (`deficit`, bounds.rs:82). -/
def deficit (w : Window) (q : Nat) : Nat :=
  match w.min with
  | .finite m => m - q
  | _ => 0

/-- The `excess` of bounds.rs:90. -/
def excess (w : Window) (q : Nat) : Nat :=
  match w.max with
  | .finite m => q - m
  | _ => 0

/-- The `violation` of bounds.rs:98. -/
def violation (w : Window) (q : Nat) : Nat := w.deficit q + w.excess q

/-- The `admits` of bounds.rs:102. -/
def admits (w : Window) (q : Nat) : Bool := w.violation q = 0

/-- How much more than `q` the maximum allows (`headroom`, distributor.rs:359). -/
def headroom (w : Window) (q : Nat) : Nat :=
  match w.max with
  | .undefined => 0
  | .finite m => m - q
  | .unbounded => cap

/-- How much of `q` the minimum can spare (`surplus`, distributor.rs:400). -/
def surplus (w : Window) (q : Nat) : Nat := q - (w.min.finite?.getD 0)

/-- The number that the minimum asks for, as far as the maximum allows it (distributor.rs:276). -/
def required (w : Window) : Nat := ((Min.min w.min w.max).finite?).getD 0

/-- A window as it is printed (bounds.rs:108), such as `<1,*>`. -/
def text (w : Window) : String := "<" ++ w.min.text ++ "," ++ w.max.text ++ ">"

end Window

end RuleCardinality
