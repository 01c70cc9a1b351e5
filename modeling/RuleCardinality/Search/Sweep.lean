import RuleCardinality.Search.Greedy
import RuleCardinality.Search.Odometer
import RuleCardinality.Search.Splits

/-!
# The exact pass

All joint splits of the competing fields are tried in order, the last field's fastest, and the first
one of least quality is kept. Each field is a dial that shows one of its splits, and the dials turn like
those of an odometer. The pass ends at once when a split without violation turns up, and it is not made
at all if there are more joint splits than allowed.
-/

namespace RuleCardinality.View

/-- The competing nodes and the count of each field. -/
def budgets (q : Quantities) (rivals : List (String × List Nat)) : List (List Nat × Nat) :=
  rivals.map fun r => (r.2, q.count r.1)

/-- Whether there are more joint splits than allowed (distributor.rs:164-171). The product is compared
after each factor, and so not at all where no field competes. -/
def overLimit (limit : Nat) : Nat → List (List Nat × Nat) → Bool
  | _, [] => false
  | total, f :: fields =>
    let total := capMul total (splitCount f.2 f.1.length)
    limit < total || overLimit limit total fields

/-- The nodes of a competing field and the splits of its count among them (distributor.rs:173-179). -/
structure Dial where
  nodes : List Nat
  options : Array (List Nat)

def Dial.size (d : Dial) : Nat := d.options.size

def dial (field : List Nat × Nat) : Dial := ⟨field.1, (splits field.2 field.1.length).toArray⟩

/-- Gives the nodes of each field the split that its dial shows (distributor.rs:187-191). -/
def deal (dials : List Dial) (places : List Nat) (q : Quantities) : Quantities :=
  (dials.zip places).foldl (fun q d => q.assignAll (d.1.nodes.zip (d.1.options.getD d.2 []))) q

/-- The best split so far: its quality and the shares. -/
abbrev Found := Nat × Quantities

/-- Tries the joint splits from some places on (`'search`, distributor.rs:186-212). The shares of the
last joint split are still there when the next one is dealt. -/
def search (w : View) (dials : List Dial) (places : List Nat) (q : Quantities) (best : Option Found) :
    Option Found :=
  let q := deal dials places q
  let quality := w.quality q
  let improves := best.all fun b => quality < b.1
  let best := if improves then some (quality, q) else best
  if improves && quality == 0 then best
  else
    match _h : Odometer.carry (dials.map Dial.size) places.length places with
    | none => best
    | some next => w.search dials next q best
termination_by Odometer.movesLeft (dials.map Dial.size) places
decreasing_by exact Odometer.movesLeft_carry_lt _h

/-- The first joint split of least quality, if the number of joint splits is within the limit and
there is one at all (`exhaustive`, distributor.rs:159). -/
def exhaustive (w : View) (limit : Nat) (rivals : List (String × List Nat)) (q : Quantities) :
    Option Found :=
  let fields := budgets q rivals
  if overLimit limit 1 fields then none
  else
    let dials := fields.map dial
    if dials.any fun d => d.options.isEmpty then none
    else w.search dials (List.replicate dials.length 0) q none

end RuleCardinality.View
