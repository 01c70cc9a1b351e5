import RuleCardinality.Saturating

/-!
# Counts

A `Count` is how often a part of a rule fires: a number, an unknown number or any number at all.
Counts are ordered `undefined < finite 0 < finite 1 < … < unbounded`, so that an unknown count never
wins a maximum and never loses a minimum by accident. `plus` adds two counts; an unknown count adds
nothing and an unbounded one absorbs the sum.
-/

namespace RuleCardinality

/-- A firing count that may be unknown or without limit (`Count`, bounds.rs:19). -/
inductive Count where
  | undefined
  | finite (n : Nat)
  | unbounded
deriving DecidableEq, Repr, Inhabited

namespace Count

instance (n : Nat) : OfNat Count n := ⟨.finite n⟩

/-! ## Order -/

/-- An unknown count is least, an unbounded one greatest. -/
def le : Count → Count → Bool
  | .undefined, _ => true
  | _, .unbounded => true
  | .finite m, .finite n => m ≤ n
  | .finite _, .undefined => false
  | .unbounded, _ => false

instance : LE Count := ⟨fun a b => a.le b = true⟩

instance : LT Count := ⟨fun a b => b.le a = false⟩

instance (a b : Count) : Decidable (a ≤ b) := inferInstanceAs (Decidable (a.le b = true))

instance (a b : Count) : Decidable (a < b) := inferInstanceAs (Decidable (b.le a = false))

instance : Max Count := ⟨fun a b => if a ≤ b then b else a⟩

instance : Min Count := ⟨fun a b => if a ≤ b then a else b⟩

def compare (a b : Count) : Ordering :=
  if a < b then .lt else if a = b then .eq else .gt

/-! ## Sums and readings -/

/-- The sum of two counts: an unknown count adds nothing, an unbounded one absorbs the other, and a sum
of numbers stops at `cap` (`plus`, bounds.rs:30). -/
def plus : Count → Count → Count
  | .undefined, b => b
  | a, .undefined => a
  | .unbounded, _ => .unbounded
  | _, .unbounded => .unbounded
  | .finite a, .finite b => .finite (capAdd a b)

/-- The `is_defined` of bounds.rs:38. -/
def isDefined : Count → Bool
  | .undefined => false
  | _ => true

/-- The `finite` of bounds.rs:42. -/
def finite? : Count → Option Nat
  | .finite n => some n
  | _ => none

/-- The count read as a budget: nothing known is no budget, no limit is the largest one (`floor`,
bounds.rs:50). -/
def floor : Count → Nat
  | .undefined => 0
  | .finite n => n
  | .unbounded => cap

/-- The smaller of two counts, where an unknown second count does not narrow the first. -/
def narrow (a b : Count) : Count :=
  if b.isDefined then min a b else a

/-- A count as it is printed (bounds.rs:60): its digits, a dash for an unknown one, a star for an
unbounded one. -/
def text : Count → String
  | .undefined => "-"
  | .finite n => toString n
  | .unbounded => "*"

@[simp] theorem undefined_plus (a : Count) : plus .undefined a = a := by cases a <;> rfl

@[simp] theorem plus_undefined (a : Count) : plus a .undefined = a := by cases a <;> rfl

@[simp] theorem unbounded_plus (a : Count) : plus .unbounded a = .unbounded := by cases a <;> rfl

@[simp] theorem plus_unbounded (a : Count) : plus a .unbounded = .unbounded := by cases a <;> rfl

@[simp] theorem finite_plus_finite (a b : Nat) : plus (.finite a) (.finite b) = .finite (capAdd a b) :=
  rfl

@[simp] theorem finite_le_finite {a b : Nat} : Count.finite a ≤ .finite b ↔ a ≤ b :=
  decide_eq_true_iff

@[simp] theorem undefined_le (a : Count) : Count.undefined ≤ a := rfl

@[simp] theorem le_unbounded (a : Count) : a ≤ Count.unbounded := by cases a <;> rfl

theorem lt_iff_not_le {a b : Count} : a < b ↔ ¬ b ≤ a := by
  show b.le a = false ↔ ¬ b.le a = true
  simp

@[simp] theorem finite_lt_finite {a b : Nat} : Count.finite a < .finite b ↔ a < b := by
  rw [lt_iff_not_le, finite_le_finite, Nat.not_le]

end Count

end RuleCardinality
