import RuleCardinality.Decimal.Plain

/-!
# Data values

The values of the JSON data format. Numbers keep the distinction between whole numbers and floating
point numbers that the format's texts make. Members of an object keep their order and may repeat a
name. A value that was read but stands for nothing, such as a text with half of a surrogate pair, is
`unreadable`: whoever needs it fails, whoever passes over it does not.
-/

namespace RuleCardinality

inductive Number where
  | natural (n : Nat)
  /-- The whole number `-n`. -/
  | negative (n : Nat)
  | real (x : Float)

inductive Json where
  | null
  | bool (b : Bool)
  | number (n : Number)
  | text (s : String)
  | array (items : List Json)
  | object (members : List (String × Json))
  | unreadable

namespace Json

def nat (n : Nat) : Json := .number (.natural n)

def optional {α : Type} (f : α → Json) : Option α → Json
  | none => .null
  | some a => f a

/-- The member of that name; of several the last. -/
def member? (name : String) : Json → Option Json
  | .object members => (members.reverse.lookup name)
  | _ => none

mutual

/-- Whether a value can be used as a whole. -/
def readable : Json → Bool
  | .unreadable => false
  | .array items => readableItems items
  | .object members => readableMembers members
  | _ => true

def readableItems : List Json → Bool
  | [] => true
  | j :: js => readable j && readableItems js

def readableMembers : List (String × Json) → Bool
  | [] => true
  | (_, j) :: js => readable j && readableMembers js

end

/-- Members without those whose name comes again later. -/
def lastOnly {α : Type} : List (String × α) → List (String × α)
  | [] => []
  | m :: ms => if ms.any fun n => n.1 == m.1 then lastOnly ms else m :: lastOnly ms

mutual

/-- A value in which no object repeats a name; the last member of a name stays. -/
def settle : Json → Json
  | .array items => .array (settleItems items)
  | .object members => .object (lastOnly (settleMembers members))
  | j => j

def settleItems : List Json → List Json
  | [] => []
  | j :: js => settle j :: settleItems js

def settleMembers : List (String × Json) → List (String × Json)
  | [] => []
  | (name, j) :: js => (name, settle j) :: settleMembers js

end

end Json

end RuleCardinality
