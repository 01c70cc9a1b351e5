/-!
# Tables of a settings document

The contents of a TOML document: values, and tables of values by key. A table remembers how it came
about, because that decides who may still add to it. A table with a header of its own, or written
inline, is complete; one that was only mentioned on the way to another header may get its own header
later; one made by dotted keys grows by further dotted keys only.
-/

namespace RuleCardinality.Toml

/-- How a table came about. -/
inductive Origin where
  | header
  /-- On the way to the header of a table below it. -/
  | mentioned
  | dotted
  | inline
deriving DecidableEq, Repr

inductive Item where
  | text (s : String)
  | integer (n : Int)
  | real (x : Float)
  | bool (b : Bool)
  | moment
  | array (items : List Item)
  | table (origin : Origin) (entries : List (String × Item))
  /-- Tables under a repeated header, the last one first. -/
  | tables (elements : List (List (String × Item)))

abbrev Entries := List (String × Item)

/-- Puts an item under a key, in the place of the one that was there. -/
def put (key : String) (item : Item) : Entries → Entries
  | [] => [(key, item)]
  | e :: es => if e.1 = key then (key, item) :: es else e :: put key item es

/-- Changes the table that a path leads to, making the tables on the way that are not there. The last
argument is how the table at hand came about, which the change is told. -/
def descend (dotted : Bool) (change : Origin → Entries → Option Entries) :
    List String → Origin → Entries → Option Entries
  | [], origin, es => change origin es
  | key :: path, _, es =>
    match es.lookup key with
    | none => do
      let made := if dotted then Origin.dotted else Origin.mentioned
      let below ← descend dotted change path made []
      return put key (.table made below) es
    | some (.table origin below) =>
      if origin = .inline ∨ (dotted ∧ origin = .header) then none
      else do
        let below ← descend dotted change path origin below
        return put key (.table origin below) es
    | some (.tables (last :: earlier)) => do
      let last ← descend dotted change path .header last
      return put key (.tables (last :: earlier)) es
    | some _ => none

/-- Adds a key with its value; a dotted key must lead into a table made by dotted keys, and no key is
given twice. -/
def addPair (path : List String) (key : String) (item : Item) (origin : Origin) (es : Entries) :
    Option Entries :=
  descend true
    (fun found es =>
      if (!path.isEmpty && found ≠ .dotted) || (es.lookup key).isSome then none
      else some (put key item es))
    path origin es

def openTable (key : String) (es : Entries) : Option Entries :=
  match es.lookup key with
  | none => some (put key (.table .header []) es)
  | some (.table .mentioned below) => some (put key (.table .header below) es)
  | some _ => none

def openElement (key : String) (es : Entries) : Option Entries :=
  match es.lookup key with
  | none => some (put key (.tables [[]]) es)
  | some (.tables elements) => some (put key (.tables ([] :: elements)) es)
  | some _ => none

def inlineTable (pairs : List (List String × String × Item)) : Option Item := do
  let entries ← pairs.foldlM (fun es (path, key, item) => addPair path key item .inline es) []
  return .table .inline entries

end RuleCardinality.Toml
