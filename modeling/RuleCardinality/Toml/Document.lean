import RuleCardinality.Toml.Scalar

/-!
# Settings documents

A TOML document is a sequence of lines: pairs of a key and a value, and headers that say which table
the pairs after them belong to. `parse?` reads a whole document, or nothing if it is malformed anywhere.
-/

namespace RuleCardinality.Toml

mutual

/-- Reads a value within a number of others. The first argument bounds the number of steps. -/
def value : Nat → Nat → List Char → Option (Item × List Char)
  | 0, _, _ => none
  | steps + 1, depth, cs =>
    match cs with
    | '"' :: '"' :: '"' :: cs => block '"' cs
    | '\'' :: '\'' :: '\'' :: cs => block '\'' cs
    | '"' :: cs =>
      (quoted (cs.length + 1) cs).map fun (text, rest) => (.text (String.ofList text), rest)
    | '\'' :: cs => (literal cs).map fun (text, rest) => (.text (String.ofList text), rest)
    | 't' :: 'r' :: 'u' :: 'e' :: cs => some (.bool true, cs)
    | 'f' :: 'a' :: 'l' :: 's' :: 'e' :: cs => some (.bool false, cs)
    | '[' :: cs => if depth < depthLimit then elements steps (depth + 1) [] cs else none
    | '\x7b' :: cs => if depth < depthLimit then braces steps (depth + 1) cs else none
    | cs => if startsMoment cs then moment cs else numeral cs

/-- Reads the elements of an array, with the ones read so far, the last one first. -/
def elements : Nat → Nat → List Item → List Char → Option (Item × List Char)
  | 0, _, _, _ => none
  | steps + 1, depth, read, cs =>
    match skipLines (cs.length + 1) cs with
    | ']' :: rest => some (.array read.reverse, rest)
    | cs => do
      let (item, cs) ← value steps depth cs
      match skipLines (cs.length + 1) cs with
      | ',' :: rest => elements steps depth (item :: read) rest
      | ']' :: rest => return (.array (item :: read).reverse, rest)
      | _ => none

def braces : Nat → Nat → List Char → Option (Item × List Char)
  | 0, _, _ => none
  | steps + 1, depth, cs =>
    match skipSpace cs with
    | '\x7d' :: rest => some (.table .inline [], rest)
    | cs => do
      let (read, rest) ← pairs steps depth [] cs
      return (← inlineTable read.reverse, rest)

/-- Reads pairs up to the closing brace, with the ones read so far, the last one first. -/
def pairs : Nat → Nat → List (List String × String × Item) → List Char →
    Option (List (List String × String × Item) × List Char)
  | 0, _, _, _ => none
  | steps + 1, depth, read, cs => do
    let ((path, last), cs) ← key depthLimit cs
    let (item, cs) ← value steps depth (skipSpace (← mark '=' cs))
    match skipSpace cs with
    | ',' :: rest => pairs steps depth ((path, last, item) :: read) rest
    | '\x7d' :: rest => return ((path, last, item) :: read, rest)
    | _ => none

end

inductive Line where
  | pair (path : List String) (key : String) (item : Item)
  | header (path : List String) (key : String)
  /-- The header of one of several tables. -/
  | element (path : List String) (key : String)

def line (cs : List Char) : Option (Line × List Char) :=
  match cs with
  | '[' :: '[' :: cs => do
    let ((path, last), cs) ← key depthLimit cs
    return (.element path last, ← mark ']' (← mark ']' cs))
  | '[' :: cs => do
    let ((path, last), cs) ← key depthLimit cs
    return (.header path last, ← mark ']' cs)
  | cs => do
    let ((path, last), cs) ← key depthLimit cs
    let cs := skipSpace (← mark '=' cs)
    let (item, rest) ← value (2 * cs.length + 2) 0 cs
    return (.pair path last item, rest)

/-- Reads all lines. The first argument bounds their number. -/
def document : Nat → List Char → Option (List Line)
  | 0, _ => none
  | steps + 1, cs =>
    match skipLines (cs.length + 1) cs with
    | [] => some []
    | cs => do
      let (l, rest) ← line cs
      match skipComment (skipSpace rest) with
      | [] => return [l]
      | rest => return l :: (← document steps (← newline? rest))

/-- Adds lines to a document, in which the path leads to the table that pairs belong to. -/
def build : List Line → List String → Entries → Option Entries
  | [], _, root => some root
  | .pair path key item :: ls, here, root => do
    build ls here (← descend false (addPair path key item) here .header root)
  | .header path key :: ls, _, root => do
    build ls (path ++ [key]) (← descend false (fun _ => openTable key) path .header root)
  | .element path key :: ls, _, root => do
    build ls (path ++ [key]) (← descend false (fun _ => openElement key) path .header root)

/-- The contents of a document. A byte order mark in front does not count. -/
def parse? (s : String) : Option Entries := do
  let cs := match s.toList with
    | c :: cs => if c.toNat = 0xFEFF then cs else c :: cs
    | [] => []
  build (← document (cs.length + 1) cs) [] []

end RuleCardinality.Toml
