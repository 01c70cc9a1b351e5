import RuleCardinality.Json.Number

/-!
# Reading data

A strict reader of the JSON data format: blanks are the space, the tab and the line ends only, numerals
have no leading zeros, control characters in texts must be escaped, and nothing may follow the value.
Nesting beyond `depthLimit` containers makes what is that deep unreadable, and so does half a surrogate
pair or a numeral that is too large.
-/

namespace RuleCardinality.Json

/-- The number of containers that may be nested. -/
def depthLimit : Nat := 127

def skipBlanks (cs : List Char) : List Char :=
  cs.dropWhile fun c => c = ' ' || c = '\n' || c = '\t' || c = '\r'

def isDigit (c : Char) : Bool := '0' ≤ c && c ≤ '9'

def digit (c : Char) : Nat := c.toNat - 48

def hexValue (c : Char) : Option Nat :=
  if isDigit c then some (digit c)
  else if 'a' ≤ c && c ≤ 'f' then some (c.toNat - 87)
  else if 'A' ≤ c && c ≤ 'F' then some (c.toNat - 55)
  else none

def hexQuad (a b c d : Char) : Option Nat := do
  return ((← hexValue a) * 16 + (← hexValue b)) * 256 + (← hexValue c) * 16 + (← hexValue d)

/-- Reads the rest of a text value as code points, with surrogates as they are written. -/
def readUnits : List Char → Option (List Nat × List Char)
  | '"' :: rest => some ([], rest)
  | '\\' :: 'u' :: a :: b :: c :: d :: rest => do
    let unit ← hexQuad a b c d
    let (units, rest) ← readUnits rest
    return (unit :: units, rest)
  | '\\' :: c :: rest => do
    let unit ← match c with
      | '"' | '\\' | '/' => some c.toNat
      | 'b' => some 8
      | 'f' => some 12
      | 'n' => some 10
      | 'r' => some 13
      | 't' => some 9
      | _ => none
    let (units, rest) ← readUnits rest
    return (unit :: units, rest)
  | c :: rest =>
    if c.toNat < 0x20 then none
    else do
      let (units, rest) ← readUnits rest
      return (c.toNat :: units, rest)
  | [] => none

/-- Joins surrogates in pairs; nothing if one is left over. -/
def joinUnits : List Nat → Option (List Char)
  | [] => some []
  | [a] => if 0xD800 ≤ a && a < 0xE000 then none else some [Char.ofNat a]
  | a :: b :: rest =>
    if 0xD800 ≤ a && a < 0xDC00 then
      if 0xDC00 ≤ b && b < 0xE000 then do
        let cs ← joinUnits rest
        return Char.ofNat (0x10000 + (a - 0xD800) * 0x400 + (b - 0xDC00)) :: cs
      else none
    else if 0xDC00 ≤ a && a < 0xE000 then none
    else do
      let cs ← joinUnits (b :: rest)
      return Char.ofNat a :: cs

/-- Reads the rest of a text value; the inner option is nothing if it has half a surrogate pair. -/
def readText (cs : List Char) : Option (Option String × List Char) :=
  (readUnits cs).map fun (units, rest) => ((joinUnits units).map String.ofList, rest)

def readDigits (cs : List Char) : List Nat × List Char :=
  ((cs.takeWhile isDigit).map digit, cs.dropWhile isDigit)

def readSomeDigits (cs : List Char) : Option (List Nat × List Char) :=
  match readDigits cs with
  | ([], _) => none
  | (ds, rest) => some (ds, rest)

def readExponent (cs : List Char) : Option ((Bool × List Nat) × List Char) :=
  let (down, cs) := match cs with
    | '+' :: cs => (false, cs)
    | '-' :: cs => (true, cs)
    | cs => (false, cs)
  (readSomeDigits cs).map fun (ds, rest) => ((down, ds), rest)

def readNumeral (cs : List Char) : Option (Numeral × List Char) := do
  let (negative, cs) := match cs with
    | '-' :: cs => (true, cs)
    | cs => (false, cs)
  let (whole, cs) ← readSomeDigits cs
  if whole.head? = some 0 ∧ 1 < whole.length then none
  let (fraction, cs) ← match cs with
    | '.' :: cs => readSomeDigits cs
    | cs => some ([], cs)
  let (exponent, cs) ← match cs with
    | 'e' :: cs | 'E' :: cs => (readExponent cs).map fun (e, rest) => (some e, rest)
    | cs => some (none, cs)
  return (⟨negative, whole, fraction, exponent⟩, cs)

/-- Members whose names can all be read. -/
def named : List (Option String × Json) → Option (List (String × Json))
  | [] => some []
  | (name, j) :: members => do return (← name, j) :: (← named members)

/-- An object, unless one of its names is unreadable. -/
def ofMembers (members : List (Option String × Json)) : Json :=
  (named members).elim .unreadable .object

/-- A container at a depth, unless it lies too deep. -/
def atDepth (depth : Nat) (j : Json) : Json := if depth < depthLimit then j else .unreadable

mutual

/-- Reads a value that lies within `depth` containers. The first argument bounds the number of steps. -/
def readValue : Nat → Nat → List Char → Option (Json × List Char)
  | 0, _, _ => none
  | steps + 1, depth, cs =>
    match skipBlanks cs with
    | 'n' :: 'u' :: 'l' :: 'l' :: rest => some (.null, rest)
    | 't' :: 'r' :: 'u' :: 'e' :: rest => some (.bool true, rest)
    | 'f' :: 'a' :: 'l' :: 's' :: 'e' :: rest => some (.bool false, rest)
    | '"' :: rest => (readText rest).map fun (s, rest) => (s.elim .unreadable .text, rest)
    | '[' :: rest =>
      match skipBlanks rest with
      | ']' :: rest => some (atDepth depth (.array []), rest)
      | rest => do
        let (items, rest) ← readItems steps (depth + 1) rest
        return (atDepth depth (.array items), rest)
    | '\x7b' :: rest =>
      match skipBlanks rest with
      | '\x7d' :: rest => some (atDepth depth (.object []), rest)
      | rest => do
        let (members, rest) ← readMembers steps (depth + 1) rest
        return (atDepth depth (ofMembers members), rest)
    | rest => do
      let (n, rest) ← readNumeral rest
      return (n.value?.elim .unreadable .number, rest)

def readItems : Nat → Nat → List Char → Option (List Json × List Char)
  | 0, _, _ => none
  | steps + 1, depth, cs => do
    let (item, rest) ← readValue steps depth cs
    match skipBlanks rest with
    | ',' :: rest => do
      let (items, rest) ← readItems steps depth rest
      return (item :: items, rest)
    | ']' :: rest => return ([item], rest)
    | _ => none

def readMembers : Nat → Nat → List Char → Option ((List (Option String × Json)) × List Char)
  | 0, _, _ => none
  | steps + 1, depth, cs =>
    match skipBlanks cs with
    | '"' :: rest => do
      let (name, rest) ← readText rest
      match skipBlanks rest with
      | ':' :: rest => do
        let (j, rest) ← readValue steps depth rest
        match skipBlanks rest with
        | ',' :: rest => do
          let (members, rest) ← readMembers steps depth rest
          return ((name, j) :: members, rest)
        | '\x7d' :: rest => return ([(name, j)], rest)
        | _ => none
      | _ => none
    | _ => none

end

/-- The value that a text holds, if it holds one and nothing else. -/
def parse? (s : String) : Option Json :=
  let cs := s.toList
  match readValue (2 * cs.length + 2) 0 cs with
  | some (j, rest) => if (skipBlanks rest).isEmpty then some j else none
  | none => none

end RuleCardinality.Json
