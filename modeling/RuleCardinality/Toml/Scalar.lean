import RuleCardinality.Decimal.Nearest
import RuleCardinality.Toml.Table
import RuleCardinality.WordSize

/-!
# Words of a settings document

Readers for the smallest parts of a TOML document: blanks and comments, keys, texts, numbers, dates and
times. Each one takes the front of the document and gives back what it read and the rest.
-/

namespace RuleCardinality.Toml

/-! ## Blanks -/

/-- A character that may stand in comments and between quotes: a tab or no control character. -/
def isPlain (c : Char) : Bool := c = '\t' || (0x20 ≤ c.toNat && c.toNat ≠ 0x7F)

def skipSpace (cs : List Char) : List Char := cs.dropWhile fun c => c = ' ' || c = '\t'

def skipComment : List Char → List Char
  | '#' :: cs => cs.dropWhile isPlain
  | cs => cs

def newline? : List Char → Option (List Char)
  | '\n' :: cs => some cs
  | '\r' :: '\n' :: cs => some cs
  | _ => none

/-- The document without blanks, comments and line ends in front; the first argument bounds the number
of lines. -/
def skipLines : Nat → List Char → List Char
  | 0, cs => cs
  | lines + 1, cs =>
    let cs := skipComment (skipSpace cs)
    match newline? cs with
    | some cs => skipLines lines cs
    | none => cs

/-! ## Digits -/

def isDigit (c : Char) : Bool := '0' ≤ c && c ≤ '9'

def digitOf? (base : Nat) (c : Char) : Option Nat :=
  let n :=
    if isDigit c then c.toNat - 48
    else if 'a' ≤ c && c ≤ 'f' then c.toNat - 87
    else if 'A' ≤ c && c ≤ 'F' then c.toNat - 55
    else 16
  if n < base then some n else none

/-- Reads digits after the first one, where single underscores may stand between digits. -/
def moreDigits (base : Nat) : List Char → Option (List Nat × List Char)
  | '_' :: c :: cs => do
    let d ← digitOf? base c
    let (ds, rest) ← moreDigits base cs
    return (d :: ds, rest)
  | ['_'] => none
  | c :: cs =>
    match digitOf? base c with
    | none => some ([], c :: cs)
    | some d => do
      let (ds, rest) ← moreDigits base cs
      return (d :: ds, rest)
  | [] => some ([], [])

def digits (base : Nat) : List Char → Option (List Nat × List Char)
  | c :: cs => do
    let d ← digitOf? base c
    let (ds, rest) ← moreDigits base cs
    return (d :: ds, rest)
  | [] => none

def number (base : Nat) (ds : List Nat) : Nat := ds.foldl (fun n d => n * base + d) 0

def sign : List Char → Bool × List Char
  | '+' :: cs => (false, cs)
  | '-' :: cs => (true, cs)
  | cs => (false, cs)

/-! ## Numbers -/

/-- A whole number that fits 64 bits with a sign. -/
def bounded (negative : Bool) (n : Nat) : Option Item :=
  if negative then (if n ≤ signedEnd then some (.integer (-n)) else none)
  else if n < signedEnd then some (.integer n) else none

def based (base : Nat) (cs : List Char) : Option (Item × List Char) := do
  let (ds, rest) ← digits base cs
  return (← bounded false (number base ds), rest)

/-- A floating point number; one that is too large is none, unless it is negative. -/
def realOf (negative : Bool) (ds : List Nat) (exponent : Int) : Option Item :=
  let x := Decimal.nearest (number 10 ds) exponent
  if negative then some (.real (-x)) else if x.isInf then none else some (.real x)

def exponent (cs : List Char) : Option (Int × List Char) := do
  let (down, cs) := sign cs
  let (ds, rest) ← digits 10 cs
  let e : Int := number 10 ds
  return (if down then -e else e, rest)

/-- Reads a decimal number: a whole one without leading zeros, perhaps with a fraction or an exponent. -/
def decimal (cs : List Char) : Option (Item × List Char) := do
  let (negative, cs) := sign cs
  let (whole, cs) ← match cs with
    | '0' :: cs => some ([0], cs)
    | cs => digits 10 cs
  match cs with
  | '.' :: cs =>
    let (fraction, cs) ← digits 10 cs
    let (e, cs) ← match cs with
      | 'e' :: cs | 'E' :: cs => exponent cs
      | cs => some (0, cs)
    return (← realOf negative (whole ++ fraction) (e - fraction.length), cs)
  | 'e' :: cs | 'E' :: cs =>
    let (e, cs) ← exponent cs
    return (← realOf negative whole e, cs)
  | cs => return (← bounded negative (number 10 whole), cs)

def numeral : List Char → Option (Item × List Char)
  | '0' :: 'x' :: cs => based 16 cs
  | '0' :: 'o' :: cs => based 8 cs
  | '0' :: 'b' :: cs => based 2 cs
  | cs =>
    let (negative, unsigned) := sign cs
    match unsigned with
    | 'i' :: 'n' :: 'f' :: rest =>
      some (.real (Float.ofBits (if negative then 0xFFF0000000000000 else 0x7FF0000000000000)), rest)
    | 'n' :: 'a' :: 'n' :: rest => some (.real (Float.ofBits 0x7FF8000000000000), rest)
    | _ => decimal cs

/-! ## Dates and times -/

def fixedDigits : Nat → Nat → List Char → Option (Nat × List Char)
  | 0, n, cs => some (n, cs)
  | _ + 1, _, [] => none
  | count + 1, n, c :: cs => if isDigit c then fixedDigits count (n * 10 + (c.toNat - 48)) cs else none

def mark (c : Char) : List Char → Option (List Char)
  | d :: cs => if c = d then some cs else none
  | [] => none

def daysIn (year month : Nat) : Nat :=
  if month = 2 then (if year % 4 = 0 ∧ (year % 100 ≠ 0 ∨ year % 400 = 0) then 29 else 28)
  else if month = 4 ∨ month = 6 ∨ month = 9 ∨ month = 11 then 30
  else 31

def date (cs : List Char) : Option (List Char) := do
  let (year, cs) ← fixedDigits 4 0 cs
  let (month, cs) ← fixedDigits 2 0 (← mark '-' cs)
  let (day, cs) ← fixedDigits 2 0 (← mark '-' cs)
  if 1 ≤ month ∧ month ≤ 12 ∧ 1 ≤ day ∧ day ≤ daysIn year month then some cs else none

def time (cs : List Char) : Option (List Char) := do
  let (hour, cs) ← fixedDigits 2 0 cs
  let (minute, cs) ← fixedDigits 2 0 (← mark ':' cs)
  let (second, cs) ← fixedDigits 2 0 (← mark ':' cs)
  if hour ≤ 23 ∧ minute ≤ 59 ∧ second ≤ 60 then
    match cs with
    | '.' :: c :: cs => if isDigit c then some (cs.dropWhile isDigit) else none
    | cs => some cs
  else none

/-- Reads what a time is off from universal time, if it says so. -/
def offset : List Char → Option (List Char)
  | 'Z' :: cs | 'z' :: cs => some cs
  | '+' :: cs | '-' :: cs => do
    let (hour, cs) ← fixedDigits 2 0 cs
    let (minute, cs) ← fixedDigits 2 0 (← mark ':' cs)
    if hour ≤ 23 ∧ minute ≤ 59 then some cs else none
  | cs => some cs

/-- Reads a date, a time, or both. -/
def moment (cs : List Char) : Option (Item × List Char) :=
  match date cs with
  | some ('T' :: rest) | some ('t' :: rest) =>
    ((time rest).bind offset).map fun rest => (.moment, rest)
  | some (' ' :: rest) =>
    match time rest with
    | some rest => (offset rest).map fun rest => (.moment, rest)
    | none => some (.moment, ' ' :: rest)
  | some rest => some (.moment, rest)
  | none => (time cs).map fun rest => (.moment, rest)

def startsMoment (cs : List Char) : Bool :=
  ((fixedDigits 4 0 cs).bind fun (_, rest) => mark '-' rest).isSome ||
    ((fixedDigits 2 0 cs).bind fun (_, rest) => mark ':' rest).isSome

/-! ## Texts -/

def scalar? (n : Nat) : Option Char :=
  if n < 0xD800 || (0xE000 ≤ n && n < 0x110000) then some (Char.ofNat n) else none

def codePoint : Nat → Nat → List Char → Option (Char × List Char)
  | 0, n, cs => (scalar? n).map fun c => (c, cs)
  | _ + 1, _, [] => none
  | count + 1, n, c :: cs => (digitOf? 16 c).bind fun d => codePoint count (n * 16 + d) cs

def escape : List Char → Option (Char × List Char)
  | 'b' :: cs => some (Char.ofNat 8, cs)
  | 't' :: cs => some ('\t', cs)
  | 'n' :: cs => some ('\n', cs)
  | 'f' :: cs => some (Char.ofNat 12, cs)
  | 'r' :: cs => some ('\r', cs)
  | '"' :: cs => some ('"', cs)
  | '\\' :: cs => some ('\\', cs)
  | 'u' :: cs => codePoint 4 0 cs
  | 'U' :: cs => codePoint 8 0 cs
  | _ => none

/-- Reads a text up to its quote. The first argument bounds the number of characters. -/
def quoted : Nat → List Char → Option (List Char × List Char)
  | 0, _ => none
  | _ + 1, '"' :: cs => some ([], cs)
  | steps + 1, '\\' :: cs => do
    let (c, cs) ← escape cs
    let (text, rest) ← quoted steps cs
    return (c :: text, rest)
  | steps + 1, c :: cs =>
    if isPlain c then (quoted steps cs).map fun (text, rest) => (c :: text, rest) else none
  | _ + 1, [] => none

/-- Reads a text without escapes up to its quote. -/
def literal (cs : List Char) : Option (List Char × List Char) :=
  match cs.span fun c => isPlain c && c ≠ '\'' with
  | (text, '\'' :: rest) => some (text, rest)
  | _ => none

/-- Reads the end of a text of several lines: three quotes, after one or two that belong to the text. -/
def tripleEnd (quote : Char) (cs : List Char) : Option (List Char × List Char) :=
  match (cs.takeWhile (· = quote)).length with
  | 0 | 1 | 2 => none
  | 3 => some ([], cs.drop 3)
  | 4 => some ([quote], cs.drop 4)
  | _ => some ([quote, quote], cs.drop 5)

/-- The document without spaces, tabs and line ends in front. A carriage return counts only in front of
a line feed. -/
def skipBreaks : List Char → List Char
  | '\r' :: '\n' :: cs => skipBreaks cs
  | ' ' :: cs | '\t' :: cs | '\n' :: cs => skipBreaks cs
  | cs => cs

/-- The text after a backslash at the end of a line, where the text goes on. -/
def foldedLine (cs : List Char) : Option (List Char) := (newline? (skipSpace cs)).map skipBreaks

def lines (quote : Char) : Nat → List Char → Option (List Char × List Char)
  | 0, _ => none
  | _ + 1, [] => none
  | steps + 1, c :: cs =>
    match tripleEnd quote (c :: cs) with
    | some found => some found
    | none =>
      if c = '\\' ∧ quote = '"' then
        match foldedLine cs with
        | some cs => lines quote steps cs
        | none => do
          let (c, cs) ← escape cs
          let (text, rest) ← lines quote steps cs
          return (c :: text, rest)
      else
        match newline? (c :: cs) with
        | some cs => (lines quote steps cs).map fun (text, rest) => ('\n' :: text, rest)
        | none =>
          if isPlain c then (lines quote steps cs).map fun (text, rest) => (c :: text, rest)
          else none

/-- Reads a text of several lines after its opening quotes; a line end right there does not count. -/
def block (quote : Char) (cs : List Char) : Option (Item × List Char) :=
  let cs := (newline? cs).getD cs
  (lines quote (cs.length + 1) cs).map fun (text, rest) => (.text (String.ofList text), rest)

/-! ## Keys -/

def isBare (c : Char) : Bool :=
  isDigit c || ('a' ≤ c && c ≤ 'z') || ('A' ≤ c && c ≤ 'Z') || c = '-' || c = '_'

def keyPart : List Char → Option (String × List Char)
  | '"' :: cs => (quoted (cs.length + 1) cs).map fun (text, rest) => (String.ofList text, rest)
  | '\'' :: cs => (literal cs).map fun (text, rest) => (String.ofList text, rest)
  | cs =>
    match cs.span isBare with
    | ([], _) => none
    | (text, rest) => some (String.ofList text, rest)

/-- Reads a key with its dots, up to what follows the blanks after it: the parts before the last one,
and the last one. The first argument bounds the number of parts. -/
def key : Nat → List Char → Option ((List String × String) × List Char)
  | 0, _ => none
  | parts + 1, cs => do
    let (part, cs) ← keyPart (skipSpace cs)
    match skipSpace cs with
    | '.' :: cs =>
      let ((path, last), rest) ← key parts cs
      return ((part :: path, last), rest)
    | cs => return (([], part), cs)

/-- The number of parts that a key may have, and of arrays and tables in braces that may be nested. -/
def depthLimit : Nat := 79

end RuleCardinality.Toml
