import RuleCardinality.Config.Check
import RuleCardinality.Toml.Document

/-!
# Settings from documents

Settings are read from the table `heuristic` of a TOML document; what the table does not say has its
standard value, and other tables and keys do not matter. An array in the place of the table lists the
settings in order, and a date or a time there says nothing about any of them. A whole number is taken
for the damping too, but a fraction for no other setting. The settings of a file can be overridden from
the environment.
-/

namespace RuleCardinality.Config

/-- A whole number from zero on. -/
def natItem? : Toml.Item → Option Nat
  | .integer (.ofNat n) => some n
  | _ => none

def realItem? : Toml.Item → Option Float
  | .real x => some x
  | .integer (.ofNat n) => some (UInt64.ofNat n).toFloat
  | .integer (.negSucc n) => some (-(UInt64.ofNat (n + 1)).toFloat)
  | _ => none

/-- The names of the settings, in the order in which an array lists them. -/
def names : List String :=
  ["base_tries", "no_improvement_divisor", "no_improvement_floor", "damping", "exhaustive_limit",
    "seed"]

/-- The settings of a table, of an array that lists them in order, or of a date or a time, which holds
none. -/
def entries? : Toml.Item → Option Toml.Entries
  | .table _ es => some es
  | .array items => some (names.zip items)
  | .moment => some []
  | .tables elements => some (names.zip (elements.reverse.map (.table .header)))
  | _ => none

/-- The setting under a name, or its standard value. -/
def setting {α : Type} (es : Toml.Entries) (name : String) (read : Toml.Item → Option α)
    (standard : α) : Option α :=
  match es.lookup name with
  | none => some standard
  | some item => read item

def ofEntries? (es : Toml.Entries) : Option Config := do
  let c := standard
  return {
    baseTries := ← setting es "base_tries" natItem? c.baseTries
    noImprovementDivisor := ← setting es "no_improvement_divisor" natItem? c.noImprovementDivisor
    noImprovementFloor := ← setting es "no_improvement_floor" natItem? c.noImprovementFloor
    damping := ← setting es "damping" realItem? c.damping
    exhaustiveLimit := ← setting es "exhaustive_limit" natItem? c.exhaustiveLimit
    seed := ← setting es "seed" (fun item => (natItem? item).map fun n => some (UInt64.ofNat n)) none }

/-- The settings of a document, whether they can be used or not; nothing if it is malformed. -/
def ofDocument? (text : String) : Option Config := do
  let root ← Toml.parse? text
  match root.lookup "heuristic" with
  | none => return standard
  | some item => ofEntries? (← entries? item)

/-- The `from_toml_str` of config.rs:97. -/
def ofToml (text : String) : Except Fault Config :=
  match ofDocument? text with
  | none => .error (.malformedConfig "not a table of settings")
  | some c => c.validate

/-- The `load_from_file` of config.rs:108, given the file's bytes, if it is there, and what the seed
variable holds. -/
def ofFile (bytes : Option ByteArray) (held : Option String) : Except Fault Config := do
  match bytes with
  | none => throw (.unreadableConfig "no such file")
  | some bytes =>
    match String.fromUTF8? bytes with
    | none => throw (.unreadableConfig "stream did not contain valid UTF-8")
    | some text => (← ofToml text).override held

end RuleCardinality.Config
