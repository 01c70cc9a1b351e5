import RuleCardinality.Random.ChaCha
import RuleCardinality.Random.SipHash
import RuleCardinality.Stack
import RuleCardinality.Validator.Examine

/-!
# Validating objects

An object is valid if it is passed over, if its type has no rules, or if one of its rules, tried in the
order of their registration, finds nothing wrong. The diagnostics of all rules are delivered only when
every rule has found something. `validateAll` goes on with the objects that an object contains.
-/

namespace RuleCardinality.Validator

variable {σ : Type}

def op : String := "validate_object"

def startEvent (o : Object) (rules : List Rule) (ctx : Context) : Event :=
  .start .validation op
    [(Key.objectType, o.type), (Key.ruleCount, toString rules.length),
      (Key.requestId, ctx.requestText), (Key.traceId, ctx.traceText)]

/-- The event of an object that a rule accounts for. -/
def validEvent (o : Object) (r : Rule) : Event :=
  .finish .validation op 0
    [(Key.valid, toString true), (Key.rule, r.name), (Key.objectType, o.type)]

/-- The event of an object that no rule accounts for. -/
def invalidEvent (o : Object) (found : List Diagnostic) : Event :=
  .finish .validation op 0
    [(Key.valid, toString false), (Key.diagnosticCount, toString found.length),
      (Key.objectType, o.type)]

def faultEvent (o : Object) (r : Rule) (fault : Fault) : Event :=
  .failure .validation op fault 0 [(Key.rule, r.name), (Key.objectType, o.type)]

/-- Tries rules with a given examination until one finds nothing wrong, with the diagnostics found before
(`run_rules`, validator.rs:180). -/
def runRules (check : Rule → σ → Finding × σ) (o : Object) :
    List Rule → List Diagnostic → σ → Verdict × σ
  | [], found, s => (⟨.ok false, found, [invalidEvent o found]⟩, s)
  | r :: rs, found, s =>
    let (finding, s) := check r s
    match finding.result with
    | .error fault => (⟨.error fault, [], finding.events ++ [faultEvent o r fault]⟩, s)
    | .ok [] => (⟨.ok true, [], finding.events ++ [validEvent o r]⟩, s)
    | .ok ds =>
      let (verdict, s) := runRules check o rs (found ++ ds) s
      ({ verdict with events := finding.events ++ verdict.events }, s)

section

variable {check : Rule → σ → Finding × σ} {o : Object} {r : Rule} {rs : List Rule}
  {found ds : List Diagnostic} {s : σ} {fault : Fault}

theorem runRules_fault (h : (check r s).1.result = .error fault) :
    runRules check o (r :: rs) found s =
      (⟨.error fault, [], (check r s).1.events ++ [faultEvent o r fault]⟩, (check r s).2) := by
  simp only [runRules, h]

theorem runRules_clean (h : (check r s).1.result = .ok []) :
    runRules check o (r :: rs) found s =
      (⟨.ok true, [], (check r s).1.events ++ [validEvent o r]⟩, (check r s).2) := by
  simp only [runRules, h]

theorem runRules_found (h : (check r s).1.result = .ok ds) (hne : ds ≠ []) :
    runRules check o (r :: rs) found s =
      ({ (runRules check o rs (found ++ ds) (check r s).2).1 with
          events := (check r s).1.events ++
            (runRules check o rs (found ++ ds) (check r s).2).1.events },
        (runRules check o rs (found ++ ds) (check r s).2).2) := by
  cases ds with
  | nil => exact absurd rfl hne
  | cons d ds => simp only [runRules, h]

end

def tryRules (V : Validator) (ch : Chooser σ) (o : Object) :
    List Rule → List Diagnostic → σ → Verdict × σ :=
  runRules (V.examine ch o) o

/-- Validates one object with a given source of choices (`validate_object_with_rng`, validator.rs:153). -/
def validateWith (V : Validator) (ch : Chooser σ) (o : Object) (ctx : Context) (s : σ) :
    Verdict × σ :=
  let rules := V.registry.rulesFor o.type
  if V.counter.transient o || rules.isEmpty then (⟨.ok true, [], []⟩, s)
  else
    let (verdict, s) := V.tryRules ch o rules [] s
    ({ verdict with events := startEvent o rules ctx :: verdict.events }, s)

/-! ## Seeds -/

/-- A number as eight bytes, the lowest first. -/
def wordBytes (n : Nat) : List UInt8 := (List.range 8).map fun i => UInt8.ofNat (n >>> (8 * i))

/-- A text as bytes with an end mark. -/
def textBytes (s : String) : List UInt8 := s.toUTF8.toList ++ [0xFF]

/-- A digest of the object's type and of the counts of its declared fields (`object_seed`,
validator.rs:132). -/
def seedOf (V : Validator) (o : Object) : UInt64 :=
  Random.Sip.hash (textBytes o.type ++
    o.features.flatMap fun f => textBytes f.name ++ wordBytes (V.counter.count o f.name))

def seededChooser : Chooser Random.Stream := .ofWords Random.Stream.next

/-- Validates one object; choices come from the configured seed or from the object's own
(`validate_object`, validator.rs:112). -/
def validate (V : Validator) (o : Object) (ctx : Context) : Verdict :=
  (V.validateWith seededChooser o ctx (.seeded (V.config.seed.getD (V.seedOf o)))).1

/-! ## Contained objects -/

/-- Judges the objects on a stack and all objects in them until a fault stops it, the loop of
`validate_recursive` (validator.rs:265-271): the one on top is taken off, judged, and the objects that it
contains are put on the stack, the last one first. -/
def traverse (judge : Object → Verdict) : List Object → Bool → Verdict
  | [], valid => ⟨.ok valid, [], []⟩
  | o :: stack, valid =>
    let first := judge o
    match first.result with
    | .error fault => ⟨.error fault, first.diagnostics, first.events⟩
    | .ok accepted =>
      let others := traverse judge (stacked stack o.contents.reverse) (valid && accepted)
      ⟨others.result, first.diagnostics ++ others.diagnostics, first.events ++ others.events⟩
termination_by stack => (stack.flatMap Object.occurrences).length
decreasing_by
  rw [flatMap_stacked Object.occurrences_eq o stack]
  exact Nat.lt_succ_self _

def validateEach (V : Validator) (ctx : Context) (stack : List Object) : Verdict :=
  traverse (fun o => V.validate o ctx) stack true

/-- Validates an object and all objects in it, each before the ones that it contains
(`validate_recursive`, validator.rs:253). -/
def validateAll (V : Validator) (o : Object) (ctx : Context) : Verdict := V.validateEach ctx [o]

end RuleCardinality.Validator
