import RuleCardinality.Proofs.Validator.Contents
import RuleCardinality.Proofs.Validator.Selection

/-!
# The events of a validation

A validation that tries rules sends a start, then one event for each rule whose examination comes to the
search, in the order in which the rules are tried, and then an end with the verdict. Which rules those are
is read off the examinations alone (`Searches`), and so is the order of their events (`SearchLog`). A
validation of contained objects sends what the single validations send, one after the other
(`validateWith_sends`).
-/

namespace RuleCardinality.Validator

variable {σ : Type} {V : Validator} {ch : Chooser σ} {o : Object} {r : Rule}
  {rules rest tried : List Rule} {s s₁ s' : σ} {found : List Diagnostic} {t : Trail}

/-! ## Searches -/

/-- The examination by a rule comes to the search: the stages before it find nothing, and nodes compete for
a field. -/
def Searches (V : Validator) (o : Object) (r : Rule) : Prop :=
  early V.counter o r = [] ∧ (V.planned o r).rivals.isEmpty = false

/-- An event tells of a finished search by a rule, with its report and the shares that it leaves. -/
structure Solves (w : View) (q : Quantities) (report : Report) (e : Event) : Prop where
  op : e.op = "distribute"
  name : e.name = EventName.solved
  rule : e.text? Key.rule = some w.rule.name
  maxTries : e.text? Key.maxTries = some (toString report.maxTries)
  tries : e.text? Key.tries = some (toString report.tries)
  quality : e.text? Key.quality = some (toString report.bestQuality)
  solved : e.text? "solved" = some (toString report.solved)
  exhaustive : e.text? "exhaustive" = some (toString report.exhaustive)
  quantities : e.text? "quantities" = some (q.render w.rule fun v => some (w.ownWindow q v))

theorem solves_solvedEvent (w : View) (q : Quantities) (report : Report) :
    Solves w q report (w.solvedEvent q report) where
  op := rfl
  name := rfl
  rule := rfl
  maxTries := rfl
  tries := rfl
  quality := rfl
  solved := rfl
  exhaustive := rfl
  quantities := rfl

/-- The events of rules that are tried one after the other, from the source `s`, which they leave as `s'`: a
rule that comes to the search makes it with the source at hand and sends one event, and any other rule sends
nothing and makes no choice. -/
inductive SearchLog (V : Validator) (ch : Chooser σ) (o : Object) : List Rule → σ → Trail → σ → Prop
  | nil (s : σ) : SearchLog V ch o [] s [] s
  | silent {r : Rule} {rules : List Rule} {s s' : σ} {t : Trail} :
    ¬ Searches V o r → SearchLog V ch o rules s t s' → SearchLog V ch o (r :: rules) s t s'
  | searched {r : Rule} {rules : List Rule} {s s' : σ} {t : Trail} {report : Report} {e : Event} :
    Searches V o r → (V.searched ch o r s).report = .ok report →
      Solves ⟨r, o.type⟩ (V.searched ch o r s).quantities report e →
      SearchLog V ch o rules (V.searched ch o r s).source t s' → SearchLog V ch o (r :: rules) s (e :: t) s'

theorem examine_silent (ch : Chooser σ) (s : σ) (h : ¬ Searches V o r) :
    (V.examine ch o r s).1.events = [] ∧ (V.examine ch o r s).2 = s := by
  rw [examine_eq]
  cases he : early V.counter o r with
  | cons d ds => exact ⟨rfl, rfl⟩
  | nil =>
    have hempty : (V.planned o r).rivals.isEmpty = true := by
      by_contra hsome
      exact h ⟨he, eq_false_of_ne_true hsome⟩
    unfold settle
    simp only
    rw [if_pos hempty]
    exact ⟨rfl, rfl⟩

theorem examine_searches (ch : Chooser σ) (s : σ) (h : Searches V o r) :
    ∃ report, (V.searched ch o r s).report = .ok report ∧
      (V.examine ch o r s).1.events =
        [View.solvedEvent ⟨r, o.type⟩ (V.searched ch o r s).quantities report] ∧
      (V.examine ch o r s).2 = (V.searched ch o r s).source := by
  obtain ⟨report, hreport, -, -⟩ := searched_spec V ch o r s
  refine ⟨report, hreport, ?_⟩
  rw [examine_eq, h.1]
  unfold settle
  simp only
  rw [if_neg (by simp [h.2])]
  unfold searched at hreport ⊢
  simp only [hreport, and_self]

/-- One value for two assignments of its field. -/
example : Searches pairValidator oneValue View.optionalPair := ⟨by decide +kernel, by decide +kernel⟩

/-- An examination sends the event of its search, or nothing. -/
theorem SearchLog.cons (h : SearchLog V ch o rules (V.examine ch o r s).2 t s') :
    SearchLog V ch o (r :: rules) s ((V.examine ch o r s).1.events ++ t) s' := by
  by_cases hr : Searches V o r
  · obtain ⟨report, hreport, hevents, hsource⟩ := examine_searches ch s hr
    rw [hsource] at h
    rw [hevents]
    exact .searched hr hreport (solves_solvedEvent ⟨r, o.type⟩ _ report) h
  · obtain ⟨hevents, hsource⟩ := examine_silent ch s hr
    rw [hsource] at h
    rw [hevents]
    exact .silent hr h

/-- Rules that are passed over send the events of their searches before the ones of later rules. -/
theorem SearchLog.append (hrules : Refuses (V.examine ch o) rules s found s₁)
    (h : SearchLog V ch o rest s₁ t s') :
    SearchLog V ch o (rules ++ rest) s (sent (V.examine ch o) rules s ++ t) s' := by
  induction hrules with
  | nil s => exact h
  | cons _ _ _ ih =>
    rw [List.cons_append, sent, List.append_assoc]
    exact .cons (ih h)

/-- Searches send no other events. -/
theorem SearchLog.countP_name (h : SearchLog V ch o rules s t s') {name : String}
    (hne : EventName.solved ≠ name) : t.countP (·.name = name) = 0 := by
  induction h with
  | nil s => rfl
  | silent _ _ ih => exact ih
  | searched _ _ he _ ih => rw [List.countP_cons_of_neg (by simp [he.name, hne]), ih]

/-! ## The start and the end -/

/-- An event tells of the start of a validation of an object by a number of rules. -/
structure Opens (o : Object) (count : Nat) (e : Event) : Prop where
  op : e.op = Validator.op
  name : e.name = EventName.start
  type : e.text? Key.objectType = some o.type
  count : e.text? Key.ruleCount = some (toString count)

/-- An event tells of the end of a validation of an object with a verdict. -/
structure Closes (o : Object) (valid : Bool) (e : Event) : Prop where
  op : e.op = Validator.op
  name : e.name = EventName.finish
  type : e.text? Key.objectType = some o.type
  valid : e.text? Key.valid = some (toString valid)

theorem opens_startEvent (o : Object) (rules : List Rule) (ctx : Context) :
    Opens o rules.length (startEvent o rules ctx) where
  op := rfl
  name := rfl
  type := rfl
  count := rfl

theorem closes_validEvent (o : Object) (r : Rule) : Closes o true (validEvent o r) where
  op := rfl
  name := rfl
  type := rfl
  valid := rfl

theorem closes_invalidEvent (o : Object) (found : List Diagnostic) :
    Closes o false (invalidEvent o found) where
  op := rfl
  name := rfl
  type := rfl
  valid := rfl

/-- How a validation that tries rules ends, with the rules that it tried and its last event: at the first
rule that finds nothing, which the event names, or after all rules, with the number of diagnostics that are
delivered. -/
inductive Ends (V : Validator) (ch : Chooser σ) (o : Object) (s : σ) (v : Verdict) :
    List Rule → Event → Prop
  | accepted {before after : List Rule} {r : Rule} {found : List Diagnostic} {s₁ : σ} {e : Event} :
    V.registry.rulesFor o.type = before ++ r :: after → Refuses (V.examine ch o) before s found s₁ →
      (V.examine ch o r s₁).1.result = .ok [] → v.result = .ok true → v.diagnostics = [] →
      Closes o true e → e.text? Key.rule = some r.name → Ends V ch o s v (before ++ [r]) e
  | refused {s' : σ} {e : Event} :
    Refuses (V.examine ch o) (V.registry.rulesFor o.type) s v.diagnostics s' → v.result = .ok false →
      Closes o false e → e.text? Key.diagnosticCount = some (toString v.diagnostics.length) →
      Ends V ch o s v (V.registry.rulesFor o.type) e

/-- What a validation sends, with its verdict and the source of choices that it leaves. -/
structure Sends (V : Validator) (ch : Chooser σ) (o : Object) (s : σ) (v : Verdict) (s' : σ) : Prop where
  passed : V.counter.transient o = true ∨ V.registry.rulesFor o.type = [] → v.events = []
  tries : ¬ (V.counter.transient o = true ∨ V.registry.rulesFor o.type = []) →
    ∃ first searches last tried, v.events = first :: (searches ++ [last]) ∧
      Opens o (V.registry.rulesFor o.type).length first ∧ SearchLog V ch o tried s searches s' ∧
      Ends V ch o s v tried last

theorem sends_validateWith (V : Validator) (ch : Chooser σ) (o : Object) (ctx : Context) (s : σ) :
    Sends V ch o s (V.validateWith ch o ctx s).1 (V.validateWith ch o ctx s).2 := by
  refine ⟨fun h => by rw [validateWith_passed ch ctx s h], fun h => ?_⟩
  have hopens := opens_startEvent o (V.registry.rulesFor o.type) ctx
  rcases refuses_or_comesTo (V.examine ch o) (V.registry.rulesFor o.type) s with
    ⟨found, s', hall⟩ | ⟨r, s₁, ⟨before, after, found, hrules, hbefore⟩, hr⟩ | ⟨r, s₁, fault, -, hr⟩
  · -- All rules find something.
    have hrun := runRules_append hall o [] []
    rw [List.append_nil] at hrun
    have hlog := SearchLog.append hall (.nil s')
    rw [List.append_nil, List.append_nil] at hlog
    rw [validateWith_tries ch ctx s h, hrun]
    exact ⟨_, _, _, _, rfl, hopens, hlog, .refused hall rfl (closes_invalidEvent o found) rfl⟩
  · -- The run comes to a rule that finds nothing.
    have hrun := runRules_append hbefore o (r :: after) []
    rw [runRules_clean hr, ← List.append_assoc, ← hrules] at hrun
    have hlog := SearchLog.append hbefore (SearchLog.cons (.nil (V.examine ch o r s₁).2))
    rw [List.append_nil] at hlog
    rw [validateWith_tries ch ctx s h, hrun]
    exact ⟨_, _, _, _, rfl, hopens, hlog,
      .accepted hrules hbefore hr rfl rfl (closes_validEvent o r) rfl⟩
  · -- No examination fails.
    obtain ⟨ds, hds⟩ := examine_ok V ch o r s₁
    simp [hr] at hds

theorem Ends.closes {v : Verdict} {e : Event} (h : Ends V ch o s v tried e) :
    ∃ valid, v.result = .ok valid ∧ Closes o valid e := by
  cases h with
  | accepted _ _ _ hresult _ hcloses _ => exact ⟨true, hresult, hcloses⟩
  | refused _ hresult hcloses _ => exact ⟨false, hresult, hcloses⟩

/-- A validation that tries rules sends exactly one start and one end, and no failure. -/
theorem Sends.once {v : Verdict} (hv : Sends V ch o s v s')
    (h : ¬ (V.counter.transient o = true ∨ V.registry.rulesFor o.type = [])) :
    v.events.countP (·.name = EventName.start) = 1 ∧
      v.events.countP (·.name = EventName.finish) = 1 ∧
      v.events.countP (·.name = EventName.failure) = 0 := by
  obtain ⟨first, searches, last, tried, hevents, hopens, hlog, hends⟩ := hv.tries h
  obtain ⟨valid, -, hcloses⟩ := hends.closes
  have hcount : ∀ name, EventName.solved ≠ name → v.events.countP (·.name = name) =
      [EventName.finish].countP (· = name) + [EventName.start].countP (· = name) := by
    intro name hne
    rw [hevents, List.countP_cons, List.countP_append, hlog.countP_name hne, hopens.name, Nat.zero_add]
    simp [List.countP_cons, hcloses.name]
  exact ⟨hcount _ (by decide), hcount _ (by decide), hcount _ (by decide)⟩

/-- A validation sends nothing if it passes over the object or its type has no rules. Else it sends a
start with the number of the rules, one event for the search of each rule that comes to one, in the order in
which the rules are tried, and an end with the verdict. A validation of an object and all objects in it sends
what the validations of the single objects send, in preorder. -/
theorem validateWith_sends (V : Validator) (ch : Chooser σ) (o : Object) (ctx : Context) (s : σ) :
    Sends V ch o s (V.validateWith ch o ctx s).1 (V.validateWith ch o ctx s).2 ∧
      (¬ (V.counter.transient o = true ∨ V.registry.rulesFor o.type = []) →
        (V.validateWith ch o ctx s).1.events.countP (·.name = EventName.start) = 1 ∧
          (V.validateWith ch o ctx s).1.events.countP (·.name = EventName.finish) = 1 ∧
          (V.validateWith ch o ctx s).1.events.countP (·.name = EventName.failure) = 0) ∧
      (V.validateAll o ctx).events = o.occurrences.flatMap (fun x => (V.validate x ctx).events) ∧
      o.occurrences = o :: o.contents.flatMap Object.occurrences ∧
      ∀ x ∈ o.occurrences, ∃ s',
        Sends V seededChooser x (.seeded (V.config.seed.getD (V.seedOf x))) (V.validate x ctx) s' := by
  have hsends := sends_validateWith V ch o ctx s
  have hgathers : Gathers (fun x => V.validate x ctx) o.occurrences (V.validateAll o ctx) :=
    gathers_traverse (silentOnFault_validate V ctx) o
  obtain ⟨-, hevents, -⟩ := hgathers.complete fun x _ => validateWith_ok V seededChooser x ctx _
  exact ⟨hsends, hsends.once, hevents, o.occurrences_eq,
    fun x _ => ⟨_, sends_validateWith V seededChooser x ctx _⟩⟩

end RuleCardinality.Validator
