import RuleCardinality.Proofs.Validator.Examine
import RuleCardinality.Validator.Validate

/-!
# Validations

What holds of every examination holds of every validation, since a validation tries one rule after the
other and looks at their results alone. So no validation ends with a fault (`validate_sums`), and where
the joint splits are within the limit, the search's settings and choices do not show in what is
delivered (`verdict_independent`).
-/

namespace RuleCardinality.Validator

variable {σ τ : Type} {V : Validator} {o : Object}

/-! ## No faults -/

theorem examine_ok (V : Validator) (ch : Chooser σ) (o : Object) (r : Rule) (s : σ) :
    ∃ found, (V.examine ch o r s).1.result = .ok found := by
  cases he : early V.counter o r with
  | nil => exact ⟨_, examine_searched ch s he⟩
  | cons d ds =>
    rw [examine_eq, he]
    exact ⟨d :: ds, rfl⟩

theorem tryRules_ok (V : Validator) (ch : Chooser σ) (o : Object) (rules : List Rule)
    (found : List Diagnostic) (s : σ) :
    ∃ valid, (V.tryRules ch o rules found s).1.result = .ok valid := by
  induction rules generalizing found s with
  | nil => exact ⟨false, rfl⟩
  | cons r rules ih =>
    obtain ⟨ds, hds⟩ := examine_ok V ch o r s
    unfold tryRules runRules
    simp only [hds]
    cases ds with
    | nil => exact ⟨true, rfl⟩
    | cons d ds => exact ih _ _

theorem validateWith_ok (V : Validator) (ch : Chooser σ) (o : Object) (ctx : Context) (s : σ) :
    ∃ valid, (V.validateWith ch o ctx s).1.result = .ok valid := by
  unfold validateWith
  simp only
  split
  · exact ⟨true, rfl⟩
  · exact tryRules_ok V ch o _ [] s

theorem traverse_ok {judge : Object → Verdict} (hj : ∀ o, ∃ accepted, (judge o).result = .ok accepted)
    (stack : List Object) (valid : Bool) :
    ∃ accepted, (traverse judge stack valid).result = .ok accepted := by
  fun_induction traverse judge stack valid with
  | case1 valid => exact ⟨valid, rfl⟩
  | case2 o stack valid first fault hfault =>
    obtain ⟨accepted, haccepted⟩ := hj o
    exact absurd (hfault.symm.trans haccepted) (by simp)
  | case3 o stack valid first accepted haccepted others ih => exact ih

theorem validateEach_ok (V : Validator) (ctx : Context) (os : List Object) :
    ∃ valid, (V.validateEach ctx os).result = .ok valid :=
  traverse_ok (fun o => validateWith_ok V seededChooser o ctx _) os true

/-- Every search of an examination ends with a report and keeps the sums, and no validation ends with a
fault. -/
theorem validate_sums (V : Validator) (ch : Chooser σ) (o : Object) (ctx : Context) (s : σ) :
    (∀ (r : Rule) (s : σ), KeepsSums r (V.planned o r) (V.searched ch o r s)) ∧
      (∃ valid, (V.validateWith ch o ctx s).1.result = .ok valid) ∧
      (∃ valid, (V.validate o ctx).result = .ok valid) ∧
      ∃ valid, (V.validateAll o ctx).result = .ok valid :=
  ⟨keepsSums_searched V ch o, validateWith_ok V ch o ctx s, validateWith_ok V seededChooser o ctx _,
    validateEach_ok V ctx _⟩

/-! ## Independence -/

/-- Within the limits two examinations with one plan find the same, whatever their settings and choices. -/
theorem examine_congr (V V' : Validator) {o' : Object} {r : Rule} (htype : o'.type = o.type)
    (hplan : V'.planned o' r = V.planned o r)
    (ho : ∀ f ∈ o.features, V.counter.count o f.name ≤ cap)
    (ho' : ∀ f ∈ o'.features, V'.counter.count o' f.name ≤ cap)
    (he : early V.counter o r = []) (he' : early V'.counter o' r = [])
    (hl : View.jointSplits (V.planned o r).rivals (V.planned o r).quantities ≤ V.config.exhaustiveLimit)
    (hl' : View.jointSplits (V.planned o r).rivals (V.planned o r).quantities ≤ V'.config.exhaustiveLimit)
    (ch : Chooser σ) (ch' : Chooser τ) (s : σ) (s' : τ) :
    (V.examine ch o r s).1.result = (V'.examine ch' o' r s').1.result := by
  have hsearched : (V'.searched ch' o' r s').quantities =
      (View.solve ⟨r, o.type⟩ V'.config ch' (V.planned o r).rivals o'.volume (V.planned o r).quantities
        s').quantities := by
    unfold searched
    rw [htype, hplan]
  rw [examine_searched ch s he, examine_searched ch' s' he', htype]
  rcases View.solve_agree (V.ready_planned o r) hl hl' ch ch' o.volume o'.volume s s' with
    ⟨hzero, hzero'⟩ | hsame
  · rw [← hsearched, ← htype] at hzero'
    have hnil := violations_searched_of_quality ho ch s hzero
    have hnil' := violations_searched_of_quality ho' ch' s' hzero'
    rw [hnil, ← htype, hnil']
  · rw [hsearched, ← hsame]
    rfl

/-- Within the limits two examinations find the same, whatever their settings and choices. -/
theorem examine_independent {cfg : Config} (ho : ∀ f ∈ o.features, V.counter.count o f.name ≤ cap)
    {r : Rule} (hl : early V.counter o r = [] →
      View.jointSplits (V.planned o r).rivals (V.planned o r).quantities ≤ V.config.exhaustiveLimit ∧
      View.jointSplits (V.planned o r).rivals (V.planned o r).quantities ≤ cfg.exhaustiveLimit)
    (ch : Chooser σ) (ch' : Chooser τ) (s : σ) (s' : τ) :
    (V.examine ch o r s).1.result = (({ V with config := cfg } : Validator).examine ch' o r s').1.result := by
  cases he : early V.counter o r with
  | cons d ds => rw [examine_eq, examine_eq, he]
  | nil =>
    obtain ⟨hlimit, hlimit'⟩ := hl he
    exact examine_congr V { V with config := cfg } rfl rfl ho ho he he hlimit hlimit' ch ch' s s'

/-- Rules of which each one finds the same are tried with the same end. -/
theorem tryRules_congr {V' : Validator} {ch : Chooser σ} {ch' : Chooser τ} {rules : List Rule}
    (h : ∀ r ∈ rules, ∀ s s', (V.examine ch o r s).1.result = (V'.examine ch' o r s').1.result)
    (found : List Diagnostic) (s : σ) (s' : τ) :
    (V.tryRules ch o rules found s).1.result = (V'.tryRules ch' o rules found s').1.result ∧
      (V.tryRules ch o rules found s).1.diagnostics =
        (V'.tryRules ch' o rules found s').1.diagnostics := by
  induction rules generalizing found s s' with
  | nil => exact ⟨rfl, rfl⟩
  | cons r rules ih =>
    have hr := h r (by simp) s s'
    unfold tryRules runRules
    simp only [← hr]
    cases (V.examine ch o r s).1.result with
    | error fault => exact ⟨rfl, rfl⟩
    | ok ds =>
      cases ds with
      | nil => exact ⟨rfl, rfl⟩
      | cons d ds => exact ih (fun r hr => h r (by simp [hr])) _ _ _

/-- Neither the choices of a search nor its settings show in the verdict and in the diagnostics, if the
joint splits of every rule are within the limit. -/
theorem verdict_independent (cfg : Config) (ch : Chooser σ) (ch' : Chooser τ) (ctx ctx' : Context)
    (s : σ) (s' : τ) (ho : ∀ f ∈ o.features, V.counter.count o f.name ≤ cap)
    (hl : ∀ r ∈ V.registry.rulesFor o.type, early V.counter o r = [] →
      View.jointSplits (V.planned o r).rivals (V.planned o r).quantities ≤ V.config.exhaustiveLimit ∧
      View.jointSplits (V.planned o r).rivals (V.planned o r).quantities ≤ cfg.exhaustiveLimit) :
    (V.validateWith ch o ctx s).1.result =
        (({ V with config := cfg } : Validator).validateWith ch' o ctx' s').1.result ∧
      (V.validateWith ch o ctx s).1.diagnostics =
        (({ V with config := cfg } : Validator).validateWith ch' o ctx' s').1.diagnostics := by
  unfold validateWith
  simp only
  split
  · exact ⟨rfl, rfl⟩
  · exact tryRules_congr (fun r hr s s' => examine_independent ho (hl r hr) ch ch' s s') [] s s'

/-- Settings with another limit and another damping. -/
def tightConfig : Config where
  exhaustiveLimit := 2
  damping := 1

theorem verdict_independent_pair :
    (∀ f ∈ oneValue.features, pairValidator.counter.count oneValue f.name ≤ cap) ∧
      (∀ r ∈ pairValidator.registry.rulesFor oneValue.type,
        early pairValidator.counter oneValue r = [] →
        View.jointSplits (pairValidator.planned oneValue r).rivals
            (pairValidator.planned oneValue r).quantities ≤ pairValidator.config.exhaustiveLimit ∧
          View.jointSplits (pairValidator.planned oneValue r).rivals
            (pairValidator.planned oneValue r).quantities ≤ tightConfig.exhaustiveLimit) ∧
      (pairValidator.validateWith View.firstChoice oneValue .empty ()).1.result =
        (({ pairValidator with config := tightConfig } : Validator).validateWith seededChooser oneValue
          .empty (.seeded 7)).1.result ∧
      (pairValidator.validateWith View.firstChoice oneValue .empty ()).1.diagnostics =
        (({ pairValidator with config := tightConfig } : Validator).validateWith seededChooser oneValue
          .empty (.seeded 7)).1.diagnostics :=
  ⟨by decide +kernel, by decide +kernel,
    verdict_independent tightConfig View.firstChoice seededChooser .empty .empty () (.seeded 7)
      (by decide +kernel) (by decide +kernel)⟩

end RuleCardinality.Validator
