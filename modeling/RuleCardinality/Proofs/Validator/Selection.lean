import RuleCardinality.Proofs.Validator.Validate

/-!
# Choosing among the rules of a type

Rules are tried in the order of their registration, and the source of choices passes from one examination
to the next. A list of rules `Refuses` an object if each of them finds something. Whatever an examination
is, even one that can fail, the first rule without a finding or with a fault is the last one that is
examined, and nothing is delivered then; only rules that all refuse deliver what they found
(`validateWith_delivers`).
-/

namespace RuleCardinality

namespace Registry

theorem rulesFor_register (g : Registry) (t type : String) (r : Rule) :
    (g.register t r).rulesFor type =
      if t = type then g.rulesFor type ++ [r] else g.rulesFor type := by
  by_cases he : t = type
  · subst he
    simp [rulesFor, register]
  · simp [rulesFor, register, Std.ExtTreeMap.getElem?_insert, he]

/-- The rules of a type come in the order of their registration. -/
theorem rulesFor_ofList (entries : List (String × Rule)) (type : String) :
    (ofList entries).rulesFor type = (entries.filter (·.1 = type)).map Prod.snd := by
  have hfold : ∀ g : Registry, (entries.foldl (fun g e => g.register e.1 e.2) g).rulesFor type =
      g.rulesFor type ++ (entries.filter (·.1 = type)).map Prod.snd := by
    induction entries with
    | nil => simp
    | cons e entries ih =>
      intro g
      rw [List.foldl_cons, ih, rulesFor_register]
      by_cases he : e.1 = type <;> simp [he]
  have hempty : empty.rulesFor type = [] := by simp [rulesFor, empty]
  rw [ofList, hfold, hempty, List.nil_append]

end Registry

namespace Validator

variable {σ : Type} {check : Rule → σ → Finding × σ} {o : Object} {r : Rule}
  {rules before after : List Rule} {s s₁ s' : σ} {found ds : List Diagnostic} {fault : Fault}

/-! ## Rules that find something -/

/-- Every rule of a list finds something when they are examined one after the other: `found` is all that
they find, in their order, and `s'` is the source of choices that they leave. -/
inductive Refuses (check : Rule → σ → Finding × σ) : List Rule → σ → List Diagnostic → σ → Prop
  | nil (s : σ) : Refuses check [] s [] s
  | cons {r : Rule} {rules : List Rule} {s s' : σ} {ds found : List Diagnostic} :
    (check r s).1.result = .ok ds → ds ≠ [] → Refuses check rules (check r s).2 found s' →
      Refuses check (r :: rules) s (ds ++ found) s'

/-- The events of the examinations of some rules, one after the other. -/
def sent (check : Rule → σ → Finding × σ) : List Rule → σ → Trail
  | [], _ => []
  | r :: rules, s => (check r s).1.events ++ sent check rules (check r s).2

/-- Rules that find something are passed over: the run goes on with what they found and with the source
that they leave, and their events stand before its own. -/
theorem runRules_append (h : Refuses check before s found s₁) (o : Object) (rest : List Rule)
    (known : List Diagnostic) :
    runRules check o (before ++ rest) known s =
      ({ (runRules check o rest (known ++ found) s₁).1 with
          events := sent check before s ++ (runRules check o rest (known ++ found) s₁).1.events },
        (runRules check o rest (known ++ found) s₁).2) := by
  induction h generalizing known with
  | nil s => simp [sent]
  | cons hr hne _ ih =>
    rw [List.cons_append, runRules_found hr hne, ih, sent, List.append_assoc, List.append_assoc]

/-- A run over some rules comes to one of them with a source of choices: all rules before it have found
something. -/
def ComesTo (check : Rule → σ → Finding × σ) (rules : List Rule) (s : σ) (r : Rule) (s₁ : σ) : Prop :=
  ∃ before after found, rules = before ++ r :: after ∧ Refuses check before s found s₁

/-- Either all rules find something, or the run comes to a rule that finds nothing or fails. -/
theorem refuses_or_comesTo (check : Rule → σ → Finding × σ) (rules : List Rule) (s : σ) :
    (∃ found s', Refuses check rules s found s') ∨
      (∃ r s₁, ComesTo check rules s r s₁ ∧ (check r s₁).1.result = .ok []) ∨
      ∃ r s₁ fault, ComesTo check rules s r s₁ ∧ (check r s₁).1.result = .error fault := by
  induction rules generalizing s with
  | nil => exact .inl ⟨[], s, .nil s⟩
  | cons r rules ih =>
    have hfirst : ComesTo check (r :: rules) s r s := ⟨[], rules, [], rfl, .nil s⟩
    cases hr : (check r s).1.result with
    | error fault => exact .inr (.inr ⟨r, s, fault, hfirst, hr⟩)
    | ok ds =>
      by_cases hds : ds = []
      · exact .inr (.inl ⟨r, s, hfirst, hds ▸ hr⟩)
      · -- The first rule refuses, so the run goes on with the others.
        have hlater : ∀ {x s₁}, ComesTo check rules (check r s).2 x s₁ →
            ComesTo check (r :: rules) s x s₁ := by
          rintro x s₁ ⟨before, after, found, rfl, hbefore⟩
          exact ⟨r :: before, after, ds ++ found, rfl, .cons hr hds hbefore⟩
        rcases ih (check r s).2 with ⟨found, s', hall⟩ | ⟨x, s₁, hx, hclean⟩ | ⟨x, s₁, fault, hx, hfault⟩
        · exact .inl ⟨ds ++ found, s', .cons hr hds hall⟩
        · exact .inr (.inl ⟨x, s₁, hlater hx, hclean⟩)
        · exact .inr (.inr ⟨x, s₁, fault, hlater hx, hfault⟩)

/-! ## How a run ends -/

/-- A rule that finds nothing is the last one examined, and nothing is delivered. -/
theorem runRules_accepted (hbefore : Refuses check before s found s₁)
    (hr : (check r s₁).1.result = .ok []) (o : Object) :
    ∃ events, ∀ after, runRules check o (before ++ r :: after) [] s =
      (⟨.ok true, [], events⟩, (check r s₁).2) := by
  refine ⟨sent check before s ++ ((check r s₁).1.events ++ [validEvent o r]), fun after => ?_⟩
  rw [runRules_append hbefore, runRules_clean hr]

/-- A rule whose examination fails is the last one examined, and nothing is delivered. -/
theorem runRules_stopped (hbefore : Refuses check before s found s₁)
    (hr : (check r s₁).1.result = .error fault) (o : Object) :
    ∃ events, ∀ after, runRules check o (before ++ r :: after) [] s =
      (⟨.error fault, [], events⟩, (check r s₁).2) := by
  refine ⟨sent check before s ++ ((check r s₁).1.events ++ [faultEvent o r fault]), fun after => ?_⟩
  rw [runRules_append hbefore, runRules_fault hr]

/-- Rules that all find something deliver what they found. -/
theorem runRules_refused (hrules : Refuses check rules s found s') (o : Object) :
    ∃ events, runRules check o rules [] s = (⟨.ok false, found, events⟩, s') := by
  have hrun := runRules_append hrules o [] []
  rw [List.append_nil] at hrun
  exact ⟨sent check rules s ++ [invalidEvent o found], hrun⟩

/-- How an attempt at some rules ends, with its verdict and the source of choices that it leaves. The object
is accepted if the run comes to a rule that finds nothing, and the run fails if it comes to one whose
examination fails; that rule is the last one examined, and nothing is delivered. Else every rule has found
something, and all of that is delivered. -/
structure Delivers (check : Rule → σ → Finding × σ) (rules : List Rule) (s : σ) (v : Verdict) (s' : σ) :
    Prop where
  accepted : v.result = .ok true ↔
    ∃ r s₁, ComesTo check rules s r s₁ ∧ (check r s₁).1.result = .ok []
  stopped : ∀ fault, v.result = .error fault ↔
    ∃ r s₁, ComesTo check rules s r s₁ ∧ (check r s₁).1.result = .error fault
  refused : v.result = .ok false ↔ ∃ found s₁, Refuses check rules s found s₁
  last : ∀ r s₁, ComesTo check rules s r s₁ →
    (check r s₁).1.result = .ok [] ∨ (∃ fault, (check r s₁).1.result = .error fault) →
    s' = (check r s₁).2
  silent : v.result ≠ .ok false → v.diagnostics = []
  complete : v.result = .ok false → Refuses check rules s v.diagnostics s'

theorem runRules_of_clean (h : ComesTo check rules s r s₁) (hr : (check r s₁).1.result = .ok [])
    (o : Object) : ∃ events, runRules check o rules [] s = (⟨.ok true, [], events⟩, (check r s₁).2) := by
  obtain ⟨before, after, found, rfl, hbefore⟩ := h
  obtain ⟨events, he⟩ := runRules_accepted hbefore hr o
  exact ⟨events, he after⟩

theorem runRules_of_fault (h : ComesTo check rules s r s₁)
    (hr : (check r s₁).1.result = .error fault) (o : Object) :
    ∃ events, runRules check o rules [] s = (⟨.error fault, [], events⟩, (check r s₁).2) := by
  obtain ⟨before, after, found, rfl, hbefore⟩ := h
  obtain ⟨events, he⟩ := runRules_stopped hbefore hr o
  exact ⟨events, he after⟩

theorem runRules_ok_true_iff : (runRules check o rules [] s).1.result = .ok true ↔
    ∃ r s₁, ComesTo check rules s r s₁ ∧ (check r s₁).1.result = .ok [] := by
  constructor
  · intro hv
    rcases refuses_or_comesTo check rules s with ⟨found, s', h⟩ | hclean | ⟨r, s₁, fault, h, hr⟩
    · obtain ⟨events, he⟩ := runRules_refused h o
      simp [he] at hv
    · exact hclean
    · obtain ⟨events, he⟩ := runRules_of_fault h hr o
      simp [he] at hv
  · rintro ⟨r, s₁, h, hr⟩
    obtain ⟨events, he⟩ := runRules_of_clean h hr o
    rw [he]

theorem runRules_error_iff : (runRules check o rules [] s).1.result = .error fault ↔
    ∃ r s₁, ComesTo check rules s r s₁ ∧ (check r s₁).1.result = .error fault := by
  constructor
  · intro hv
    rcases refuses_or_comesTo check rules s with ⟨found, s', h⟩ | ⟨r, s₁, h, hr⟩ | ⟨r, s₁, fault', h, hr⟩
    · obtain ⟨events, he⟩ := runRules_refused h o
      simp [he] at hv
    · obtain ⟨events, he⟩ := runRules_of_clean h hr o
      simp [he] at hv
    · obtain ⟨events, he⟩ := runRules_of_fault h hr o
      obtain rfl : fault' = fault := by simpa [he] using hv
      exact ⟨r, s₁, h, hr⟩
  · rintro ⟨r, s₁, h, hr⟩
    obtain ⟨events, he⟩ := runRules_of_fault h hr o
    rw [he]

theorem runRules_ok_false_iff : (runRules check o rules [] s).1.result = .ok false ↔
    ∃ found s', Refuses check rules s found s' := by
  constructor
  · intro hv
    rcases refuses_or_comesTo check rules s with hall | ⟨r, s₁, h, hr⟩ | ⟨r, s₁, fault, h, hr⟩
    · exact hall
    · obtain ⟨events, he⟩ := runRules_of_clean h hr o
      simp [he] at hv
    · obtain ⟨events, he⟩ := runRules_of_fault h hr o
      simp [he] at hv
  · rintro ⟨found, s', h⟩
    obtain ⟨events, he⟩ := runRules_refused h o
    rw [he]

theorem delivers_runRules (check : Rule → σ → Finding × σ) (o : Object) (rules : List Rule) (s : σ) :
    Delivers check rules s (runRules check o rules [] s).1 (runRules check o rules [] s).2 where
  accepted := runRules_ok_true_iff
  stopped _ := runRules_error_iff
  refused := runRules_ok_false_iff
  last r s₁ h hend := by
    rcases hend with hr | ⟨fault, hr⟩
    · obtain ⟨events, he⟩ := runRules_of_clean h hr o
      rw [he]
    · obtain ⟨events, he⟩ := runRules_of_fault h hr o
      rw [he]
  silent hne := by
    rcases refuses_or_comesTo check rules s with hall | ⟨r, s₁, h, hr⟩ | ⟨r, s₁, fault, h, hr⟩
    · exact absurd (runRules_ok_false_iff.2 hall) hne
    · obtain ⟨events, he⟩ := runRules_of_clean h hr o
      rw [he]
    · obtain ⟨events, he⟩ := runRules_of_fault h hr o
      rw [he]
  complete hv := by
    obtain ⟨found, s', h⟩ := runRules_ok_false_iff.1 hv
    obtain ⟨events, he⟩ := runRules_refused h o
    rw [he]
    exact h

/-! ## Validations -/

variable {V : Validator}

theorem validateWith_passed (ch : Chooser σ) (ctx : Context) (s : σ)
    (h : V.counter.transient o = true ∨ V.registry.rulesFor o.type = []) :
    V.validateWith ch o ctx s = (⟨.ok true, [], []⟩, s) := by
  unfold validateWith
  simp only
  rw [if_pos]
  simpa using h

/-- An object that is not passed over is validated by a run over the rules of its type, with the start before
what the run sends. -/
theorem validateWith_tries (ch : Chooser σ) (ctx : Context) (s : σ)
    (h : ¬ (V.counter.transient o = true ∨ V.registry.rulesFor o.type = [])) :
    V.validateWith ch o ctx s =
      ({ (runRules (V.examine ch o) o (V.registry.rulesFor o.type) [] s).1 with
          events := startEvent o (V.registry.rulesFor o.type) ctx ::
            (runRules (V.examine ch o) o (V.registry.rulesFor o.type) [] s).1.events },
        (runRules (V.examine ch o) o (V.registry.rulesFor o.type) [] s).2) := by
  unfold validateWith
  simp only
  rw [if_neg (by simpa using h)]
  rfl

theorem delivers_validateWith (ch : Chooser σ) (ctx : Context) (s : σ)
    (h : ¬ (V.counter.transient o = true ∨ V.registry.rulesFor o.type = [])) :
    Delivers (V.examine ch o) (V.registry.rulesFor o.type) s (V.validateWith ch o ctx s).1
      (V.validateWith ch o ctx s).2 := by
  have hrun := delivers_runRules (V.examine ch o) o (V.registry.rulesFor o.type) s
  rw [validateWith_tries ch ctx s h]
  exact ⟨hrun.accepted, hrun.stopped, hrun.refused, hrun.last, hrun.silent, hrun.complete⟩

/-- An object is valid exactly if it is passed over, its type has no rules, or the run over them comes to a
rule that finds nothing; that rule is the last one examined. Nothing is delivered with a positive verdict or
a fault, and with a negative verdict exactly what all rules found. The same holds of a run with any other
examination, also with one that fails, and what stands after the last examined rule does not matter. -/
theorem validateWith_delivers (V : Validator) (ch : Chooser σ) (o : Object) (ctx : Context) (s : σ) :
    ((V.validateWith ch o ctx s).1.result = .ok true ↔
        V.counter.transient o = true ∨ V.registry.rulesFor o.type = [] ∨
          ∃ r s₁, ComesTo (V.examine ch o) (V.registry.rulesFor o.type) s r s₁ ∧
            (V.examine ch o r s₁).1.result = .ok []) ∧
      (V.counter.transient o = true ∨ V.registry.rulesFor o.type = [] →
        V.validateWith ch o ctx s = (⟨.ok true, [], []⟩, s)) ∧
      (V.counter.transient o = false → ∀ r s₁,
        ComesTo (V.examine ch o) (V.registry.rulesFor o.type) s r s₁ →
        (V.examine ch o r s₁).1.result = .ok [] →
        (V.validateWith ch o ctx s).2 = (V.examine ch o r s₁).2) ∧
      ((V.validateWith ch o ctx s).1.result ≠ .ok false →
        (V.validateWith ch o ctx s).1.diagnostics = []) ∧
      ((V.validateWith ch o ctx s).1.result = .ok false →
        Refuses (V.examine ch o) (V.registry.rulesFor o.type) s
          (V.validateWith ch o ctx s).1.diagnostics (V.validateWith ch o ctx s).2) ∧
      (∀ entries, V.registry = .ofList entries →
        V.registry.rulesFor o.type = (entries.filter (·.1 = o.type)).map Prod.snd) ∧
      ∀ check : Rule → σ → Finding × σ,
        (∀ rules s, Delivers check rules s (runRules check o rules [] s).1
          (runRules check o rules [] s).2) ∧
        ∀ before r s found s₁, Refuses check before s found s₁ →
          (check r s₁).1.result = .ok [] ∨ (∃ fault, (check r s₁).1.result = .error fault) →
          ∀ after after', runRules check o (before ++ r :: after) [] s =
            runRules check o (before ++ r :: after') [] s := by
  have hgeneral : ∀ check : Rule → σ → Finding × σ,
      (∀ rules s, Delivers check rules s (runRules check o rules [] s).1
        (runRules check o rules [] s).2) ∧
      ∀ before r s found s₁, Refuses check before s found s₁ →
        (check r s₁).1.result = .ok [] ∨ (∃ fault, (check r s₁).1.result = .error fault) →
        ∀ after after', runRules check o (before ++ r :: after) [] s =
          runRules check o (before ++ r :: after') [] s := by
    refine fun check => ⟨delivers_runRules check o, ?_⟩
    rintro before r s found s₁ hbefore (hr | ⟨fault, hr⟩) after after'
    · obtain ⟨events, he⟩ := runRules_accepted hbefore hr o
      rw [he, he]
    · obtain ⟨events, he⟩ := runRules_stopped hbefore hr o
      rw [he, he]
  have horder : ∀ entries, V.registry = .ofList entries →
      V.registry.rulesFor o.type = (entries.filter (·.1 = o.type)).map Prod.snd := by
    rintro entries he
    rw [he, Registry.rulesFor_ofList]
  by_cases h : V.counter.transient o = true ∨ V.registry.rulesFor o.type = []
  · have hpassed := validateWith_passed ch ctx s h
    rw [hpassed]
    refine ⟨⟨fun _ => ?_, fun _ => rfl⟩, fun _ => rfl, fun ht r s₁ hr _ => ?_, fun _ => rfl,
      fun hfalse => by simp at hfalse, horder, hgeneral⟩
    · rcases h with h | h
      · exact .inl h
      · exact .inr (.inl h)
    · -- Without rules a run comes to none.
      rcases h with h | h
      · simp [ht] at h
      · obtain ⟨before, after, found, hrules, _⟩ := hr
        simp [h] at hrules
  · have hrun := delivers_validateWith ch ctx s h
    refine ⟨?_, fun hpassed => absurd hpassed h, fun _ r s₁ hr hclean => hrun.last r s₁ hr (.inl hclean),
      hrun.silent, hrun.complete, horder, hgeneral⟩
    rw [hrun.accepted]
    obtain ⟨htransient, hrules⟩ := not_or.1 h
    simp only [htransient, hrules, Bool.false_eq_true, false_or]

/-! A rule that refuses an object before another rule whose shares are found not to add up. -/

def namedRule : Rule :=
  ((Rule.ofAdditions "Named" [.root { shape := .group }, .child 0 { shape := .assignment "name" }]
    ).toOption).get (by decide)

def splitRule : Rule :=
  ((Rule.ofAdditions "Split"
    [.root { shape := .group }, .child 0 { shape := .assignment "f" },
      .child 0 { shape := .assignment "f" }]).toOption).get (by decide)

/-- Two values of `f` and no name. -/
def twoUnnamed : Object :=
  (((Object.empty "T").declare ⟨"name", true, false⟩).declare ⟨"f", true, false⟩).fill "f" 2

def namedValidator : Validator where
  registry := .ofList [("T", namedRule), ("T", splitRule)]

/-- Shares of one where two are counted. -/
def unevenShares : Quantities := ((Quantities.empty.record "f" 2).assign 1 1).assign 2 0

/-- Examines the first rule as usual and checks uneven shares in place of the second. -/
def unevenCheck (r : Rule) (s : Unit) : Finding × Unit :=
  if r.name = "Named" then namedValidator.examine View.firstChoice twoUnnamed r s
  else ({ result := View.check ⟨r, "T"⟩ unevenShares }, s)

theorem validateWith_delivers_uneven :
    ComesTo unevenCheck [namedRule, splitRule] () splitRule () ∧
      (unevenCheck splitRule ()).1.result = .error (.unevenShares "Split" "f" 2 1) ∧
      (runRules unevenCheck twoUnnamed [namedRule, splitRule] [] ()).1.result =
        .error (.unevenShares "Split" "f" 2 1) ∧
      (runRules unevenCheck twoUnnamed [namedRule, splitRule] [] ()).1.diagnostics = [] ∧
      namedValidator.registry.rulesFor "T" = [namedRule, splitRule] := by
  have hearly : early namedValidator.counter twoUnnamed namedRule =
      [Diagnostic.unassigned namedRule twoUnnamed "f"] := by decide +kernel
  have hnamed : (unevenCheck namedRule ()).1.result =
      .ok [Diagnostic.unassigned namedRule twoUnnamed "f"] := by
    show (namedValidator.examine View.firstChoice twoUnnamed namedRule ()).1.result = _
    rw [examine_eq, hearly]
  have hsplit : (unevenCheck splitRule ()).1.result = .error (.unevenShares "Split" "f" 2 1) := by
    have hfault : unevenShares.fault? splitRule = some (.unevenShares "Split" "f" 2 1) := by
      decide +kernel
    show View.check ⟨splitRule, "T"⟩ unevenShares = _
    unfold View.check
    rw [hfault]
  have hcomes : ComesTo unevenCheck [namedRule, splitRule] () splitRule () :=
    ⟨[namedRule], [], _, rfl, .cons hnamed (by simp) (.nil ())⟩
  obtain ⟨-, -, -, -, -, horder, hgeneral⟩ :=
    validateWith_delivers namedValidator View.firstChoice twoUnnamed .empty ()
  have hrun := (hgeneral unevenCheck).1 [namedRule, splitRule] ()
  have hresult := (hrun.stopped _).2 ⟨splitRule, (), hcomes, hsplit⟩
  refine ⟨hcomes, hsplit, hresult, hrun.silent (by simp [hresult]), ?_⟩
  exact horder [("T", namedRule), ("T", splitRule)] rfl

end Validator

end RuleCardinality
