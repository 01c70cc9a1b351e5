import RuleCardinality.Proofs.Search.Solve
import RuleCardinality.Proofs.Validator.Check
import RuleCardinality.Proofs.Validator.Plan

/-!
# Examinations

An examination either ends early, with diagnostics that depend on the rule, the object and the counts
alone, or makes one search and reports the violations of the shares that it leaves (`examine_searched`).
Since these are violations of sums, a search may end with a node outside its window and the rule accept
the object all the same; `examine_unsolved_iff` says when.
-/

namespace RuleCardinality.Validator

open View (Balanced violations optionalPair firstChoice)

variable {σ : Type} {V : Validator} {o : Object} {r : Rule}

/-- What the stages before the search find wrong. -/
def early (counter : Counter) (o : Object) (r : Rule) : List Diagnostic :=
  let w : View := ⟨r, o.type⟩
  match (w.unfulfilled r.root).toList with
  | v :: vs => [Diagnostic.shape r o.type (v :: vs)]
  | [] => mismatches counter w o w.targets

/-- The search of an examination. -/
def searched (V : Validator) (ch : Chooser σ) (o : Object) (r : Rule) (s : σ) : View.Outcome σ :=
  View.solve ⟨r, o.type⟩ V.config ch (V.planned o r).rivals o.volume (V.planned o r).quantities s

/-! ## The stages -/

theorem examine_eq (V : Validator) (ch : Chooser σ) (o : Object) (r : Rule) (s : σ) :
    V.examine ch o r s =
      match early V.counter o r with
      | [] => V.settle ch ⟨r, o.type⟩ o (V.planned o r) s
      | d :: ds => ({ result := .ok (d :: ds) }, s) := by
  unfold examine early
  simp only
  cases (View.unfulfilled ⟨r, o.type⟩ r.root).toList with
  | nil =>
    cases mismatches V.counter ⟨r, o.type⟩ o (View.targets ⟨r, o.type⟩) with
    | nil => rfl
    | cons d ds => rfl
  | cons v vs => rfl

/-- The early stages find nothing exactly if the rule fits the type, every reached assignment is declared
and every field that is set is reached. -/
theorem early_eq_nil_iff (counter : Counter) (o : Object) (r : Rule) :
    early counter o r = [] ↔
      View.misfits ⟨r, o.type⟩ r.root = [] ∧
        (∀ t ∈ View.targets ⟨r, o.type⟩, (o.feature? t.1).isSome) ∧
          ∀ f ∈ o.features, 0 < counter.count o f.name →
            ∃ t ∈ View.targets ⟨r, o.type⟩, t.1 = f.name := by
  have hmisfits : (View.unfulfilled ⟨r, o.type⟩ r.root).toList = [] ↔
      View.misfits ⟨r, o.type⟩ r.root = [] := by
    simp only [List.eq_nil_iff_forall_not_mem, View.unfulfilled, mem_toList_ofList]
  rw [← hmisfits]
  unfold early
  simp only
  cases (View.unfulfilled ⟨r, o.type⟩ r.root).toList with
  | cons v vs => simp
  | nil =>
    unfold mismatches
    simp only [List.append_eq_nil_iff, List.map_eq_nil_iff, List.filter_eq_nil_iff, true_and]
    refine and_congr (forall₂_congr fun t _ => ?_) (forall₂_congr fun f _ => ?_)
    · simp [Option.isSome_iff_ne_none]
    · simp

/-- The search ends with a report and a joint split of the planned counts. -/
theorem searched_spec (V : Validator) (ch : Chooser σ) (o : Object) (r : Rule) (s : σ) :
    ∃ report, (V.searched ch o r s).report = .ok report ∧
      JointSplit (V.planned o r).rivals.toList (V.planned o r).quantities
        (V.searched ch o r s).quantities ∧
      report.bestQuality = View.quality ⟨r, o.type⟩ (V.searched ch o r s).quantities :=
  View.solve_spec (V.ready_planned o r) V.config ch o.volume s

/-- What a search makes of a plan: it ends with a report, every sum of shares is right, all competing
nodes have shares, and everything else is as planned. -/
structure KeepsSums (r : Rule) (p : Plan) (out : View.Outcome σ) : Prop where
  reported : ∃ report, out.report = .ok report
  sums : ∀ field ∈ out.quantities.fields r,
    out.quantities.total r field = out.quantities.count field
  assigned : ∀ {field : String} {nodes : List Nat}, p.rivals[field]? = some nodes →
    ∀ v ∈ nodes, (out.quantities.share? v).isSome
  counts : out.quantities.counts = p.quantities.counts
  others : ∀ v, (∀ {field : String} {nodes : List Nat}, p.rivals[field]? = some nodes → v ∉ nodes) →
    out.quantities.share? v = p.quantities.share? v

theorem keepsSums_searched (V : Validator) (ch : Chooser σ) (o : Object) (r : Rule) (s : σ) :
    KeepsSums r (V.planned o r) (V.searched ch o r s) := by
  obtain ⟨report, hreport, hjoint, _⟩ := searched_spec V ch o r s
  refine ⟨⟨report, hreport⟩, fun field hfield => (V.ready_planned o r).total_eq hjoint hfield, ?_,
    hjoint.counts, fun v hv => ?_⟩
  · intro field nodes hnodes
    exact hjoint.assigned (field, nodes) (View.mem_rivals.2 hnodes)
  · exact hjoint.outside v fun f hf => hv (View.mem_rivals.1 hf)

/-- Without early diagnostics an examination says what the check says of the shares after the search;
where nothing is contested the search changes nothing. -/
theorem examine_searched (ch : Chooser σ) (s : σ) (he : early V.counter o r = []) :
    (V.examine ch o r s).1.result =
      .ok ((violations ⟨r, o.type⟩ (V.searched ch o r s).quantities).map
        (Diagnostic.bounds r o.type)) := by
  obtain ⟨report, hreport, hjoint, _⟩ := searched_spec V ch o r s
  have hcheck := View.check_eq ((V.ready_planned o r).fault?_eq_none hjoint)
  rw [examine_eq, he, ← hcheck]
  unfold settle
  simp only
  by_cases hempty : (V.planned o r).rivals.isEmpty = true
  · -- Nothing competes, and the only joint split of a plan without rivals is the plan itself.
    rw [if_pos hempty]
    have hnil : (V.planned o r).rivals.toList = [] :=
      List.isEmpty_iff.1 (Std.ExtTreeMap.isEmpty_toList.trans hempty)
    rw [hnil, JointSplit.nil_iff] at hjoint
    rw [hjoint]
  · rw [if_neg hempty]
    unfold searched at hreport ⊢
    simp only [hreport]

/-! ## Violations after a search -/

theorem share_searched_le (ho : ∀ f ∈ o.features, V.counter.count o f.name ≤ cap) (ch : Chooser σ)
    (r : Rule) (s : σ) (v : Nat) : (V.searched ch o r s).quantities.share v ≤ cap := by
  obtain ⟨report, _, hjoint, _⟩ := searched_spec V ch o r s
  exact (V.ready_planned o r).share_le hjoint (fun _ hv => field?_of_share?_planned V o r hv)
    (count_planned_le ho (by decide) r) v

theorem violations_searched_eq_nil_iff (ho : ∀ f ∈ o.features, V.counter.count o f.name ≤ cap)
    (ch : Chooser σ) (r : Rule) (s : σ) :
    violations ⟨r, o.type⟩ (V.searched ch o r s).quantities = [] ↔
      ∀ field ∈ (V.searched ch o r s).quantities.fields r,
        Balanced ⟨r, o.type⟩ (V.searched ch o r s).quantities field := by
  obtain ⟨report, _, hjoint, _⟩ := searched_spec V ch o r s
  refine View.violations_eq_nil_iff ((V.ready_planned o r).fault?_eq_none hjoint)
    (share_searched_le ho ch r s) fun field => ?_
  rw [hjoint.count_eq]
  exact count_planned_le ho (by decide) r field

/-- A search that leaves no violation leaves nothing for the check to find. -/
theorem violations_searched_of_quality (ho : ∀ f ∈ o.features, V.counter.count o f.name ≤ cap)
    (ch : Chooser σ) (s : σ)
    (hzero : View.quality ⟨r, o.type⟩ (V.searched ch o r s).quantities = 0) :
    violations ⟨r, o.type⟩ (V.searched ch o r s).quantities = [] :=
  (violations_searched_eq_nil_iff ho ch r s).2 fun field _ => View.balanced_of_quality hzero field

/-- A state whose shares add up and lie inside the own windows of their nodes passes the final check, so
a rule whose search is reported as solved finds nothing wrong. -/
theorem accepts_of_solved :
    (∀ (w : View) (q : Quantities), q.fault? w.rule = none → (∀ v, q.share v ≤ cap) →
        (∀ field, q.count field ≤ cap) → w.quality q = 0 → w.check q = .ok []) ∧
      ∀ (V : Validator) (ch : Chooser σ) (o : Object) (r : Rule) (s : σ),
        (∀ f ∈ o.features, V.counter.count o f.name ≤ cap) → early V.counter o r = [] →
        ∀ report, (V.searched ch o r s).report = .ok report → report.solved = true →
          (V.examine ch o r s).1.result = .ok [] := by
  refine ⟨fun w q hf hq hc hzero => View.check_eq_ok_nil hf hq hc hzero, ?_⟩
  intro V ch o r s ho he report hreport hsolved
  obtain ⟨report', hreport', _, hqual⟩ := searched_spec V ch o r s
  obtain rfl : report' = report := Except.ok.inj (hreport'.symm.trans hreport)
  have hzero : View.quality ⟨r, o.type⟩ (V.searched ch o r s).quantities = 0 := by
    rw [← hqual]
    exact of_decide_eq_true hsolved
  rw [examine_searched ch s he, violations_searched_of_quality ho ch s hzero]
  rfl

/-- An optional group, in which one assignment is tied to another, before a further assignment of one of
the two fields. -/
def tiedTail : Rule :=
  ((Rule.ofAdditions "Tail"
    [.root { shape := .group }, .child 0 { shape := .group, optional := true },
      .child 1 { shape := .assignment "f", repeatable := true }, .child 1 { shape := .assignment "g" },
      .child 0 { shape := .assignment "f" }]).toOption).get (by decide)

def tailValidator : Validator where
  registry := Registry.empty.register "T" tiedTail

/-- Three values of the field that is assigned twice, and one of the other. -/
def threeAndOne : Object :=
  (((Object.empty "T").declare ⟨"f", true, false⟩).declare ⟨"g", true, false⟩).fill "f" 3 |>.fill "g" 1

theorem accepts_of_solved_tail :
    (∃ q : Quantities, q.fault? tiedTail = none ∧ (∀ v, q.share v ≤ cap) ∧
        (∀ field, q.count field ≤ cap) ∧ View.quality ⟨tiedTail, "T"⟩ q = 0 ∧
        View.check ⟨tiedTail, "T"⟩ q = .ok []) ∧
      (∀ f ∈ threeAndOne.features, tailValidator.counter.count threeAndOne f.name ≤ cap) ∧
      early tailValidator.counter threeAndOne tiedTail = [] ∧
      ∃ report,
        (tailValidator.searched firstChoice threeAndOne tiedTail ()).report = .ok report ∧
        report.solved = true ∧
        (tailValidator.examine firstChoice threeAndOne tiedTail ()).1.result = .ok [] := by
  have ho : ∀ f ∈ threeAndOne.features, tailValidator.counter.count threeAndOne f.name ≤ cap := by
    decide +kernel
  have he : early tailValidator.counter threeAndOne tiedTail = [] := by decide +kernel
  have hzero : View.quality ⟨tiedTail, "T"⟩
      (tailValidator.searched firstChoice threeAndOne tiedTail ()).quantities = 0 := by decide +kernel
  obtain ⟨report, hreport, hjoint, hqual⟩ := searched_spec tailValidator firstChoice threeAndOne tiedTail ()
  have hsolved : report.solved = true := by
    simp only [Report.solved, decide_eq_true_eq]
    exact hqual.trans hzero
  have hf := (tailValidator.ready_planned threeAndOne tiedTail).fault?_eq_none hjoint
  have hq := share_searched_le ho firstChoice tiedTail ()
  have hc : ∀ field,
      (tailValidator.searched firstChoice threeAndOne tiedTail ()).quantities.count field ≤ cap := by
    intro field
    rw [hjoint.count_eq]
    exact count_planned_le ho (by decide) tiedTail field
  exact ⟨⟨_, hf, hq, hc, hzero, accepts_of_solved (σ := Unit).1 _ _ hf hq hc hzero⟩, ho, he, report,
    hreport, hsolved, accepts_of_solved.2 _ _ _ _ _ ho he report hreport hsolved⟩

/-- After a search that is not solved, a rule finds something wrong exactly if the nodes of some field
could not make up for each other; the sums that are checked hide all other violations. -/
theorem examine_unsolved_iff (ch : Chooser σ) (s : σ)
    (ho : ∀ f ∈ o.features, V.counter.count o f.name ≤ cap) (he : early V.counter o r = []) :
    ∃ report, (V.searched ch o r s).report = .ok report ∧
      (0 < report.bestQuality →
        ((∃ d ds, (V.examine ch o r s).1.result = .ok (d :: ds)) ↔
          ∃ field ∈ (V.searched ch o r s).quantities.fields r,
            ¬ Balanced ⟨r, o.type⟩ (V.searched ch o r s).quantities field)) := by
  obtain ⟨report, hreport, _⟩ := searched_spec V ch o r s
  refine ⟨report, hreport, fun _ => ?_⟩
  have hnil := violations_searched_eq_nil_iff ho ch r s
  rw [examine_searched ch s he]
  generalize violations ⟨r, o.type⟩ (V.searched ch o r s).quantities = found at hnil
  cases found with
  | nil =>
    have hall := hnil.1 rfl
    refine iff_of_false (by simp) ?_
    rintro ⟨field, hfield, hnot⟩
    exact hnot (hall field hfield)
  | cons d ds =>
    refine iff_of_true ⟨_, _, rfl⟩ ?_
    by_contra hnone
    have hall := hnil.2 fun field hfield => by
      by_contra hnot
      exact hnone ⟨field, hfield, hnot⟩
    simp at hall

/-- An object that sets the field of both assignments once. -/
def oneValue : Object :=
  .mk "T" [{ name := "f", many := true, implicitZero := false }] [("f", [.text "x"])]

/-- A validator with the optional pair as its only rule. -/
def pairValidator : Validator where
  registry := Registry.empty.register "T" optionalPair

theorem examine_unsolved_iff_pair :
    (∀ f ∈ oneValue.features, pairValidator.counter.count oneValue f.name ≤ cap) ∧
      early pairValidator.counter oneValue optionalPair = [] ∧
      ∃ report,
        (pairValidator.searched firstChoice oneValue optionalPair ()).report = .ok report ∧
        (0 < report.bestQuality →
          ((∃ d ds, (pairValidator.examine firstChoice oneValue optionalPair ()).1.result =
              .ok (d :: ds)) ↔
            ∃ field ∈ (pairValidator.searched firstChoice oneValue
                optionalPair ()).quantities.fields optionalPair,
              ¬ Balanced ⟨optionalPair, "T"⟩ (pairValidator.searched firstChoice oneValue
                optionalPair ()).quantities field)) :=
  ⟨by decide +kernel, by decide +kernel,
    examine_unsolved_iff firstChoice () (by decide +kernel) (by decide +kernel)⟩

/-- One value is not enough for two assignments that fire together. The best split still leaves one node
short and one with too much, but the sums are right, and the rule accepts the object. -/
theorem examine_pair_accepts :
    (∃ report,
        (pairValidator.searched firstChoice oneValue optionalPair ()).report = .ok report ∧
        0 < report.bestQuality) ∧
      (pairValidator.examine firstChoice oneValue optionalPair ()).1.result = .ok [] := by
  have hready := pairValidator.ready_planned oneValue optionalPair
  have hlimit : View.jointSplits (pairValidator.planned oneValue optionalPair).rivals
      (pairValidator.planned oneValue optionalPair).quantities ≤
        pairValidator.config.exhaustiveLimit := by decide +kernel
  obtain ⟨b, hb, _, hqual, _⟩ := View.optimum_spec hready.contest ⟨optionalPair, oneValue.type⟩
    (pairValidator.planned oneValue optionalPair).quantities
  have hvalue : (View.optimum ⟨optionalPair, oneValue.type⟩
      (pairValidator.planned oneValue optionalPair).rivals.toList
      (pairValidator.planned oneValue optionalPair).quantities).map Prod.fst = some 2 := by
    decide +kernel
  have hclean : (View.optimum ⟨optionalPair, oneValue.type⟩
      (pairValidator.planned oneValue optionalPair).rivals.toList
      (pairValidator.planned oneValue optionalPair).quantities).map
        (fun b => (violations ⟨optionalPair, oneValue.type⟩ b.2).isEmpty) = some true := by
    decide +kernel
  rw [hb, Option.map_some, Option.some.injEq] at hvalue hclean
  have hend := View.solve_eq_optimum hready hlimit hb (by omega) firstChoice oneValue.volume ()
  constructor
  · obtain ⟨report, hreport, _, hreported⟩ :=
      searched_spec pairValidator firstChoice oneValue optionalPair ()
    refine ⟨report, hreport, ?_⟩
    unfold searched at hreported
    rw [hreported, hend, ← hqual, hvalue]
    decide
  · rw [examine_searched firstChoice () (by decide +kernel)]
    unfold searched
    rw [hend, List.isEmpty_iff.1 hclean]
    rfl

end RuleCardinality.Validator
