import Mathlib.Order.Bounds.Defs
import RuleCardinality.Proofs.Search.Step
import RuleCardinality.Proofs.Search.Sweep
import RuleCardinality.Proofs.View.Range
import RuleCardinality.Search.Solve

/-!
# The search

From a state that a search can begin with, no step breaks the sums, so a search always ends with a
report, and with a joint split whose violation is the reported one (`solve_spec`). If the joint splits
are within the limit, the reported violation is the least of all (`solve_optimal`): either the search
came to a split without violation, or the exact pass was made. In the latter case the final state does
not depend on the path of the search (`solve_within`).
-/

namespace RuleCardinality.View

variable {σ : Type} {w : View} {cfg : Config} {ch : Chooser σ} {rivals : Rivals} {q : Quantities}

/-! ## The local search -/

/-- The invariant of the local search. -/
structure Climb.Sound (w : View) (rivals : Rivals) (q : Quantities) (c : Climb σ) : Prop where
  current : JointSplit rivals.toList q c.current
  best : JointSplit rivals.toList q c.best
  bestQuality : c.bestQuality = w.quality c.best

theorem Climb.Sound.advance {c : Climb σ} (hs : c.Sound w rivals q) {q' : Quantities}
    (hq' : JointSplit rivals.toList q q') (s : σ) : (c.advance w q' s).Sound w rivals q := by
  unfold Climb.advance
  simp only
  by_cases hlt : w.quality q' < c.bestQuality
  · rw [if_pos hlt]
    exact ⟨hq', hq', rfl⟩
  · rw [if_neg hlt]
    exact ⟨hq', hs.best, hs.bestQuality⟩

/-- No step breaks the sums, and the best shares are those of a joint split throughout. -/
theorem climb_sound (cfg : Config) (ch : Chooser σ) (h : w.Ready rivals q) (maxIdle budget : Nat)
    {c : Climb σ} (hs : c.Sound w rivals q) :
    (w.climb cfg ch rivals.toList maxIdle budget c).2 = none ∧
      (w.climb cfg ch rivals.toList maxIdle budget c).1.Sound w rivals q := by
  induction budget generalizing c with
  | zero => exact ⟨rfl, hs⟩
  | succ budget ih =>
    unfold climb
    by_cases hstop : c.bestQuality = 0 ∨ maxIdle ≤ c.idle
    · rw [if_pos hstop]
      exact ⟨rfl, hs⟩
    · rw [if_neg hstop]
      cases hstep : w.step cfg.damped ch rivals.toList c.current c.source with
      | none => exact ⟨rfl, hs⟩
      | some next =>
        -- A fault would need a field whose shares do not add up, and no joint split has one.
        have hq' : JointSplit rivals.toList q next.1 :=
          step_jointSplit (damping_damped cfg) h.contest hs.current hstep
        simp only [h.fault?_eq_none hq']
        exact ih (hs.advance hq' next.2)

theorem climb_of_perfect {c : Climb σ} (h : c.bestQuality = 0) (cfg : Config) (ch : Chooser σ)
    (rivals : List (String × List Nat)) (maxIdle budget : Nat) :
    w.climb cfg ch rivals maxIdle budget c = (c, none) := by
  cases budget with
  | zero => rfl
  | succ budget =>
    unfold climb
    rw [if_pos (.inl h)]

/-! ## The whole search -/

/-- A greedy split without violation is the end of the search: no step is taken, nothing is drawn, and the
exact pass is not made. -/
theorem solve_of_greedy (h : w.quality (w.greedy q rivals) = 0) (cfg : Config) (ch : Chooser σ)
    (volume : Nat) (s : σ) :
    w.solve cfg ch rivals volume q s =
      ⟨w.greedy q rivals, s,
        .ok ⟨cfg.maxTries volume (sumOf (fun r => r.2.length) rivals.toList), 0, 0, false⟩⟩ := by
  unfold solve
  simp only
  rw [climb_of_perfect h]
  simp only [h, if_true]

/-- Where the local search begins: with the greedy split. -/
def Climb.start (w : View) (rivals : Rivals) (q : Quantities) (s : σ) : Climb σ :=
  ⟨w.greedy q rivals, s, w.greedy q rivals, w.quality (w.greedy q rivals), 0, 0⟩

/-- How a search ends: with the best shares of its steps, or with what the exact pass found. -/
theorem solve_cases (h : w.Ready rivals q) (cfg : Config) (ch : Chooser σ) (volume : Nat) (s : σ) :
    ∃ (c : Climb σ) (maxTries : Nat), c.Sound w rivals q ∧
      maxTries = cfg.maxTries volume (sumOf (fun r => r.2.length) rivals.toList) ∧
      c = (w.climb cfg ch rivals.toList (cfg.maxIdle maxTries) maxTries (.start w rivals q s)).1 ∧
      ((c.bestQuality = 0 ∨ w.exhaustive cfg.exhaustiveLimit rivals.toList q = none) ∧
          w.solve cfg ch rivals volume q s =
            ⟨c.best, c.source, .ok ⟨maxTries, c.tries, c.bestQuality, false⟩⟩ ∨
        ∃ b : Found, w.exhaustive cfg.exhaustiveLimit rivals.toList q = some b ∧
          w.solve cfg ch rivals volume q s =
            ⟨b.2, c.source, .ok ⟨maxTries, c.tries, b.1, true⟩⟩) := by
  have hstart : (Climb.start w rivals q s).Sound w rivals q := ⟨h.greedy, h.greedy, rfl⟩
  set maxTries := cfg.maxTries volume (sumOf (fun r => r.2.length) rivals.toList) with hmax
  obtain ⟨hfault, hsound⟩ := climb_sound cfg ch h (cfg.maxIdle maxTries) maxTries hstart
  refine ⟨_, maxTries, hsound, rfl, rfl, ?_⟩
  unfold solve
  simp only [← hmax]
  unfold Climb.start at hfault hsound ⊢
  generalize w.climb cfg ch rivals.toList (cfg.maxIdle maxTries) maxTries _ = end_ at hfault hsound ⊢
  obtain ⟨c, fault⟩ := end_
  obtain rfl : fault = none := hfault
  simp only [exhaustive_eq_of_jointSplit h.contest _ hsound.best]
  by_cases hzero : c.bestQuality = 0
  · exact .inl ⟨.inl hzero, by rw [if_pos hzero]⟩
  · rw [if_neg hzero]
    cases hfound : w.exhaustive cfg.exhaustiveLimit rivals.toList q with
    | none => exact .inl ⟨.inr rfl, rfl⟩
    | some b => exact .inr ⟨b, rfl, rfl⟩

/-- A search ends with a report, and with a joint split whose violation is the reported one. -/
theorem solve_spec (h : w.Ready rivals q) (cfg : Config) (ch : Chooser σ) (volume : Nat) (s : σ) :
    ∃ report, (w.solve cfg ch rivals volume q s).report = .ok report ∧
      JointSplit rivals.toList q (w.solve cfg ch rivals volume q s).quantities ∧
      report.bestQuality = w.quality (w.solve cfg ch rivals volume q s).quantities := by
  obtain ⟨c, maxTries, hsound, -, -, ⟨_, hsolve⟩ | ⟨b, hb, hsolve⟩⟩ := solve_cases h cfg ch volume s
  · rw [hsolve]
    exact ⟨_, rfl, hsound.best, hsound.bestQuality⟩
  · rw [hsolve]
    obtain ⟨hjoint, hqual, -⟩ := exhaustive_spec h.contest hb
    exact ⟨_, rfl, hjoint, hqual⟩

/-- Within the limit a search ends without violation or with the optimum, whatever its path. -/
theorem solve_within (h : w.Ready rivals q) (hl : jointSplits rivals q ≤ cfg.exhaustiveLimit)
    (ch : Chooser σ) (volume : Nat) (s : σ) :
    w.quality (w.solve cfg ch rivals volume q s).quantities = 0 ∨
      w.optimum rivals.toList q = some (w.quality (w.solve cfg ch rivals volume q s).quantities,
        (w.solve cfg ch rivals volume q s).quantities) := by
  have hexact : w.exhaustive cfg.exhaustiveLimit rivals.toList q = w.optimum rivals.toList q := by
    rw [exhaustive_eq, overLimit_eq_false hl]
    rfl
  obtain ⟨b', hb', _, hqual, _⟩ := optimum_spec h.contest w q
  obtain ⟨c, maxTries, hsound, -, -, ⟨hzero | hnone, hsolve⟩ | ⟨b, hb, hsolve⟩⟩ :=
    solve_cases h cfg ch volume s
  · rw [hsolve]
    exact .inl (hsound.bestQuality.symm.trans hzero)
  · rw [hexact, hb'] at hnone
    exact absurd hnone (by simp)
  · rw [hsolve]
    rw [hexact, hb'] at hb
    obtain rfl := Option.some.inj hb
    exact .inr (by rw [hb', ← hqual])

/-- Within the limit, where every joint split has some violation, a search ends with the optimum. -/
theorem solve_eq_optimum (h : w.Ready rivals q) (hl : jointSplits rivals q ≤ cfg.exhaustiveLimit)
    {b : Found} (hb : w.optimum rivals.toList q = some b) (hpos : 0 < b.1) (ch : Chooser σ)
    (volume : Nat) (s : σ) : (w.solve cfg ch rivals volume q s).quantities = b.2 := by
  obtain ⟨_, _, hjoint, _⟩ := solve_spec h cfg ch volume s
  obtain ⟨b', hb', _, _, hleast⟩ := optimum_spec h.contest w q
  obtain rfl := Option.some.inj (hb.symm.trans hb')
  rcases solve_within h hl ch volume s with hzero | hopt
  · have := hleast _ hjoint
    omega
  · exact congrArg Prod.snd (Option.some.inj (hopt.symm.trans hb))

/-- Within the limits two searches both end without violation or with the same shares, whatever their
settings and choices. -/
theorem solve_agree {τ : Type} {cfg' : Config} (h : w.Ready rivals q)
    (hl : jointSplits rivals q ≤ cfg.exhaustiveLimit)
    (hl' : jointSplits rivals q ≤ cfg'.exhaustiveLimit) (ch : Chooser σ) (ch' : Chooser τ)
    (volume volume' : Nat) (s : σ) (s' : τ) :
    (w.quality (w.solve cfg ch rivals volume q s).quantities = 0 ∧
        w.quality (w.solve cfg' ch' rivals volume' q s').quantities = 0) ∨
      (w.solve cfg ch rivals volume q s).quantities =
        (w.solve cfg' ch' rivals volume' q s').quantities := by
  obtain ⟨_, _, hjoint, _⟩ := solve_spec h cfg ch volume s
  obtain ⟨_, _, hjoint', _⟩ := solve_spec h cfg' ch' volume' s'
  obtain ⟨b, hb, _, _, hleast⟩ := optimum_spec h.contest w q
  rcases solve_within h hl ch volume s with hzero | hopt <;>
    rcases solve_within h hl' ch' volume' s' with hzero' | hopt'
  · exact .inl ⟨hzero, hzero'⟩
  · obtain rfl := Option.some.inj (hb.symm.trans hopt')
    exact .inl ⟨hzero, Nat.le_zero.1 (hzero ▸ hleast _ hjoint)⟩
  · obtain rfl := Option.some.inj (hb.symm.trans hopt)
    exact .inl ⟨Nat.le_zero.1 (hzero' ▸ hleast _ hjoint'), hzero'⟩
  · exact .inr (congrArg Prod.snd (Option.some.inj (hopt.symm.trans hopt')))

/-- If the joint splits are within the limit, the reported violation is the least of all joint splits;
so a search is reported as solved exactly if some joint split puts every assigned node inside its
window. -/
theorem solve_optimal (h : w.Ready rivals q) (hl : jointSplits rivals q ≤ cfg.exhaustiveLimit)
    (ch : Chooser σ) (volume : Nat) (s : σ) :
    ∃ report, (w.solve cfg ch rivals volume q s).report = .ok report ∧
      IsLeast {n | ∃ q', JointSplit rivals.toList q q' ∧ w.quality q' = n} report.bestQuality ∧
      (report.solved = true ↔ ∃ q', JointSplit rivals.toList q q' ∧
        ∀ v ∈ q'.assigned w.rule, (w.ownWindow q' v).admits (q'.share v) = true) := by
  obtain ⟨report, hreport, hjoint, hqual⟩ := solve_spec h cfg ch volume s
  have hleast : ∀ q', JointSplit rivals.toList q q' → report.bestQuality ≤ w.quality q' := by
    intro q' hq'
    rw [hqual]
    rcases solve_within h hl ch volume s with hzero | hopt
    · omega
    · obtain ⟨b, hb, _, _, hb'⟩ := optimum_spec h.contest w q
      obtain rfl := Option.some.inj (hb.symm.trans hopt)
      exact hb' q' hq'
  refine ⟨report, hreport, ⟨⟨_, hjoint, hqual.symm⟩, ?_⟩, ?_⟩
  · rintro n ⟨q', hq', rfl⟩
    exact hleast q' hq'
  · simp only [Report.solved, decide_eq_true_eq]
    constructor
    · intro hzero
      exact ⟨_, hjoint, quality_eq_zero_iff.1 (hqual.symm.trans hzero)⟩
    · rintro ⟨q', hq', hin⟩
      have := hleast q' hq'
      have := quality_eq_zero_iff.2 hin
      omega

/-! An optional group with two assignments of one field, of which an object sets one value. -/

/-- Two assignments of one field in an optional group. -/
def optionalPair : Rule :=
  ((Rule.ofAdditions "Pair"
    [.root { shape := .group, optional := true }, .child 0 { shape := .assignment "f" },
      .child 0 { shape := .assignment "f" }]).toOption).get (by decide)

/-- Both assignments compete for the field. -/
def pairRivals : Rivals := Std.ExtTreeMap.empty.insert "f" [1, 2]

/-- The field is set once. -/
def pairCounts : Quantities := Quantities.empty.record "f" 1

/-- Chooses the first number, whatever the bound. -/
def firstChoice : Chooser Unit := ⟨fun _ h s => (⟨0, h⟩, s)⟩

theorem ready_pair : View.Ready ⟨optionalPair, "T"⟩ pairRivals pairCounts := by
  have hlist : pairRivals.toList = [("f", [1, 2])] := by decide +kernel
  have honly : ∀ {field : String} {nodes : List Nat}, pairRivals[field]? = some nodes →
      field = "f" ∧ nodes = [1, 2] := fun {field nodes} h => by
    have hmem : (field, nodes) ∈ pairRivals.toList := mem_rivals.2 h
    simpa [hlist] using hmem
  have hnone : ∀ v, pairCounts.share? v = none := fun v => by
    simp [pairCounts, Quantities.empty, Quantities.record, Quantities.share?]
  refine ⟨fun h => ?_, fun h => ?_, fun h => ?_, fun _ v _ => hnone v, fun _ hf => ?_⟩
  · obtain ⟨rfl, rfl⟩ := honly h
    decide
  · obtain ⟨rfl, rfl⟩ := honly h
    decide
  · obtain ⟨rfl, rfl⟩ := honly h
    decide +kernel
  · obtain ⟨v, hv⟩ := Quantities.mem_fields.1 hf
    have hs := (Quantities.mem_assigned.1 (Quantities.mem_writers.1 hv).1).2
    rw [hnone v] at hs
    exact absurd hs (by simp)

theorem solve_optimal_pair :
    View.Ready ⟨optionalPair, "T"⟩ pairRivals pairCounts ∧
      jointSplits pairRivals pairCounts ≤ Config.standard.exhaustiveLimit ∧
      ∃ report, (View.solve ⟨optionalPair, "T"⟩ .standard firstChoice pairRivals 1 pairCounts ()).report =
          .ok report ∧
        IsLeast {n | ∃ q', JointSplit pairRivals.toList pairCounts q' ∧
          View.quality ⟨optionalPair, "T"⟩ q' = n} report.bestQuality ∧
        (report.solved = true ↔ ∃ q', JointSplit pairRivals.toList pairCounts q' ∧
          ∀ v ∈ q'.assigned optionalPair,
            (View.ownWindow ⟨optionalPair, "T"⟩ q' v).admits (q'.share v) = true) :=
  ⟨ready_pair, by decide +kernel, solve_optimal ready_pair (by decide +kernel) firstChoice 1 ()⟩

end RuleCardinality.View
