import RuleCardinality.Proofs.Search.Solve

/-!
# How long a search takes

The local search stops when it has taken as many steps as it was allowed, and when too many steps in a row
have led to nothing better. As each improvement lowers the violation by one at least, the steps are few
where the greedy split is good: for every unit of violation that is repaired, and once more at the end, at
most as many steps as may pass without progress (`solve_bounded`).
-/

namespace RuleCardinality.View

variable {σ : Type} {w : View} {rivals : Rivals} {q : Quantities} {worst maxIdle : Nat}

/-- The invariant of the pace: every unit of violation repaired so far took at most `maxIdle` steps, and
the steps since then are counted by `idle`. -/
structure Climb.Paced (worst maxIdle : Nat) (c : Climb σ) : Prop where
  quality : c.bestQuality ≤ worst
  idle : c.idle ≤ maxIdle
  tries : c.tries ≤ (worst - c.bestQuality) * maxIdle + c.idle

namespace Climb

variable {c : Climb σ}

theorem paced_start (w : View) (rivals : Rivals) (q : Quantities) (s : σ) (maxIdle : Nat) :
    (start w rivals q s).Paced (w.quality (w.greedy q rivals)) maxIdle :=
  ⟨Nat.le_refl _, Nat.zero_le _, Nat.zero_le _⟩

/-- A step keeps the pace if another step without progress was still allowed. -/
theorem Paced.advance (hp : c.Paced worst maxIdle) (hidle : c.idle < maxIdle) (w : View)
    (q : Quantities) (s : σ) : (c.advance w q s).Paced worst maxIdle := by
  have htries : c.tries + 1 ≤ (worst - c.bestQuality) * maxIdle + (c.idle + 1) :=
    Nat.succ_le_succ hp.tries
  unfold Climb.advance
  simp only
  by_cases hlt : w.quality q < c.bestQuality
  · rw [if_pos hlt]
    refine ⟨Nat.le_trans (Nat.le_of_lt hlt) hp.quality, Nat.zero_le _, ?_⟩
    have hrepaired : worst - c.bestQuality + 1 ≤ worst - w.quality q := by
      have := hp.quality
      omega
    calc c.tries + 1
        ≤ (worst - c.bestQuality) * maxIdle + (c.idle + 1) := htries
      _ ≤ (worst - c.bestQuality) * maxIdle + maxIdle := Nat.add_le_add_left hidle _
      _ = (worst - c.bestQuality + 1) * maxIdle := (Nat.succ_mul _ _).symm
      _ ≤ (worst - w.quality q) * maxIdle := Nat.mul_le_mul_right _ hrepaired
  · rw [if_neg hlt]
    exact ⟨hp.quality, hidle, htries⟩

/-- Any violation below the best one found leaves as much room for the steps taken. -/
theorem Paced.tries_le (hp : c.Paced worst maxIdle) {quality : Nat} (hq : quality ≤ c.bestQuality) :
    c.tries ≤ (worst - quality + 1) * maxIdle :=
  calc c.tries
      ≤ (worst - c.bestQuality) * maxIdle + c.idle := hp.tries
    _ ≤ (worst - c.bestQuality) * maxIdle + maxIdle := Nat.add_le_add_left hp.idle _
    _ = (worst - c.bestQuality + 1) * maxIdle := (Nat.succ_mul _ _).symm
    _ ≤ (worst - quality + 1) * maxIdle :=
      Nat.mul_le_mul_right _ (Nat.succ_le_succ (Nat.sub_le_sub_left hq worst))

end Climb

@[simp] theorem tries_advance (c : Climb σ) (w : View) (q : Quantities) (s : σ) :
    (c.advance w q s).tries = c.tries + 1 := by
  unfold Climb.advance
  simp only
  split <;> rfl

/-- The local search keeps the pace and takes no more steps than its budget, whatever its choices. -/
theorem climb_paced (w : View) (cfg : Config) (ch : Chooser σ) (rivals : List (String × List Nat))
    (budget : Nat) {c : Climb σ} (hp : c.Paced worst maxIdle) :
    (w.climb cfg ch rivals maxIdle budget c).1.Paced worst maxIdle ∧
      (w.climb cfg ch rivals maxIdle budget c).1.tries ≤ c.tries + budget := by
  induction budget generalizing c with
  | zero => exact ⟨hp, Nat.le_refl _⟩
  | succ budget ih =>
    unfold climb
    by_cases hstop : c.bestQuality = 0 ∨ maxIdle ≤ c.idle
    · rw [if_pos hstop]
      exact ⟨hp, Nat.le_add_right _ _⟩
    · rw [if_neg hstop]
      have hidle : c.idle < maxIdle := Nat.lt_of_not_le fun h => hstop (.inr h)
      cases w.step cfg.damped ch rivals c.current c.source with
      | none => exact ⟨hp, Nat.le_add_right _ _⟩
      | some next =>
        obtain ⟨q', s'⟩ := next
        cases hfault : q'.fault? w.rule with
        | some fault =>
          simp only [hfault]
          exact ⟨⟨hp.quality, hp.idle, hp.tries⟩, Nat.le_add_right _ _⟩
        | none =>
          simp only [hfault]
          obtain ⟨hpaced, htries⟩ := ih (hp.advance hidle w q' s')
          rw [tries_advance] at htries
          exact ⟨hpaced, by omega⟩

/-- A search ends with a report of the violation that its shares leave, which is at most that of the greedy
split; and its steps are bounded by its budget and by the violation that was repaired. -/
theorem solve_bounded (h : w.Ready rivals q) (cfg : Config) (ch : Chooser σ) (volume : Nat) (s : σ) :
    ∃ report, (w.solve cfg ch rivals volume q s).report = .ok report ∧
      report.maxTries = cfg.maxTries volume (sumOf (fun f => f.2.length) rivals.toList) ∧
      report.bestQuality = w.quality (w.solve cfg ch rivals volume q s).quantities ∧
      report.bestQuality ≤ w.quality (w.greedy q rivals) ∧
      report.tries ≤ report.maxTries ∧
      report.tries ≤
        (w.quality (w.greedy q rivals) - report.bestQuality + 1) * cfg.maxIdle report.maxTries := by
  obtain ⟨c, maxTries, hsound, hmax, hclimb, hend⟩ := solve_cases h cfg ch volume s
  obtain ⟨hpaced, htries⟩ := climb_paced w cfg ch rivals.toList maxTries
    (Climb.paced_start w rivals q s (cfg.maxIdle maxTries))
  rw [← hclimb] at hpaced htries
  have hbudget : c.tries ≤ maxTries := by simpa [Climb.start] using htries
  rcases hend with ⟨-, hsolve⟩ | ⟨b, hb, hsolve⟩
  · rw [hsolve]
    exact ⟨_, rfl, hmax, hsound.bestQuality, hpaced.quality, hbudget, hpaced.tries_le (Nat.le_refl _)⟩
  · -- The best shares of the steps are a joint split, so the exact pass did not end with worse ones.
    obtain ⟨-, hqual, hleast⟩ := exhaustive_spec h.contest hb
    have hbest : b.1 ≤ c.bestQuality := hsound.bestQuality ▸ hleast _ hsound.best
    rw [hsolve]
    exact ⟨_, rfl, hmax, hqual, Nat.le_trans hbest hpaced.quality, hbudget, hpaced.tries_le hbest⟩

/-- One value for two assignments of an optional group: the search may take 22 steps, of which 12 in a row
may lead to nothing better. -/
theorem solve_bounded_pair :
    View.Ready ⟨optionalPair, "T"⟩ pairRivals pairCounts ∧
      ∃ report, (View.solve ⟨optionalPair, "T"⟩ .standard firstChoice pairRivals 1 pairCounts ()).report =
          .ok report ∧
        report.maxTries = 22 ∧
        report.bestQuality = View.quality ⟨optionalPair, "T"⟩
          (View.solve ⟨optionalPair, "T"⟩ .standard firstChoice pairRivals 1 pairCounts ()).quantities ∧
        report.bestQuality ≤
          View.quality ⟨optionalPair, "T"⟩ (View.greedy ⟨optionalPair, "T"⟩ pairCounts pairRivals) ∧
        report.tries ≤ 22 ∧
        report.tries ≤ (View.quality ⟨optionalPair, "T"⟩
          (View.greedy ⟨optionalPair, "T"⟩ pairCounts pairRivals) - report.bestQuality + 1) * 12 := by
  have hmax : Config.standard.maxTries 1 (sumOf (fun f => f.2.length) pairRivals.toList) = 22 := by
    decide +kernel
  have hidle : Config.standard.maxIdle 22 = 12 := by decide +kernel
  obtain ⟨report, hreport, htries, hqual, hworst, hbudget, hpace⟩ :=
    solve_bounded ready_pair .standard firstChoice 1 ()
  rw [hmax] at htries
  rw [htries] at hbudget hpace
  rw [hidle] at hpace
  exact ⟨ready_pair, report, hreport, htries, hqual, hworst, hbudget, hpace⟩

end RuleCardinality.View
