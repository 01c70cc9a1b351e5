import RuleCardinality.Config
import RuleCardinality.Search.Step
import RuleCardinality.Search.Sweep
import RuleCardinality.Sum

/-!
# Sharing out the counts

`solve` shares out the counts of the competing fields: the greedy split first, then steps of local
search within a budget, then, if violations remain and the splits are few enough, the exact pass. It
ends with the best shares that it saw. That no split is without violation is no fault and shows in the
report; a step that breaks the sums of the shares would be one.
-/

namespace RuleCardinality

/-- The `SolveReport` of distributor.rs:26. -/
structure Report where
  maxTries : Nat
  tries : Nat
  bestQuality : Nat
  /-- Whether the exact pass decided the result. -/
  exhaustive : Bool
deriving DecidableEq, Repr

/-- The `solved` of distributor.rs:38. -/
def Report.solved (r : Report) : Bool := r.bestQuality = 0

namespace View

variable {σ : Type}

/-- The state of the local search. -/
structure Climb (σ : Type) where
  current : Quantities
  source : σ
  best : Quantities
  bestQuality : Nat
  tries : Nat
  /-- The number of steps since the best shares were found. -/
  idle : Nat

/-- Takes stock after a step (distributor.rs:90-98). -/
def Climb.advance (w : View) (c : Climb σ) (q : Quantities) (s : σ) : Climb σ :=
  let quality := w.quality q
  if quality < c.bestQuality then ⟨q, s, q, quality, c.tries + 1, 0⟩
  else ⟨q, s, c.best, c.bestQuality, c.tries + 1, c.idle + 1⟩

/-- Takes steps while violations remain, the budget lasts and progress is made (distributor.rs:86-99).
The second part is the fault of a step that broke the sums, if one did. -/
def climb (w : View) (cfg : Config) (ch : Chooser σ) (rivals : List (String × List Nat))
    (maxIdle : Nat) : Nat → Climb σ → Climb σ × Option Fault
  | 0, c => (c, none)
  | budget + 1, c =>
    if c.bestQuality = 0 ∨ maxIdle ≤ c.idle then (c, none)
    else
      match w.step cfg.damped ch rivals c.current c.source with
      | none => (c, none)
      | some (q, s) =>
        match q.fault? w.rule with
        | some fault => ({ c with current := q, source := s }, some fault)
        | none => climb w cfg ch rivals maxIdle budget (c.advance w q s)

/-- The result of a search: the shares and the source that it leaves, and its report. -/
structure Outcome (σ : Type) where
  quantities : Quantities
  source : σ
  report : Except Fault Report

/-- Shares out the counts of the competing fields among their nodes (`solve`, distributor.rs:68). -/
def solve (w : View) (cfg : Config) (ch : Chooser σ) (rivals : Rivals) (volume : Nat)
    (q : Quantities) (s : σ) : Outcome σ :=
  let fields := rivals.toList
  let start := w.greedy q rivals
  let maxTries := cfg.maxTries volume (sumOf (fun r => r.2.length) fields)
  let (c, fault) := w.climb cfg ch fields (cfg.maxIdle maxTries) maxTries
    ⟨start, s, start, w.quality start, 0, 0⟩
  match fault with
  | some fault => ⟨c.current, c.source, .error fault⟩
  | none =>
    let found := if c.bestQuality = 0 then none
      else w.exhaustive cfg.exhaustiveLimit fields c.best
    match found with
    | none => ⟨c.best, c.source, .ok ⟨maxTries, c.tries, c.bestQuality, false⟩⟩
    | some (quality, q) => ⟨q, c.source, .ok ⟨maxTries, c.tries, quality, true⟩⟩

end View

end RuleCardinality
