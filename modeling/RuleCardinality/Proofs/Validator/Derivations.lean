import RuleCardinality.Proofs.Rule.Derivation
import RuleCardinality.Proofs.Validator.Uncontested

/-!
# Derivations are accepted

The final check sees the counts of a run, not the run. It takes an alternative that cannot repeat to have
one branch, also where a repeated group reaches it several times, and a mandatory alternative without
values to have taken no branch, also where the branch it took was empty. Apart from the latter, a run is
accepted exactly if it is exclusive (`examine_run_iff`). Both kinds of runs can be rejected
(`examine_run_rejected`).
-/

namespace RuleCardinality.Validator

variable {σ : Type} {V : Validator} {o : Object} {r : Rule}

/-- An elementary rule without actions accepts an object whose counts come from a run with visible branches
exactly if at most one branch of each alternative that cannot repeat leaves values over the whole run. -/
theorem examine_run_iff (hr : r.Elementary) (ha : r.Actionless) (hd : o.Declares r) (ch : Chooser σ)
    (s : σ) (hc : ∀ f ∈ o.features, V.counter.count o f.name ≤ cap) {t : List Act}
    (ht : r.Run (V.counter.count o) t)
    (hv : r.Visible (fun v => t.count (.visit v)) (fun v => t.count (.fire v))) :
    (V.examine ch o r s).1.result = .ok [] ↔ r.Exclusive (fun v => t.count (.fire v)) := by
  constructor
  · exact exclusive_of_examine hr ha hd ch s hc ht.counted
  · intro he
    exact examine_of_flow hr ha hd ch s hc ht.derives.flow he hv ht.counted

/-- One or more ballots, each with a voter, one or more votes for or against, and a pen or an optional
stamp. -/
def ballots : Rule :=
  ((Rule.ofAdditions "Ballots"
    [.root { shape := .group, repeatable := true }, .child 0 { shape := .assignment "voter" },
      .child 0 { shape := .alternative, repeatable := true }, .child 2 { shape := .assignment "for" },
      .child 2 { shape := .assignment "against" }, .child 0 { shape := .alternative },
      .child 5 { shape := .assignment "pen" },
      .child 5 { shape := .assignment "stamp", optional := true }]).toOption).get (by decide)

def twoBallots : Object :=
  (["voter", "for", "against", "pen", "stamp"].foldl (fun o f => o.declare ⟨f, true, false⟩)
    (Object.empty "T")).fill "voter" 2 |>.fill "for" 2 |>.fill "against" 1 |>.fill "pen" 2

def ballotsValidator : Validator where
  registry := Registry.empty.register "T" ballots

/-- A ballot with some votes, signed with a pen. -/
def ballotActs (votes : List Act) : List Act :=
  .fire 0 :: [.visit 1, .fire 1] ++ votes ++ [.visit 5, .fire 5, .visit 6, .fire 6]

/-- The first ballot has a vote for, the second one against and one for. -/
def twoBallotsRun : List Act :=
  .visit 0 :: ballotActs [.visit 2, .fire 2, .visit 3, .fire 3] ++
    ballotActs [.visit 2, .fire 2, .visit 4, .fire 4, .fire 2, .visit 3, .fire 3]

theorem derives_ballotActs {votes : List Act} (hvotes : ballots.Derives (.visit 2) votes) :
    ballots.Derives (.fire 0) (ballotActs votes) := by
  have hshape : ballots.shape 1 = .assignment "voter" ∧ ballots.shape 6 = .assignment "pen" := by
    decide +kernel
  have hchildren : ballots.children 0 = [1, 2, 5] := by decide +kernel
  have hvoter : ballots.Derives (.visit 1) [.visit 1, .fire 1] := .once (.assignment hshape.1)
  have hpen : ballots.Derives (.visit 5) [.visit 5, .fire 5, .visit 6, .fire 6] :=
    .once (.alternative (c := 6) (by decide +kernel) (by decide +kernel)
      (.once (.assignment hshape.2)))
  have h := Rule.Derives.group (r := ballots) (v := 0)
    (fun c => if c = 1 then [.visit 1, .fire 1] else if c = 2 then votes
      else [.visit 5, .fire 5, .visit 6, .fire 6]) (by decide +kernel) (by
      rw [hchildren]
      simpa using ⟨hvoter, hvotes, hpen⟩)
  rw [hchildren] at h
  simpa [ballotActs] using h

theorem derives_twoBallotsRun : ballots.Derives (.visit 0) twoBallotsRun := by
  have hshape : ballots.shape 3 = .assignment "for" ∧ ballots.shape 4 = .assignment "against" := by
    decide +kernel
  have hfor : ballots.Derives (.fire 2) [.fire 2, .visit 3, .fire 3] :=
    .alternative (c := 3) (by decide +kernel) (by decide +kernel) (.once (.assignment hshape.1))
  have hagainst : ballots.Derives (.fire 2) [.fire 2, .visit 4, .fire 4] :=
    .alternative (c := 4) (by decide +kernel) (by decide +kernel) (.once (.assignment hshape.2))
  have hboth : ballots.Derives (.visit 2) [.visit 2, .fire 2, .visit 4, .fire 4, .fire 2, .visit 3,
      .fire 3] := .again (by decide +kernel) (.once hagainst) hfor
  exact .again (by decide +kernel) (.once (derives_ballotActs (.once hfor)))
    (derives_ballotActs hboth)

theorem examine_run_iff_ballots :
    ballots.Elementary ∧ ballots.Actionless ∧ twoBallots.Declares ballots ∧
      (∀ f ∈ twoBallots.features, ballotsValidator.counter.count twoBallots f.name ≤ cap) ∧
      ballots.Run (ballotsValidator.counter.count twoBallots) twoBallotsRun ∧
      ballots.Visible (fun v => twoBallotsRun.count (.visit v))
        (fun v => twoBallotsRun.count (.fire v)) ∧
      ballots.Exclusive (fun v => twoBallotsRun.count (.fire v)) ∧
      (ballotsValidator.examine View.firstChoice twoBallots ballots ()).1.result = .ok [] := by
  have hr : ballots.Elementary := ⟨by decide +kernel, by decide +kernel⟩
  have ha : ballots.Actionless := by decide +kernel
  have hd : twoBallots.Declares ballots := ⟨by decide +kernel, by decide +kernel, by decide +kernel⟩
  have hc : ∀ f ∈ twoBallots.features, ballotsValidator.counter.count twoBallots f.name ≤ cap := by
    decide +kernel
  have hcounted : ∀ v ∈ ballots.ids, ∀ field ∈ ballots.field? v,
      twoBallotsRun.count (.fire v) = ballotsValidator.counter.count twoBallots field := by
    decide +kernel
  have ht : ballots.Run (ballotsValidator.counter.count twoBallots) twoBallotsRun :=
    ⟨derives_twoBallotsRun, fun v field hf => hcounted v (Rule.mem_ids_of_field? hf) field hf⟩
  have hv : ballots.Visible (fun v => twoBallotsRun.count (.visit v))
      (fun v => twoBallotsRun.count (.fire v)) := by
    decide +kernel
  have he : ballots.Exclusive (fun v => twoBallotsRun.count (.fire v)) := by decide +kernel
  exact ⟨hr, ha, hd, hc, ht, hv, he, (examine_run_iff hr ha hd View.firstChoice () hc ht hv).2 he⟩

/-! ## Runs that are rejected -/

/-- An elementary rule rejects an object although its counts come from a run. -/
structure RejectsRun (V : Validator) (o : Object) (r : Rule) : Prop where
  elementary : r.Elementary
  actionless : r.Actionless
  nonempty : ∀ v ∈ r.ids, r.shape v = .alternative → r.children v ≠ []
  declares : o.Declares r
  bounded : ∀ f ∈ o.features, V.counter.count o f.name ≤ cap
  run : ∃ t, r.Run (V.counter.count o) t
  rejected : (V.examine View.firstChoice o r ()).1.result ≠ .ok []

/-- It is enough that some count is outside the window of its node. -/
theorem examine_ne_of_window (hr : r.Elementary) (hd : o.Declares r)
    (hc : ∀ f ∈ o.features, V.counter.count o f.name ≤ cap)
    (hout : ¬ ∀ t ∈ View.targets ⟨r, o.type⟩,
      (View.window ⟨r, o.type⟩ (V.planned o r).quantities none t.2).admits
        (V.counter.count o t.1) = true) :
    (V.examine View.firstChoice o r ()).1.result ≠ .ok [] := by
  intro hok
  have hall := (examine_uncontested_iff hr.once View.firstChoice () hc
    (early_unguarded hr.unguarded hd V.counter)).1 hok
  refine hout fun t ht => ?_
  rw [← count_planned hd.explicit (hd.declared t.1 (Rule.mem_written.2 ⟨t.2, (View.mem_targets.1 ht).2⟩))]
  exact hall t ht

/-- One or more votes, each for or against. -/
def votes : Rule :=
  ((Rule.ofAdditions "Votes"
    [.root { shape := .group, repeatable := true }, .child 0 { shape := .alternative },
      .child 1 { shape := .assignment "for" },
      .child 1 { shape := .assignment "against" }]).toOption).get (by decide)

/-- A vote for, or a vote against that may be left out. -/
def silentVote : Rule :=
  ((Rule.ofAdditions "Silent"
    [.root { shape := .alternative }, .child 0 { shape := .assignment "for" },
      .child 0 { shape := .assignment "against", optional := true }]).toOption).get (by decide)

def votesValidator : Validator where
  registry := (Registry.empty.register "T" votes).register "T" silentVote

/-- No vote. -/
def noVote : Object :=
  ((Object.empty "T").declare ⟨"for", true, false⟩).declare ⟨"against", true, false⟩

/-- A vote for and a vote against. -/
def bothVotes : Object := (noVote.fill "for" 1).fill "against" 1

theorem derives_votes :
    votes.Derives (.visit 0) [.visit 0, .fire 0, .visit 1, .fire 1, .visit 2, .fire 2,
      .fire 0, .visit 1, .fire 1, .visit 3, .fire 3] := by
  have hchildren : votes.children 0 = [1] := by decide +kernel
  have hround : ∀ c ∈ votes.children 1, ∀ field, votes.shape c = .assignment field →
      votes.Derives (.fire 0) [.fire 0, .visit 1, .fire 1, .visit c, .fire c] := by
    intro c hc field hs
    have h := Rule.Derives.group (r := votes) (v := 0) (fun _ => [.visit 1, .fire 1, .visit c, .fire c])
      (by decide +kernel) (by
        rw [hchildren]
        intro d hd
        rw [List.mem_singleton.1 hd]
        exact .once (.alternative (by decide +kernel) hc (.once (.assignment hs))))
    rw [hchildren] at h
    exact h
  exact .again (by decide +kernel)
    (.once (hround 2 (by decide +kernel) "for" (by decide +kernel)))
    (hround 3 (by decide +kernel) "against" (by decide +kernel))

theorem derives_silentVote : silentVote.Derives (.visit 0) [.visit 0, .fire 0, .visit 2] :=
  .once (.alternative (c := 2) (by decide +kernel) (by decide +kernel) (.skip (by decide +kernel)))

theorem rejectsRun_votes : RejectsRun votesValidator bothVotes votes := by
  have hr : votes.Elementary := ⟨by decide +kernel, by decide +kernel⟩
  have hd : bothVotes.Declares votes := ⟨by decide +kernel, by decide +kernel, by decide +kernel⟩
  have hc : ∀ f ∈ bothVotes.features, votesValidator.counter.count bothVotes f.name ≤ cap := by
    decide +kernel
  refine ⟨hr, by decide +kernel, by decide +kernel, hd, hc, ⟨_, derives_votes, ?_⟩,
    examine_ne_of_window hr hd hc (by decide +kernel)⟩
  intro v field hf
  have hcounted : ∀ v ∈ votes.ids, ∀ field ∈ votes.field? v,
      [Act.visit 0, .fire 0, .visit 1, .fire 1, .visit 2, .fire 2, .fire 0, .visit 1, .fire 1, .visit 3,
        .fire 3].count (.fire v) = votesValidator.counter.count bothVotes field := by
    decide +kernel
  exact hcounted v (Rule.mem_ids_of_field? hf) field hf

theorem rejectsRun_silentVote : RejectsRun votesValidator noVote silentVote := by
  have hr : silentVote.Elementary := ⟨by decide +kernel, by decide +kernel⟩
  have hd : noVote.Declares silentVote := ⟨by decide +kernel, by decide +kernel, by decide +kernel⟩
  have hc : ∀ f ∈ noVote.features, votesValidator.counter.count noVote f.name ≤ cap := by
    decide +kernel
  refine ⟨hr, by decide +kernel, by decide +kernel, hd, hc, ⟨_, derives_silentVote, ?_⟩,
    examine_ne_of_window hr hd hc (by decide +kernel)⟩
  intro v field hf
  have hcounted : ∀ v ∈ silentVote.ids, ∀ field ∈ silentVote.field? v,
      [Act.visit 0, .fire 0, .visit 2].count (.fire v) = votesValidator.counter.count noVote field := by
    decide +kernel
  exact hcounted v (Rule.mem_ids_of_field? hf) field hf

/-- A repeated group may take both branches of an alternative, and a mandatory alternative a branch that is
left out; either is rejected. -/
theorem examine_run_rejected :
    RejectsRun votesValidator bothVotes votes ∧ RejectsRun votesValidator noVote silentVote :=
  ⟨rejectsRun_votes, rejectsRun_silentVote⟩

end RuleCardinality.Validator
