import Mathlib.Order.Interval.Finset.Nat
import RuleCardinality.Proofs.Search.Words

/-!
# Every candidate holds as many tickets as its violation

The ticket drawn in a step is compared with the violation of one candidate after the other, and the violations
of those that are passed are subtracted from it. Done with words (`walk?`), this never goes below zero, and it
stops at the candidate that `holder` finds (`exists_walk?`). It stops at a candidate for the tickets that follow
those of the candidates before it (`walk?_eq_iff`), so the tickets are dealt out in the order of the candidates,
each one's share being its violation (`stops_eq`). No ticket below the sum is left over, so a step repairs the
candidate that its ticket belongs to and never falls back on the first one (`step_weighted`).
-/

namespace RuleCardinality

/-- The difference of two words; nothing if it would be below zero. -/
def wordSub? (a b : Nat) : Option Nat := if b ≤ a then some (a - b) else none

theorem wordSub?_eq {a b : Nat} (h : b ≤ a) : wordSub? a b = some (a - b) := if_pos h

namespace View

variable {σ : Type} {cs : List Candidate} {c : Candidate} {ticket i : Nat}

/-! ## The walk for a ticket -/

/-- The walk over the candidates for a ticket: the place of the candidate where it stops, or no place if it runs
off the end. It fails if a subtraction on the way goes below zero. -/
def walk? : List Candidate → Nat → Option (Option Nat)
  | [], _ => some none
  | c :: cs, ticket =>
    if ticket < c.violation then some (some 0)
    else do
      let rest ← wordSub? ticket c.violation
      (walk? cs rest).map (Option.map (· + 1))

theorem walk?_of_lt (h : ticket < c.violation) (cs : List Candidate) :
    walk? (c :: cs) ticket = some (some 0) := by
  rw [walk?, if_pos h]

/-- A ticket that the first candidate does not hold is looked for among the others, less its violation. -/
theorem walk?_of_le (h : c.violation ≤ ticket) (cs : List Candidate) :
    walk? (c :: cs) ticket = (walk? cs (ticket - c.violation)).map (Option.map (· + 1)) := by
  rw [walk?, if_neg (Nat.not_lt_of_le h), wordSub?_eq h]
  rfl

/-- No walk goes below zero, and it stops at the holder of the ticket. -/
theorem exists_walk? (cs : List Candidate) (ticket : Nat) :
    ∃ place, walk? cs ticket = some place ∧ holder cs ticket = place.bind fun i => cs[i]? := by
  induction cs generalizing ticket with
  | nil => exact ⟨none, rfl, rfl⟩
  | cons c cs ih =>
    unfold holder
    by_cases h : ticket < c.violation
    · exact ⟨some 0, walk?_of_lt h cs, by rw [if_pos h]; rfl⟩
    · obtain ⟨place, hwalk, hholder⟩ := ih (ticket - c.violation)
      refine ⟨place.map (· + 1), ?_, ?_⟩
      · rw [walk?_of_le (Nat.le_of_not_lt h), hwalk]
        rfl
      · rw [if_neg h, hholder]
        cases place <;> rfl

/-- For every ticket below the sum the walk stops. -/
theorem exists_stop (h : ticket < tickets cs) :
    ∃ (i : Nat) (hi : i < cs.length), walk? cs ticket = some (some i) ∧ holder cs ticket = some cs[i] := by
  obtain ⟨place, hwalk, hholder⟩ := exists_walk? cs ticket
  obtain ⟨c, hc⟩ := exists_holder h
  rw [hholder] at hc
  obtain ⟨i, rfl, hi⟩ := Option.bind_eq_some_iff.1 hc
  obtain ⟨hlt, rfl⟩ := List.getElem?_eq_some_iff.1 hi
  exact ⟨i, hlt, hwalk, hholder.trans hc⟩

/-! ## The tickets of a candidate -/

theorem tickets_cons (c : Candidate) (cs : List Candidate) :
    tickets (c :: cs) = c.violation + tickets cs := rfl

theorem tickets_take_succ (h : i < cs.length) :
    tickets (cs.take (i + 1)) = tickets (cs.take i) + cs[i].violation := by
  unfold tickets
  rw [List.take_succ_eq_append_getElem h, sumOf_append]
  rfl

theorem tickets_take_le (cs : List Candidate) (i : Nat) : tickets (cs.take i) ≤ tickets cs := by
  have hsplit : tickets (cs.take i) + tickets (cs.drop i) = tickets cs := by
    unfold tickets
    rw [← sumOf_append, List.take_append_drop]
  omega

/-- The walk stops at a candidate for the tickets that follow those of the candidates before it. -/
theorem walk?_eq_iff :
    walk? cs ticket = some (some i) ↔
      tickets (cs.take i) ≤ ticket ∧ ticket < tickets (cs.take (i + 1)) := by
  induction cs generalizing ticket i with
  | nil =>
    rw [List.take_nil, List.take_nil]
    exact iff_of_false (by simp [walk?]) fun h => absurd h.1 (Nat.not_le_of_lt h.2)
  | cons c cs ih =>
    by_cases h : ticket < c.violation
    · rw [walk?_of_lt h]
      cases i with
      | zero =>
        rw [List.take_succ_cons, List.take_zero, tickets_cons]
        exact iff_of_true rfl ⟨Nat.zero_le ticket, h⟩
      | succ i =>
        rw [List.take_succ_cons, tickets_cons]
        exact iff_of_false (by simp) (by omega)
    · rw [walk?_of_le (Nat.le_of_not_lt h)]
      cases i with
      | zero =>
        rw [List.take_succ_cons, List.take_zero, tickets_cons]
        exact iff_of_false (by simp) fun hlt => h hlt.2
      | succ i =>
        have hplace : (walk? cs (ticket - c.violation)).map (Option.map (· + 1)) = some (some (i + 1)) ↔
            walk? cs (ticket - c.violation) = some (some i) := by
          simp
        rw [hplace, ih, List.take_succ_cons, List.take_succ_cons, tickets_cons, tickets_cons]
        omega

/-- Those of all tickets for which the walk stops at the candidate in a place. -/
def stops (cs : List Candidate) (i : Nat) : Finset Nat :=
  (Finset.range (tickets cs)).filter fun ticket => walk? cs ticket = some (some i)

theorem stops_eq (cs : List Candidate) (i : Nat) :
    stops cs i = Finset.Ico (tickets (cs.take i)) (tickets (cs.take (i + 1))) := by
  have hle := tickets_take_le cs (i + 1)
  ext ticket
  unfold stops
  rw [Finset.mem_filter, Finset.mem_range, Finset.mem_Ico, walk?_eq_iff]
  omega

theorem card_stops (h : i < cs.length) : (stops cs i).card = cs[i].violation := by
  rw [stops_eq, Nat.card_Ico, tickets_take_succ h, Nat.add_sub_cancel_left]

/-! ## The choice of a step -/

/-- Candidates outside their windows whose violations add up to a word leave at least one ticket to draw. Of all
tickets each candidate stops the walk for as many as its violation, and these follow without a gap on those of
the candidates before it. For every ticket the walk stops, without a subtraction below zero, at a candidate; this
candidate is chosen, and the first one never takes its place. A step for these candidates repairs the one among
whose tickets is the one drawn. -/
theorem step_weighted {cs : List Candidate} (hne : cs ≠ []) (hpos : ∀ c ∈ cs, 0 < c.violation)
    (hfits : tickets cs < 2 ^ 64) :
    wordSum? (cs.map Candidate.violation) = some (tickets cs) ∧ 0 < tickets cs ∧
      (∀ (i : Nat) (hi : i < cs.length),
        (stops cs i).card = cs[i].violation ∧
          stops cs i = Finset.Ico (tickets (cs.take i)) (tickets (cs.take (i + 1)))) ∧
      (∀ ticket < tickets cs, ∃ (i : Nat) (hi : i < cs.length),
        walk? cs ticket = some (some i) ∧ (holder cs ticket).or cs.head? = some cs[i]) ∧
      ∀ (w : View) (damped : Nat → Nat) (ch : Chooser σ) (rivals : List (String × List Nat))
        (q : Quantities) (s : σ), candidates q (w.survey q rivals) = cs →
        ∃ (ht : 0 < tickets cs) (i : Nat) (hi : i < cs.length),
          ((ch.pick (tickets cs) ht s).1 : Nat) ∈ stops cs i ∧
            w.step damped ch rivals q s =
              some (w.repair damped ch (limits (w.survey q rivals)) cs[i] q
                (ch.pick (tickets cs) ht s).2) := by
  have hsum : (cs.map Candidate.violation).sum = tickets cs := (sumOf_eq_sum _ _).symm
  obtain ⟨c, hc⟩ := List.exists_mem_of_ne_nil cs hne
  have ht : 0 < tickets cs := Nat.lt_of_lt_of_le (hpos c hc) (le_sumOf (f := Candidate.violation) hc)
  refine ⟨by rw [wordSum?_eq (by rwa [hsum]), hsum], ht, fun i hi => ⟨card_stops hi, stops_eq cs i⟩,
    fun ticket hticket => ?_, ?_⟩
  · obtain ⟨i, hi, hwalk, hholder⟩ := exists_stop hticket
    exact ⟨i, hi, hwalk, by rw [hholder]; rfl⟩
  · rintro w damped ch rivals q s rfl
    have hdrawn := (ch.pick (tickets (candidates q (w.survey q rivals))) ht s).1.2
    obtain ⟨i, hi, hwalk, hholder⟩ := exists_stop hdrawn
    refine ⟨ht, i, hi, Finset.mem_filter.2 ⟨Finset.mem_range.2 hdrawn, hwalk⟩, ?_⟩
    rcases step_cases w damped ch rivals q s with ⟨hzero, -⟩ | ⟨_, c, hfound, hstep⟩
    · exact absurd hzero (Nat.pos_iff_ne_zero.1 ht)
    · rw [hstep, Option.some.inj (hfound.symm.trans hholder)]

/-! Of three assignments in an optional group one may be missing; of six values it has two and the first has
four. -/

/-- Two assignments of a field and perhaps a third, or nothing. -/
def optionalTriple : Rule :=
  ((Rule.ofAdditions "Triple"
    [.root { shape := .group, optional := true }, .child 0 { shape := .assignment "f" },
      .child 0 { shape := .assignment "f" },
      .child 0 { shape := .assignment "f", optional := true }]).toOption).get (by decide +kernel)

/-- Four values, none and two. -/
def fourAndTwo : Quantities :=
  (((Quantities.empty.record "f" 6).assign 1 4).assign 2 0).assign 3 2

/-- The chooser that draws the last ticket. -/
def lastChoice : Chooser Unit := ⟨fun n h s => (⟨n - 1, Nat.sub_lt h Nat.one_pos⟩, s)⟩

theorem step_weighted_triple :
    let w : View := ⟨optionalTriple, "T"⟩
    let survey := w.survey fourAndTwo [("f", [1, 2, 3])]
    let cs := candidates fourAndTwo survey
    cs ≠ [] ∧ (∀ c ∈ cs, 0 < c.violation) ∧ tickets cs = 10 ∧
      cs.map (fun c => (c.node, c.violation)) = [(1, 4), (2, 4), (3, 2)] ∧
      stops cs 1 = Finset.Ico 4 8 ∧ stops cs 2 = Finset.Ico 8 10 ∧
      ∃ (i : Nat) (hi : i < cs.length), 9 ∈ stops cs i ∧
        w.step id lastChoice [("f", [1, 2, 3])] fourAndTwo () =
          some (w.repair id lastChoice (limits survey) cs[i] fourAndTwo ()) := by
  intro w survey cs
  have hcs : cs.map (fun c => (c.node, c.violation)) = [(1, 4), (2, 4), (3, 2)] := by decide +kernel
  have hlength : cs.length = 3 := by decide +kernel
  have htickets : tickets cs = 10 := by decide +kernel
  have hone : tickets (cs.take 1) = 4 := by decide +kernel
  have htwo : tickets (cs.take 2) = 8 := by decide +kernel
  have hthree : tickets (cs.take 3) = 10 := by decide +kernel
  have hne : cs ≠ [] := List.ne_nil_of_length_pos (by omega)
  have hpos : ∀ c ∈ cs, 0 < c.violation := by decide +kernel
  obtain ⟨-, -, hstops, -, hstep⟩ := step_weighted hne hpos (htickets ▸ by decide)
  obtain ⟨_, i, hi, hdrawn, hrepair⟩ := hstep w id lastChoice [("f", [1, 2, 3])] fourAndTwo () rfl
  refine ⟨hne, hpos, htickets, hcs, ?_, ?_, i, hi, ?_, hrepair⟩
  · rw [(hstops 1 (by omega)).2, hone, htwo]
  · rw [(hstops 2 (by omega)).2, htwo, hthree]
  · have hlast : ((lastChoice.pick (tickets cs) (by omega) ()).1 : Nat) = 9 := by
      show tickets cs - 1 = 9
      omega
    rwa [← hlast]

end View

end RuleCardinality
