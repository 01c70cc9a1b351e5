/-!
# Odometers

A loop over joint splits keeps the place of each field in its list of splits. To come to the next joint
split it moves the places on like the dials of an odometer, the last one fastest. `movesLeft` bounds how
often it can do so (`movesLeft_carry_lt`), whatever the places are.
-/

namespace RuleCardinality.Odometer

/-- Moves the places on (distributor.rs:200-211): of those before `pos` the last one that is not at its
end goes up by one, and the ones behind it go back to 0. If all are at their ends nothing is left. -/
def carry (sizes : List Nat) : Nat → List Nat → Option (List Nat)
  | 0, _ => none
  | pos + 1, places =>
    let i := places.getD pos 0 + 1
    if i < sizes.getD pos 0 then some (places.set pos i) else carry sizes pos (places.set pos 0)

/-- More than dials of these sizes can move before all of them are at their ends. -/
def span : List Nat → Nat
  | [] => 1
  | n :: ns => (n + 1) * span ns

def movesLeft : List Nat → List Nat → Nat
  | n :: ns, i :: is => (n - i) * span ns + movesLeft ns is
  | _, _ => 0

theorem carry_succ (sizes : List Nat) (pos : Nat) (places : List Nat) :
    carry sizes (pos + 1) places =
      if places.getD pos 0 + 1 < sizes.getD pos 0 then some (places.set pos (places.getD pos 0 + 1))
      else carry sizes pos (places.set pos 0) := rfl

theorem carry_nil (pos : Nat) (places : List Nat) : carry [] pos places = none := by
  induction pos generalizing places with
  | zero => rfl
  | succ pos ih => simp [carry, ih]

/-- The places with the first ones back at 0. -/
def rewind (pos : Nat) (places : List Nat) : List Nat := List.replicate pos 0 ++ places.drop pos

theorem rewind_set {pos : Nat} {places : List Nat} (hpos : pos < places.length) :
    rewind pos (places.set pos 0) = rewind (pos + 1) places := by
  have hdrop : (places.set pos 0).drop pos = 0 :: places.drop (pos + 1) := by
    rw [List.drop_eq_getElem_cons (by simpa using hpos), List.getElem_set_self,
      List.drop_set_of_lt (Nat.lt_succ_self pos)]
  unfold rewind
  rw [hdrop, List.replicate_succ', List.append_assoc, List.singleton_append]

/-- The first place moves if no other one can. -/
theorem carry_cons {n i pos : Nat} {ns is : List Nat} (hpos : pos ≤ is.length) :
    carry (n :: ns) (pos + 1) (i :: is) =
      ((carry ns pos is).map (i :: ·)).or
        (if i + 1 < n then some ((i + 1) :: rewind pos is) else none) := by
  induction pos generalizing is with
  | zero => rfl
  | succ pos ih =>
    rw [carry_succ (n :: ns), carry_succ ns, List.getD_cons_succ, List.getD_cons_succ,
      List.set_cons_succ, List.set_cons_succ]
    split
    · rfl
    · rw [ih (by simpa using Nat.le_of_succ_le hpos), rewind_set hpos]

theorem movesLeft_lt_span (ns is : List Nat) : movesLeft ns is < span ns := by
  induction ns generalizing is with
  | nil => exact Nat.one_pos
  | cons n ns ih =>
    rw [span, Nat.succ_mul]
    cases is with
    | nil => exact Nat.lt_of_le_of_lt (Nat.zero_le _) (Nat.lt_add_left _ (ih []))
    | cons i is =>
      exact Nat.add_lt_add_of_le_of_lt (Nat.mul_le_mul_right _ (Nat.sub_le n i)) (ih is)

/-- Every move leaves fewer moves. -/
theorem movesLeft_carry_lt {sizes places next : List Nat}
    (h : carry sizes places.length places = some next) :
    movesLeft sizes next < movesLeft sizes places := by
  induction places generalizing sizes next with
  | nil => exact absurd h (by simp [carry])
  | cons i is ih =>
    cases sizes with
    | nil => exact absurd h (by simp [carry_nil])
    | cons n ns =>
      rw [List.length_cons, carry_cons (Nat.le_refl _)] at h
      cases hlater : carry ns is.length is with
      | some later =>
        obtain rfl : i :: later = next := by simpa [hlater] using h
        exact Nat.add_lt_add_left (ih hlater) _
      | none =>
        obtain ⟨hlt, rfl⟩ : i + 1 < n ∧ (i + 1) :: rewind is.length is = next := by
          simpa [hlater] using h
        -- One round of the first place is worth more than all moves of the others.
        have hrest := movesLeft_lt_span ns (rewind is.length is)
        have hsub : n - i = n - (i + 1) + 1 := by omega
        rw [movesLeft, movesLeft, hsub, Nat.succ_mul]
        omega

end RuleCardinality.Odometer
