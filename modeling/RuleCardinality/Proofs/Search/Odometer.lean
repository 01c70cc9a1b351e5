import Mathlib.Data.List.Forall2
import RuleCardinality.Search.Odometer

/-!
# An odometer comes to all places in order

`onward` lists the places that lie before an odometer, one dial inside the other. Where every dial stands
on one of its places, the list begins with these and goes on from what `carry` moves them to
(`onward_eq`). From zero the odometer comes to each place of the first dial in turn, and there to all
places of the others (`onward_zero`).
-/

namespace RuleCardinality.Odometer

variable {sizes places next : List Nat}

/-- The places from some on: the other dials go on from where they are, and then once more from zero for
each further place of the first one. -/
def onward : List Nat → List Nat → List (List Nat)
  | n :: ns, i :: is =>
    (onward ns is).map (i :: ·) ++
      (List.range' (i + 1) (n - (i + 1))).flatMap fun j =>
        (onward ns (List.replicate ns.length 0)).map (j :: ·)
  | _, _ => [[]]

/-- Every dial stands on one of its places. -/
abbrev Within (sizes places : List Nat) : Prop := List.Forall₂ (· < ·) places sizes

theorem within_zero (h : ∀ n ∈ sizes, 0 < n) : Within sizes (List.replicate sizes.length 0) := by
  induction sizes with
  | nil => exact .nil
  | cons n ns ih => exact .cons (h n (by simp)) (ih fun m hm => h m (by simp [hm]))

theorem Within.pos (h : Within sizes places) : ∀ n ∈ sizes, 0 < n := by
  induction h with
  | nil => simp
  | @cons i n is ns hi his ih => exact List.forall_mem_cons.2 ⟨Nat.zero_lt_of_lt hi, ih⟩

theorem Within.rewind (h : Within sizes places) :
    rewind places.length places = List.replicate sizes.length 0 := by
  simp [Odometer.rewind, h.length_eq]

theorem Within.carry (h : Within sizes places)
    (hnext : carry sizes places.length places = some next) : Within sizes next := by
  induction h generalizing next with
  | nil => exact absurd hnext (by simp [Odometer.carry])
  | @cons i n is ns hi his ih =>
    rw [List.length_cons, carry_cons (Nat.le_refl _), Within.rewind his] at hnext
    cases hlater : Odometer.carry ns is.length is with
    | some later =>
      obtain rfl : i :: later = next := by simpa [hlater] using hnext
      exact .cons hi (ih hlater)
    | none =>
      obtain ⟨hlt, rfl⟩ : i + 1 < n ∧ (i + 1) :: List.replicate ns.length 0 = next := by
        simpa [hlater] using hnext
      exact .cons hlt (within_zero (Within.pos his))

theorem Within.of_mem_onward {later : List Nat} (h : Within sizes places)
    (hl : later ∈ onward sizes places) : Within sizes later := by
  induction sizes generalizing places later with
  | nil =>
    cases h
    obtain rfl := List.mem_singleton.1 hl
    exact .nil
  | cons n ns ih =>
    cases h with
    | @cons i _ is _ hi his =>
      rw [onward, List.mem_append, List.mem_map, List.mem_flatMap] at hl
      rcases hl with ⟨rest, hrest, rfl⟩ | ⟨j, hj, hl⟩
      · exact .cons hi (ih his hrest)
      · obtain ⟨rest, hrest, rfl⟩ := List.mem_map.1 hl
        have hlt : j < n := by
          have := List.mem_range'_1.1 hj
          omega
        exact .cons hlt (ih (within_zero (Within.pos his)) hrest)

/-- After the places themselves come those that they are moved to. -/
theorem onward_eq (h : Within sizes places) :
    onward sizes places = places :: (carry sizes places.length places).elim [] (onward sizes) := by
  induction h with
  | nil => rfl
  | @cons i n is ns hi his ih =>
    rw [List.length_cons, carry_cons (Nat.le_refl _), Within.rewind his, onward, ih]
    cases hlater : Odometer.carry ns is.length is with
    | some later => rfl
    | none =>
      by_cases hlt : i + 1 < n
      · -- The first dial moves, and the others are back at zero.
        have hrange : List.range' (i + 1) (n - (i + 1)) =
            (i + 1) :: List.range' (i + 1 + 1) (n - (i + 1 + 1)) := by
          rw [← List.range'_succ]
          congr 1
          omega
        rw [if_pos hlt, hrange]
        simp [onward]
      · rw [if_neg hlt, Nat.sub_eq_zero_of_le (Nat.le_of_not_lt hlt)]
        simp

theorem onward_zero {n : Nat} (hn : 0 < n) (sizes : List Nat) :
    onward (n :: sizes) (List.replicate (n :: sizes).length 0) =
      (List.range n).flatMap fun i =>
        (onward sizes (List.replicate sizes.length 0)).map (i :: ·) := by
  obtain ⟨m, rfl⟩ := Nat.exists_eq_succ_of_ne_zero (Nat.ne_of_gt hn)
  rw [List.length_cons, List.replicate_succ, onward, List.range_eq_range', List.range'_succ,
    List.flatMap_cons]
  simp

end RuleCardinality.Odometer
