import Mathlib.Data.List.Count
import Mathlib.Data.List.Nodup
import RuleCardinality.Proofs.Rule.Firing

/-!
# Derivations

A derivation of a rule is the list of everything that happens in one run: which nodes are visited and
which of them fire. At each visit a node is skipped, fires once or fires several times, as its
cardinality says; each firing of a group visits all children, and each firing of an alternative visits
one branch, whichever it is at other firings. Counting the visits and firings in the list gives a flow
(`Derives.flow`).
-/

namespace RuleCardinality

/-- What happens in a derivation. -/
inductive Act where
  | visit (v : Nat)
  | fire (v : Nat)
deriving DecidableEq, Repr

namespace Act

variable {v x : Nat} {t : List Act}

@[simp] theorem count_visit_visit :
    (visit v :: t).count (visit x) = t.count (visit x) + if v = x then 1 else 0 := by
  simp [List.count_cons]

@[simp] theorem count_fire_fire :
    (fire v :: t).count (fire x) = t.count (fire x) + if v = x then 1 else 0 := by
  simp [List.count_cons]

end Act

namespace Rule

variable {r : Rule} {due due' done done' : List Act} {v c : Nat}

/-- The acts that one act leads to, itself included. -/
inductive Derives (r : Rule) : Act → List Act → Prop
  | skip {v : Nat} : r.optional v = true → Derives r (.visit v) [.visit v]
  | once {v : Nat} {t : List Act} : Derives r (.fire v) t → Derives r (.visit v) (.visit v :: t)
  | again {v : Nat} {t t' : List Act} : r.repeatable v = true → Derives r (.visit v) t →
      Derives r (.fire v) t' → Derives r (.visit v) (t ++ t')
  | assignment {v : Nat} {field : String} : r.shape v = .assignment field →
      Derives r (.fire v) [.fire v]
  | group {v : Nat} (t : Nat → List Act) : r.shape v = .group →
      (∀ c ∈ r.children v, Derives r (.visit c) (t c)) →
      Derives r (.fire v) (.fire v :: (r.children v).flatMap t)
  | alternative {v c : Nat} {t : List Act} : r.shape v = .alternative → c ∈ r.children v →
      Derives r (.visit c) t → Derives r (.fire v) (.fire v :: t)

theorem Derives.mem_self {a : Act} {t : List Act} (h : r.Derives a t) : a ∈ t := by
  induction h with
  | again _ _ _ ih _ => exact List.mem_append_left _ ih
  | _ => exact List.mem_cons_self

/-- A derivation from the root that fires each assignment as often as its field is counted. -/
structure Run (r : Rule) (count : String → Nat) (t : List Act) : Prop where
  derives : r.Derives (.visit r.root) t
  counted : ∀ v field, r.field? v = some field → t.count (.fire v) = count field

/-! ## Balance -/

/-- The acts done balance the acts that were due: what was visited beyond the visits that were due was
visited by firings, and what fired beyond the firings that were due fired at visits. -/
structure Balanced (r : Rule) (due done : List Act) : Prop where
  root : done.count (.visit r.root) = due.count (.visit r.root)
  fits : ∀ v, r.Fits v (done.count (.fire v)) (done.count (.visit v) + due.count (.fire v))
  group : ∀ {v : Nat}, r.shape v = .group → ∀ c ∈ r.children v,
    done.count (.visit c) = done.count (.fire v) + due.count (.visit c)
  alternative : ∀ {v : Nat}, r.shape v = .alternative →
    sumOf (fun c => done.count (.visit c)) (r.children v) =
      done.count (.fire v) + sumOf (fun c => due.count (.visit c)) (r.children v)

namespace Balanced

theorem nil (r : Rule) : r.Balanced [] [] where
  root := rfl
  fits v := fits_self r v 0
  group _ _ _ := rfl
  alternative _ := by simp

theorem append (h : r.Balanced due done) (h' : r.Balanced due' done') :
    r.Balanced (due ++ due') (done ++ done') := by
  constructor
  case root => rw [List.count_append, List.count_append, h.root, h'.root]
  case fits =>
    intro v
    have hfits := (h.fits v).add (h'.fits v)
    simp only [List.count_append]
    rw [show ∀ a b c d : Nat, a + b + (c + d) = a + c + (b + d) by omega]
    exact hfits
  case group =>
    intro v hs c hc
    have hleft := h.group hs c hc
    have hright := h'.group hs c hc
    simp only [List.count_append]
    omega
  case alternative =>
    intro v hs
    have hleft := h.alternative hs
    have hright := h'.alternative hs
    simp only [List.count_append, sumOf_add]
    omega

theorem flatMap {cs : List Nat} {t : Nat → List Act}
    (h : ∀ c ∈ cs, r.Balanced [.visit c] (t c)) : r.Balanced (cs.map .visit) (cs.flatMap t) := by
  induction cs with
  | nil => exact nil r
  | cons c cs ih =>
    rw [List.map_cons, List.flatMap_cons, ← List.singleton_append]
    exact (h c (by simp)).append (ih fun d hd => h d (by simp [hd]))

/-! ### Acts that are carried out -/

theorem skip (ho : r.optional v = true) : r.Balanced [.visit v] [.visit v] := by
  constructor
  case root => rfl
  case fits =>
    intro x
    refine fits_zero ?_
    intro hx
    have hne : v ≠ x := by
      rintro rfl
      simp [ho] at hx
    simp [hne]
  case group => simp
  case alternative => simp

/-- A visit leaves a firing due. -/
theorem visit (h : r.Balanced [.fire v] done) : r.Balanced [.visit v] (.visit v :: done) := by
  constructor
  case root => simpa using h.root
  case fits =>
    intro x
    have hfits := h.fits x
    simpa using hfits
  case group =>
    intro p hs c hc
    have hgroup := h.group hs c hc
    simpa using hgroup
  case alternative =>
    intro p hs
    have halternative := h.alternative hs
    simpa [sumOf_add] using halternative

/-- A visited node that repeats fires once more without a further visit. -/
theorem again (hrep : r.repeatable v = true) (h : r.Balanced [.visit v] done)
    (hv : .visit v ∈ done) (h' : r.Balanced [.fire v] done') :
    r.Balanced [.visit v] (done ++ done') := by
  have happ := h.append h'
  constructor
  case root => simpa using happ.root
  case fits =>
    intro x
    have hfits := happ.fits x
    by_cases hx : v = x
    · subst hx
      have hpos : 0 < (done ++ done').count (.visit v) :=
        List.count_pos_iff.2 (List.mem_append_left _ hv)
      refine Fits.fewer ?_ hrep hpos
      simpa using hfits
    · simpa [hx] using hfits
  case group =>
    intro p hs c hc
    have hgroup := happ.group hs c hc
    simpa using hgroup
  case alternative =>
    intro p hs
    have halternative := happ.alternative hs
    simpa [sumOf_add] using halternative

theorem assignment {field : String} (hs : r.shape v = .assignment field) :
    r.Balanced [.fire v] [.fire v] := by
  have hne : ∀ {p}, r.shape p = .group ∨ r.shape p = .alternative → v ≠ p := by
    rintro p hp rfl
    simp [hs] at hp
  constructor
  case root => rfl
  case fits =>
    intro x
    simpa using fits_self r x (if v = x then 1 else 0)
  case group =>
    intro p hp c _
    simp [hne (.inl hp)]
  case alternative =>
    intro p hp
    simp [hne (.inr hp)]

/-- A firing leaves visits due: to the children of a group, or to a branch of an alternative. -/
theorem fire (h : r.Balanced due done) (hroot : due.count (.visit r.root) = 0)
    (hfire : ∀ x, due.count (.fire x) = 0)
    (hgroup : ∀ {p : Nat}, r.shape p = .group → ∀ c ∈ r.children p,
      due.count (.visit c) = if v = p then 1 else 0)
    (halternative : ∀ {p : Nat}, r.shape p = .alternative →
      sumOf (fun c => due.count (.visit c)) (r.children p) = if v = p then 1 else 0) :
    r.Balanced [.fire v] (.fire v :: done) := by
  constructor
  case root => simp [h.root, hroot]
  case fits =>
    intro x
    have hfits := (h.fits x).add (fits_self r x (if v = x then 1 else 0))
    rw [hfire] at hfits
    simpa using hfits
  case group =>
    intro p hs c hc
    have hvisits := h.group hs c hc
    rw [hgroup hs c hc] at hvisits
    simpa using hvisits
  case alternative =>
    intro p hs
    have hvisits := h.alternative hs
    rw [halternative hs] at hvisits
    simpa using hvisits

theorem fire_group (hs : r.shape v = .group) (h : r.Balanced ((r.children v).map .visit) done) :
    r.Balanced [.fire v] (.fire v :: done) := by
  have hcount : ∀ x, ((r.children v).map Act.visit).count (.visit x) = (r.children v).count x :=
    fun x => List.count_map_of_injective _ _ (fun _ _ he => Act.visit.inj he) x
  have hother : ∀ {p c : Nat}, v ≠ p → c ∈ r.children p → (r.children v).count c = 0 := by
    intro p c hne hc
    refine List.count_eq_zero.2 fun hcv => hne ?_
    exact Option.some.inj ((mem_children.1 hcv).symm.trans (mem_children.1 hc))
  refine h.fire ?_ ?_ ?_ ?_
  · rw [hcount]
    refine List.count_eq_zero.2 fun hroot => ?_
    simp [mem_children, container_root] at hroot
  · intro x
    exact List.count_eq_zero.2 (by simp)
  · intro p _ c hc
    rw [hcount]
    split
    · rename_i he
      exact List.count_eq_one_of_mem (nodup_children r v) (he ▸ hc)
    · rename_i hne
      exact hother hne hc
  · intro p hp
    have hne : v ≠ p := by
      rintro rfl
      simp [hs] at hp
    rw [if_neg hne, sumOf_eq_zero_iff]
    intro c hc
    rw [hcount]
    exact hother hne hc

theorem fire_alternative (hs : r.shape v = .alternative) (hc : c ∈ r.children v)
    (h : r.Balanced [.visit c] done) : r.Balanced [.fire v] (.fire v :: done) := by
  have hmem : ∀ {p : Nat}, c ∈ r.children p ↔ v = p := by
    intro p
    rw [mem_children, mem_children.1 hc, Option.some.injEq]
  refine h.fire ?_ ?_ ?_ ?_
  · have hne : c ≠ r.root := by
      rintro rfl
      simp [mem_children, container_root] at hc
    simp [hne]
  · simp
  · intro p hp d hd
    have hne : v ≠ p := by
      rintro rfl
      simp [hs] at hp
    have hcd : c ≠ d := by
      rintro rfl
      exact hne (hmem.1 hd)
    simp [hne, hcd]
  · intro p _
    have hsum := sumOf_ite_eq (nodup_children r p) c
    simp only [hmem] at hsum
    simpa using hsum

end Balanced

/-! ## Counting -/

theorem Derives.balanced {a : Act} {t : List Act} (h : r.Derives a t) : r.Balanced [a] t := by
  induction h with
  | skip ho => exact .skip ho
  | once _ ih => exact ih.visit
  | again hrep h _ ih ih' => exact ih.again hrep h.mem_self ih'
  | assignment hs => exact .assignment hs
  | group t hs _ ih => exact .fire_group hs (.flatMap ih)
  | alternative hs hc _ ih => exact .fire_alternative hs hc ih

/-- The visits and firings of a derivation are a flow. -/
theorem Derives.flow {t : List Act} (h : r.Derives (.visit r.root) t) :
    r.Flow (fun v => t.count (.visit v)) (fun v => t.count (.fire v)) := by
  have hbalanced := h.balanced
  have hroot : ∀ {v c : Nat}, c ∈ r.children v → r.root ≠ c := by
    rintro v c hc rfl
    simp [mem_children, container_root] at hc
  constructor
  case root => simpa using hbalanced.root
  case fits =>
    intro v _
    simpa using hbalanced.fits v
  case group =>
    intro v hs c hc
    simpa [hroot hc] using hbalanced.group hs c hc
  case alternative =>
    intro v hs
    have hsum : sumOf (fun c => [Act.visit r.root].count (.visit c)) (r.children v) = 0 := by
      rw [sumOf_eq_zero_iff]
      intro c hc
      simp [hroot hc]
    rw [hbalanced.alternative hs, hsum, Nat.add_zero]

end Rule

end RuleCardinality
