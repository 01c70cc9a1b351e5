import RuleCardinality.Proofs.Search.Transfer
import RuleCardinality.Proofs.Window

/-!
# Transfers keep to the windows while they can

A transfer first goes over the siblings one by one. Such a pass moves at each sibling what its window
allows, so all siblings together move what their windows allow together, as far as it is wanted
(`rest_foldl`). Where that covers what is wanted, nothing is left to be chosen at random: no choice is made,
no sibling falls below its minimum for `pull`, and none rises over its maximum for `push`
(`transfer_within`).
-/

namespace RuleCardinality.View

variable {σ : Type} {limits : Nat → Window} {vs : List Nat} {t : Transfer} {q : Quantities}
  {wanted : Nat}

/-! ## One pass -/

/-- A pass over distinct nodes, in which each of them moves an amount that depends on its share, moves all
these amounts, as far as they are wanted. -/
theorem rest_foldl {step : Transfer → Nat → Transfer} (amount : Nat → Nat → Nat)
    (hrest : ∀ t v, (step t v).2 = t.2 - amount v (t.1.share v))
    (hother : ∀ t v x, x ≠ v → (step t v).1.share x = t.1.share x) (hn : vs.Nodup) (t : Transfer) :
    (vs.foldl step t).2 = t.2 - sumOf (fun v => amount v (t.1.share v)) vs := by
  induction vs generalizing t with
  | nil => rfl
  | cons v vs ih =>
    obtain ⟨hv, hn⟩ := List.nodup_cons.1 hn
    have hsame : sumOf (fun x => amount x ((step t v).1.share x)) vs =
        sumOf (fun x => amount x (t.1.share x)) vs := sumOf_congr fun x hx => by
      rw [hother t v x fun e => hv (e ▸ hx)]
    rw [List.foldl_cons, ih hn, hrest, hsame, sumOf_cons, Nat.sub_sub]

theorem descending_perm (measure : Nat → Nat) (nodes : List Nat) :
    (descending measure nodes).Perm nodes := by
  unfold descending
  exact List.mergeSort_perm _ _

/-! ## Taking -/

/-- Takes from a node what its window spares, while something is wanted. -/
def spare (limits : Nat → Window) (t : Transfer) (v : Nat) : Transfer :=
  if t.2 = 0 then t else draw (limits v).surplus t v

/-- The siblings are asked for what they can spare before any of them is chosen at random. -/
theorem pull_eq (ch : Chooser σ) (limits : Nat → Window) (vs : List Nat) (q : Quantities) (wanted : Nat)
    (s : σ) :
    pull ch limits vs q wanted s =
      let order := descending (fun v => (limits v).surplus (q.share v)) vs
      drain ch order (order.foldl (spare limits) (q, wanted)) s :=
  rfl

theorem drain_of_zero (ch : Chooser σ) (vs : List Nat) (ht : t.2 = 0) (s : σ) :
    drain ch vs t s = (t, s) := by
  cases vs with
  | nil => rw [drain]
  | cons v vs => rw [drain, if_pos ht]

theorem rest_spare (limits : Nat → Window) (t : Transfer) (v : Nat) :
    (spare limits t v).2 = t.2 - (limits v).surplus (t.1.share v) := by
  unfold spare draw
  split
  · omega
  · simp only
    omega

theorem share_spare_ne (limits : Nat → Window) (t : Transfer) (v x : Nat) (hx : x ≠ v) :
    (spare limits t v).1.share x = t.1.share x := by
  unfold spare
  split
  · rfl
  · exact Quantities.share_assign_ne hx

/-- Sparing keeps every share at its minimum, or where it was below. -/
theorem min_le_share_spare (limits : Nat → Window) (t : Transfer) (v x : Nat) :
    min (t.1.share x) (limits x).min.value ≤ (spare limits t v).1.share x := by
  by_cases hx : x = v
  · subst hx
    unfold spare
    split
    · exact Nat.min_le_left _ _
    · unfold draw
      rw [Quantities.share_assign_self]
      exact Window.min_le_sub (Nat.min_le_left _ _)
  · rw [share_spare_ne limits t v x hx]
    exact Nat.min_le_left _ _

theorem min_le_share_foldl_spare (limits : Nat → Window) (vs : List Nat) (t : Transfer) (x : Nat) :
    min (t.1.share x) (limits x).min.value ≤ (vs.foldl (spare limits) t).1.share x := by
  refine List.foldlRecOn (motive := fun t' : Transfer =>
    min (t.1.share x) (limits x).min.value ≤ t'.1.share x) vs _ (Nat.min_le_left _ _) fun t' ih v _ => ?_
  have hstep := min_le_share_spare limits t' v x
  omega

/-- Where the siblings can spare what is wanted, none is chosen at random. -/
theorem pull_of_surplus (ch : Chooser σ) (hn : vs.Nodup)
    (hwanted : wanted ≤ sumOf (fun v => (limits v).surplus (q.share v)) vs) (s : σ) :
    (pull ch limits vs q wanted s).2 = s ∧
      ∀ v, min (q.share v) (limits v).min.value ≤ (pull ch limits vs q wanted s).1.1.share v := by
  rw [pull_eq]
  simp only
  set order := descending (fun v => (limits v).surplus (q.share v)) vs
  have horder : order.Perm vs := descending_perm _ vs
  have hrest : (order.foldl (spare limits) (q, wanted)).2 = 0 := by
    rw [rest_foldl (fun v => (limits v).surplus) (rest_spare limits) (share_spare_ne limits)
      (horder.nodup_iff.2 hn), sumOf_perm horder]
    exact Nat.sub_eq_zero_of_le hwanted
  rw [drain_of_zero ch order hrest]
  exact ⟨rfl, min_le_share_foldl_spare limits order (q, wanted)⟩

/-! ## Giving -/

/-- Gives to a node what its window has room for, while something is to be given. -/
def top (limits : Nat → Window) (t : Transfer) (v : Nat) : Transfer :=
  if t.2 = 0 then t else pour (limits v).headroom t v

theorem give_eq (limits : Nat → Window) (vs : List Nat) (t : Transfer) :
    give limits vs t =
      (descending (fun v => (limits v).headroom (t.1.share v)) vs).foldl (top limits) t :=
  rfl

theorem rest_top (limits : Nat → Window) (t : Transfer) (v : Nat) :
    (top limits t v).2 = t.2 - (limits v).headroom (t.1.share v) := by
  unfold top pour
  split
  · omega
  · simp only
    omega

theorem share_top_ne (limits : Nat → Window) (t : Transfer) (v x : Nat) (hx : x ≠ v) :
    (top limits t v).1.share x = t.1.share x := by
  unfold top
  split
  · rfl
  · exact Quantities.share_assign_ne hx

/-- A share that is raised keeps to its maximum. -/
theorem share_top (limits : Nat → Window) (t : Transfer) (v x : Nat) :
    (top limits t v).1.share x = t.1.share x ∨ .finite ((top limits t v).1.share x) ≤ (limits x).max := by
  by_cases hx : x = v
  · subst hx
    unfold top
    split
    · exact .inl rfl
    · unfold pour
      rw [Quantities.share_assign_self]
      exact Window.add_le_max (Nat.min_le_left _ _)
  · exact .inl (share_top_ne limits t v x hx)

theorem share_give (limits : Nat → Window) (vs : List Nat) (t : Transfer) (x : Nat) :
    (give limits vs t).1.share x = t.1.share x ∨ .finite ((give limits vs t).1.share x) ≤ (limits x).max := by
  rw [give_eq]
  refine List.foldlRecOn (motive := fun t' : Transfer =>
    t'.1.share x = t.1.share x ∨ .finite (t'.1.share x) ≤ (limits x).max) _ _ (.inl rfl) fun t' ih v _ => ?_
  rcases share_top limits t' v x with hsame | hle
  · rwa [hsame]
  · exact .inr hle

theorem rest_give (hn : vs.Nodup) (limits : Nat → Window) (t : Transfer) :
    (give limits vs t).2 = t.2 - sumOf (fun v => (limits v).headroom (t.1.share v)) vs := by
  have horder := descending_perm (fun v => (limits v).headroom (t.1.share v)) vs
  rw [give_eq, rest_foldl (fun v => (limits v).headroom) (rest_top limits) (share_top_ne limits)
    (horder.nodup_iff.2 hn), sumOf_perm horder]

theorem give_of_zero (limits : Nat → Window) (vs : List Nat) (ht : t.2 = 0) : give limits vs t = t := by
  rw [give_eq]
  refine List.foldlRecOn (motive := fun t' => t' = t) _ _ rfl fun t' ih v _ => ?_
  rw [ih]
  exact if_pos ht

/-- Where the windows of the siblings have room for what is wanted, neither are their hard windows asked nor
is one of them chosen at random. -/
theorem push_of_headroom (ch : Chooser σ) (hard : Nat → Window) (hn : vs.Nodup)
    (hwanted : wanted ≤ sumOf (fun v => (limits v).headroom (q.share v)) vs) (s : σ) :
    push ch limits hard vs q wanted s = (give limits vs (q, wanted), s) := by
  have hrest : (give limits vs (q, wanted)).2 = 0 := by
    rw [rest_give hn]
    exact Nat.sub_eq_zero_of_le hwanted
  cases vs with
  | nil =>
    obtain rfl : wanted = 0 := Nat.le_zero.1 hwanted
    rw [give_of_zero limits [] rfl]
    rfl
  | cons v vs =>
    simp only [push]
    rw [give_of_zero hard (v :: vs) hrest, if_pos hrest]

/-! ## Transfers -/

/-- What siblings are taken is what is wanted, or all they have; what they are given is what is wanted, if
there are any. Their sum changes by just as much, and no other share changes. Where the siblings together
can spare what is wanted, or have room for it, the source of choices is left as it was, whatever the chooser
is, and the windows of the siblings are kept: none ends below its minimum that was not there before, and none
is raised over its maximum. A minimum that is no number counts as zero. -/
theorem transfer_within (ch : Chooser σ) (limits hard : Nat → Window) (hn : vs.Nodup) (q : Quantities)
    (wanted : Nat) (s : σ) :
    (let pulled := pull ch limits vs q wanted s
      let taken := wanted - pulled.1.2
      taken = min wanted (sumOf q.share vs) ∧
        sumOf pulled.1.1.share vs + taken = sumOf q.share vs ∧
        Quantities.Confined vs q pulled.1.1 ∧
        (wanted ≤ sumOf (fun v => (limits v).surplus (q.share v)) vs →
          pulled.2 = s ∧ ∀ v ∈ vs, min (q.share v) (limits v).min.value ≤ pulled.1.1.share v)) ∧
      (let pushed := push ch limits hard vs q wanted s
        let given := wanted - pushed.1.2
        given = (if vs = [] then 0 else wanted) ∧
          sumOf pushed.1.1.share vs = sumOf q.share vs + given ∧
          Quantities.Confined vs q pushed.1.1 ∧
          (wanted ≤ sumOf (fun v => (limits v).headroom (q.share v)) vs →
            pushed.2 = s ∧ ∀ v ∈ vs, pushed.1.1.share v = q.share v ∨
              .finite (pushed.1.1.share v) ≤ (limits v).max)) := by
  constructor
  · intro pulled taken
    have hdrawn : Drawn vs (q, wanted) pulled.1 := drawn_pull ch limits hn q wanted s
    have hkept : sumOf pulled.1.1.share vs + wanted = sumOf q.share vs + pulled.1.2 := hdrawn.kept
    have hmissing : pulled.1.2 = wanted - sumOf q.share vs := missing_pull ch limits hn q wanted s
    refine ⟨by omega, by omega, hdrawn.confined, fun hwanted => ?_⟩
    obtain ⟨hsource, hmin⟩ := pull_of_surplus ch hn hwanted s
    exact ⟨hsource, fun v _ => hmin v⟩
  · intro pushed given
    have hpoured : Poured vs (q, wanted) pushed.1 := poured_push ch limits hard hn q wanted s
    have hkept : sumOf pushed.1.1.share vs + pushed.1.2 = sumOf q.share vs + wanted := hpoured.kept
    have hle : pushed.1.2 ≤ wanted := hpoured.rest_le
    have hmissing : pushed.1.2 = if vs = [] then wanted else 0 :=
      missing_push ch limits hard vs q wanted s
    refine ⟨?_, by omega, hpoured.confined, fun hwanted => ?_⟩
    · show wanted - pushed.1.2 = _
      rw [hmissing]
      split
      · exact Nat.sub_self _
      · exact Nat.sub_zero _
    · have hpushed : pushed = (give limits vs (q, wanted), s) := push_of_headroom ch hard hn hwanted s
      rw [hpushed]
      exact ⟨rfl, fun v _ => share_give limits vs (q, wanted) v⟩

/-- Chooses the first number and counts how often it is asked. -/
def counting : Chooser Nat := ⟨fun _ h asked => (⟨0, h⟩, asked + 1)⟩

/-- The first node has three more than it needs, the second has room for one. -/
def uneven (v : Nat) : Window := if v = 1 then ⟨1, 4⟩ else ⟨1, 2⟩

/-- The first node holds four, the second one. -/
def fourAndOne : Quantities := (Quantities.empty.assign 1 4).assign 2 1

theorem transfer_within_uneven :
    [1, 2].Nodup ∧
      3 ≤ sumOf (fun v => (uneven v).surplus (fourAndOne.share v)) [1, 2] ∧
      1 ≤ sumOf (fun v => (uneven v).headroom (fourAndOne.share v)) [1, 2] ∧
      (pull counting uneven [1, 2] fourAndOne 3 0).2 = 0 ∧
      (∀ v ∈ [1, 2], min (fourAndOne.share v) (uneven v).min.value ≤
        (pull counting uneven [1, 2] fourAndOne 3 0).1.1.share v) ∧
      (push counting uneven uneven [1, 2] fourAndOne 1 0).2 = 0 ∧
      sumOf (push counting uneven uneven [1, 2] fourAndOne 1 0).1.1.share [1, 2] = 6 := by
  have hn : [1, 2].Nodup := by decide
  have hsurplus : 3 ≤ sumOf (fun v => (uneven v).surplus (fourAndOne.share v)) [1, 2] := by
    decide +kernel
  have hheadroom : 1 ≤ sumOf (fun v => (uneven v).headroom (fourAndOne.share v)) [1, 2] := by
    decide +kernel
  have hsum : sumOf fourAndOne.share [1, 2] = 5 := by decide +kernel
  obtain ⟨⟨-, -, -, hpull⟩, -⟩ := transfer_within counting uneven uneven hn fourAndOne 3 0
  obtain ⟨-, hgiven, hraised, -, hpush⟩ := transfer_within counting uneven uneven hn fourAndOne 1 0
  obtain ⟨hasked, hmin⟩ := hpull hsurplus
  rw [hgiven, hsum] at hraised
  exact ⟨hn, hsurplus, hheadroom, hasked, hmin, (hpush hheadroom).1, hraised⟩

end RuleCardinality.View
