import Mathlib.Algebra.Order.BigOperators.GroupWithZero.List
import Mathlib.Algebra.Order.Ring.Nat
import Mathlib.Data.List.MinMax
import RuleCardinality.Proofs.Search.Contest
import RuleCardinality.Proofs.Search.Odometer
import RuleCardinality.Proofs.Search.Splits
import RuleCardinality.Search.Sweep

/-!
# The exact pass finds the optimum

`visits` lists the states that the exact pass would judge if it never stopped early, one field inside the
other. These are exactly the joint splits (`mem_visits`). The loop over the places comes to the same
states in the same order (`visits_eq_map_deal`), and its early stop makes no difference
(`search_eq_foldl`). Hence the pass, where it is made, ends with the first joint split of least violation
in that list (`optimum_eq_argmin`), from whichever joint split it starts (`exhaustive_eq_of_jointSplit`).
-/

namespace RuleCardinality.View

open Quantities

variable {w : View} {r : Rule} {q q' : Quantities} {best : Option Found}

/-! ## The best of a list of states -/

/-- Keeps the better of the best split so far and another one; the earlier of two that are equal. -/
def better (w : View) (best : Option Found) (q : Quantities) : Option Found :=
  if best.all fun b => w.quality q < b.1 then some (w.quality q, q) else best

/-- Nothing replaces a split without violation. -/
theorem foldl_better_of_perfect {b : Found} (hb : b.1 = 0) (qs : List Quantities) :
    qs.foldl w.better (some b) = some b := by
  induction qs with
  | nil => rfl
  | cons q qs ih =>
    have hkeep : w.better (some b) q = some b := by simp [better, hb]
    rw [List.foldl_cons, hkeep, ih]

/-- A state as the best one found. -/
def found (w : View) (q : Quantities) : Found := (w.quality q, q)

theorem better_found (w : View) (best : Option Quantities) (q : Quantities) :
    w.better (best.map w.found) q =
      (List.argAux (fun a b => w.quality a < w.quality b) best q).map w.found := by
  cases best with
  | none => rfl
  | some b =>
    by_cases hlt : w.quality q < w.quality b <;> simp [better, found, List.argAux, hlt]

/-- The best of a list of states is the first one of least violation. -/
theorem foldl_better_eq_argmin (w : View) (qs : List Quantities) :
    qs.foldl w.better none = (qs.argmin w.quality).map w.found := by
  have hfold : ∀ best : Option Quantities, qs.foldl w.better (best.map w.found) =
      (qs.foldl (List.argAux fun a b => w.quality a < w.quality b) best).map w.found := by
    induction qs with
    | nil => exact fun best => rfl
    | cons q qs ih =>
      intro best
      rw [List.foldl_cons, better_found, ih, List.foldl_cons]
  exact hfold none

/-! ## The states in the order of the pass -/

/-- The states of all joint splits, the last field's split changing fastest. -/
def visits : List (List Nat × Nat) → Quantities → List Quantities
  | [], q => [q]
  | (nodes, budget) :: fields, q =>
    (splits budget nodes.length).flatMap fun split => visits fields (q.assignAll (nodes.zip split))

theorem visits_ne_nil {fields : List (List Nat × Nat)} (hne : ∀ f ∈ fields, f.1 ≠ []) (q : Quantities) :
    visits fields q ≠ [] := by
  induction fields generalizing q with
  | nil => simp [visits]
  | cons f fields ih =>
    obtain ⟨nodes, budget⟩ := f
    have hlen : 0 < nodes.length := List.length_pos_iff.2 (hne (nodes, budget) (by simp))
    obtain ⟨split, hsplit⟩ := List.exists_mem_of_ne_nil _ (splits_ne_nil hlen budget)
    obtain ⟨q', hq'⟩ := List.exists_mem_of_ne_nil _
      (ih (fun f hf => hne f (by simp [hf])) (q.assignAll (nodes.zip split)))
    exact List.ne_nil_of_mem (List.mem_flatMap.2 ⟨split, hsplit, hq'⟩)

/-- There is no joint split if one field has no split. -/
theorem visits_eq_nil {fields : List (List Nat × Nat)}
    (h : ∃ f ∈ fields, splits f.2 f.1.length = []) (q : Quantities) : visits fields q = [] := by
  induction fields generalizing q with
  | nil => simp at h
  | cons f fields ih =>
    rw [visits, List.flatMap_eq_nil_iff]
    intro split hsplit
    obtain ⟨g, hg, hnone⟩ := h
    rcases List.mem_cons.1 hg with rfl | hg
    · exact absurd hsplit (by simp [hnone])
    · exact ih ⟨g, hg, hnone⟩ _

theorem budgets_congr (hc : q'.counts = q.counts) (fields : List (String × List Nat)) :
    budgets q' fields = budgets q fields := by
  unfold budgets
  exact List.map_congr_left fun f _ => by rw [count_congr hc]

/-- The exact pass visits a state exactly if it is a joint split. -/
theorem mem_visits {fields : List (String × List Nat)} (hc : Contest r fields) :
    q' ∈ visits (budgets q fields) q ↔ JointSplit fields q q' := by
  induction fields generalizing q with
  | nil =>
    rw [JointSplit.nil_iff]
    exact List.mem_singleton
  | cons f fields ih =>
    have hlater : ∀ split, q' ∈ visits (budgets q fields) (q.assignAll (f.2.zip split)) ↔
        JointSplit fields (q.assignAll (f.2.zip split)) q' := fun split => by
      rw [← ih hc.tail, budgets_congr (confined_assignAll_zip q f.2 split).counts]
    have hcons : budgets q (f :: fields) = (f.2, q.count f.1) :: budgets q fields := rfl
    rw [hcons, visits, List.mem_flatMap]
    constructor
    · rintro ⟨split, hsplit, hq'⟩
      obtain ⟨hlen, hsum⟩ := mem_splits.1 hsplit
      refine .cons hc (confined_assignAll_zip q f.2 split) ?_ ?_ ((hlater split).1 hq')
      · exact fun v hv => isSome_share?_assignAll_zip hc.head hlen hv
      · rw [sumOf_share_assignAll_zip hc.head hlen, hsum]
    · intro hj
      refine ⟨f.2.map q'.share, mem_splits.2 ⟨by simp, ?_⟩, (hlater _).2 ?_⟩
      · rw [← sumOf_eq_sum]
        exact hj.sums f (by simp)
      · exact hj.uncons hc

/-! ## The odometer comes to all of them -/

variable {dials : List Dial} {places next : List Nat}

theorem deal_cons (d : Dial) (dials : List Dial) (i : Nat) (places : List Nat) (q : Quantities) :
    deal (d :: dials) (i :: places) q =
      deal dials places (q.assignAll (d.nodes.zip (d.options.getD i []))) := rfl

theorem confined_deal (dials : List Dial) (places : List Nat) (q : Quantities) :
    Confined (dials.flatMap Dial.nodes) q (deal dials places q) := by
  refine List.foldlRecOn (motive := Confined (dials.flatMap Dial.nodes) q) _ _ (.refl _ q) ?_
  intro q' ih d hd
  refine ih.trans ((confined_assignAll_zip q' _ _).mono fun v hv => ?_)
  exact List.mem_flatMap.2 ⟨d.1, (List.of_mem_zip hd).1, hv⟩

/-- The options of each dial are splits over its nodes. -/
def Fitting (dials : List Dial) : Prop :=
  ∀ d ∈ dials, ∀ i < d.size, (d.options.getD i []).length = d.nodes.length

theorem fitting_dials (fields : List (List Nat × Nat)) : Fitting (fields.map dial) := by
  intro d hd i hi
  obtain ⟨f, -, rfl⟩ := List.mem_map.1 hd
  have hi : i < (splits f.2 f.1.length).length := by simpa [dial, Dial.size] using hi
  simpa [dial, hi] using (mem_splits.1 (List.getElem_mem hi)).1

/-- What is dealt does not depend on what the nodes of the dials had before. -/
theorem deal_congr (hf : Fitting dials) (hp : Odometer.Within (dials.map Dial.size) places)
    (hc : q'.counts = q.counts)
    (hs : ∀ v, (∀ d ∈ dials, v ∉ d.nodes) → q'.share? v = q.share? v) :
    deal dials places q' = deal dials places q := by
  induction dials generalizing places q q' with
  | nil =>
    have he : q' = q := Quantities.ext (fun _ => by simp [count?, hc]) fun v => hs v (by simp)
    rw [he]
  | cons d dials ih =>
    cases hp with
    | @cons i _ is _ hi his =>
      have hlen := hf d (by simp) i hi
      rw [deal_cons, deal_cons]
      refine ih (fun d hd => hf d (by simp [hd])) his ?_ fun v hv => share?_assignAll_congr fun hvd => ?_
      · rw [(confined_assignAll_zip _ _ _).counts, (confined_assignAll_zip _ _ _).counts, hc]
      · rw [List.map_fst_zip (Nat.le_of_eq hlen.symm)] at hvd
        exact hs v (List.forall_mem_cons.2 ⟨hvd, hv⟩)

/-- What a joint split leaves is lost when the next one is dealt. -/
theorem deal_deal (hf : Fitting dials) (hn : Odometer.Within (dials.map Dial.size) next)
    (places : List Nat) (q : Quantities) :
    deal dials next (deal dials places q) = deal dials next q := by
  have hconf := confined_deal dials places q
  refine deal_congr hf hn hconf.counts fun v hv => hconf.outside v fun hmem => ?_
  obtain ⟨d, hd, hvd⟩ := List.mem_flatMap.1 hmem
  exact hv d hd hvd

theorem search_eq (w : View) (dials : List Dial) (places : List Nat) (q : Quantities)
    (best : Option Found) :
    w.search dials places q best =
      let q := deal dials places q
      if (best.all fun b => w.quality q < b.1) && w.quality q == 0 then w.better best q
      else
        (Odometer.carry (dials.map Dial.size) places.length places).elim (w.better best q)
          fun next => w.search dials next q (w.better best q) := by
  rw [search]
  dsimp only
  split
  · rfl
  · split <;> rename_i hnext <;> rw [hnext] <;> rfl

/-- The loop over the places keeps the best of the joint splits from some places on. Stopping at a split
without violation leaves out nothing that could replace it. -/
theorem search_eq_foldl {places : List Nat} (hf : Fitting dials)
    (hp : Odometer.Within (dials.map Dial.size) places) (w : View) (q : Quantities) (best : Option Found) :
    w.search dials places q best =
      ((Odometer.onward (dials.map Dial.size) places).map (deal dials · q)).foldl w.better best := by
  rw [search_eq, Odometer.onward_eq hp, List.map_cons, List.foldl_cons]
  dsimp only
  split
  · rename_i hstop
    obtain ⟨himproves, hzero⟩ := Bool.and_eq_true_iff.1 hstop
    have hbest : w.better best (deal dials places q) = some (w.found (deal dials places q)) :=
      if_pos himproves
    rw [hbest, foldl_better_of_perfect (beq_iff_eq.1 hzero)]
  · cases hnext : Odometer.carry (dials.map Dial.size) places.length places with
    | none => rfl
    | some next =>
      have hwithin := Odometer.Within.carry hp hnext
      have hlater : (Odometer.onward (dials.map Dial.size) next).map
            (deal dials · (deal dials places q)) =
          (Odometer.onward (dials.map Dial.size) next).map (deal dials · q) :=
        List.map_congr_left fun later hl =>
          deal_deal hf (Odometer.Within.of_mem_onward hwithin hl) places q
      exact (search_eq_foldl hf hwithin w _ _).trans (by rw [hlater]; rfl)
termination_by Odometer.movesLeft (dials.map Dial.size) places
decreasing_by exact Odometer.movesLeft_carry_lt hnext

theorem splits_eq_map_range (f : List Nat × Nat) :
    splits f.2 f.1.length = (List.range (dial f).size).map fun i => (dial f).options.getD i [] := by
  refine List.ext_getElem (by simp [dial, Dial.size]) fun i hi hi' => ?_
  simp [dial, hi]

/-- The dials start on their first places. -/
theorem within_start {fields : List (List Nat × Nat)} (hpos : ∀ f ∈ fields, 0 < (dial f).size) :
    Odometer.Within ((fields.map dial).map Dial.size)
      (List.replicate (fields.map dial).length 0) := by
  have hsizes : ∀ n ∈ (fields.map dial).map Dial.size, 0 < n := fun n hn => by
    rw [List.map_map] at hn
    obtain ⟨f, hf, rfl⟩ := List.mem_map.1 hn
    exact hpos f hf
  simpa only [List.length_map] using Odometer.within_zero hsizes

theorem size_dial_pos {f : List Nat × Nat} (h : splits f.2 f.1.length ≠ []) : 0 < (dial f).size :=
  List.length_pos_iff.2 h

/-- From zero the dials come to the joint splits in the order of `visits`. -/
theorem visits_eq_map_deal {fields : List (List Nat × Nat)} (hpos : ∀ f ∈ fields, 0 < (dial f).size)
    (q : Quantities) :
    visits fields q =
      (Odometer.onward ((fields.map dial).map Dial.size)
        (List.replicate (fields.map dial).length 0)).map (deal (fields.map dial) · q) := by
  induction fields generalizing q with
  | nil => rfl
  | cons f fields ih =>
    have hlater := fun i => ih (fun g hg => hpos g (by simp [hg]))
      (q.assignAll (f.1.zip ((dial f).options.getD i [])))
    have hzero := Odometer.onward_zero (hpos f (by simp)) ((fields.map dial).map Dial.size)
    rw [visits, splits_eq_map_range, List.flatMap_map, List.map_cons, List.map_cons]
    simp only [List.length_cons, List.length_map] at hzero hlater ⊢
    rw [hzero, List.map_flatMap]
    refine List.flatMap_congr fun i _ => ?_
    rw [hlater, List.map_map (f := (i :: ·))]
    rfl

/-! ## The optimum -/

/-- What the exact pass finds if the limit allows it. -/
def optimum (w : View) (fields : List (String × List Nat)) (q : Quantities) : Option Found :=
  (visits (budgets q fields) q).foldl w.better none

theorem exhaustive_eq (w : View) (limit : Nat) (fields : List (String × List Nat)) (q : Quantities) :
    w.exhaustive limit fields q =
      if overLimit limit 1 (budgets q fields) then none else w.optimum fields q := by
  unfold exhaustive optimum
  dsimp only
  by_cases hempty : ∃ f ∈ budgets q fields, splits f.2 f.1.length = []
  · have hany : ((budgets q fields).map dial).any (fun d => d.options.isEmpty) = true := by
      obtain ⟨f, hf, hnone⟩ := hempty
      exact List.any_eq_true.2 ⟨dial f, List.mem_map_of_mem hf, by simp [dial, hnone]⟩
    rw [if_pos hany, visits_eq_nil hempty]
    rfl
  · have hpos : ∀ f ∈ budgets q fields, 0 < (dial f).size := fun f hf =>
      size_dial_pos fun hnone => hempty ⟨f, hf, hnone⟩
    have hany : ((budgets q fields).map dial).any (fun d => d.options.isEmpty) = false := by
      refine List.any_eq_false.2 fun d hd => ?_
      obtain ⟨f, hf, rfl⟩ := List.mem_map.1 hd
      simpa [Dial.size, Array.isEmpty] using Nat.ne_of_gt (hpos f hf)
    rw [hany, search_eq_foldl (fitting_dials _) (within_start hpos), visits_eq_map_deal hpos]
    rfl

theorem optimum_eq_argmin (w : View) (fields : List (String × List Nat)) (q : Quantities) :
    w.optimum fields q = ((visits (budgets q fields) q).argmin w.quality).map w.found :=
  foldl_better_eq_argmin w _

/-- The optimum is a joint split, and none has less violation. -/
theorem optimum_spec {fields : List (String × List Nat)} (hc : Contest r fields) (w : View)
    (q : Quantities) : ∃ b : Found, w.optimum fields q = some b ∧ JointSplit fields q b.2 ∧
      b.1 = w.quality b.2 ∧ ∀ q', JointSplit fields q q' → b.1 ≤ w.quality q' := by
  have hne : visits (budgets q fields) q ≠ [] := visits_ne_nil (fun f hf => by
    obtain ⟨g, hg, rfl⟩ := List.mem_map.1 hf
    exact hc.nonempty g hg) q
  obtain ⟨m, hm⟩ := Option.ne_none_iff_exists'.1
    (mt (List.argmin_eq_none (f := w.quality)).1 hne)
  refine ⟨w.found m, ?_, (mem_visits hc).1 (List.argmin_mem hm), rfl, fun q' hq' => ?_⟩
  · rw [optimum_eq_argmin, hm]
    rfl
  · exact List.le_of_mem_argmin ((mem_visits hc).2 hq') hm

/-- What the pass ends with, where it is made, is the optimum. -/
theorem exhaustive_spec {fields : List (String × List Nat)} (hc : Contest r fields) {limit : Nat}
    {b : Found} (hb : w.exhaustive limit fields q = some b) :
    JointSplit fields q b.2 ∧ b.1 = w.quality b.2 ∧
      ∀ q', JointSplit fields q q' → b.1 ≤ w.quality q' := by
  obtain ⟨b', hb', hspec⟩ := optimum_spec hc w q
  rw [exhaustive_eq, hb'] at hb
  split at hb
  · exact absurd hb (by simp)
  · obtain rfl := Option.some.inj hb
    exact hspec

/-- The pass from any joint split is the pass from the state that it splits. -/
theorem exhaustive_eq_of_jointSplit {fields : List (String × List Nat)} (hc : Contest r fields)
    (limit : Nat) (hj : JointSplit fields q q') :
    w.exhaustive limit fields q' = w.exhaustive limit fields q := by
  have hpos : ∀ f ∈ budgets q fields, 0 < (dial f).size := fun f hf => by
    obtain ⟨g, hg, rfl⟩ := List.mem_map.1 hf
    exact size_dial_pos (splits_ne_nil (List.length_pos_iff.2 (hc.nonempty g hg)) _)
  have hdeal := deal_congr (fitting_dials _) (within_start hpos) hj.counts fun v hv =>
    hj.outside v fun f hf =>
      hv (dial (f.2, q.count f.1)) (List.mem_map_of_mem (List.mem_map_of_mem hf))
  unfold exhaustive
  dsimp only
  rw [budgets_congr hj.counts, search_eq, search_eq]
  dsimp only
  rw [hdeal]

/-! ## The limit -/

theorem min_mul_cap {n k : Nat} (hk : 0 < k) : min (min n cap * k) cap = min (n * k) cap := by
  rcases Nat.le_total n cap with hle | hge
  · rw [Nat.min_eq_left hle]
  · rw [Nat.min_eq_right hge, Nat.min_eq_right (Nat.le_mul_of_pos_right cap hk),
      Nat.min_eq_right (Nat.le_trans hge (Nat.le_mul_of_pos_right n hk))]

/-- The running product exceeds the limit somewhere exactly if it does so at the end. -/
theorem overLimit_iff_prod {limit total : Nat} (ht : total ≤ cap) (fields : List (List Nat × Nat)) :
    overLimit limit total fields = true ↔ fields ≠ [] ∧
      limit < min (total * (fields.map fun f => splitCount f.2 f.1.length).prod) cap := by
  induction fields generalizing total with
  | nil => simp [overLimit]
  | cons f fields ih =>
    have hrest : 0 < (fields.map fun f => splitCount f.2 f.1.length).prod :=
      List.prod_pos fun n hn => by
        obtain ⟨g, -, rfl⟩ := List.mem_map.1 hn
        exact splitCount_pos _ _
    rw [overLimit, Bool.or_eq_true, decide_eq_true_eq, ih (capMul_le _ _), capMul, min_mul_cap hrest,
      List.map_cons, List.prod_cons, ← Nat.mul_assoc]
    cases fields with
    | nil => simp
    | cons g fields =>
      -- No later factor makes the product smaller.
      have hgrow := min_le_min_right cap
        (Nat.le_mul_of_pos_right (total * splitCount f.2 f.1.length) hrest)
      simp only [ne_eq, reduceCtorEq, not_false_eq_true, true_and]
      exact ⟨fun h => h.elim (fun h => Nat.lt_of_lt_of_le h hgrow) id, Or.inr⟩

/-- The pass is not made exactly if some field competes and there are more joint splits than allowed. -/
theorem overLimit_iff {limit : Nat} {rivals : Rivals} :
    overLimit limit 1 (budgets q rivals.toList) = true ↔
      rivals.toList ≠ [] ∧ limit < min (jointSplits rivals q) cap := by
  rw [overLimit_iff_prod (by decide), Nat.one_mul, budgets, List.map_map, ne_eq, List.map_eq_nil_iff]
  rfl

/-- Where the joint splits are within the limit, their number is not found to be over it. -/
theorem overLimit_eq_false {limit : Nat} {rivals : Rivals} (h : jointSplits rivals q ≤ limit) :
    overLimit limit 1 (budgets q rivals.toList) = false := by
  rw [Bool.eq_false_iff, ne_eq, overLimit_iff]
  rintro ⟨-, hlt⟩
  exact absurd (Nat.lt_of_lt_of_le hlt (Nat.min_le_left _ _)) (Nat.not_lt.2 h)

end RuleCardinality.View
