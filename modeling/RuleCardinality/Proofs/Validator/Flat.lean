import RuleCardinality.Proofs.Search.Steady
import RuleCardinality.Proofs.Validator.Uncontested
import RuleCardinality.Proofs.View.Flat

/-!
# Flat rules are decided exactly

A flat rule may assign a field any number of times, and then the count is left to the search. It accepts
an object exactly if each count covers the mandatory assignments of its field and, unless one of them
repeats, does not exceed their number; and then the greedy split has no violation, so that nothing is left
to the search (`examine_flat_iff`).
-/

namespace RuleCardinality

/-- Each field has a value for each of its mandatory assignments, and no more values than assignments
unless one of them repeats. -/
structure Rule.Suits (r : Rule) (count : String → Nat) : Prop where
  enough : ∀ field ∈ r.written,
    ((r.assigning field).filter fun v => !r.optional v).length ≤ count field
  room : ∀ field ∈ r.written, (∀ v ∈ r.assigning field, r.repeatable v = false) →
    count field ≤ (r.assigning field).length

namespace Validator

open Quantities

variable {σ : Type} {V : Validator} {o : Object} {r : Rule} {v : Nat} {field : String}

/-! ## The nodes of a field -/

theorem assigning_perm (hr : r.Unguarded) (hd : o.Declares r) {f : String × List Nat}
    (hf : f ∈ assignable o (View.targets ⟨r, o.type⟩)) : f.2.Perm (r.assigning f.1) := by
  have hc := contest_assignable o ⟨r, o.type⟩
  refine (List.perm_ext_iff_of_nodup (hc.nodup f hf) (r.nodup_assigning f.1)).2 fun v => ?_
  rw [Rule.mem_assigning]
  refine ⟨hc.writes f hf v, fun hw => ?_⟩
  have ht : (f.1, v) ∈ View.targets ⟨r, o.type⟩ :=
    (View.mem_targets_of_unguarded (w := ⟨r, o.type⟩) hr).2 hw
  obtain ⟨nodes, hnodes, hv⟩ := exists_assignable ht (hd.declared f.1 (Rule.mem_written.2 ⟨v, hw⟩))
  have he : (f.1, nodes) = f := List.inj_on_of_nodup_map hc.distinct hnodes hf rfl
  rw [← he]
  exact hv

theorem mem_written_of_assignable {f : String × List Nat}
    (hf : f ∈ assignable o (View.targets ⟨r, o.type⟩)) : f.1 ∈ r.written := by
  have hc := contest_assignable o ⟨r, o.type⟩
  obtain ⟨v, hv⟩ := List.exists_mem_of_ne_nil _ (hc.nonempty f hf)
  exact Rule.mem_written.2 ⟨v, hc.writes f hf v hv⟩

/-- Every reached assignment of a declared field has a share after the search. -/
theorem isSome_share?_searched (ht : (field, v) ∈ View.targets ⟨r, o.type⟩)
    (hd : (o.feature? field).isSome) (ch : Chooser σ) (s : σ) :
    ((V.searched ch o r s).quantities.share? v).isSome := by
  obtain ⟨placed, hperm, hc, hsound⟩ := sound_planned V o r
  have hkeeps := keepsSums_searched V ch o r s
  obtain ⟨nodes, hf, hv⟩ := exists_assignable ht hd
  rw [← hperm.mem_iff] at hf
  by_cases hrivals : field ∈ (V.planned o r).rivals
  · obtain ⟨nodes', hnodes'⟩ := Option.isSome_iff_exists.1 (Std.ExtTreeMap.mem_iff_isSome_getElem?.1 hrivals)
    have he : (field, nodes') = (field, nodes) :=
      List.inj_on_of_nodup_map hc.distinct (hsound.rivals hnodes') hf rfl
    refine hkeeps.assigned hnodes' v ?_
    rw [(Prod.mk.inj he).2]
    exact hv
  · rw [hkeeps.others v fun {other nodes'} hnodes' hv' => ?_]
    · exact hsound.assigned _ hf hrivals v hv
    · have hw : some field = some other :=
        (hc.writes _ hf v hv).symm.trans (hc.writes _ (hsound.rivals hnodes') v hv')
      rw [Option.some.inj hw, Std.ExtTreeMap.mem_iff_isSome_getElem?, hnodes'] at hrivals
      exact hrivals rfl

theorem writers_searched (hr : r.Unguarded) (hd : o.Declares r) (ch : Chooser σ) (s : σ)
    (field : String) : (V.searched ch o r s).quantities.writers r field = r.assigning field := by
  unfold Quantities.writers Quantities.assigned Rule.assigning
  rw [List.filter_filter]
  refine List.filter_congr fun v _ => ?_
  by_cases hw : r.field? v = some field
  · have ht := (View.mem_targets_of_unguarded (w := ⟨r, o.type⟩) hr).2 hw
    rw [isSome_share?_searched ht (hd.declared field (Rule.mem_written.2 ⟨v, hw⟩)) ch s, Bool.and_true]
  · have hb : (r.field? v == some field) = false := by simpa using hw
    rw [hb, Bool.false_and]

theorem mem_fields_searched (hr : r.Unguarded) (hd : o.Declares r) (ch : Chooser σ) (s : σ) :
    field ∈ (V.searched ch o r s).quantities.fields r ↔ field ∈ r.written := by
  rw [mem_fields, writers_searched hr hd, Rule.mem_written]
  simp only [Rule.mem_assigning]

theorem count_searched (hd : o.Declares r) (hfield : field ∈ r.written) (ch : Chooser σ) (s : σ) :
    (V.searched ch o r s).quantities.count field = V.counter.count o field := by
  rw [count_congr (keepsSums_searched V ch o r s).counts]
  exact count_planned hd.explicit (hd.declared field hfield)

theorem count_le_of_written (hd : o.Declares r)
    (hc : ∀ f ∈ o.features, V.counter.count o f.name ≤ cap) (hfield : field ∈ r.written) :
    V.counter.count o field ≤ cap := by
  obtain ⟨f, hf, rfl⟩ := Object.exists_feature (hd.declared field hfield)
  exact hc f hf

/-! ## The final check -/

/-- The sums of the bounds decide over a flat rule, whatever the search does. -/
theorem examine_eq_nil_iff_suits (hr : r.Flat) (hd : o.Declares r)
    (hc : ∀ f ∈ o.features, V.counter.count o f.name ≤ cap) (hsize : r.size ≤ cap) (ch : Chooser σ)
    (s : σ) : (V.examine ch o r s).1.result = .ok [] ↔ r.Suits (V.counter.count o) := by
  have hshare := share_searched_le hc ch r s
  have hwindow : ∀ field ∈ r.written,
      (View.fieldWindow ⟨r, o.type⟩ (V.searched ch o r s).quantities (r.assigning field)).admits
          (V.counter.count o field) = true ↔
        ((r.assigning field).filter fun v => !r.optional v).length ≤ V.counter.count o field ∧
          ((∀ v ∈ r.assigning field, r.repeatable v = false) →
            V.counter.count o field ≤ (r.assigning field).length) := fun field hfield =>
    View.admits_fieldWindow_flat (w := ⟨r, o.type⟩) hr hshare hsize (count_le_of_written hd hc hfield)
  rw [examine_searched ch s (early_unguarded hr.unguarded hd V.counter)]
  rw [Except.ok.injEq, List.map_eq_nil_iff, View.violations_eq_nil_iff_admits]
  simp only [mem_fields_searched hr.unguarded hd, writers_searched hr.unguarded hd]
  constructor
  · intro h
    have hall := fun field hfield =>
      (hwindow field hfield).1 (count_searched hd hfield ch s ▸ h field hfield)
    exact ⟨fun field hfield => (hall field hfield).1, fun field hfield => (hall field hfield).2⟩
  · intro h field hfield
    rw [count_searched hd hfield ch s]
    exact (hwindow field hfield).2 ⟨h.enough field hfield, h.room field hfield⟩

/-! ## The greedy split -/

/-- Counts that suit a rule can be poured over the assignments of each field. -/
theorem fillable_of_suits (hs : r.Suits (V.counter.count o)) (hd : o.Declares r)
    (hc : ∀ f ∈ o.features, V.counter.count o f.name ≤ cap) (hfield : field ∈ r.written) :
    View.Fillable r.bounds (V.counter.count o field) (r.assigning field) where
  proper v _ := by
    rw [Rule.admits_bounds_iff, Rule.required_bounds]
    cases r.optional v <;> simp
  required := by
    have henough := hs.enough field hfield
    rw [length_filter_eq_sumOf] at henough
    refine Nat.le_trans (Nat.le_of_eq (sumOf_congr fun v _ => ?_)) henough
    rw [Rule.required_bounds]
    cases r.optional v <;> rfl
  room share hfull := by
    have hone : ∀ v ∈ r.assigning field, 1 ≤ share v := fun v hv =>
      (Rule.of_headroom_bounds (hfull v hv)).2
    have hsum := sumOf_le_sumOf (f := fun _ => 1) hone
    rw [sumOf_one] at hsum
    have hroom := hs.room field hfield fun v hv => (Rule.of_headroom_bounds (hfull v hv)).1
    exact Nat.le_trans hroom hsum
  le_cap := count_le_of_written hd hc hfield

/-- Shares that a plan settles are inside the cardinalities of their nodes if the counts suit the rule. -/
theorem admits_planned (hr : r.Flat) (hd : o.Declares r) (hs : r.Suits (V.counter.count o))
    (hv : ((V.planned o r).quantities.share? v).isSome) :
    (r.bounds v).admits ((V.planned o r).quantities.share v) = true := by
  obtain ⟨placed, hperm, _, hsound⟩ := sound_planned V o r
  obtain ⟨f, hf, hvf, hfree⟩ := hsound.owned hv
  have hsum := hsound.sums f hf hfree
  have hfew := hsound.few f hf hfree
  rw [hperm.mem_iff] at hf
  have hfield := mem_written_of_assignable hf
  have hnodes := assigning_perm hr.unguarded hd hf
  have henough := hs.enough f.1 hfield
  have hroom := hs.room f.1 hfield
  rw [count_planned hd.explicit (hd.declared f.1 hfield)] at hsum hfew
  rw [← (hnodes.filter _).length_eq] at henough
  have hmandatory : r.optional v = false → 0 < (f.2.filter fun v => !r.optional v).length := fun ho =>
    List.length_pos_of_mem (List.mem_filter.2 ⟨hvf, by simp [ho]⟩)
  rw [Rule.admits_bounds_iff]
  rcases hfew with hone | hzero
  · -- The only assignment of the field has the whole count.
    obtain ⟨u, hu⟩ := List.length_eq_one_iff.1 (Nat.le_antisymm hone (List.length_pos_of_mem hvf))
    obtain rfl : v = u := by simpa [hu] using hvf
    have hshare : (V.planned o r).quantities.share v = V.counter.count o f.1 := by simpa [hu] using hsum
    rw [hshare]
    refine ⟨fun ho => Nat.lt_of_lt_of_le (hmandatory ho) henough, fun hrep => ?_⟩
    have hlength := hroom fun x hx => by
      rw [← hnodes.mem_iff, hu, List.mem_singleton] at hx
      rw [hx, hrep]
    rwa [← hnodes.length_eq, hu] at hlength
  · -- Without a count, no assignment of the field may be mandatory.
    have hshare : (V.planned o r).quantities.share v = 0 := sumOf_eq_zero_iff.1 (hsum.trans hzero) v hvf
    rw [hshare]
    refine ⟨fun ho => ?_, fun _ => Nat.zero_le 1⟩
    have hpos := hmandatory ho
    omega

/-- If the counts suit a flat rule, the greedy split leaves no violation. -/
theorem quality_greedy_of_suits (hr : r.Flat) (hd : o.Declares r)
    (hc : ∀ f ∈ o.features, V.counter.count o f.name ≤ cap) (hs : r.Suits (V.counter.count o)) :
    View.quality ⟨r, o.type⟩
      (View.greedy ⟨r, o.type⟩ (V.planned o r).quantities (V.planned o r).rivals) = 0 := by
  obtain ⟨placed, hperm, _, hsound⟩ := sound_planned V o r
  have hready := V.ready_planned o r
  have hjoint := hready.greedy
  have hassignable : ∀ f ∈ (V.planned o r).rivals.toList,
      f ∈ assignable o (View.targets ⟨r, o.type⟩) := fun f hf =>
    hperm.mem_iff.1 (hsound.rivals (View.mem_rivals.1 hf))
  have hwindow : ∀ v, (r.field? v).isSome → ∀ exclude q,
      View.window ⟨r, o.type⟩ q exclude v = r.bounds v := fun v hv exclude q =>
    View.window_flat (w := ⟨r, o.type⟩) hr hv
  rw [View.quality_eq_zero_iff]
  intro v hv
  have hsome := (mem_assigned.1 hv).2
  by_cases hrival : ∃ f ∈ (V.planned o r).rivals.toList, v ∈ f.2
  · obtain ⟨f, hf, hvf⟩ := hrival
    have hw : r.field? v = some f.1 := hready.contest.writes f hf v hvf
    unfold View.ownWindow
    rw [hwindow v (by simp [hw])]
    refine View.admits_greedy hready (fun g hg q u hu => ?_) (fun g hg => ?_) f hf v hvf
    · have hu' : r.field? u = some g.1 := hready.contest.writes g hg u hu
      exact hwindow u (by simp [hu']) _ q
    · have hfield := mem_written_of_assignable (hassignable g hg)
      rw [count_planned hd.explicit (hd.declared g.1 hfield)]
      exact (fillable_of_suits hs hd hc hfield).perm (assigning_perm hr.unguarded hd (hassignable g hg))
  · have hshare := hjoint.outside v fun f hf hvf => hrival ⟨f, hf, hvf⟩
    rw [hshare] at hsome
    unfold View.ownWindow
    rw [hwindow v (field?_of_share?_planned V o r hsome), share_congr hshare]
    exact admits_planned hr hd hs hsome

/-- The source of choices after an examination is the one after its search. -/
theorem source_examine (ch : Chooser σ) (s : σ) (he : early V.counter o r = [])
    (hsource : (V.searched ch o r s).source = s) : (V.examine ch o r s).2 = s := by
  rw [examine_eq, he]
  unfold settle
  simp only
  split
  · rfl
  · unfold searched at hsource
    generalize View.solve _ _ _ _ _ _ _ = out at hsource ⊢
    cases out.report with
    | error fault => exact hsource
    | ok report => exact hsource

/-- A flat rule accepts an object that declares its fields exactly if the counts suit the rule, whatever the
settings and the source of choices are. If they do, the greedy split is without violation: the search
takes no step, draws nothing, and does not make the exact pass. -/
theorem examine_flat_iff (hr : r.Flat) (hd : o.Declares r)
    (hc : ∀ f ∈ o.features, V.counter.count o f.name ≤ cap) (hsize : r.size ≤ cap) (ch : Chooser σ)
    (s : σ) :
    ((V.examine ch o r s).1.result = .ok [] ↔ r.Suits (V.counter.count o)) ∧
      (r.Suits (V.counter.count o) →
        View.quality ⟨r, o.type⟩
            (View.greedy ⟨r, o.type⟩ (V.planned o r).quantities (V.planned o r).rivals) = 0 ∧
          (∃ maxTries, V.searched ch o r s =
            ⟨View.greedy ⟨r, o.type⟩ (V.planned o r).quantities (V.planned o r).rivals, s,
              .ok ⟨maxTries, 0, 0, false⟩⟩) ∧
          (V.examine ch o r s).2 = s) := by
  refine ⟨examine_eq_nil_iff_suits hr hd hc hsize ch s, fun hs => ?_⟩
  have hzero := quality_greedy_of_suits hr hd hc hs
  have hsearched := View.solve_of_greedy hzero V.config ch o.volume s
  have he := early_unguarded hr.unguarded hd V.counter
  exact ⟨hzero, ⟨_, hsearched⟩, source_examine ch s he (congrArg View.Outcome.source hsearched)⟩

/-- An item and any further ones, one or two tags, and perhaps a note. -/
def order : Rule :=
  ((Rule.ofAdditions "Order"
    [.root { shape := .group }, .child 0 { shape := .assignment "item" },
      .child 0 { shape := .assignment "item", optional := true, repeatable := true },
      .child 0 { shape := .assignment "tag" },
      .child 0 { shape := .assignment "tag", optional := true },
      .child 0 { shape := .assignment "note", optional := true }]).toOption).get (by decide)

/-- Three items and two tags. -/
def tagged : Object :=
  (["item", "tag", "note"].foldl (fun o f => o.declare ⟨f, true, false⟩)
    (Object.empty "T")).fill "item" 3 |>.fill "tag" 2

/-- Never makes the exact pass. -/
def orderValidator : Validator where
  registry := Registry.empty.register "T" order
  config := { exhaustiveLimit := 0 }

theorem examine_flat_iff_order :
    order.Flat ∧ tagged.Declares order ∧
      (∀ f ∈ tagged.features, orderValidator.counter.count tagged f.name ≤ cap) ∧ order.size ≤ cap ∧
      order.Suits (orderValidator.counter.count tagged) ∧
      (orderValidator.examine View.firstChoice tagged order ()).1.result = .ok [] ∧
      ∃ maxTries, orderValidator.searched View.firstChoice tagged order () =
        ⟨View.greedy ⟨order, tagged.type⟩ (orderValidator.planned tagged order).quantities
          (orderValidator.planned tagged order).rivals, (), .ok ⟨maxTries, 0, 0, false⟩⟩ := by
  have hr : order.Flat :=
    ⟨by decide +kernel, by decide +kernel, by decide +kernel, by decide +kernel, by decide +kernel⟩
  have hd : tagged.Declares order := ⟨by decide +kernel, by decide +kernel, by decide +kernel⟩
  have hc : ∀ f ∈ tagged.features, orderValidator.counter.count tagged f.name ≤ cap := by
    decide +kernel
  have hsize : order.size ≤ cap := by decide +kernel
  have hs : order.Suits (orderValidator.counter.count tagged) := ⟨by decide +kernel, by decide +kernel⟩
  obtain ⟨hiff, hsearch⟩ := examine_flat_iff hr hd hc hsize View.firstChoice ()
  exact ⟨hr, hd, hc, hsize, hs, hiff.2 hs, (hsearch hs).2.1⟩

end Validator

end RuleCardinality
