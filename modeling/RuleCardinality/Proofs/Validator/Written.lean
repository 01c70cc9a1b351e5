import RuleCardinality.Proofs.Validator.Implied
import RuleCardinality.Proofs.Validator.Searchless
import RuleCardinality.Proofs.Validator.Stages
import RuleCardinality.Proofs.Validator.Validate

/-!
# Unset fields and written ones

An unset field for one value that may be implied counts once if its nodes have to fire. One might expect a
rule that accepts an object with a value for such a field to accept it without that value as well. This holds
if no assignment of the field stands below an alternative and either the field is implied, so that the plans
are the same, or nothing competes when the field is written (`examine_of_written`). It does not hold where other
fields compete: what is implied is settled before they are, and stays so whatever they come to demand
(`examine_untied_rejected`).
-/

namespace RuleCardinality

/-! ## Filled fields -/

namespace Object

theorem lookup_cons (key : String) (vs : List Value) (values : List (String × List Value)) (field : String) :
    List.lookup field ((key, vs) :: values) = if field = key then some vs else values.lookup field := by
  rw [List.lookup_cons, beq_eq_decide]
  by_cases he : field = key <;> simp [he]

theorem lookup_appendTo (field : String) (more : List Value) (values : List (String × List Value))
    (other : String) :
    ((appendTo field more values).lookup other).getD [] =
      (values.lookup other).getD [] ++ if other = field then more else [] := by
  induction values with
  | nil =>
    unfold appendTo
    rw [lookup_cons]
    split <;> rfl
  | cons f fs ih =>
    obtain ⟨key, vs⟩ := f
    unfold appendTo
    by_cases hkey : key = field
    · subst hkey
      rw [if_pos rfl, lookup_cons, lookup_cons]
      split <;> simp
    · rw [if_neg hkey, lookup_cons, lookup_cons]
      by_cases he : other = key
      · rw [if_pos he, if_pos he, if_neg (he ▸ hkey), List.append_nil]
      · rw [if_neg he, if_neg he, ih]

theorem valueCount_fill (o : Object) (field : String) (n : Nat) (other : String) :
    (o.fill field n).valueCount other = o.valueCount other + if other = field then n else 0 := by
  let texts := (List.range n).map fun i => Value.text (field ++ toString i)
  have hvalues : (o.fill field n).valuesOf other =
      o.valuesOf other ++ if other = field then texts else [] := by
    unfold fill append
    split
    · rename_i h
      have : texts = [] := List.isEmpty_iff.1 h
      simp [this]
    · exact lookup_appendTo field texts o.values other
  unfold valueCount
  rw [hvalues]
  split <;> simp [texts]

end Object

namespace Validator

open Quantities

variable {σ τ : Type} {V V' : Validator} {o o' : Object} {r : Rule} {w : View} {field : String} {v : Nat}

/-! ## One field unset or set -/

/-- Two objects, each with its validator, of which the first leaves a field unset and the second sets it once.
It is a field for one value that may be implied, and everything else is the same. -/
structure Written (V V' : Validator) (o o' : Object) (field : String) : Prop where
  type : o'.type = o.type
  features : o'.features = o.features
  implied : ∃ f, o.feature? field = some f ∧ f.many = false ∧ f.implicitZero = true
  unset : V.counter.count o field = 0
  once : V'.counter.count o' field = 1
  others : ∀ other, other ≠ field → V'.counter.count o' other = V.counter.count o other

theorem mem_fitting_of_mem_targets (ht : (field, v) ∈ w.targets) : v ∈ w.fitting :=
  w.reached_root ▸ (View.mem_targets.1 ht).1

theorem blocked_of_mem_targets (ht : (field, v) ∈ w.targets) : w.blocked v = false := by
  have hline := List.all_eq_true.1 (List.mem_filter.1 (mem_fitting_of_mem_targets ht)).2
  rw [View.blocked_assignment (by simp [(View.mem_targets.1 ht).2]), hline v (w.rule.self_mem_line v)]
  rfl

namespace Written

theorem feature?_eq (h : Written V V' o o' field) (other : String) :
    o'.feature? other = o.feature? other := by
  unfold Object.feature?
  rw [h.features]

theorem mem_names (h : Written V V' o o' field) : ∃ f ∈ o.features, f.name = field := by
  obtain ⟨f, hf, -⟩ := h.implied
  exact Object.exists_feature (by rw [hf]; rfl)

theorem counted_eq (h : Written V V' o o' field) :
    counted V'.counter o' = (counted V.counter o).record field 1 := by
  ext other : 1
  · rw [count?_record, count?_counted, count?_counted, h.features]
    by_cases he : field = other
    · obtain ⟨f, hf, rfl⟩ := h.mem_names
      rw [if_pos he, ← he, if_pos (List.mem_map_of_mem hf), h.once]
    · rw [if_neg he, h.others other (Ne.symm he)]
  · exact (share?_counted V'.counter o' other).trans (share?_counted V.counter o other).symm

theorem implicit_unset (h : Written V V' o o' field) : implicit o (counted V.counter o) field = true := by
  obtain ⟨f, hf, hmany, hzero⟩ := h.implied
  obtain ⟨g, hg, rfl⟩ := h.mem_names
  unfold implicit
  rw [hf, count_counted hg V.counter, h.unset]
  simp [hmany, hzero]

theorem implicit_others (h : Written V V' o o' field) (other : String) (hne : other ≠ field) :
    implicit o' ((counted V.counter o).record field 1) other =
      implicit o (counted V.counter o) other := by
  unfold implicit
  rw [count_record_ne hne, h.feature?_eq]

theorem early_eq_nil (h : Written V V' o o' field) (he : early V'.counter o' r = []) :
    early V.counter o r = [] := by
  rw [early_eq_nil_iff, h.type] at he
  obtain ⟨hmisfits, hdeclared, hassigned⟩ := he
  refine (early_eq_nil_iff V.counter o r).2 ⟨hmisfits, fun t ht => ?_, fun f hf hpos => ?_⟩
  · rw [← h.feature?_eq]
    exact hdeclared t ht
  · have hne : f.name ≠ field := by
      intro he
      rw [he, h.unset] at hpos
      exact lt_irrefl 0 hpos
    exact hassigned f (by rwa [h.features]) (by rwa [h.others f.name hne])

theorem planned_eq (h : Written V V' o o' field) :
    V'.planned o' r = plan ⟨r, o.type⟩ o' ((counted V.counter o).record field 1)
      (assignable o (View.targets ⟨r, o.type⟩)) := by
  unfold planned assignable
  simp only [h.type, h.counted_eq, h.feature?_eq]

/-- The field is assigned, and the plans are forked at it. -/
theorem exists_forked (h : Written V V' o o' field) (he : early V'.counter o' r = []) :
    ∃ (f : String × List Nat) (start : Plan) (done before after : List (String × List Nat)),
      f.1 = field ∧
        (∀ g ∈ f :: (before ++ after), g ∈ assignable o (View.targets ⟨r, o.type⟩)) ∧
          Forked ⟨r, o.type⟩ f start done before after (V.planned o r) (V'.planned o' r) := by
  have hunset := h.implicit_unset
  rw [early_eq_nil_iff, h.type] at he
  obtain ⟨-, hdeclared, hassigned⟩ := he
  obtain ⟨g, hg, hname⟩ := h.mem_names
  obtain ⟨t, ht, hfield⟩ := hassigned g (by rwa [h.features]) (by rw [hname, h.once]; exact Nat.one_pos)
  obtain ⟨nodes, hf, -⟩ := exists_assignable (v := t.2) ht (by rw [← h.feature?_eq]; exact hdeclared _ ht)
  rw [hfield, hname] at hf
  obtain ⟨before, after, hfields⟩ := List.append_of_mem hf
  have hc : Contest r (before ++ (field, nodes) :: after) := hfields ▸ contest_assignable o ⟨r, o.type⟩
  have hperm := perm_unset (field, nodes) before after hunset
  have hall := hc.perm hperm
  refine ⟨(field, nodes), begun o (counted V.counter o) (before ++ after), _, _, _, rfl,
    fun g hg => hfields ▸ hperm.subset ?_, hall, ?_, ?_, ?_⟩
  · rcases List.mem_cons.1 hg with rfl | hg
    · simp
    · rcases List.mem_append.1 hg with hg | hg <;> simp [hg]
  · refine sound_begun (share?_counted V.counter o) (hall.sublist ?_)
    simp only [List.append_assoc]
    exact List.sublist_append_left _ _
  · show plan ⟨r, o.type⟩ o (counted V.counter o) (assignable o (View.targets ⟨r, o.type⟩)) = _
    rw [hfields]
    exact plan_unset _ hunset
  · rw [h.planned_eq, hfields]
    refine plan_set _ hc ?_ h.implicit_others
    unfold implicit
    simp [count, count?_record]

/-- To fill an unset field once is to write it. -/
theorem fill (hcounter : V.counter = .setValues)
    (himplied : ∃ f, o.feature? field = some f ∧ f.many = false ∧ f.implicitZero = true)
    (hunset : o.valueCount field = 0) : Written V V o (o.fill field 1) field where
  type := by
    unfold Object.fill Object.append
    split <;> rfl
  features := by
    unfold Object.fill Object.append
    split <;> rfl
  implied := himplied
  unset := by rw [hcounter]; exact hunset
  once := by
    rw [hcounter]
    show (o.fill field 1).valueCount field = 1
    rw [Object.valueCount_fill, hunset, if_pos rfl]
  others other hne := by
    rw [hcounter]
    show (o.fill field 1).valueCount other = o.valueCount other
    rw [Object.valueCount_fill, if_neg hne, Nat.add_zero]

end Written

/-! ## Both verdicts -/

/-- An unset field is at least as permissive as a written one, if no assignment of the field stands below an
alternative and either the field is implied once or nothing competes when it is written: what a rule accepts
with one value it accepts without. -/
theorem examine_of_written (h : Written V V' o o' field)
    (hc : ∀ f ∈ o.features, V.counter.count o f.name ≤ cap)
    (hl : early V.counter o r = [] →
      View.jointSplits (V.planned o r).rivals (V.planned o r).quantities ≤ V.config.exhaustiveLimit ∧
      View.jointSplits (V'.planned o' r).rivals (V'.planned o' r).quantities ≤ V'.config.exhaustiveLimit)
    (hstraight : ∀ v ∈ View.fitting ⟨r, o.type⟩, r.field? v = some field →
      ∀ u ∈ r.line v, r.shape u ≠ .alternative)
    (himplied : (V.planned o r).quantities.count field = 1 ∨ (V'.planned o' r).rivals = ∅)
    (ch : Chooser σ) (ch' : Chooser τ) (s : σ) (s' : τ)
    (hok : (V'.examine ch' o' r s').1.result = .ok []) : (V.examine ch o r s).1.result = .ok [] := by
  have he' := early_of_examine hok
  have he := h.early_eq_nil he'
  have hc' : ∀ f ∈ o'.features, V'.counter.count o' f.name ≤ cap := by
    intro f hf
    by_cases hname : f.name = field
    · rw [hname, h.once]
      decide
    · rw [h.others _ hname]
      exact hc f (h.features ▸ hf)
  obtain ⟨f, start, done, before, after, rfl, hmem, hforked⟩ := h.exists_forked he'
  have htarget : ∀ v ∈ f.2, (f.1, v) ∈ View.targets ⟨r, o.type⟩ := fun v hv =>
    mem_targets_of_assignable (hmem f List.mem_cons_self) hv
  have hstraight : ∀ v ∈ f.2, ∀ u ∈ r.line v, r.shape u ≠ .alternative := fun v hv =>
    hstraight v (mem_fitting_of_mem_targets (htarget v hv)) (View.mem_targets.1 (htarget v hv)).2
  by_cases hone : (V.planned o r).quantities.count f.1 = 1
  · have hplan := hforked.eq_of_implied hstraight hone
    obtain ⟨hlimit, hlimit'⟩ := hl he
    rw [hplan] at hlimit'
    rw [examine_congr V V' h.type hplan hc hc' he he' hlimit hlimit' ch ch' s s']
    exact hok
  · have hr' := himplied.resolve_left hone
    have hin := (examine_planned_iff hr' hc' he' ch' s').1 hok
    rw [h.type] at hin
    obtain ⟨v, hv⟩ := List.length_eq_one_iff.1 (show f.2.length = 1 by
      have hpos := List.length_pos_iff.2 (hforked.contest.nonempty f (by simp))
      have hone := (hforked.rivals_start hr').1
      omega)
    have ht := htarget v (by simp [hv])
    have hroom := hin (f.1, v) ht
    have hopen : ∀ u ∈ r.line v, View.blocked ⟨r, o.type⟩ u = false :=
      View.free_of_admits (blocked_of_mem_targets ht) hroom (by simp [hforked.count_written])
    obtain ⟨d, htrails⟩ := hforked.trails hv (hstraight v (by simp [hv])) hopen
      (fun g hg u hu => blocked_of_mem_targets
        (mem_targets_of_assignable (hmem g (List.mem_cons_of_mem f hg)) hu)) hone hr'
    have hdeclared := ((early_eq_nil_iff V.counter o r).1 he).2.1
    rw [examine_planned_iff htrails.rivals hc he ch s]
    intro t ht
    have ht' : t ∈ View.targets ⟨r, o'.type⟩ := by rwa [h.type]
    exact htrails.relaxed.admits (share_planned_le htrails.rivals hc) (share_planned_le hr' hc')
      (blocked_of_mem_targets ht) (by simp [(View.mem_targets.1 ht).2])
      (share?_of_rivals htrails.rivals ht (hdeclared t ht))
      (share?_of_rivals hr' ht' (by rw [h.feature?_eq]; exact hdeclared t ht)) (hin t ht)

/-- A visibility, a name and perhaps a visibility again. -/
def visibility : Rule :=
  ((Rule.ofAdditions "Visibility"
    [.root { shape := .group }, .child 0 { shape := .assignment "visibility" },
      .child 0 { shape := .assignment "name" },
      .child 0 { shape := .assignment "visibility", optional := true }]).toOption).get (by decide +kernel)

/-- A name without visibility. -/
def named : Object :=
  (((Object.empty "T").declare ⟨"visibility", false, true⟩).declare ⟨"name", false, false⟩).fill "name" 1

/-- A name with a visibility. -/
def visible : Object := named.fill "visibility" 1

def visibilityValidator : Validator where
  registry := Registry.empty.register "T" visibility

theorem examine_of_written_visibility :
    Written visibilityValidator visibilityValidator named visible "visibility" ∧
      (∀ f ∈ named.features, visibilityValidator.counter.count named f.name ≤ cap) ∧
      (early visibilityValidator.counter named visibility = [] →
        View.jointSplits (visibilityValidator.planned named visibility).rivals
            (visibilityValidator.planned named visibility).quantities ≤
              visibilityValidator.config.exhaustiveLimit ∧
          View.jointSplits (visibilityValidator.planned visible visibility).rivals
            (visibilityValidator.planned visible visibility).quantities ≤
              visibilityValidator.config.exhaustiveLimit) ∧
      (∀ v ∈ View.fitting ⟨visibility, named.type⟩, visibility.field? v = some "visibility" →
        ∀ u ∈ visibility.line v, visibility.shape u ≠ .alternative) ∧
      (visibilityValidator.planned named visibility).quantities.count "visibility" = 1 ∧
      (visibilityValidator.examine View.firstChoice visible visibility ()).1.result = .ok [] ∧
      (visibilityValidator.examine View.firstChoice named visibility ()).1.result = .ok [] := by
  have h : Written visibilityValidator visibilityValidator named visible "visibility" :=
    .fill rfl ⟨⟨"visibility", false, true⟩, by decide +kernel, rfl, rfl⟩ (by decide +kernel)
  have hc : ∀ f ∈ named.features, visibilityValidator.counter.count named f.name ≤ cap := by
    decide +kernel
  have hl : View.jointSplits (visibilityValidator.planned named visibility).rivals
        (visibilityValidator.planned named visibility).quantities ≤
          visibilityValidator.config.exhaustiveLimit ∧
      View.jointSplits (visibilityValidator.planned visible visibility).rivals
        (visibilityValidator.planned visible visibility).quantities ≤
          visibilityValidator.config.exhaustiveLimit := by decide +kernel
  have hstraight : ∀ v ∈ View.fitting ⟨visibility, named.type⟩, visibility.field? v = some "visibility" →
      ∀ u ∈ visibility.line v, visibility.shape u ≠ .alternative := by decide +kernel
  have hone : (visibilityValidator.planned named visibility).quantities.count "visibility" = 1 := by
    decide +kernel
  have hok : (visibilityValidator.examine View.firstChoice visible visibility ()).1.result = .ok [] := by
    have hzero : View.quality ⟨visibility, visible.type⟩
        (visibilityValidator.searched View.firstChoice visible visibility ()).quantities = 0 := by
      decide +kernel
    rw [examine_searched View.firstChoice () (by decide +kernel),
      violations_searched_of_quality (by decide +kernel) View.firstChoice () hzero]
    rfl
  exact ⟨h, hc, fun _ => hl, hstraight, hone, hok,
    examine_of_written h hc (fun _ => hl) hstraight (.inl hone) View.firstChoice View.firstChoice () () hok⟩

/-- A field that may be implied and another one twice, the second time perhaps; or nothing. -/
def tiedTwice : Rule :=
  ((Rule.ofAdditions "Tied"
    [.root { shape := .group, optional := true }, .child 0 { shape := .assignment "f" },
      .child 0 { shape := .assignment "g" },
      .child 0 { shape := .assignment "g", optional := true }]).toOption).get (by decide +kernel)

/-- One value of the field that is assigned twice. -/
def untied : Object :=
  (((Object.empty "T").declare ⟨"f", false, true⟩).declare ⟨"g", true, false⟩).fill "g" 1

def tiedValidator : Validator where
  registry := Registry.empty.register "T" tiedTwice

/-- While the other field competes nothing seems to demand the first one, so it counts as zero for good, and no
split of the other field agrees with that: what is accepted with one value is rejected without. -/
theorem examine_untied_rejected :
    Written tiedValidator tiedValidator untied (untied.fill "f" 1) "f" ∧
      View.jointSplits (tiedValidator.planned untied tiedTwice).rivals
          (tiedValidator.planned untied tiedTwice).quantities ≤ tiedValidator.config.exhaustiveLimit ∧
      View.jointSplits (tiedValidator.planned (untied.fill "f" 1) tiedTwice).rivals
          (tiedValidator.planned (untied.fill "f" 1) tiedTwice).quantities ≤
            tiedValidator.config.exhaustiveLimit ∧
      (tiedValidator.examine View.firstChoice (untied.fill "f" 1) tiedTwice ()).1.result = .ok [] ∧
      (tiedValidator.examine View.firstChoice untied tiedTwice ()).1.result ≠ .ok [] := by
  have hlimit : View.jointSplits (tiedValidator.planned untied tiedTwice).rivals
      (tiedValidator.planned untied tiedTwice).quantities ≤ tiedValidator.config.exhaustiveLimit := by
    decide +kernel
  have hwritten : Written tiedValidator tiedValidator untied (untied.fill "f" 1) "f" :=
    .fill rfl ⟨⟨"f", false, true⟩, by decide +kernel, rfl, rfl⟩ (by decide +kernel)
  refine ⟨hwritten, hlimit, by decide +kernel, ?_, ?_⟩
  · have hzero : View.quality ⟨tiedTwice, (untied.fill "f" 1).type⟩
        (tiedValidator.searched View.firstChoice (untied.fill "f" 1) tiedTwice ()).quantities = 0 := by
      decide +kernel
    rw [examine_searched View.firstChoice () (by decide +kernel),
      violations_searched_of_quality (by decide +kernel) View.firstChoice () hzero]
    rfl
  · have hready := tiedValidator.ready_planned untied tiedTwice
    obtain ⟨b, hb, -⟩ := View.optimum_spec hready.contest ⟨tiedTwice, untied.type⟩
      (tiedValidator.planned untied tiedTwice).quantities
    have hvalue : (View.optimum ⟨tiedTwice, untied.type⟩
        (tiedValidator.planned untied tiedTwice).rivals.toList
        (tiedValidator.planned untied tiedTwice).quantities).map (fun b => decide (0 < b.1)) =
          some true := by decide +kernel
    have hfound : (View.optimum ⟨tiedTwice, untied.type⟩
        (tiedValidator.planned untied tiedTwice).rivals.toList
        (tiedValidator.planned untied tiedTwice).quantities).map
          (fun b => (View.violations ⟨tiedTwice, untied.type⟩ b.2).isEmpty) = some false := by
      decide +kernel
    rw [hb, Option.map_some, Option.some.injEq] at hvalue hfound
    have hend := View.solve_eq_optimum hready hlimit hb (of_decide_eq_true hvalue) View.firstChoice
      untied.volume ()
    rw [examine_searched View.firstChoice () (by decide +kernel)]
    unfold searched
    rw [hend]
    intro hnil
    rw [List.map_eq_nil_iff.1 (Except.ok.inj hnil)] at hfound
    cases hfound

end Validator

end RuleCardinality
