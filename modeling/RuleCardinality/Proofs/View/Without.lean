import RuleCardinality.Proofs.Rule.Without
import RuleCardinality.Proofs.View.Reached

/-!
# Views without a skipped part

A child of a group that may be left out and whose guard rejects the type can be left out of the rule: the
same nodes are blocked, the same assignments are reached (`reached`), and the minimums stay (`minCount`).
The maximums stay if the node is harmless (`maxCount`); otherwise its supply of zero can narrow what its
group, or a container of it, hands down to others.
-/

namespace RuleCardinality.View

variable {w w' : View} {q q' : Quantities} {x v u : Nat} {e : Nat → Nat} {field : String}

theorem any_congr_mem {l : List Nat} {f g : Nat → Bool} (h : ∀ c ∈ l, f c = g c) :
    l.any f = l.any g := by
  rw [Bool.eq_iff_iff, List.any_eq_true, List.any_eq_true]
  exact exists_congr fun c => and_congr_right fun hc => by rw [h c hc]

theorem all_congr_mem {l : List Nat} {f g : Nat → Bool} (h : ∀ c ∈ l, f c = g c) :
    l.all f = l.all g := by
  rw [List.all_eq_not_any_not, List.all_eq_not_any_not, any_congr_mem fun c hc => by rw [h c hc]]

/-- A child of a group that may be left out and whose own guard rejects the type. -/
structure Skipped (w : View) (x : Nat) : Prop where
  group : ∃ p, w.rule.container x = some p ∧ w.rule.shape p = .group
  optional : w.rule.optional x = true
  guarded : w.applies x = false

theorem Skipped.blocked (h : w.Skipped x) : w.blocked x = true := by
  rw [blocked_eq, h.guarded]
  rfl

/-- The views of one type of a rule and of the rule without a skipped part. -/
structure Without (w : View) (x : Nat) (w' : View) (e : Nat → Nat) : Prop where
  rule : w.rule.Without x w'.rule e
  type : w'.type = w.type
  skipped : w.Skipped x

namespace Without

open Rule (mem_ids_of_child mem_ids_of_container root_mem_ids)

/-! ## Children -/

theorem flatMap_children (h : w.Without x w' e) (hv : v ∈ w'.rule.ids) {f : Nat → List Nat}
    (hx : f x = []) :
    (w.rule.children (e v)).flatMap f = (w'.rule.children v).flatMap fun c => f (e c) := by
  rw [← List.flatMap_map e f (w'.rule.children v), h.rule.children hv]
  unfold Rule.others
  generalize w.rule.children (e v) = cs
  induction cs with
  | nil => rfl
  | cons c cs ih =>
    by_cases hc : c = x
    · simp [hc, hx, ih]
    · simp [hc, ih]

theorem any_children (h : w.Without x w' e) (hv : v ∈ w'.rule.ids) {f : Nat → Bool}
    (hx : f x = false) : (w.rule.children (e v)).any f = (w'.rule.children v).any fun c => f (e c) := by
  rw [← Function.comp_def f e, ← List.any_map, h.rule.children hv]
  unfold Rule.others
  rw [List.any_filter]
  refine any_congr_mem fun c _ => ?_
  by_cases hc : c = x
  · simp [hc, hx]
  · simp [hc]

theorem children_of_not_mem (h : w.Without x w' e) (hv : v ∈ w'.rule.ids)
    (hx : x ∉ w.rule.children (e v)) : w.rule.children (e v) = (w'.rule.children v).map e := by
  rw [h.rule.children hv]
  exact (List.filter_eq_self.2 fun c hc => by simpa using fun he : c = x => hx (he ▸ hc)).symm

theorem others_of_not_mem (h : w.Without x w' e) (hv : v ∈ w'.rule.ids) (hu : u ∈ w'.rule.ids)
    (hx : x ∉ w.rule.children (e v)) :
    w.rule.others (e v) (e u) = (w'.rule.others v u).map e := by
  rw [h.rule.others hv hu]
  refine (List.filter_eq_self.2 fun c hc => ?_).symm
  simpa using fun he : c = x => hx (he ▸ Rule.mem_children_of_mem_others hc)

/-- Alternatives keep their children. -/
theorem not_mem_children_alternative (h : w.Without x w' e) (hs : w.rule.shape v = .alternative) :
    x ∉ w.rule.children v := by
  intro hx
  obtain ⟨p, hp, hgroup⟩ := h.skipped.group
  obtain rfl : v = p := Option.some.inj ((Rule.mem_children.1 hx).symm.trans hp)
  rw [hs] at hgroup
  cases hgroup

/-! ## What is blocked and what is reached -/

theorem applies (h : w.Without x w' e) (hv : v ∈ w'.rule.ids) : w'.applies v = w.applies (e v) := by
  unfold View.applies
  rw [h.rule.spec v hv, h.type]

theorem blocked (h : w.Without x w' e) (hv : v ∈ w'.rule.ids) : w'.blocked v = w.blocked (e v) := by
  induction v using Rule.induction_down (r := w'.rule) with
  | step v ih =>
    have hbelow : ∀ c ∈ w'.rule.children v,
        (!w'.rule.optional c && w'.blocked c) = (!w.rule.optional (e c) && w.blocked (e c)) := by
      intro c hc
      rw [h.rule.optional (mem_ids_of_child hc), ih c hc (mem_ids_of_child hc)]
    rw [blocked_eq, blocked_eq, h.applies hv, h.rule.shape hv]
    refine congrArg _ ?_
    cases hs : w.rule.shape (e v) with
    | assignment field => rfl
    | action => rfl
    | group =>
      simp only
      rw [h.any_children hv (by simp [h.skipped.optional])]
      exact any_congr_mem hbelow
    | alternative =>
      simp only
      rw [h.children_of_not_mem hv (h.not_mem_children_alternative hs), List.all_map, List.isEmpty_map]
      exact congrArg _ (all_congr_mem hbelow)

theorem misfits (h : w.Without x w' e) (hv : v ∈ w'.rule.ids) :
    w.misfits (e v) = (w'.misfits v).map e := by
  induction v using Rule.induction_down (r := w'.rule) with
  | step v ih =>
    have hbelow : ∀ c ∈ w'.rule.children v, w.misfits (e c) = (w'.misfits c).map e := fun c hc =>
      ih c hc (mem_ids_of_child hc)
    have hx : w.misfits x = [] := by rw [misfits_eq, if_pos h.skipped.optional]
    have hflatten : ((w.rule.children (e v)).map w.misfits).flatten =
        ((w'.rule.children v).map w'.misfits).flatten.map e := by
      rw [← List.flatMap_def, ← List.flatMap_def, h.flatMap_children hv hx, List.map_flatMap]
      exact List.flatMap_congr hbelow
    rw [misfits_eq, misfits_eq, h.rule.optional hv, h.applies hv, h.rule.shape hv]
    split
    · rfl
    split
    · rfl
    cases hs : w.rule.shape (e v) with
    | assignment field => rfl
    | action => rfl
    | group => exact hflatten
    | alternative =>
      have hany : ((w.rule.children (e v)).map w.misfits).any List.isEmpty =
          ((w'.rule.children v).map w'.misfits).any List.isEmpty := by
        rw [h.children_of_not_mem hv (h.not_mem_children_alternative hs), List.map_map, List.any_map,
          List.any_map]
        refine any_congr_mem fun c hc => ?_
        simp only [Function.comp_apply, hbelow c hc, List.isEmpty_map]
      simp only [hany, hflatten]
      split <;> rfl

theorem reached (h : w.Without x w' e) (hv : v ∈ w'.rule.ids) :
    w.reached (e v) = (w'.reached v).map e := by
  induction v using Rule.induction_down (r := w'.rule) with
  | step v ih =>
    have hx : w.reached x = [] := by rw [reached_eq, h.skipped.guarded]; rfl
    rw [reached_eq, reached_eq, h.applies hv]
    split
    · rw [h.flatMap_children hv hx, List.map_cons, List.map_flatMap]
      exact congrArg _ (List.flatMap_congr fun c hc => ih c hc (mem_ids_of_child hc))
    · rfl

theorem mem_ids_of_mem_reached (hv : v ∈ w'.rule.ids) (hu : u ∈ w'.reached v) : u ∈ w'.rule.ids := by
  induction v using Rule.induction_down (r := w'.rule) with
  | step v ih =>
    obtain ⟨-, rfl | ⟨c, hc, huc⟩⟩ := mem_reached_iff.1 hu
    · exact hv
    · exact ih c hc (mem_ids_of_child hc) huc

theorem targets (h : w.Without x w' e) : w.targets = w'.targets.map fun t => (t.1, e t.2) := by
  have hroot : w'.rule.root ∈ w'.rule.ids := root_mem_ids w'.rule
  rw [targets_eq, targets_eq, ← h.rule.root, h.reached hroot, List.filterMap_map, List.map_filterMap]
  refine List.filterMap_congr fun v hv => ?_
  rw [Function.comp_apply, h.rule.field? (mem_ids_of_mem_reached hroot hv), Option.map_map]
  rfl

/-! ## Demand and minimums -/

theorem plainRoot (h : w.Without x w' e) (hv : v ∈ w'.rule.ids) : w.plainRoot (e v) = w'.plainRoot v := by
  unfold View.plainRoot
  rw [h.rule.container v hv, Option.isNone_map, h.rule.optional hv, h.rule.repeatable hv]

section

variable (h : w.Without x w' e) (hs : ∀ v ∈ w'.rule.ids, q.share? (e v) = q'.share? v)
  (hq : ∀ v, q.share v ≤ cap) (hq' : ∀ v, q'.share v ≤ cap)

include h

theorem demand_skipped : w.demand q x = 0 := by
  rw [demand_eq, if_pos h.skipped.blocked]

omit h in
theorem alike_once {a b : Count} (hab : Count.Alike a b) (p : Bool) :
    Count.Alike (if p && 1 < a then 1 else a) (if p && 1 < b then 1 else b) := by
  have hone : 1 < a ↔ 1 < b := hab.lt_iff (by decide)
  simp only [hone]
  split
  · rfl
  · exact hab

omit h in
/-- Of several nodes the busiest one demands the same, whether or not a node without demand is among
them. -/
theorem alike_busiest {cs cs' : List Nat} (hcs : ∀ c, c ∈ cs ∧ c ≠ x ↔ ∃ d ∈ cs', e d = c)
    (hx : w.demand q x = 0) (hbelow : ∀ d ∈ cs', Count.Alike (w.demand q (e d)) (w'.demand q' d)) :
    Count.Alike ((cs.map (w.demand q)).foldl max .undefined)
      ((cs'.map (w'.demand q')).foldl max .undefined) := by
  refine Count.alike_of_lt_iff fun c hc => ?_
  rw [Count.lt_foldl_max_iff, Count.lt_foldl_max_iff]
  refine or_congr_right ?_
  simp only [List.mem_map, exists_exists_and_eq_and]
  constructor
  · rintro ⟨d, hd, hlt⟩
    have hne : d ≠ x := by
      rintro rfl
      exact not_lt.2 hc (hx ▸ hlt)
    obtain ⟨d', hd', rfl⟩ := (hcs d).1 ⟨hd, hne⟩
    exact ⟨d', hd', ((hbelow d' hd').lt_iff hc).1 hlt⟩
  · rintro ⟨d', hd', hlt⟩
    exact ⟨e d', ((hcs (e d')).2 ⟨d', hd', rfl⟩).1, ((hbelow d' hd').lt_iff hc).2 hlt⟩

include hs hq hq'

/-- The node that is left out can only make a demand of zero out of an unknown one. -/
theorem alike_demand (hv : v ∈ w'.rule.ids) : Count.Alike (w.demand q (e v)) (w'.demand q' v) := by
  induction v using Rule.induction_down (r := w'.rule) with
  | step v ih =>
    have hbelow : ∀ c ∈ w'.rule.children v, Count.Alike (w.demand q (e c)) (w'.demand q' c) :=
      fun c hc => ih c hc (mem_ids_of_child hc)
    have hb := h.blocked hv
    cases hbv : w.blocked (e v) with
    | true => rw [demand_eq, demand_eq, hb, hbv]; rfl
    | false =>
      rw [hbv] at hb
      rw [demand_eq_load hbv, demand_eq_load hb, h.rule.repeatable hv]
      refine alike_once ?_ _
      unfold load
      rw [h.rule.shape hv]
      cases hshape : w.rule.shape (e v) with
      | assignment field =>
        simp only [Quantities.shareCount, hs v hv]
        rfl
      | action => rfl
      | group => exact alike_busiest (fun _ => h.rule.mem_children_iff hv) h.demand_skipped hbelow
      | alternative =>
        simp only
        rw [h.children_of_not_mem hv (h.not_mem_children_alternative hshape), List.map_map]
        exact Count.alike_foldl_plus rfl (Count.undefined_le _) (Count.undefined_le _) hbelow
          (fun c _ => demand_le_cap hq (e c)) fun c _ => demand_le_cap hq' c

theorem minCount (hv : v ∈ w'.rule.ids) : w.minCount q (e v) = w'.minCount q' v := by
  induction v using Rule.induction_up (r := w'.rule) with
  | step v ih =>
    rw [minCount_eq, minCount_eq, h.rule.optional hv, h.rule.container v hv]
    split
    · rfl
    cases hp : w'.rule.container v with
    | none => rfl
    | some p =>
      have hpids : p ∈ w'.rule.ids := mem_ids_of_container hp
      have hchild : v ∈ w'.rule.children p := Rule.mem_children.2 hp
      have habove : w.minCount q (e p) = w'.minCount q' p := ih p hp hpids
      have hdemand : ∀ c ∈ w'.rule.others p v, Count.Alike (w.demand q (e c)) (w'.demand q' c) :=
        fun c hc => h.alike_demand hs hq hq' (mem_ids_of_child (Rule.mem_children_of_mem_others hc))
      have hb := h.blocked hpids
      show w.leastIn q (e p) (e v) = w'.leastIn q' p v
      cases hbp : w.blocked (e p) with
      | true => rw [leastIn_eq, leastIn_eq, hb, hbp]; rfl
      | false =>
        rw [hbp] at hb
        have hshape := h.rule.shape hpids
        rcases Rule.composite_of_mem_children hchild with hg | ha
        · have hg' := hshape.symm.trans hg
          rw [leastIn_group hbp hg', leastIn_group hb hg, h.plainRoot hpids, habove]
          split
          · rfl
          · exact (alike_busiest (fun _ => h.rule.mem_others_iff hpids hv) h.demand_skipped
              hdemand).max_eq (zero_le_minCount p)
        · have ha' := hshape.symm.trans ha
          have hany : (w.rule.others (e p) (e v)).any (fun d => 0 < w.demand q d) =
              (w'.rule.others p v).any fun d => 0 < w'.demand q' d := by
            rw [h.others_of_not_mem hpids hv (h.not_mem_children_alternative ha'), List.any_map]
            refine any_congr_mem fun c hc => ?_
            exact decide_eq_decide.2 ((hdemand c hc).lt_iff le_rfl)
          rw [leastIn_alternative hbp ha', leastIn_alternative hb ha, hany, habove]

/-! ## Maximums -/

omit hq hq'

/-- Away from the exposed nodes all supplies stay. -/
theorem supply (hv : v ∈ w'.rule.ids) (hx : ¬ w.rule.Exposed x (e v)) :
    w.supply q (e v) = w'.supply q' v := by
  induction v using Rule.induction_down (r := w'.rule) with
  | step v ih =>
    have hb := h.blocked hv
    cases hbv : w.blocked (e v) with
    | true => rw [supply_eq, supply_eq, hb, hbv]; rfl
    | false =>
      rw [hbv] at hb
      rw [supply_eq_reach hbv, supply_eq_reach hb, h.rule.optional hv]
      split
      · rfl
      rename_i ho
      have hup : ∀ {c : Nat}, c ∈ w.rule.children (e v) → ¬ w.rule.Exposed x c := fun hc hexposed =>
        hx (.container hexposed (Rule.mem_children.1 hc) (by simpa using ho))
      have hchildren : (w.rule.children (e v)).map (w.supply q) =
          (w'.rule.children v).map (w'.supply q') := by
        have hmap := h.children_of_not_mem hv fun hmem => hup hmem .self
        rw [hmap, List.map_map]
        refine List.map_congr_left fun c hc => ih c hc (mem_ids_of_child hc) (hup ?_)
        rw [hmap]
        exact List.mem_map_of_mem hc
      unfold reach
      rw [h.rule.shape hv, hchildren]
      cases w.rule.shape (e v) with
      | assignment field => simp only [Quantities.shareCount, hs v hv]
      | action => rfl
      | group => rfl
      | alternative => rfl

/-- A group with an exposed child narrows nothing, if the node is harmless. -/
theorem narrowed (hh : w.rule.Harmless x) {p : Nat} (hp : p ∈ w'.rule.ids)
    (hc : v ∈ w'.rule.ids) (hg : w.rule.shape (e p) = .group)
    (hmax : w.maxCount q none (e p) = w'.maxCount q' none p) :
    w.narrowed q none (e p) (e v) = w'.narrowed q' none p v := by
  unfold View.narrowed
  rw [h.rule.optional hp, hmax]
  by_cases hexposed : ∃ c ∈ w.rule.children (e p), w.rule.Exposed x c
  · obtain ⟨c, hchild, hexposed⟩ := hexposed
    have hcontainer := Rule.mem_children.1 hchild
    have hharmless := hh.exposed hexposed
    have hone : w.maxCount q none (e p) ≤ 1 := maxCount_le_one (hharmless.repeatable_line hcontainer)
    have hfinite : w'.maxCount q' none p ≠ .unbounded := hmax ▸ Count.ne_unbounded_of_le hone
    rw [hharmless.optional_group hcontainer hg]
    simp [hfinite]
  · have hout : ∀ c ∈ w.rule.children (e p), ¬ w.rule.Exposed x c := fun c hc hexp =>
      hexposed ⟨c, hc, hexp⟩
    have hothers := h.others_of_not_mem hp hc fun hmem => hout x hmem .self
    have hsupply : (w.rule.others (e p) (e v)).map (w.supply q) =
        (w'.rule.others p v).map (w'.supply q') := by
      rw [hothers, List.map_map]
      refine List.map_congr_left fun c hmem => ?_
      have hmem' : e c ∈ w.rule.others (e p) (e v) := hothers ▸ List.mem_map_of_mem hmem
      exact h.supply hs (mem_ids_of_child (Rule.mem_children_of_mem_others hmem))
        (hout _ (Rule.mem_children_of_mem_others hmem'))
    rw [hsupply]

include hq hq'

theorem branchDead {p : Nat} (hp : p ∈ w'.rule.ids) (hv : v ∈ w'.rule.ids)
    (ha : w.rule.shape (e p) = .alternative) :
    w.branchDead q none (e p) (e v) = w'.branchDead q' none p v := by
  unfold View.branchDead
  rw [h.children_of_not_mem hp (h.not_mem_children_alternative ha), List.any_map]
  refine any_congr_mem fun c hc => ?_
  have hcids : c ∈ w'.rule.ids := mem_ids_of_child hc
  have hpos : decide (0 < w.demand q (e c)) = decide (0 < w'.demand q' c) :=
    decide_eq_decide.2 ((h.alike_demand hs hq hq' hcids).lt_iff le_rfl)
  simp only [Function.comp_apply, h.rule.inj hcids hv, hpos, Option.any_none]

/-- A harmless node can be left out without any change to the maximums. -/
theorem maxCount (hh : w.rule.Harmless x) (hv : v ∈ w'.rule.ids) :
    w.maxCount q none (e v) = w'.maxCount q' none v := by
  induction v using Rule.induction_up (r := w'.rule) with
  | step v ih =>
    have habove : w.mostAbove q none (e v) = w'.mostAbove q' none v := by
      unfold mostAbove
      rw [h.rule.container v hv, h.rule.repeatable hv]
      cases hp : w'.rule.container v with
      | none => rfl
      | some p =>
        have hpids : p ∈ w'.rule.ids := mem_ids_of_container hp
        have hmax := ih p hp hpids
        have hb := h.blocked hpids
        show w.mostIn q none (e p) (e v) = w'.mostIn q' none p v
        cases hbp : w.blocked (e p) with
        | true => rw [mostIn_eq, mostIn_eq, hb, hbp]; rfl
        | false =>
          rw [hbp] at hb
          have hshape := h.rule.shape hpids
          rcases Rule.composite_of_mem_children (Rule.mem_children.2 hp) with hg | ha
          · have hg' := hshape.symm.trans hg
            rw [mostIn_group hbp hg', mostIn_group hb hg, h.rule.optional hpids,
              h.narrowed hs hh hpids hv hg' hmax, hmax]
          · have ha' := hshape.symm.trans ha
            rw [mostIn_alternative hbp ha', mostIn_alternative hb ha, h.rule.repeatable hpids,
              h.branchDead hs hq hq' hpids hv ha', hmax]
    rw [maxCount_eq_mostAbove, maxCount_eq_mostAbove, habove, h.rule.repeatable hv]

/-- The window of an assignment stays if the node that is left out is harmless. -/
theorem window (hh : w.rule.Harmless x) (hv : v ∈ w'.rule.ids) :
    w.window q none (e v) = w'.window q' none v := by
  unfold View.window
  rw [h.minCount hs hq hq' hv, h.maxCount hs hq hq' hh hv]

end

end Without

end RuleCardinality.View
