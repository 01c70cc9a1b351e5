import RuleCardinality.Proofs.Validator.Uncontested
import RuleCardinality.Proofs.View.Chosen

/-!
# Rules with alternatives

The final check looks at one assignment after the other and never asks which branches were taken. In an
elementary rule in which no composite node repeats and every branch leaves a value, it still decides
whether there is a choice of branches that gives every field its values (`examine_selective_iff`).
-/

namespace RuleCardinality.Validator

variable {σ : Type} {V : Validator} {o : Object} {r : Rule}

/-- An elementary selective rule accepts an object that declares its fields exactly if the counts come from
a choice of firing nodes. -/
theorem examine_selective_iff (hr : r.Elementary) (hs : r.Selective) (hd : o.Declares r)
    (ch : Chooser σ) (s : σ) (hc : ∀ f ∈ o.features, V.counter.count o f.name ≤ cap) :
    (V.examine ch o r s).1.result = .ok [] ↔ ∃ on, r.Choice (V.counter.count o) on := by
  constructor
  · intro h
    obtain ⟨q, hq, hcap, hw⟩ := exists_settled hr hd ch s hc h
    exact ⟨_, View.choice_chosen (w := ⟨r, o.type⟩) hr.unguarded hs hcap hw hq⟩
  · rintro ⟨on, hchoice⟩
    exact examine_of_flow hr hs.actionless hd ch s hc hchoice.flow hchoice.exclusive
      (hchoice.visible hs) fun v field hf => hchoice.fired_assignment hf

/-- A name and either one or more telephone numbers or, optionally labelled, one of two kinds of
addresses. -/
def contact : Rule :=
  ((Rule.ofAdditions "Contact"
    [.root { shape := .group }, .child 0 { shape := .assignment "name" },
      .child 0 { shape := .alternative }, .child 2 { shape := .assignment "phone", repeatable := true },
      .child 2 { shape := .group }, .child 4 { shape := .assignment "label", optional := true },
      .child 4 { shape := .alternative }, .child 6 { shape := .assignment "street" },
      .child 6 { shape := .assignment "box" }]).toOption).get (by decide)

/-- A name, a label and a post box. -/
def boxed : Object :=
  (["name", "phone", "label", "street", "box"].foldl (fun o f => o.declare ⟨f, true, false⟩)
    (Object.empty "T")).fill "name" 1 |>.fill "label" 1 |>.fill "box" 1

def contactValidator : Validator where
  registry := Registry.empty.register "T" contact

/-- All nodes fire but those for telephone numbers and streets. -/
theorem choice_contact :
    contact.Choice (contactValidator.counter.count boxed) (fun v => v ∉ [3, 7]) := by
  have hgroups : ∀ v ∈ contact.ids, contact.shape v = .group → ∀ c ∈ contact.children v,
      (c ∉ [3, 7] → v ∉ [3, 7]) ∧ (contact.optional c = false → v ∉ [3, 7] → c ∉ [3, 7]) := by
    decide +kernel
  have halternatives : ∀ v ∈ contact.ids, contact.shape v = .alternative →
      v ∉ [3, 7] ∧ ∃ c ∈ contact.children v, c ∉ [3, 7] ∧
        ∀ d ∈ contact.children v, d ∉ [3, 7] → d = c := by
    decide +kernel
  have hleaves : ∀ v ∈ contact.ids, ∀ field ∈ contact.field? v,
      contactValidator.counter.count boxed field = if v ∈ [3, 7] then 0 else 1 := by
    decide +kernel
  have hleaf : ∀ v field, contact.field? v = some field →
      contactValidator.counter.count boxed field = if v ∈ [3, 7] then 0 else 1 := fun v field hf =>
    hleaves v (Rule.mem_ids_of_field? hf) field hf
  constructor
  case root => decide
  case mandatory =>
    intro v hs c hc ho
    obtain ⟨hup, hdown⟩ := hgroups v (Rule.mem_ids_of_shape_ne (by simp [hs])) hs c hc
    exact ⟨hup, hdown ho⟩
  case optional =>
    intro v hs c hc _
    exact (hgroups v (Rule.mem_ids_of_shape_ne (by simp [hs])) hs c hc).1
  case branch =>
    intro v hs _
    obtain ⟨-, c, hc, hon, hunique⟩ := halternatives v (Rule.mem_ids_of_shape_ne (by simp [hs])) hs
    exact ⟨c, ⟨hc, hon⟩, fun d hd => hunique d hd.1 hd.2⟩
  case silent =>
    intro v hs hoff
    exact absurd (halternatives v (Rule.mem_ids_of_shape_ne (by simp [hs])) hs).1 hoff
  case unset =>
    intro v field hf hoff
    rw [hleaf v field hf, if_pos (not_not.1 hoff)]
  case once =>
    intro v field hf hon _
    rw [hleaf v field hf, if_neg hon]
  case often =>
    intro v field hf hon _
    rw [hleaf v field hf, if_neg hon]

theorem examine_selective_iff_contact :
    contact.Elementary ∧ contact.Selective ∧ boxed.Declares contact ∧
      (∀ f ∈ boxed.features, contactValidator.counter.count boxed f.name ≤ cap) ∧
      contact.Choice (contactValidator.counter.count boxed) (fun v => v ∉ [3, 7]) ∧
      (contactValidator.examine View.firstChoice boxed contact ()).1.result = .ok [] := by
  have hr : contact.Elementary := ⟨by decide +kernel, by decide +kernel⟩
  have hs : contact.Selective :=
    ⟨by decide +kernel, by decide +kernel, by decide +kernel, by decide +kernel⟩
  have hd : boxed.Declares contact := ⟨by decide +kernel, by decide +kernel, by decide +kernel⟩
  have hc : ∀ f ∈ boxed.features, contactValidator.counter.count boxed f.name ≤ cap := by
    decide +kernel
  exact ⟨hr, hs, hd, hc, choice_contact,
    (examine_selective_iff hr hs hd View.firstChoice () hc).2 ⟨_, choice_contact⟩⟩

end RuleCardinality.Validator
