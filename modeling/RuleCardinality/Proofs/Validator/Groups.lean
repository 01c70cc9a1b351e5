import RuleCardinality.Proofs.Validator.Uncontested
import RuleCardinality.Proofs.View.Grouped

/-!
# Rules of groups and assignments

The final check looks at one assignment after the other and never asks how often the groups fire. In an
elementary rule without alternatives it still decides whether the groups can fire in such a way that
every field gets its values (`examine_grouped_iff`).
-/

namespace RuleCardinality

namespace Validator

variable {σ : Type} {V : Validator} {o : Object} {r : Rule}

/-- An elementary rule of groups and assignments accepts an object that declares its fields exactly if
the groups can fire in such a way that each assignment fires as often as its field is set. -/
theorem examine_grouped_iff (hr : r.Elementary) (hg : r.Grouped) (hd : o.Declares r) (ch : Chooser σ)
    (s : σ) (hc : ∀ f ∈ o.features, V.counter.count o f.name ≤ cap) :
    (V.examine ch o r s).1.result = .ok [] ↔ ∃ fired, r.Firing (V.counter.count o) fired := by
  constructor
  · intro h
    obtain ⟨q, hq, hcap, hw⟩ := exists_settled hr hd ch s hc h
    exact View.exists_firing (w := ⟨r, o.type⟩) hr.unguarded hg hcap hw hq
  · rintro ⟨fired, hfiring⟩
    exact examine_of_flow hr hg.actionless hd ch s hc (hfiring.flow hg.shape_ne_alternative)
      (hg.exclusive _) (hg.visible _ _) hfiring.counted

/-- Any number of orders, each with one customer and one or more lots of one or more items and at most
one note. -/
def orders : Rule :=
  ((Rule.ofAdditions "Orders"
    [.root { shape := .group, optional := true, repeatable := true },
      .child 0 { shape := .assignment "customer" }, .child 0 { shape := .group, repeatable := true },
      .child 2 { shape := .assignment "item", repeatable := true },
      .child 2 { shape := .assignment "note", optional := true }]).toOption).get (by decide)

/-- Two orders of five items in all, with three notes. -/
def twoOrders : Object :=
  ((((Object.empty "T").declare ⟨"customer", true, false⟩).declare ⟨"item", true, false⟩).declare
    ⟨"note", true, false⟩).fill "customer" 2 |>.fill "item" 5 |>.fill "note" 3

def ordersValidator : Validator where
  registry := Registry.empty.register "T" orders

theorem examine_grouped_iff_orders :
    orders.Elementary ∧ orders.Grouped ∧ twoOrders.Declares orders ∧
      (∀ f ∈ twoOrders.features, ordersValidator.counter.count twoOrders f.name ≤ cap) ∧
      orders.Firing (ordersValidator.counter.count twoOrders) (fun v => [2, 2, 3, 5, 3].getD v 0) ∧
      (ordersValidator.examine View.firstChoice twoOrders orders ()).1.result = .ok [] := by
  have hr : orders.Elementary := ⟨by decide +kernel, by decide +kernel⟩
  have hg : orders.Grouped := by decide +kernel
  have hd : twoOrders.Declares orders := ⟨by decide +kernel, by decide +kernel, by decide +kernel⟩
  have hc : ∀ f ∈ twoOrders.features, ordersValidator.counter.count twoOrders f.name ≤ cap := by
    decide +kernel
  have hfiring : orders.Firing (ordersValidator.counter.count twoOrders)
      (fun v => [2, 2, 3, 5, 3].getD v 0) := by
    have hchildren : ∀ v ∈ orders.ids, ∀ c ∈ orders.children v,
        orders.Fits c ([2, 2, 3, 5, 3].getD c 0) ([2, 2, 3, 5, 3].getD v 0) := by
      decide +kernel
    have hleaves : ∀ v ∈ orders.ids, ∀ field ∈ orders.field? v,
        [2, 2, 3, 5, 3].getD v 0 = ordersValidator.counter.count twoOrders field := by
      decide +kernel
    refine ⟨by decide +kernel, fun v c hc => ?_, fun v field hf => ?_⟩
    · exact hchildren v (Rule.mem_ids_of_mem_children hc) c hc
    · exact hleaves v (Rule.mem_ids_of_field? hf) field hf
  exact ⟨hr, hg, hd, hc, hfiring,
    (examine_grouped_iff hr hg hd View.firstChoice () hc).2 ⟨_, hfiring⟩⟩

end Validator

end RuleCardinality
