import RuleCardinality.Proofs.Validator.Uncontested
import RuleCardinality.Proofs.View.Reached

/-!
# One branch of an alternative

A rule that assigns no field twice accepts an object only if of every reached alternative that cannot
repeat one branch at most leads to a field with values (`branch_unique_of_examine`). This holds for any
nesting, any cardinalities, type guards and actions.
-/

namespace RuleCardinality

/-- The walk for the type reaches, from the node, an assignment of a field with values. -/
def View.Valued (w : View) (count : String → Nat) (v : Nat) : Prop :=
  ∃ x ∈ w.reached v, ∃ field ∈ w.rule.field? x, 0 < count field

instance (w : View) (count : String → Nat) (v : Nat) : Decidable (w.Valued count v) :=
  inferInstanceAs (Decidable (∃ x ∈ w.reached v, ∃ field ∈ w.rule.field? x, 0 < count field))

namespace Validator

variable {σ : Type} {V : Validator} {o : Object} {r : Rule}

/-- In a plan that passes the check, reached fields with values are granted. -/
theorem granted_planned (hr : r.written.Nodup) (ho : ∀ f ∈ o.features, f.implicitZero = false)
    (ch : Chooser σ) (s : σ) (hc : ∀ f ∈ o.features, V.counter.count o f.name ≤ cap)
    (h : (V.examine ch o r s).1.result = .ok []) {x : Nat} {field : String}
    (hx : x ∈ View.reached ⟨r, o.type⟩ r.root) (hf : r.field? x = some field)
    (hpos : 0 < V.counter.count o field) :
    View.Granted ⟨r, o.type⟩ (V.planned o r).quantities x := by
  have he : early V.counter o r = [] := early_of_examine h
  have ht : (field, x) ∈ View.targets ⟨r, o.type⟩ := View.mem_targets.2 ⟨hx, hf⟩
  have hd : (o.feature? field).isSome := ((early_eq_nil_iff V.counter o r).1 he).2.1 _ ht
  have hcount : (V.planned o r).quantities.count field = V.counter.count o field := count_planned ho hd
  have hshare : (V.planned o r).quantities.share x = V.counter.count o field := by
    rw [← hcount]
    exact Quantities.share_of_share? (share?_planned hr ht hd)
  have hadmits := (examine_uncontested_iff hr ch s hc he).1 h _ ht
  rw [hcount] at hadmits
  refine ⟨by simp [hf], hshare ▸ hpos, fun hzero => ?_⟩
  have hexcess := (Window.admits_iff.1 hadmits).2
  rw [Window.excess_eq (n := 0) hzero] at hexcess
  omega

/-- Of an alternative that is reached and cannot repeat, one branch at most leads to fields with values,
in every object that a rule accepts. -/
theorem branch_unique_of_examine (hr : r.written.Nodup)
    (ho : ∀ f ∈ o.features, f.implicitZero = false) (ch : Chooser σ) (s : σ)
    (hc : ∀ f ∈ o.features, V.counter.count o f.name ≤ cap)
    (h : (V.examine ch o r s).1.result = .ok []) :
    ∀ v ∈ View.reached ⟨r, o.type⟩ r.root, r.shape v = .alternative → r.repeatable v = false →
      ∀ c ∈ r.children v, ∀ d ∈ r.children v,
        View.Valued ⟨r, o.type⟩ (V.counter.count o) c →
        View.Valued ⟨r, o.type⟩ (V.counter.count o) d → c = d := by
  rintro v hv hs hrep c hchild d hdchild ⟨x, hx, f, hf, hfpos⟩ ⟨y, hy, g, hg, hgpos⟩
  have hgx := granted_planned hr ho ch s hc h (View.mem_reached_of_child hv hchild hx) hf hfpos
  have hgy := granted_planned hr ho ch s hc h (View.mem_reached_of_child hv hdchild hy) hg hgpos
  exact View.eq_of_reached (w := ⟨r, o.type⟩) hs hrep hchild hdchild hx hy hgx hgy

/-- A number and either telephone numbers, each followed by a call, or for special types a locker, or any
streets and post boxes. -/
def delivery : Rule :=
  ((Rule.ofAdditions "Delivery"
    [.root { shape := .group }, .child 0 { shape := .assignment "number" },
      .child 0 { shape := .alternative }, .child 2 { shape := .group, repeatable := true },
      .child 3 { shape := .assignment "phone" }, .child 3 { shape := .action },
      .child 2 { shape := .group, types := some (.ofList ["Special"]) },
      .child 6 { shape := .assignment "locker" },
      .child 2 { shape := .alternative, repeatable := true },
      .child 8 { shape := .assignment "street" },
      .child 8 { shape := .assignment "box", optional := true }]).toOption).get (by decide +kernel)

/-- A number and two telephone numbers. -/
def called : Object :=
  (["number", "phone", "street", "box"].foldl (fun o f => o.declare ⟨f, true, false⟩)
    (Object.empty "T")).fill "number" 1 |>.fill "phone" 2

def deliveryValidator : Validator where
  registry := Registry.empty.register "T" delivery

theorem branch_unique_of_examine_delivery :
    delivery.written.Nodup ∧ (∀ f ∈ called.features, f.implicitZero = false) ∧
      (∀ f ∈ called.features, deliveryValidator.counter.count called f.name ≤ cap) ∧
      (deliveryValidator.examine View.firstChoice called delivery ()).1.result = .ok [] ∧
      2 ∈ View.reached ⟨delivery, called.type⟩ delivery.root ∧
      View.Valued ⟨delivery, called.type⟩ (deliveryValidator.counter.count called) 3 ∧
      ∀ d ∈ delivery.children 2,
        View.Valued ⟨delivery, called.type⟩ (deliveryValidator.counter.count called) d → 3 = d := by
  have hr : delivery.written.Nodup := by decide +kernel
  have ho : ∀ f ∈ called.features, f.implicitZero = false := by decide +kernel
  have hc : ∀ f ∈ called.features, deliveryValidator.counter.count called f.name ≤ cap := by
    decide +kernel
  have he : early deliveryValidator.counter called delivery = [] := by decide +kernel
  have hok : (deliveryValidator.examine View.firstChoice called delivery ()).1.result = .ok [] :=
    (examine_uncontested_iff hr View.firstChoice () hc he).2 (by decide +kernel)
  have hv : 2 ∈ View.reached ⟨delivery, called.type⟩ delivery.root := by decide +kernel
  have hvalued :
      View.Valued ⟨delivery, called.type⟩ (deliveryValidator.counter.count called) 3 := by
    decide +kernel
  refine ⟨hr, ho, hc, hok, hv, hvalued, fun d hd hvd => ?_⟩
  exact branch_unique_of_examine hr ho View.firstChoice () hc hok 2 hv (by decide +kernel)
    (by decide +kernel) 3 (by decide +kernel) d hd hvalued hvd

end Validator

end RuleCardinality
