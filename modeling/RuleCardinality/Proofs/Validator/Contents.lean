import Mathlib.Logic.Relation
import RuleCardinality.Proofs.Validator.Validate

/-!
# Validations of contained objects

The loop over a stack of objects visits the root and everything in it in preorder, each occurrence once
(`traverse_eq_pass`). So what it delivers is what the single validations deliver, one after the other, and
it finds the root valid if each of them does; a fault would end it with what was delivered up to there
(`validateAll_preorder`).
-/

namespace RuleCardinality

namespace Object

/-- The second object is among the contents of the first. -/
def Holds (o c : Object) : Prop := c ∈ o.contents

theorem mem_occurrences_self (o : Object) : o ∈ o.occurrences := by
  rw [occurrences_eq]
  exact List.mem_cons_self

theorem mem_occurrences_of_holds {o c x : Object} (hc : o.Holds c) (hx : x ∈ c.occurrences) :
    x ∈ o.occurrences := by
  rw [occurrences_eq]
  exact List.mem_cons_of_mem _ (List.mem_flatMap.2 ⟨c, hc, hx⟩)

theorem reachable_of_mem_occurrences {o x : Object} (hx : x ∈ o.occurrences) :
    Relation.ReflTransGen Holds o x := by
  rw [occurrences_eq, List.mem_cons, List.mem_flatMap] at hx
  rcases hx with rfl | ⟨c, hc, hxc⟩
  · exact .refl
  · exact .head hc (reachable_of_mem_occurrences hxc)
termination_by sizeOf o
decreasing_by exact sizeOf_lt_of_mem_contents hc

/-- What occurs in an object is what its contents lead to. -/
theorem mem_occurrences_iff {o x : Object} :
    x ∈ o.occurrences ↔ Relation.ReflTransGen Holds o x := by
  refine ⟨reachable_of_mem_occurrences, fun h => ?_⟩
  induction h using Relation.ReflTransGen.head_induction_on with
  | refl => exact mem_occurrences_self x
  | head hc _ ih => exact mem_occurrences_of_holds hc ih

end Object

namespace Validator

variable {judge : Object → Verdict} {o x : Object} {os before after : List Object} {valid : Bool}
  {fault : Fault}

/-! ## The loop -/

/-- Judges the objects of a list until a fault stops it. -/
def pass (judge : Object → Verdict) : List Object → Bool → Verdict
  | [], valid => ⟨.ok valid, [], []⟩
  | o :: os, valid =>
    let first := judge o
    match first.result with
    | .error fault => ⟨.error fault, first.diagnostics, first.events⟩
    | .ok accepted =>
      let others := pass judge os (valid && accepted)
      ⟨others.result, first.diagnostics ++ others.diagnostics, first.events ++ others.events⟩

theorem pass_fault (h : (judge o).result = .error fault) (os : List Object) (valid : Bool) :
    pass judge (o :: os) valid = ⟨.error fault, (judge o).diagnostics, (judge o).events⟩ := by
  simp only [pass, h]

theorem pass_next {accepted : Bool} (h : (judge o).result = .ok accepted) (os : List Object)
    (valid : Bool) :
    pass judge (o :: os) valid =
      ⟨(pass judge os (valid && accepted)).result,
        (judge o).diagnostics ++ (pass judge os (valid && accepted)).diagnostics,
        (judge o).events ++ (pass judge os (valid && accepted)).events⟩ := by
  simp only [pass, h]

/-- The loop over a stack is a pass over what occurs in the objects on it. -/
theorem traverse_eq_pass (judge : Object → Verdict) (stack : List Object) (valid : Bool) :
    traverse judge stack valid = pass judge (stack.flatMap Object.occurrences) valid := by
  fun_induction traverse judge stack valid with
  | case1 valid => rfl
  | case2 o stack valid first fault hfault =>
    rw [flatMap_stacked Object.occurrences_eq, pass_fault hfault]
  | case3 o stack valid first accepted haccepted others ih =>
    rw [flatMap_stacked Object.occurrences_eq, pass_next haccepted, ← ih]

/-! ## What is gathered -/

/-- A verdict on some objects, one after the other: if all of them can be judged, it delivers what is
delivered about each and is positive if each verdict is; else it ends with the first fault, after what is
delivered about the objects before. -/
structure Gathers (judge : Object → Verdict) (os : List Object) (v : Verdict) : Prop where
  complete : (∀ x ∈ os, ∃ accepted, (judge x).result = .ok accepted) →
    v.diagnostics = os.flatMap (fun x => (judge x).diagnostics) ∧
      v.events = os.flatMap (fun x => (judge x).events) ∧
      ∃ valid, v.result = .ok valid ∧ (valid = true ↔ ∀ x ∈ os, (judge x).result = .ok true)
  stopped : ∀ before x after fault, os = before ++ x :: after →
    (∀ y ∈ before, ∃ accepted, (judge y).result = .ok accepted) → (judge x).result = .error fault →
    v.result = .error fault ∧ v.diagnostics = before.flatMap (fun y => (judge y).diagnostics) ∧
      v.events = (before ++ [x]).flatMap (fun y => (judge y).events)

/-- Nothing is delivered about an object that cannot be judged. -/
def SilentOnFault (judge : Object → Verdict) : Prop :=
  ∀ x fault, (judge x).result = .error fault → (judge x).diagnostics = []

theorem pass_complete (h : ∀ x ∈ os, ∃ accepted, (judge x).result = .ok accepted) (valid : Bool) :
    (pass judge os valid).diagnostics = os.flatMap (fun x => (judge x).diagnostics) ∧
      (pass judge os valid).events = os.flatMap (fun x => (judge x).events) ∧
      ∃ accepted, (pass judge os valid).result = .ok accepted ∧
        (accepted = true ↔ valid = true ∧ ∀ x ∈ os, (judge x).result = .ok true) := by
  induction os generalizing valid with
  | nil => exact ⟨rfl, rfl, valid, rfl, by simp⟩
  | cons o os ih =>
    obtain ⟨accepted, ho⟩ := h o (by simp)
    obtain ⟨hdiagnostics, hevents, all, hall, hiff⟩ := ih (fun x hx => h x (by simp [hx])) (valid && accepted)
    rw [pass_next ho]
    refine ⟨?_, ?_, all, hall, ?_⟩
    · rw [hdiagnostics, List.flatMap_cons]
    · rw [hevents, List.flatMap_cons]
    · rw [hiff, Bool.and_eq_true, List.forall_mem_cons, ho, Except.ok.injEq, and_assoc]

theorem pass_stopped (hbefore : ∀ y ∈ before, ∃ accepted, (judge y).result = .ok accepted)
    (hx : (judge x).result = .error fault) (hsilent : (judge x).diagnostics = [])
    (after : List Object) (valid : Bool) :
    (pass judge (before ++ x :: after) valid).result = .error fault ∧
      (pass judge (before ++ x :: after) valid).diagnostics =
        before.flatMap (fun y => (judge y).diagnostics) ∧
      (pass judge (before ++ x :: after) valid).events =
        (before ++ [x]).flatMap (fun y => (judge y).events) := by
  induction before generalizing valid with
  | nil =>
    rw [List.nil_append, pass_fault hx, hsilent]
    exact ⟨rfl, rfl, by simp⟩
  | cons o before ih =>
    obtain ⟨accepted, ho⟩ := hbefore o (by simp)
    obtain ⟨hresult, hdiagnostics, hevents⟩ :=
      ih (fun y hy => hbefore y (by simp [hy])) (valid && accepted)
    rw [List.cons_append, pass_next ho]
    refine ⟨hresult, ?_, ?_⟩
    · rw [hdiagnostics, List.flatMap_cons]
    · rw [hevents, List.cons_append, List.flatMap_cons]

theorem gathers_traverse (hj : SilentOnFault judge) (o : Object) :
    Gathers judge o.occurrences (traverse judge [o] true) := by
  rw [traverse_eq_pass, List.flatMap_singleton]
  refine ⟨fun h => ?_, fun before x after fault he hbefore hx => ?_⟩
  · obtain ⟨hdiagnostics, hevents, valid, hvalid, hiff⟩ := pass_complete h true
    exact ⟨hdiagnostics, hevents, valid, hvalid, hiff.trans (and_iff_right rfl)⟩
  · rw [he]
    exact pass_stopped hbefore hx (hj x fault hx) after true

/-! ## Validations -/

variable {σ : Type} {V : Validator}

theorem diagnostics_tryRules_of_fault {ch : Chooser σ} {rules : List Rule} {found : List Diagnostic}
    {s : σ} (h : (V.tryRules ch o rules found s).1.result = .error fault) :
    (V.tryRules ch o rules found s).1.diagnostics = [] := by
  induction rules generalizing found s with
  | nil => simp [tryRules, runRules] at h
  | cons r rules ih =>
    unfold tryRules runRules at h ⊢
    simp only at h ⊢
    cases hr : (V.examine ch o r s).1.result with
    | error e => rfl
    | ok ds =>
      cases ds with
      | nil => rfl
      | cons d ds =>
        simp only [hr] at h
        exact ih h

/-- A validation that a fault stops delivers nothing. -/
theorem silentOnFault_validate (V : Validator) (ctx : Context) :
    SilentOnFault fun o => V.validate o ctx := by
  intro o fault h
  unfold validate validateWith at h ⊢
  simp only at h ⊢
  split
  · rfl
  · rename_i hrules
    rw [if_neg hrules] at h
    exact diagnostics_tryRules_of_fault h

/-- A validation of an object and all objects in it delivers what the validations of the single objects
deliver, in preorder, and accepts the object if each of them does. The loop behind it would end with the
first fault, whatever the verdicts on single objects are, and deliver what comes before. -/
theorem validateAll_preorder (V : Validator) (o : Object) (ctx : Context) :
    (∀ x, x ∈ o.occurrences ↔ Relation.ReflTransGen Object.Holds o x) ∧
      o.occurrences = o :: o.contents.flatMap Object.occurrences ∧
      (V.validateAll o ctx).diagnostics =
        o.occurrences.flatMap (fun x => (V.validate x ctx).diagnostics) ∧
      (V.validateAll o ctx).events = o.occurrences.flatMap (fun x => (V.validate x ctx).events) ∧
      ((V.validateAll o ctx).result = .ok true ↔
        ∀ x ∈ o.occurrences, (V.validate x ctx).result = .ok true) ∧
      Gathers (fun x => V.validate x ctx) o.occurrences (V.validateAll o ctx) ∧
      ∀ judge, SilentOnFault judge → Gathers judge o.occurrences (traverse judge [o] true) := by
  have hgathers : Gathers (fun x => V.validate x ctx) o.occurrences (V.validateAll o ctx) :=
    gathers_traverse (silentOnFault_validate V ctx) o
  obtain ⟨hdiagnostics, hevents, valid, hvalid, hiff⟩ :=
    hgathers.complete fun x _ => validateWith_ok V seededChooser x ctx _
  refine ⟨fun x => Object.mem_occurrences_iff, o.occurrences_eq, hdiagnostics, hevents, ?_, hgathers,
    fun judge hj => gathers_traverse hj o⟩
  rw [hvalid, Except.ok.injEq]
  exact hiff

/-! A crate with a tray, which has a note on it, and a slip that cannot be judged. -/

/-- An object whose only feature is a list of parts. -/
def withParts (type : String) (parts : List Value) : Object :=
  .mk type [{ name := "parts", many := true, implicitZero := false }] [("parts", parts)]

def note : Object := withParts "Note" [.text "fragile"]

def tray : Object := withParts "Tray" [.object note]

def slip : Object := withParts "Slip" []

def crate : Object := withParts "Crate" [.object tray, .text "straw", .object slip]

/-- Finds something wrong with each object and fails at slips. -/
def crateJudge (o : Object) : Verdict :=
  if o.type = "Slip" then ⟨.error (.missingRoot "Slip"), [], []⟩
  else ⟨.ok false, [Diagnostic.shape View.optionalPair o.type [0]], []⟩

theorem occurrences_crate : crate.occurrences = [crate, tray, note] ++ slip :: [] := by
  have hcrate : crate.contents = [tray, slip] := rfl
  have htray : tray.contents = [note] := rfl
  have hnote : note.contents = [] := rfl
  have hslip : slip.contents = [] := rfl
  simp [Object.occurrences_eq, hcrate, htray, hnote, hslip]

theorem silentOnFault_crateJudge : SilentOnFault crateJudge := by
  intro x fault h
  unfold crateJudge at h ⊢
  split
  · rfl
  · rename_i hslip
    rw [if_neg hslip] at h
    cases h

theorem validateAll_preorder_crate :
    SilentOnFault crateJudge ∧ crate.occurrences = [crate, tray, note] ++ slip :: [] ∧
      (∀ y ∈ [crate, tray, note], ∃ accepted, (crateJudge y).result = .ok accepted) ∧
      (crateJudge slip).result = .error (.missingRoot "Slip") ∧
      (traverse crateJudge [crate] true).result = .error (.missingRoot "Slip") ∧
      (traverse crateJudge [crate] true).diagnostics =
        [crate, tray, note].flatMap (fun y => (crateJudge y).diagnostics) := by
  have hjudged : ∀ y ∈ [crate, tray, note], ∃ accepted, (crateJudge y).result = .ok accepted := by
    intro y hy
    refine ⟨false, ?_⟩
    simp only [List.mem_cons, List.not_mem_nil, or_false] at hy
    rcases hy with rfl | rfl | rfl <;> rfl
  have hslip : (crateJudge slip).result = .error (.missingRoot "Slip") := rfl
  obtain ⟨-, -, -, -, -, -, hloop⟩ := validateAll_preorder pairValidator crate .empty
  obtain ⟨hresult, hdiagnostics, -⟩ := (hloop crateJudge silentOnFault_crateJudge).stopped
    [crate, tray, note] slip [] (.missingRoot "Slip") occurrences_crate hjudged hslip
  exact ⟨silentOnFault_crateJudge, occurrences_crate, hjudged, hslip, hresult, hdiagnostics⟩

end Validator

end RuleCardinality
