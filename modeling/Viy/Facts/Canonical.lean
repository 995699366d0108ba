import Viy.Facts.RoundTrip

/-!
# Facts that mean the same

The vectors of cases, call values and support addresses stand for sets, and of a trait value one
member counts. Facts that differ in nothing else have one normal form, so normalization accepts them
with the same result or rejects them with the same error. What it accepts is valid and its own
normal form.
-/

namespace Viy.Analysis

open Wire

/-- The same elements, in any order and number. -/
def SameElements {α : Type} (l m : List α) : Prop := ∀ x, x ∈ l ↔ x ∈ m

/-- The same kind, and the same value of the member that is active. -/
structure SameTraitValue (a b : TraitValue) : Prop where
  kind : a.kind = b.kind
  signedValue : a.kind = .signed → a.signedValue = b.signedValue
  unsignedValue : a.kind = .unsigned → a.unsignedValue = b.unsignedValue
  booleanValue : a.kind = .boolean → a.booleanValue = b.booleanValue
  textValue : a.kind = .text → a.textValue = b.textValue

/-- Payloads that differ in their set-like fields and inactive members only. -/
inductive SamePayload : FactPayload → FactPayload → Prop
  | refl (payload : FactPayload) : SamePayload payload payload
  | functionTrait (fact : FunctionTraitFact) {value : TraitValue}
      (hvalue : SameTraitValue fact.value value) :
      SamePayload (.functionTrait fact) (.functionTrait { fact with value := value })
  | dispatchMap (fact : DispatchMapFact) {cases : List DispatchCase}
      (hcases : SameElements fact.cases cases) :
      SamePayload (.dispatchMap fact) (.dispatchMap { fact with cases := cases })
  | callObservation (fact : CallObservationFact) {arguments returns : List CallValue}
      (harguments : SameElements fact.arguments arguments)
      (hreturns : SameElements fact.returns returns) :
      SamePayload (.callObservation fact)
        (.callObservation { fact with arguments := arguments, returns := returns })

/-- Facts that differ in their set-like fields and inactive members only. -/
structure SameFact (f g : AnalysisFact) : Prop where
  payload : SamePayload f.payload g.payload
  supportAddresses : SameElements f.evidence.supportAddresses g.evidence.supportAddresses
  evidence : g.evidence = { f.evidence with supportAddresses := g.evidence.supportAddresses }

theorem normalizeTraitValue_congr {a b : TraitValue} (h : SameTraitValue a b) :
    normalizeTraitValue a = normalizeTraitValue b := by
  obtain ⟨hkind, hsigned, hunsigned, hboolean, htext⟩ := h
  unfold normalizeTraitValue
  rw [← hkind]
  simp only [TraitValue.mk.injEq, true_and]
  refine ⟨?_, ?_, ?_, ?_⟩
  · exact ite_congr rfl hsigned fun _ => rfl
  · exact ite_congr rfl hunsigned fun _ => rfl
  · exact ite_congr rfl hboolean fun _ => rfl
  · exact ite_congr rfl htext fun _ => rfl

theorem normalizeCallValues_congr {l m : List CallValue} (h : SameElements l m) :
    normalizeCallValues l = normalizeCallValues m :=
  Cxx.sortUnique_congr (c := callValueOrder) callValueEqual_iff h

theorem normalForm_congr {p q : FactPayload} (h : SamePayload p q) :
    normalForm p = normalForm q := by
  cases h with
  | refl => rfl
  | functionTrait fact hvalue => rw [normalForm, normalForm, normalizeTraitValue_congr hvalue]
  | dispatchMap fact hcases =>
    have hsorted := Cxx.sortUnique_congr (c := dispatchCaseOrder) dispatchCaseEqual_iff hcases
    rw [normalForm, normalForm]
    exact congrArg (fun cases => FactPayload.dispatchMap { fact with cases := cases }) hsorted
  | callObservation fact harguments hreturns =>
    rw [normalForm, normalForm, normalizeCallValues_congr harguments,
      normalizeCallValues_congr hreturns]

theorem SameFact.normalEvidence_eq {f g : AnalysisFact} (h : SameFact f g) :
    normalEvidence f.evidence = normalEvidence g.evidence := by
  rw [h.evidence]
  unfold normalEvidence
  rw [Cxx.sortUnique_congr (c := Cxx.Comparator.u64) addressEqual_iff h.supportAddresses]

/-- **Normal forms.** Facts that mean the same are accepted with one result or rejected with one
error; an accepted result is valid and accepted unchanged. -/
theorem normalizeFact_canonical {f g : AnalysisFact} (h : SameFact f g) :
    normalizeFact f = normalizeFact g ∧
      ∀ result, normalizeFact f = .ok result →
        normalizeFact result = .ok result ∧ validateFact result = .ok () := by
  constructor
  · unfold normalizeFact normalizePayload normalizeEvidence
    rw [normalForm_congr h.payload, h.normalEvidence_eq]
  · intro result hresult
    have hvalid := (normalizeFact_eq_ok.1 hresult).1
    exact ⟨normalizeFact_self_iff.2 hvalid, hvalid⟩

/-- A table of two cases, one of them without a selector. -/
def tableFact (cases : List DispatchCase) : AnalysisFact :=
  { sampleFact with
    payload := .dispatchMap
      { site := 0x1000, cases := cases, defaultTarget := none, complete := false } }

theorem repeated_cases_canonical :
    normalizeFact (tableFact [⟨none, 0x3000⟩, ⟨some 1, 0x2000⟩, ⟨none, 0x3000⟩]) =
        normalizeFact (tableFact [⟨some 1, 0x2000⟩, ⟨none, 0x3000⟩]) ∧
      normalizeFact (tableFact [⟨some 1, 0x2000⟩, ⟨none, 0x3000⟩]) =
        .ok (tableFact [⟨some 1, 0x2000⟩, ⟨none, 0x3000⟩]) := by
  refine ⟨(normalizeFact_canonical ⟨.dispatchMap _ ?_, fun _ => Iff.rfl, rfl⟩).1, by decide +kernel⟩
  intro x
  simp only [List.mem_cons, List.not_mem_nil]

end Viy.Analysis
