import Viy.Apply.Policy
import Viy.Store.Envelope

/-!
# The active view of the ledger

The ledger keeps every observation; what may change the database is planned from the observations
that are active now. `view` adds the active ones to an empty store, so it is determined by the set
of active facts: an inactive observation neither supports, corroborates nor contradicts anything.
-/

namespace Viy.Analysis

open Wire

/-- What is current: the generation and the functions of the last complete scan, and the generation
of every function in scope. -/
structure ActiveEvidencePolicy where
  providerGeneration : UInt64 := 0
  providerFunctions : Finset UInt64 := ∅
  functionGenerations : Cxx.Map Cxx.Comparator.u64 UInt64 := Cxx.Map.empty

namespace ActiveEvidencePolicy

def isActive (policy : ActiveEvidencePolicy) (fact : AnalysisFact) : Bool :=
  let observation := fact.evidence
  let completeProvider := observation.producer == text "viy.native.ida" ||
    observation.producer == text "viy.deobf.ida"
  if observation.proof == .userAsserted then true
  else if completeProvider then
    if policy.providerGeneration == 0 ||
        observation.scope.generation != policy.providerGeneration then false
    else
      match observation.scope.functionStart with
      | none => true
      | some start => start ∈ policy.providerFunctions
  else
    match observation.scope.functionStart with
    | none => false
    | some start =>
      match policy.functionGenerations.find start with
      | none => false
      | some expected => observation.scope.generation == expected

def view (sha : Bytes → FactDigest) (policy : ActiveEvidencePolicy) (history : EvidenceStore) :
    EvidenceStore :=
  history.flattenedFacts.foldl (fun active fact =>
    if policy.isActive fact then (active.add sha fact).1 else active) EvidenceStore.empty

variable {sha : Bytes → FactDigest} {policy : ActiveEvidencePolicy} {h h₁ h₂ : EvidenceStore}

/-- The loop skips what is inactive. -/
theorem view_eq_addFacts :
    policy.view sha h =
      addFacts sha EvidenceStore.empty
        (h.flattenedFacts.filter fun fact => policy.isActive fact) := by
  rw [view, addFacts, List.foldl_filter]

theorem storeOk_view : StoreOk (policy.view sha h) := by
  rw [view_eq_addFacts]
  exact storeOk_empty.addFacts _

theorem contradictionIndex_view : (policy.view sha h).contradictionIndex = none := by
  rw [view_eq_addFacts]
  exact addFacts_contradictionIndex sha _ rfl

/-- The view holds the active facts of the ledger. -/
theorem mem_facts_view (hok : StoreOk h) {fact : AnalysisFact} :
    fact ∈ (policy.view sha h).facts ↔ fact ∈ h.facts ∧ policy.isActive fact = true := by
  rw [view_eq_addFacts, mem_facts_addFacts _ storeOk_empty, facts_empty]
  simp only [List.mem_filter, mem_flattenedFacts, Set.mem_empty_iff_false, or_false]
  constructor
  · rintro ⟨g, ⟨hg, hactive⟩, hadmitted⟩
    -- a fact of the ledger is admitted as it is
    rw [hok.admitted_of_mem hg] at hadmitted
    exact Option.some.inj hadmitted ▸ ⟨hg, hactive⟩
  · intro hfact
    exact ⟨fact, hfact, hok.admitted_of_mem hfact.1⟩

/-- Ledgers with the same active facts have the same view. -/
theorem view_eq_of_active (hok₁ : StoreOk h₁) (hok₂ : StoreOk h₂)
    (hactive : ∀ fact, policy.isActive fact = true → (fact ∈ h₁.facts ↔ fact ∈ h₂.facts)) :
    policy.view sha h₁ = policy.view sha h₂ := by
  have hfacts : (policy.view sha h₁).facts = (policy.view sha h₂).facts := by
    ext fact
    rw [mem_facts_view hok₁, mem_facts_view hok₂, and_congr_left_iff]
    exact hactive fact
  have hrecords := records_eq_of_facts storeOk_view.records storeOk_view.records hfacts
  exact EvidenceStore.ext hrecords (contradictionIndex_view.trans contradictionIndex_view.symm)

/-- **Only active evidence authorises.** Two ledgers with the same active facts have the same view
and so the same plan under every policy, whatever else they hold; the view is its own view. -/
theorem view_depends_only_on_active (sha : Bytes → FactDigest) (policy : ActiveEvidencePolicy) :
    (∀ h₁ h₂, EvidenceStore.Reachable sha h₁ → EvidenceStore.Reachable sha h₂ →
        (∀ fact, policy.isActive fact = true →
          (fact ∈ h₁.flattenedFacts ↔ fact ∈ h₂.flattenedFacts)) →
        policy.view sha h₁ = policy.view sha h₂ ∧
          ∀ apply, planEvidenceApplication sha (policy.view sha h₁) apply =
            planEvidenceApplication sha (policy.view sha h₂) apply) ∧
      ∀ h, EvidenceStore.Reachable sha h →
        policy.view sha (policy.view sha h) = policy.view sha h := by
  constructor
  · intro h₁ h₂ hr₁ hr₂ hactive
    have hview : policy.view sha h₁ = policy.view sha h₂ := by
      refine view_eq_of_active hr₁.ok hr₂.ok fun fact hfact => ?_
      rw [← mem_flattenedFacts, ← mem_flattenedFacts]
      exact hactive fact hfact
    exact ⟨hview, fun apply => by rw [hview]⟩
  · intro h hr
    refine view_eq_of_active storeOk_view hr.ok fun fact hfact => ?_
    rw [mem_facts_view hr.ok]
    exact and_iff_left hfact

/-- The sample fact, asserted by the user. -/
def assertedFact : AnalysisFact :=
  { sampleFact with evidence := { sampleFact.evidence with proof := .userAsserted } }

theorem stale_support_is_ignored :
    let asserted := (EvidenceStore.empty.add (fun _ => FactDigest.zero) assertedFact).1
    let stale := (asserted.add (fun _ => FactDigest.zero) sampleFact).1
    ({} : ActiveEvidencePolicy).isActive assertedFact = true ∧ sampleFact ∈ stale.flattenedFacts ∧
      ({} : ActiveEvidencePolicy).view (fun _ => FactDigest.zero) stale =
        ({} : ActiveEvidencePolicy).view (fun _ => FactDigest.zero) asserted := by
  intro asserted stale
  have hasserted : EvidenceStore.Reachable (fun _ => FactDigest.zero) asserted := .add _ .empty
  have hstale : stale.flattenedFacts = [sampleFact, assertedFact] := by decide +kernel
  have hasserted' : asserted.flattenedFacts = [assertedFact] := by decide +kernel
  refine ⟨by decide +kernel, by rw [hstale]; exact List.mem_cons_self, ?_⟩
  refine ((view_depends_only_on_active (fun _ => FactDigest.zero) {}).1 stale asserted
    (.add _ hasserted) hasserted fun fact hfact => ?_).1
  rw [hstale, hasserted', List.mem_pair, List.mem_singleton, or_iff_right]
  rintro rfl
  exact absurd hfact (by decide +kernel)

end ActiveEvidencePolicy

end Viy.Analysis
