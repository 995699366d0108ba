import Viy.Facts.Sha256
import Viy.Store.Scan

/-!
# Automatic application of evidence

`planEvidenceApplication` decides for every record of a store whether it may change the database.
The main result is the safety boundary: no two facts that the plan acts on contradict each other,
and each of them has a trusted proof or is corroborated across runs.
-/

namespace Viy.Analysis

open Wire

/-! ## Support of a record -/

/-- `is_corroborated`: enough distinct runs and producers among the confident observations. -/
def isCorroborated (record : EvidenceRecord) (minimumDistinctRuns minimumDistinctProducers : ℕ)
    (minimumEachConfidence : UInt16) : Bool :=
  if minimumEachConfidence > kMaxConfidence then false
  else
    let confident := record.observations.filter fun evidence =>
      !(evidence.confidence < minimumEachConfidence)
    let runs := (confident.filterMap fun evidence => evidence.scope.runId).toFinset
    let producers := (confident.map Evidence.producer).toFinset
    runs.card ≥ minimumDistinctRuns && producers.card ≥ minimumDistinctProducers

/-! ## The policy -/

def kAutomaticProofConfidence : UInt16 := 9000

def kCorroboratedRunConfidence : UInt16 := 8000

def kCorroboratedRunFloor : ℕ := 2

def kFunctionCandidateStaticConfidence : UInt16 := 7500

structure EvidenceApplyPolicy where
  allowFunctionRecovery : Bool := true
  allowUnreachableComments : Bool := true

inductive EvidenceActionKind where
  | none | addCallReference | addJumpReference | createFunction | commentProvenUnreachable
  deriving DecidableEq

inductive EvidenceDecisionReason where
  | actionable | contradicted | belowTrustThreshold | disabledByConfiguration
  | unsupportedTargetKind | unsupportedPayloadKind | nonActionableReachability
  deriving DecidableEq

structure EvidenceApplyDecision where
  payload : FactPayload
  action : EvidenceActionKind := .none
  reason : EvidenceDecisionReason := .unsupportedPayloadKind

structure EvidenceApplyPlan where
  decisions : List EvidenceApplyDecision := []
  contradictionSuppressed : ℕ := 0
  belowTrustThreshold : ℕ := 0
  disabledByConfiguration : ℕ := 0
  contradictionScan : ContradictionScanStats := {}

def hasStrongProof (record : EvidenceRecord) : Bool :=
  record.observations.any fun evidence =>
    (evidence.proof == .staticProof || evidence.proof == .symbolicProof ||
      evidence.proof == .userAsserted) && evidence.confidence ≥ kAutomaticProofConfidence

def evidenceIsAutomaticallyActionable (record : EvidenceRecord) : Bool :=
  hasStrongProof record ||
    isCorroborated record kCorroboratedRunFloor 1 kCorroboratedRunConfidence

def functionCandidateIsActionable (record : EvidenceRecord) : Bool :=
  (record.observations.any fun evidence =>
    evidence.proof == .staticProof &&
      evidence.confidence ≥ kFunctionCandidateStaticConfidence) ||
    isCorroborated record kCorroboratedRunFloor 1 kCorroboratedRunConfidence

def accountDecision (plan : EvidenceApplyPlan) (reason : EvidenceDecisionReason) :
    EvidenceApplyPlan :=
  match reason with
  | .contradicted => { plan with contradictionSuppressed := plan.contradictionSuppressed + 1 }
  | .belowTrustThreshold => { plan with belowTrustThreshold := plan.belowTrustThreshold + 1 }
  | .disabledByConfiguration =>
    { plan with disabledByConfiguration := plan.disabledByConfiguration + 1 }
  | .actionable | .unsupportedTargetKind | .unsupportedPayloadKind
  | .nonActionableReachability => plan

/-- The decision on a code target once its kind names an action. -/
def classifyTarget (record : EvidenceRecord) (action : EvidenceActionKind) :
    EvidenceApplyDecision :=
  if !evidenceIsAutomaticallyActionable record then
    { payload := record.payload, reason := .belowTrustThreshold }
  else { payload := record.payload, action, reason := .actionable }

def classifyRecord (record : EvidenceRecord) (contradicted : Bool) (policy : EvidenceApplyPolicy) :
    EvidenceApplyDecision :=
  let refuse (reason : EvidenceDecisionReason) : EvidenceApplyDecision :=
    { payload := record.payload, reason }
  if contradicted then refuse .contradicted
  else
    match record.payload with
    | .codeTarget target =>
      match target.kind with
      | .call => classifyTarget record .addCallReference
      | .jump | .tableEntry => classifyTarget record .addJumpReference
      | .unknown | .fallthrough | .return | .exception => refuse .unsupportedTargetKind
    | .functionCandidate _ =>
      if !policy.allowFunctionRecovery then refuse .disabledByConfiguration
      else if !functionCandidateIsActionable record then refuse .belowTrustThreshold
      else { payload := record.payload, action := .createFunction, reason := .actionable }
    | .branchReachability reach =>
      if reach.state != .provenUnreachable then refuse .nonActionableReachability
      else if !policy.allowUnreachableComments then refuse .disabledByConfiguration
      else if !evidenceIsAutomaticallyActionable record then refuse .belowTrustThreshold
      else
        { payload := record.payload, action := .commentProvenUnreachable, reason := .actionable }
    | _ => refuse .unsupportedPayloadKind

section Plan

variable (sha : Bytes → FactDigest)

/-- Whether a record is treated as contradicted; a payload without a digest is. -/
def isContradicted (contradicted : Finset FactDigest) (record : EvidenceRecord) : Bool :=
  match encodePayload record.payload with
  | .error _ => true
  | .ok encoded => sha encoded ∈ contradicted

def planEvidenceApplication (store : EvidenceStore) (policy : EvidenceApplyPolicy) :
    EvidenceApplyPlan :=
  let scan := store.contradictedPayloadDigests sha
  (store.records.entries.map Prod.snd).foldl (fun plan record =>
    let decision := classifyRecord record (isContradicted sha scan.1 record) policy
    let plan := accountDecision plan decision.reason
    { plan with decisions := plan.decisions ++ [decision] }) { contradictionScan := scan.2 }

end Plan

/-! ## Decisions -/

theorem decisions_eq (sha : Bytes → FactDigest) (store : EvidenceStore)
    (policy : EvidenceApplyPolicy) :
    (planEvidenceApplication sha store policy).decisions =
      store.records.entries.map fun entry => classifyRecord entry.2
        (isContradicted sha (store.contradictedPayloadDigests sha).1 entry.2) policy := by
  have hfold : ∀ (l : List EvidenceRecord) (f : EvidenceRecord → EvidenceApplyDecision)
      (plan : EvidenceApplyPlan),
      (l.foldl (fun plan record =>
        let decision := f record
        let plan := accountDecision plan decision.reason
        { plan with decisions := plan.decisions ++ [decision] }) plan).decisions =
      plan.decisions ++ l.map f := by
    intro l f
    induction l with
    | nil => simp
    | cons record l ih =>
      intro plan
      have haccount : (accountDecision plan (f record).reason).decisions = plan.decisions := by
        cases (f record).reason <;> rfl
      rw [List.foldl_cons, ih, List.map_cons]
      simp [haccount]
  rw [planEvidenceApplication, hfold, List.map_map]
  rfl

theorem classifyRecord_payload (record : EvidenceRecord) (contradicted : Bool)
    (policy : EvidenceApplyPolicy) :
    (classifyRecord record contradicted policy).payload = record.payload := by
  have htarget : ∀ action, (classifyTarget record action).payload = record.payload := by
    intro action
    rw [classifyTarget]
    split_ifs <;> rfl
  rw [classifyRecord]
  cases contradicted
  · simp only [Bool.false_eq_true, if_false]
    split
    · split <;> first | rfl | exact htarget _
    · split_ifs <;> rfl
    · split_ifs <;> rfl
    · rfl
  · rfl

/-- The trust rules: a strong proof, a static proof for a function candidate, or two distinct runs
of confident observations. -/
def Trusted (record : EvidenceRecord) : Prop :=
  (∃ e ∈ record.observations,
      ((e.proof = .staticProof ∨ e.proof = .symbolicProof ∨ e.proof = .userAsserted) ∧
        9000 ≤ e.confidence) ∨
      ((∃ fact, record.payload = .functionCandidate fact) ∧ e.proof = .staticProof ∧
        7500 ≤ e.confidence)) ∨
    ∃ e ∈ record.observations, ∃ e' ∈ record.observations, ∃ run run',
      e.scope.runId = some run ∧ e'.scope.runId = some run' ∧ run ≠ run' ∧
        8000 ≤ e.confidence ∧ 8000 ≤ e'.confidence

/-- Two distinct runs among the confident observations. -/
theorem exists_runs_of_isCorroborated {record : EvidenceRecord}
    (h : isCorroborated record kCorroboratedRunFloor 1 kCorroboratedRunConfidence = true) :
    ∃ e ∈ record.observations, ∃ e' ∈ record.observations, ∃ run run',
      e.scope.runId = some run ∧ e'.scope.runId = some run' ∧ run ≠ run' ∧
        8000 ≤ e.confidence ∧ 8000 ≤ e'.confidence := by
  rw [isCorroborated, if_neg (by decide)] at h
  simp only [Bool.and_eq_true, decide_eq_true_eq] at h
  obtain ⟨run, hrun, run', hrun', hne⟩ := Finset.one_lt_card.1 h.1
  simp only [List.mem_toFinset, List.mem_filterMap, List.mem_filter, Bool.not_eq_true',
    decide_eq_false_iff_not, UInt16.not_lt] at hrun hrun'
  obtain ⟨e, ⟨he, hconfidence⟩, hrun⟩ := hrun
  obtain ⟨e', ⟨he', hconfidence'⟩, hrun'⟩ := hrun'
  exact ⟨e, he, e', he', run, run', hrun, hrun', hne, hconfidence, hconfidence'⟩

theorem trusted_of_actionable {record : EvidenceRecord}
    (h : evidenceIsAutomaticallyActionable record = true) : Trusted record := by
  rcases Bool.or_eq_true_iff.1 h with h | h
  · obtain ⟨e, he, h⟩ := List.any_eq_true.1 h
    simp only [Bool.and_eq_true, Bool.or_eq_true, beq_iff_eq, decide_eq_true_eq, or_assoc] at h
    exact Or.inl ⟨e, he, Or.inl h⟩
  · exact Or.inr (exists_runs_of_isCorroborated h)

theorem trusted_of_functionCandidate {record : EvidenceRecord} {fact : FunctionCandidateFact}
    (hpayload : record.payload = .functionCandidate fact)
    (h : functionCandidateIsActionable record = true) : Trusted record := by
  rcases Bool.or_eq_true_iff.1 h with h | h
  · obtain ⟨e, he, h⟩ := List.any_eq_true.1 h
    simp only [Bool.and_eq_true, beq_iff_eq, decide_eq_true_eq] at h
    exact Or.inl ⟨e, he, Or.inr ⟨⟨fact, hpayload⟩, h⟩⟩
  · exact Or.inr (exists_runs_of_isCorroborated h)

/-- An action needs a record that is not contradicted and is trusted. -/
theorem of_action_ne_none {record : EvidenceRecord} {contradicted : Bool}
    {policy : EvidenceApplyPolicy}
    (h : (classifyRecord record contradicted policy).action ≠ .none) :
    contradicted = false ∧ Trusted record := by
  have htarget : ∀ action, (classifyTarget record action).action ≠ .none → Trusted record := by
    intro action h
    rw [classifyTarget] at h
    split_ifs at h with htrust
    · exact absurd rfl h
    · exact trusted_of_actionable (by simpa using htrust)
  rw [classifyRecord] at h
  cases contradicted
  · refine ⟨rfl, ?_⟩
    simp only [Bool.false_eq_true, if_false] at h
    split at h
    · split at h <;> first | exact htarget _ h | exact absurd rfl h
    · rename_i fact hpayload
      split_ifs at h with h₁ h₂
      · exact absurd rfl h
      · exact absurd rfl h
      · exact trusted_of_functionCandidate hpayload (by simpa using h₂)
    · split_ifs at h with h₁ h₂ h₃
      · exact absurd rfl h
      · exact absurd rfl h
      · exact absurd rfl h
      · exact trusted_of_actionable (by simpa using h₃)
    · exact absurd rfl h
  · exact absurd rfl h

/-! ## Safety -/

section Safety

variable {sha : Bytes → FactDigest} {store : EvidenceStore} {policy : EvidenceApplyPolicy}

/-- Every acted-on decision comes from a trusted record that the scan did not mark. -/
theorem record_of_decision (hs : StoreOk store) {decision : EvidenceApplyDecision}
    (hmem : decision ∈ (planEvidenceApplication sha store policy).decisions)
    (haction : decision.action ≠ .none) :
    ∃ key record, store.records.find key = some record ∧ record.payload = decision.payload ∧
      Trusted record ∧ sha key ∉ (store.contradictedPayloadDigests sha).1 := by
  rw [decisions_eq, List.mem_map] at hmem
  obtain ⟨⟨key, record⟩, hentry, rfl⟩ := hmem
  have hfind := Cxx.Map.mem_entries_iff.1 hentry
  obtain ⟨hcontradicted, htrusted⟩ := of_action_ne_none haction
  refine ⟨key, record, hfind, (classifyRecord_payload ..).symm, htrusted, ?_⟩
  simpa [isContradicted, (hs.records key record hfind).encodePayload] using hcontradicted

/-- Records that contradict each other are marked. -/
theorem marked_of_contradicts (hs : StoreOk store) {key key' : Bytes}
    {record record' : EvidenceRecord} (hfind : store.records.find key = some record)
    (hfind' : store.records.find key' = some record')
    (h : contradicts record.payload record'.payload = true) :
    sha key ∈ (store.contradictedPayloadDigests sha).1 := by
  obtain ⟨a, ha, hakey, hapayload⟩ := exists_mem_ordered hfind
  obtain ⟨b, hb, hbkey, hbpayload⟩ := exists_mem_ordered hfind'
  rw [← hapayload, ← hbpayload] at h
  have hne : a ≠ b := by
    rintro rfl
    exact Cxx.clash (contradicts_self (hs.valid_of_mem ha)) h
  rw [mem_contradictedPayloadDigests hs, ← hakey]
  rcases Cxx.mem_pairs_or hne ha hb with hpair | hpair
  · exact ⟨a, b, hpair, h, Or.inl rfl⟩
  · exact ⟨b, a, hpair, contradicts_symm (hs.valid_of_mem ha) (hs.valid_of_mem hb) h, Or.inr rfl⟩

end Safety

/-- **The plan acts on trusted facts only, and no two of them contradict each other.** -/
theorem plan_is_safe {sha : Bytes → FactDigest} {store : EvidenceStore}
    (hs : EvidenceStore.Reachable sha store) (policy : EvidenceApplyPolicy) :
    (∀ d ∈ (planEvidenceApplication sha store policy).decisions,
        ∀ d' ∈ (planEvidenceApplication sha store policy).decisions,
          d.action ≠ .none → d'.action ≠ .none → ∀ l r : FactDigest,
            ∀ c ∈ comparePayloads false ⟨d.payload, l⟩ ⟨d'.payload, r⟩,
              c.severity ≠ .contradiction) ∧
      ∀ d ∈ (planEvidenceApplication sha store policy).decisions, d.action ≠ .none →
        ∃ key record, store.records.find key = some record ∧ record.payload = d.payload ∧
          Trusted record := by
  constructor
  · intro d hd d' hd' haction haction' l r c hc hsev
    obtain ⟨key, record, hfind, hpayload, -, hunmarked⟩ := record_of_decision hs.ok hd haction
    obtain ⟨key', record', hfind', hpayload', -, -⟩ := record_of_decision hs.ok hd' haction'
    refine hunmarked (marked_of_contradicts hs.ok hfind hfind' ?_)
    rw [hpayload, hpayload']
    exact contradicts_iff_exists.2 ⟨c, hc, hsev⟩
  · intro d hd haction
    obtain ⟨key, record, hfind, hpayload, htrusted, -⟩ := record_of_decision hs.ok hd haction
    exact ⟨key, record, hfind, hpayload, htrusted⟩

/-- A call with a sole target and a static proof. -/
def provenCall (fromAddr target : Address) : AnalysisFact where
  payload := .codeTarget { fromAddr, target, kind := .call, unique := true }
  evidence := { sampleFact.evidence with proof := .staticProof, confidence := 9000 }

/-- Two sole targets of one call, and a call from elsewhere. -/
def provenCalls : EvidenceStore :=
  (((EvidenceStore.empty.add digestBytes (provenCall 0x1000 0x2000)).1.add digestBytes
    (provenCall 0x1000 0x3000)).1.add digestBytes (provenCall 0x1800 0x2000)).1

theorem rival_calls_suppressed :
    (planEvidenceApplication digestBytes provenCalls {}).decisions.map
        (fun d => (d.action, d.reason)) =
      [(.none, .contradicted), (.none, .contradicted), (.addCallReference, .actionable)] ∧
    ∀ d ∈ (planEvidenceApplication digestBytes provenCalls {}).decisions, d.action ≠ .none →
      ∃ key record, provenCalls.records.find key = some record ∧ record.payload = d.payload ∧
        Trusted record :=
  ⟨by decide +kernel, (plan_is_safe (.add _ (.add _ (.add _ .empty))) {}).2⟩

end Viy.Analysis
