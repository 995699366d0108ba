import Viy.Store.Ledger
import Viy.Store.NewContradiction

/-!
# The contradiction-gated evidence sink

`emitDeobfFact` adds a fact to the store of the sink unless it is invalid or its payload would
contradict an active record. The main result is over runs of emissions: the contradictions in the
view of the active generation never grow.
-/

namespace Viy

open Analysis Wire

/-! ## The sink -/

def observationInView (evidence : Evidence) (activeGeneration : UInt64) : Bool :=
  evidence.proof == .userAsserted || activeGeneration == 0 ||
    evidence.scope.generation == activeGeneration

structure DeobfEvidenceStoreReport where
  insertedRecords : ℕ := 0
  addedObservations : ℕ := 0
  duplicateObservations : ℕ := 0
  rejectedInvalid : ℕ := 0
  contradictionsSuppressed : ℕ := 0

structure DeobfEvidenceStoreSink where
  store : EvidenceStore
  report : DeobfEvidenceStoreReport := {}
  lastError : Bytes := []
  activeGeneration : UInt64 := 0

namespace DeobfEvidenceStoreSink

section Emit

variable (sha : Bytes → FactDigest) (sink : DeobfEvidenceStoreSink)

/-- The query for a normalized fact, and the store it leaves; facts outside the view bypass it. -/
def gate (normalized : AnalysisFact) : Option EvidenceConflict × EvidenceStore :=
  if observationInView normalized.evidence sink.activeGeneration then
    let answer := sink.store.newContradiction sha normalized.payload sink.activeGeneration
    (answer.1, answer.2.2)
  else (none, sink.store)

/-- The switch over the disposition of an added fact. -/
def account (added : EvidenceStore × AddResult) : DeobfEvidenceStoreSink × Bool :=
  let sink := { sink with store := added.1 }
  let report := sink.report
  match added.2.disposition with
  | .insertedRecord =>
    ({ sink with report := { report with insertedRecords := report.insertedRecords + 1 } }, true)
  | .addedObservation =>
    ({ sink with report := { report with addedObservations := report.addedObservations + 1 } },
      true)
  | .duplicateObservation =>
    ({ sink with
        report := { report with duplicateObservations := report.duplicateObservations + 1 } },
      true)
  | .rejectedInvalid =>
    ({ sink with
        report := { report with rejectedInvalid := report.rejectedInvalid + 1 }
        lastError := added.2.error },
      false)

def emitDeobfFact (fact : AnalysisFact) : DeobfEvidenceStoreSink × Bool :=
  let report := sink.report
  match normalizeFact fact with
  | .error error =>
    ({ sink with
        report := { report with rejectedInvalid := report.rejectedInvalid + 1 }
        lastError := error },
      false)
  | .ok normalized =>
    match sink.gate sha normalized with
    | (some conflict, store) =>
      ({ sink with
          store
          report := { report with contradictionsSuppressed := report.contradictionsSuppressed + 1 }
          lastError := conflict.explanation },
        false)
    | (none, store) => sink.account (store.add sha normalized)

/-- A sequence of emissions. -/
def emitAll (facts : List AnalysisFact) : DeobfEvidenceStoreSink :=
  facts.foldl (fun sink fact => (sink.emitDeobfFact sha fact).1) sink

end Emit

end DeobfEvidenceStoreSink

/-! ## The view -/

/-- The payloads with an observation in the view of a generation. -/
def view (s : EvidenceStore) (generation : UInt64) : Set FactPayload :=
  {payload | ∃ evidence, ⟨payload, evidence⟩ ∈ s.facts ∧
    observationInView evidence generation = true}

/-- The pairs of payloads in the view between which the comparison finds a contradiction. -/
def viewContradictions (s : EvidenceStore) (generation : UInt64) :
    Set (FactPayload × FactPayload) :=
  {pair | pair.1 ∈ view s generation ∧ pair.2 ∈ view s generation ∧
    contradicts pair.1 pair.2 = true}

theorem observationInView_eq (evidence : Evidence) (generation : UInt64) :
    observationInView evidence generation = evidence.active generation := by
  rw [observationInView, Evidence.active, Bool.or_comm, ← Bool.or_assoc, Bool.or_right_comm,
    Bool.or_comm (_ == generation)]

theorem mem_view {s : EvidenceStore} {generation : UInt64} {payload : FactPayload} :
    payload ∈ view s generation ↔ ∃ key record, s.records.find key = some record ∧
      record.payload = payload ∧ record.active generation = true := by
  simp only [EvidenceRecord.active, List.any_eq_true, ← observationInView_eq]
  constructor
  · rintro ⟨e, ⟨key, record, hfind, hpayload, he⟩, hview⟩
    exact ⟨key, record, hfind, hpayload, e, he, hview⟩
  · rintro ⟨key, record, hfind, hpayload, e, he, hview⟩
    exact ⟨e, ⟨key, record, hfind, hpayload, he⟩, hview⟩

theorem view_congr {s t : EvidenceStore} (h : s.records = t.records) (generation : UInt64) :
    view s generation = view t generation := by
  ext payload
  rw [mem_view, mem_view, h]

theorem viewContradictions_mono {s t : EvidenceStore} {generation : UInt64}
    (h : view s generation ⊆ view t generation) :
    viewContradictions s generation ⊆ viewContradictions t generation :=
  fun _ hpair => ⟨h hpair.1, h hpair.2.1, hpair.2.2⟩

theorem valid_of_mem_view {s : EvidenceStore} (hs : StoreOk s) {generation : UInt64}
    {payload : FactPayload} (h : payload ∈ view s generation) :
    validatePayload payload = .ok () := by
  obtain ⟨key, record, hfind, rfl, -⟩ := mem_view.1 h
  exact (hs.records key record hfind).payload_valid

/-- A payload whose record is active is in the view. -/
theorem mem_view_of_active {s : EvidenceStore} (hs : StoreOk s) {payload : FactPayload}
    (hvalid : validatePayload payload = .ok ()) {generation : UInt64}
    (h : (s.find payload).any (EvidenceRecord.active generation) = true) :
    payload ∈ view s generation := by
  obtain ⟨record, hfind, hrecord⟩ := (Option.any_eq_true _ _).1 h
  obtain ⟨key, hkey, hfind⟩ := EvidenceStore.find_eq_some.1 hfind
  rw [encodePayload_of_valid hvalid] at hkey
  exact mem_view.2 ⟨key, record, hfind, (hs.records key record hfind).payload_eq hvalid hkey,
    hrecord⟩

/-- Adding a fact brings its own payload into the view at most, and only if it is in the view. -/
theorem mem_view_add {sha : Bytes → FactDigest} {s : EvidenceStore} (hs : StoreOk s)
    {normal : AnalysisFact} (hnormal : normalizeFact normal = .ok normal) {generation : UInt64}
    {payload : FactPayload} (h : payload ∈ view (s.add sha normal).1 generation) :
    payload ∈ view s generation ∨
      (payload = normal.payload ∧ observationInView normal.evidence generation = true) := by
  obtain ⟨e, he, hview⟩ := h
  rcases (mem_facts_add hs.records).1 he with hadmitted | he
  · have heq := (admitted_eq_some.1 hadmitted).1
    rw [hnormal] at heq
    obtain rfl := Except.ok.inj heq
    exact Or.inr ⟨rfl, hview⟩
  · exact Or.inl ⟨e, he, hview⟩

/-- A payload that is consistent with the view brings no contradiction into it. -/
theorem viewContradictions_add_subset {sha : Bytes → FactDigest} {s : EvidenceStore}
    (hs : StoreOk s) {normal : AnalysisFact} (hnormal : normalizeFact normal = .ok normal)
    {generation : UInt64}
    (hconsistent : ∀ q ∈ view s generation, contradicts normal.payload q = false) :
    viewContradictions (s.add sha normal).1 generation ⊆ viewContradictions s generation := by
  have hvalid := (validateFact_eq_ok.1 (normalizeFact_eq_ok.1 hnormal).1).1
  rintro ⟨p, q⟩ ⟨hp, hq, hpq⟩
  rcases mem_view_add hs hnormal hp with hp | ⟨rfl, -⟩ <;>
    rcases mem_view_add hs hnormal hq with hq | ⟨rfl, -⟩
  · exact ⟨hp, hq, hpq⟩
  · rw [contradicts_comm (valid_of_mem_view hs hp) hvalid] at hpq
    exact Cxx.clash (hconsistent p hp) hpq
  · exact Cxx.clash (hconsistent q hq) hpq
  · exact Cxx.clash (contradicts_self hvalid) hpq

/-! ## One emission -/

namespace DeobfEvidenceStoreSink

variable {sha : Bytes → FactDigest} {sink : DeobfEvidenceStoreSink}

theorem gate_records (normal : AnalysisFact) :
    (sink.gate sha normal).2.records = sink.store.records := by
  rw [gate]
  split_ifs
  · rcases @newContradiction_store sha sink.store normal.payload sink.activeGeneration
      with h | h <;> simp only [h]
    rfl
  · rfl

theorem gate_reachable (hs : EvidenceStore.Reachable sha sink.store) (normal : AnalysisFact) :
    EvidenceStore.Reachable sha (sink.gate sha normal).2 := by
  rw [gate]
  split_ifs
  · exact hs.query normal.payload sink.activeGeneration
  · exact hs

theorem account_store (added : EvidenceStore × AddResult) :
    (sink.account added).1.store = added.1 ∧
      (sink.account added).1.activeGeneration = sink.activeGeneration ∧
        ((sink.account added).2 = false → added.2.disposition = .rejectedInvalid) := by
  rw [account]
  cases h : added.2.disposition <;> exact ⟨rfl, rfl, by simp⟩

/-- An emission refuses the fact and keeps the records, or adds it after it passed the gate. -/
theorem emit_cases (sha : Bytes → FactDigest) (sink : DeobfEvidenceStoreSink)
    (fact : AnalysisFact) :
    ((sink.emitDeobfFact sha fact).2 = false ∧
        (sink.emitDeobfFact sha fact).1.store.records = sink.store.records) ∨
      ((sink.emitDeobfFact sha fact).2 = true ∧ ∃ normal, normalizeFact fact = .ok normal ∧
        (sink.gate sha normal).1 = none ∧
        (sink.emitDeobfFact sha fact).1.store = ((sink.gate sha normal).2.add sha normal).1) := by
  rcases hnormal : normalizeFact fact with error | normal
  · left
    simp only [emitDeobfFact, hnormal]
    exact ⟨trivial, trivial⟩
  have hrecords := @gate_records sha sink normal
  rcases hgate : sink.gate sha normal with ⟨_ | conflict, store⟩
  · rw [hgate] at hrecords
    obtain ⟨hstore, -, hfalse⟩ := @account_store sink (store.add sha normal)
    simp only [emitDeobfFact, hnormal, hgate]
    rcases hresult : (sink.account (store.add sha normal)).2 with _ | _
    · refine Or.inl ⟨rfl, ?_⟩
      obtain ⟨-, hunchanged, -⟩ | ⟨_, _, -, -, -, -, hdisposition⟩ := add_cases sha store normal
      · rw [hstore, hunchanged, hrecords]
      · exact (addNormalized_ne_rejected _ _ _ (hdisposition.symm.trans (hfalse hresult))).elim
    · exact Or.inr ⟨rfl, normal, rfl, by rw [hgate], by rw [hgate]; exact hstore⟩
  · left
    rw [hgate] at hrecords
    simp only [emitDeobfFact, hnormal, hgate]
    exact ⟨trivial, hrecords⟩

theorem emit_activeGeneration (fact : AnalysisFact) :
    (sink.emitDeobfFact sha fact).1.activeGeneration = sink.activeGeneration := by
  rw [emitDeobfFact]
  split
  · rfl
  · split
    · rfl
    · exact (account_store _).2.1

theorem emit_reachable (hs : EvidenceStore.Reachable sha sink.store) (fact : AnalysisFact) :
    EvidenceStore.Reachable sha (sink.emitDeobfFact sha fact).1.store := by
  rw [emitDeobfFact]
  split
  · exact hs
  · rename_i normal _
    have hgate := gate_reachable hs normal
    split
    · rename_i h
      rw [h] at hgate
      exact hgate
    · rename_i h
      rw [h] at hgate
      rw [(account_store _).1]
      exact hgate.add normal

/-- What passes the gate brings no contradiction into the view. -/
theorem gate_viewContradictions_subset (hs : EvidenceStore.Reachable sha sink.store)
    {normal : AnalysisFact} (hnormal : normalizeFact normal = .ok normal)
    (hgate : (sink.gate sha normal).1 = none) :
    viewContradictions ((sink.gate sha normal).2.add sha normal).1 sink.activeGeneration ⊆
      viewContradictions (sink.gate sha normal).2 sink.activeGeneration := by
  have hok := (gate_reachable hs normal).ok
  have hvalid := (validateFact_eq_ok.1 (normalizeFact_eq_ok.1 hnormal).1).1
  by_cases hview : observationInView normal.evidence sink.activeGeneration = true
  · have hnone : (sink.store.newContradiction sha normal.payload sink.activeGeneration).1 =
        none := by
      simpa only [gate, hview, if_true] using hgate
    rcases active_or_consistent_of_none hs.ok hvalid hnone with hactive | hconsistent
    · -- the payload is in the view already
      have hpayload := mem_view_of_active hs.ok hvalid hactive
      rw [view_congr (gate_records normal).symm] at hpayload
      refine viewContradictions_mono fun p hp => ?_
      rcases mem_view_add hok hnormal hp with hp | ⟨rfl, -⟩
      · exact hp
      · exact hpayload
    · refine viewContradictions_add_subset hok hnormal fun q hq => ?_
      rw [view_congr (gate_records normal)] at hq
      obtain ⟨key, record, hfind, rfl, hrecord⟩ := mem_view.1 hq
      exact hconsistent key record hfind hrecord
  · refine viewContradictions_mono fun p hp => ?_
    exact (mem_view_add hok hnormal hp).resolve_right fun h => hview h.2

/-- One emission. -/
theorem emit_viewContradictions_subset (hs : EvidenceStore.Reachable sha sink.store)
    (fact : AnalysisFact) :
    viewContradictions (sink.emitDeobfFact sha fact).1.store sink.activeGeneration ⊆
      viewContradictions sink.store sink.activeGeneration := by
  obtain ⟨-, hrecords⟩ | ⟨-, normal, hnormal, hgate, hstore⟩ := emit_cases sha sink fact
  · exact viewContradictions_mono (view_congr hrecords _).subset
  · rw [hstore]
    have hself := normalizeFact_self_iff.2 (normalizeFact_eq_ok.1 hnormal).1
    exact (gate_viewContradictions_subset hs hself hgate).trans
      (viewContradictions_mono (view_congr (gate_records normal) _).subset)

/-! ## Runs -/

theorem emitAll_run : ∀ (facts : List AnalysisFact) {sink : DeobfEvidenceStoreSink},
    EvidenceStore.Reachable sha sink.store →
      EvidenceStore.Reachable sha (sink.emitAll sha facts).store ∧
        (sink.emitAll sha facts).activeGeneration = sink.activeGeneration ∧
        viewContradictions (sink.emitAll sha facts).store sink.activeGeneration ⊆
          viewContradictions sink.store sink.activeGeneration
  | [], _, hs => ⟨hs, rfl, subset_rfl⟩
  | fact :: facts, sink, hs => by
    obtain ⟨hreachable, hgeneration, hsubset⟩ := emitAll_run facts (emit_reachable hs fact)
    rw [emit_activeGeneration] at hgeneration hsubset
    exact ⟨hreachable, hgeneration, hsubset.trans (emit_viewContradictions_subset hs fact)⟩

end DeobfEvidenceStoreSink

/-- **Emissions never bring contradictions into the view of the active generation**, and a refused
fact leaves the records as they are. -/
theorem view_contradictions_never_grow (sha : Bytes → FactDigest) (sink : DeobfEvidenceStoreSink)
    (hs : EvidenceStore.Reachable sha sink.store) (facts : List AnalysisFact) :
    viewContradictions (sink.emitAll sha facts).store sink.activeGeneration ⊆
        viewContradictions sink.store sink.activeGeneration ∧
      (viewContradictions sink.store sink.activeGeneration = ∅ →
        viewContradictions (sink.emitAll sha facts).store sink.activeGeneration = ∅) ∧
      ∀ fact, ((sink.emitAll sha facts).emitDeobfFact sha fact).2 = false →
        ((sink.emitAll sha facts).emitDeobfFact sha fact).1.store.records =
          (sink.emitAll sha facts).store.records := by
  obtain ⟨-, -, hsubset⟩ := DeobfEvidenceStoreSink.emitAll_run facts hs
  refine ⟨hsubset, fun hempty => Set.subset_eq_empty hsubset hempty, fun fact hfalse => ?_⟩
  obtain ⟨-, hrecords⟩ | ⟨htrue, -⟩ :=
    DeobfEvidenceStoreSink.emit_cases sha (sink.emitAll sha facts) fact
  · exact hrecords
  · exact Cxx.clash hfalse htrue

theorem viewContradictions_empty (generation : UInt64) :
    viewContradictions EvidenceStore.empty generation = ∅ := by
  refine Set.eq_empty_iff_forall_notMem.2 fun pair hpair => ?_
  obtain ⟨⟨e, he, -⟩, -⟩ := hpair
  rw [facts_empty] at he
  exact he

/-- The second of two sole targets is refused. -/
theorem rival_suppressed :
    ((DeobfEvidenceStoreSink.emitAll (fun _ => FactDigest.zero) ⟨.empty, {}, [], 0⟩
        [sampleFact]).emitDeobfFact (fun _ => FactDigest.zero) rivalFact).2 = false ∧
      viewContradictions (DeobfEvidenceStoreSink.emitAll (fun _ => FactDigest.zero)
        ⟨.empty, {}, [], 0⟩ [sampleFact, rivalFact]).store 0 = ∅ :=
  ⟨by decide +kernel,
    (view_contradictions_never_grow _ ⟨.empty, {}, [], 0⟩ .empty _).2.1
      (viewContradictions_empty 0)⟩

end Viy
