import Viy.Persist.History
import Viy.Store.Envelope

/-!
# What the ledger takes in and what it can persist

`add` bounds the lengths of a fact by the width of their fields, the decoders by configured limits.
`write_blob` decodes the whole envelope under the default limits before it writes anything, so one
fact between the two bounds stops the ledger from being persisted.
-/

namespace Viy

open Analysis Fault Wire Netnode

section Write

variable {sha : Bytes → FactDigest} {blob : Bytes}

/-! ## Writes that nothing disturbs -/

theorem Envelope.ne_nil (h : Envelope sha blob) : blob ≠ [] := by
  rintro rfl
  obtain ⟨s, hs⟩ := h
  obtain ⟨-, hs⟩ := require_bind_eq_ok.1 hs
  exact absurd (require_bind_eq_ok.1 hs).1 (by simp)

/-- Bytes that are no envelope are refused before any primitive runs. -/
theorem run_writeBlob_of_invalid (h : ¬ Envelope sha blob) (nodes : Nodes) (script : List Event) :
    ∃ error, (writeBlob sha blob).run nodes script = (some (.error error), nodes, script) := by
  unfold writeBlob
  split_ifs with hempty
  · exact ⟨_, rfl⟩
  rcases hdecode : decodeEnvelope sha blob with error | s
  · exact ⟨_, rfl⟩
  · exact absurd ⟨s, hdecode⟩ h

theorem run_stageSlot (slot : Slot) (blob : Bytes) (nodes : Nodes) :
    ∃ nodes', (stageSlot slot blob).run nodes [] = (some (.ok ()), nodes', []) ∧
      nodes'.slot slot = some (some blob) := by
  cases hslot : (nodes.slot slot).isSome <;>
    simp [stageSlot, ensure, existSlot, attach, createSlot, setblob, query, change, Proc.run_bind,
      Nodes.setSlot, hslot]

/-- An envelope is written, whatever the nodes hold. -/
theorem run_writeBlob_of_envelope (h : Envelope sha blob) (nodes : Nodes) :
    ∃ nodes', (writeBlob sha blob).run nodes [] = (some (.ok ()), nodes', []) := by
  obtain ⟨s, hdecode⟩ := id h
  have hensure : ∃ nodes', (ensure existEvidence createEvidence).run nodes [] =
      (some true, nodes', []) := by
    cases hnode : nodes.evidence.isSome <;>
      simp [ensure, existEvidence, createEvidence, attach, query, change, Proc.run_bind, hnode]
  obtain ⟨ready, hready⟩ := hensure
  let next := nextSlot ((ready.evidence.map EvidenceNode.marker).getD 0)
  obtain ⟨staged, hstaged, hslot⟩ := run_stageSlot next blob ready
  have hread : (readSlot next).run staged [] = (some (.ok blob), staged, []) :=
    run_readSlot_of_some hslot
  have hverify : verifyStaged sha blob (.ok blob) = .ok () := by
    simp [verifyStaged, hdecode, Except.map]
  refine ⟨staged.setMarker next, ?_⟩
  simp [writeBlob, commitBlob, h.ne_nil, hdecode, altval, altset, query, change, Proc.run_bind,
    hready, hstaged, hread, hverify, next]

end Write

/-! ## Persisting a ledger -/

section Persist

variable {sha : Bytes → FactDigest} {s : EvidenceStore}

theorem run_persist_of_admits (hs : StoreOk s) (h : ({} : StoreCodecLimits).Admits s)
    (nodes : Nodes) :
    ∃ nodes', (s.persist sha (writeBlob sha)).run nodes [] = (some (.ok ()), nodes', []) := by
  have hfits := h.fits (by decide) (by decide)
  obtain ⟨blob, hblob⟩ : ∃ blob, s.serialize sha = .ok blob :=
    ⟨_, (serialize_eq_ok hs).2 ⟨hfits, rfl⟩⟩
  have henvelope : Envelope sha blob := ⟨_, (deserialize_serialize_iff hs hblob).2 h⟩
  obtain ⟨nodes', hrun⟩ := run_writeBlob_of_envelope henvelope nodes
  exact ⟨nodes', by simp [EvidenceStore.persist, hblob, Proc.run_bind, hrun, Except.mapError]⟩

/-- A ledger beyond the limits is refused under any events, and the nodes stay as they are. -/
theorem run_persist_of_not_admits (hs : StoreOk s) (h : ¬ ({} : StoreCodecLimits).Admits s)
    (nodes : Nodes) (script : List Event) :
    ∃ error, (s.persist sha (writeBlob sha)).run nodes script =
      (some (.error error), nodes, script) := by
  rcases hblob : s.serialize sha with error | blob
  · exact ⟨error, by simp [EvidenceStore.persist, hblob]⟩
  · have hinvalid : ¬ Envelope sha blob := fun ⟨t, ht⟩ => h (admits_of_deserialize hs hblob ht)
    obtain ⟨error, hrun⟩ := run_writeBlob_of_invalid hinvalid nodes script
    simp [EvidenceStore.persist, hblob, Proc.run_bind, hrun, Except.mapError]

theorem run_persist_iff (hs : StoreOk s) (nodes : Nodes) :
    (∃ nodes', (s.persist sha (writeBlob sha)).run nodes [] = (some (.ok ()), nodes', [])) ↔
      ({} : StoreCodecLimits).Admits s := by
  refine ⟨fun ⟨nodes', hrun⟩ => ?_, fun h => run_persist_of_admits hs h nodes⟩
  by_contra h
  obtain ⟨error, hrefused⟩ := run_persist_of_not_admits hs h nodes []
  exact nomatch hrun.symm.trans hrefused

theorem add_ne_rejected_iff {fact : AnalysisFact} :
    (s.add sha fact).2.disposition ≠ .rejectedInvalid ↔ ∃ normal, admitted fact = some normal := by
  obtain ⟨hnone, -, hrejected⟩ | ⟨normal, key, hadmitted, -, -, -, hdisposition⟩ :=
    add_cases sha s fact
  · simp [hnone, hrejected]
  · rw [hdisposition]
    exact iff_of_true (addNormalized_ne_rejected s key normal) ⟨normal, hadmitted⟩

/-- No ledger with a fact beyond the limits can be persisted. -/
theorem run_persist_of_mem (hs : StoreOk s) {fact : AnalysisFact} (hmem : fact ∈ s.facts)
    (hlarge : ¬ ({} : FactCodecLimits).Admits fact) (nodes : Nodes) (script : List Event) :
    ∃ error, (s.persist sha (writeBlob sha)).run nodes script =
      (some (.error error), nodes, script) :=
  run_persist_of_not_admits hs (fun h => hlarge (h.facts fact (mem_flattenedFacts.2 hmem))) nodes
    script

/-- What fits the format and exceeds the limits is accepted, does not decode, and stops the ledger
from being persisted. -/
theorem add_beyond_limits (hs : StoreOk s) {fact : AnalysisFact}
    (hnormal : normalizeFact fact = .ok fact) (hfits : FactFits fact)
    (hlarge : ¬ ({} : FactCodecLimits).Admits fact) (nodes : Nodes) (script : List Event) :
    (s.add sha fact).2.disposition ≠ .rejectedInvalid ∧
      (∃ b error, encodeAnalysisFact fact = .ok b ∧ decodeAnalysisFact {} b = .error error) ∧
        ∃ error, ((s.add sha fact).1.persist sha (writeBlob sha)).run nodes script =
          (some (.error error), nodes, script) := by
  obtain ⟨b, hb⟩ := (encodeAnalysisFact_isOk_iff hnormal).2 hfits
  obtain ⟨error, hdecode⟩ := decode_error_of_not_admits hnormal hb hlarge
  have hadmitted : admitted fact = some fact := by
    obtain ⟨_, key, hself, hkey, -⟩ := encodeAnalysisFact_eq_ok.1 hb
    obtain rfl := Except.ok.inj (hnormal.symm.trans hself)
    exact admitted_eq_some.2 ⟨hnormal, key, hkey⟩
  exact ⟨add_ne_rejected_iff.2 ⟨fact, hadmitted⟩, ⟨b, error, hb, hdecode⟩,
    run_persist_of_mem (hs.add fact) ((mem_facts_add hs.records).2 (Or.inl hadmitted)) hlarge nodes
      script⟩

end Persist

/-- **Accepted facts.** A fact that `add` does not reject decodes from its encoding under the
default limits exactly when they admit its normal form. If they do not, no ledger with the fact can
be persisted; and a ledger is persisted exactly when the default limits admit all of it. -/
theorem accepted_fact_decodes_iff (sha : Bytes → FactDigest) {s : EvidenceStore}
    (hs : EvidenceStore.Reachable sha s) (fact : AnalysisFact)
    (haccepted : (s.add sha fact).2.disposition ≠ .rejectedInvalid) :
    ∃ normal, normalizeFact fact = .ok normal ∧ normal ∈ (s.add sha fact).1.facts ∧
      ((∃ b, encodeAnalysisFact fact = .ok b ∧ decodeAnalysisFact {} b = .ok normal) ↔
        ({} : FactCodecLimits).Admits normal) ∧
      ∀ t, EvidenceStore.Reachable sha t → normal ∈ t.facts →
        (¬ ({} : FactCodecLimits).Admits normal → ∀ nodes script, ∃ error,
          (t.persist sha (writeBlob sha)).run nodes script =
            (some (.error error), nodes, script)) ∧
        ∀ nodes, (∃ nodes', (t.persist sha (writeBlob sha)).run nodes [] =
          (some (.ok ()), nodes', [])) ↔ ({} : StoreCodecLimits).Admits t := by
  obtain ⟨normal, hadmitted⟩ := add_ne_rejected_iff.1 haccepted
  have hnormal := (admitted_eq_some.1 hadmitted).1
  refine ⟨normal, hnormal, (mem_facts_add hs.ok.records).2 (Or.inl hadmitted), ?_,
    fun t ht hmem => ⟨run_persist_of_mem ht.ok hmem, run_persist_iff ht.ok⟩⟩
  rw [decode_encode_iff hnormal, and_iff_right_iff_imp]
  exact fun h => h.fits (by decide)

theorem sampleFact_decodes : ∃ normal, normalizeFact sampleFact = .ok normal ∧
    normal ∈ (EvidenceStore.empty.add (fun _ => FactDigest.zero) sampleFact).1.facts ∧
      ((∃ b, encodeAnalysisFact sampleFact = .ok b ∧ decodeAnalysisFact {} b = .ok normal) ↔
        ({} : FactCodecLimits).Admits normal) := by
  obtain ⟨normal, hnormal, hmem, hiff, -⟩ := accepted_fact_decodes_iff (fun _ => FactDigest.zero)
    .empty sampleFact (by decide +kernel)
  exact ⟨normal, hnormal, hmem, hiff⟩

/-- The sample fact with another explanation. -/
def detailedFact (detail : Bytes) : AnalysisFact :=
  { sampleFact with evidence := { sampleFact.evidence with detail } }

/-- The detail of a fact is bounded by its length field only. -/
theorem normalizeFact_detailedFact {detail : Bytes} (h : detail.length ≤ u32Max) :
    normalizeFact (detailedFact detail) = .ok (detailedFact detail) := by
  obtain ⟨hpayload, hevidence, -⟩ := validateFact_eq_ok.1 (rfl : validateFact sampleFact = .ok ())
  simp only [validateEvidence, validateEvidenceWith, require_bind_eq_ok, require_eq_ok] at hevidence
  obtain ⟨h₁, h₂, h₃, h₄, h₅, h₆, h₇, h₈, h₉, h₁₀, h₁₁, -⟩ := hevidence
  refine normalizeFact_self_iff.2 (validateFact_eq_ok.2 ⟨hpayload, ?_, ?_⟩)
  · simp only [validateEvidence, validateEvidenceWith, require_bind_eq_ok, require_eq_ok]
    exact ⟨h₁, h₂, h₃, h₄, h₅, h₆, h₇, h₈, h₉, h₁₀, h₁₁, h⟩
  · simp [detailedFact, sampleFact, reachabilityState]

theorem factFits_detailedFact {detail : Bytes} (h : detail.length ≤ 2 ^ 31) :
    FactFits (detailedFact detail) := by
  have hevidence : evidenceSize (detailedFact detail).evidence =
      evidenceSize sampleFact.evidence + detail.length := rfl
  have hsample : evidenceSize sampleFact.evidence + 2 ^ 31 ≤ u32Max := by decide
  exact ⟨(by decide : payloadSize sampleFact.payload ≤ u32Max), by omega⟩

/-- A detail of one byte more than the default limit. -/
def oversizedFact : AnalysisFact := detailedFact (List.replicate 1048577 0x61)

theorem oversizedFact_stops_persistence :
    (EvidenceStore.empty.add (fun _ => FactDigest.zero) oversizedFact).2.disposition ≠
        .rejectedInvalid ∧
      (∃ b error, encodeAnalysisFact oversizedFact = .ok b ∧
        decodeAnalysisFact {} b = .error error) ∧
      ∃ error, ((EvidenceStore.empty.add (fun _ => FactDigest.zero) oversizedFact).1.persist
          (fun _ => FactDigest.zero) (writeBlob fun _ => FactDigest.zero)).run Nodes.empty [] =
        (some (.error error), Nodes.empty, []) := by
  have hlength : oversizedFact.evidence.detail.length = 1048577 := List.length_replicate
  have hnormal : normalizeFact oversizedFact = .ok oversizedFact :=
    normalizeFact_detailedFact (by rw [List.length_replicate]; decide)
  have hlarge : ¬ ({} : FactCodecLimits).Admits oversizedFact := fun h =>
    absurd (h.strings oversizedFact.evidence.detail (by simp [factStrings]))
      (by rw [hlength]; decide)
  have hfits : FactFits oversizedFact :=
    factFits_detailedFact (by rw [List.length_replicate]; decide)
  exact add_beyond_limits storeOk_empty hnormal hfits hlarge Nodes.empty []

end Viy
