import Viy.Store.Contradiction
import Viy.Store.Invariant

/-!
# The contradiction index is exact

`newContradiction` reads one bucket of the index, or one window of its regions. The main result says
that on every reachable store, whatever the index went through, the answer is that of comparing the
payload with all active records.
-/

namespace Viy.Analysis

open Wire

/-! ## The specification -/

section Spec

variable (sha : Bytes → FactDigest)

/-- The conflicts between a payload and a record, compared in the order of the ledger. -/
def conflictsWith (payload : FactPayload) (record : EvidenceRecord) : List EvidenceConflict :=
  if payloadLess payload record.payload then
    comparePayloads false (operandOf sha payload) (operandOf sha record.payload)
  else comparePayloads false (operandOf sha record.payload) (operandOf sha payload)

/-- The contradictions between a payload and all active records. -/
def EvidenceStore.activeContradictions (s : EvidenceStore) (payload : FactPayload)
    (generation : UInt64) : List EvidenceConflict :=
  (s.records.entries.filter fun entry => entry.2.active generation).flatMap fun entry =>
    (conflictsWith sha payload entry.2).filter fun c => c.severity == .contradiction

end Spec

/-! ## Subjects -/

/-- Contradicting payloads have one subject or are clashing regions. -/
theorem subject_of_contradicts {p q : FactPayload} (h : contradicts p q = true) :
    (∃ grouped, subject p = some grouped ∧ subject q = some grouped) ∨ RegionsClash p q := by
  rcases contradicts_iff.1 h with ⟨⟨k, hp, hq⟩, -⟩ | ⟨⟨k, hp, hq⟩, -⟩ | ⟨⟨k, hp, hq⟩, h⟩ |
    ⟨⟨k, hp, hq⟩, -⟩ | h
  · obtain ⟨l, rfl, hl⟩ := codeTargetKey_eq_some.1 hp
    obtain ⟨r, rfl, hr⟩ := codeTargetKey_eq_some.1 hq
    obtain ⟨hfrom, hkind⟩ := Prod.mk.inj (hl.trans hr.symm)
    exact Or.inl ⟨_, rfl, by rw [subject, hfrom, hkind]⟩
  · refine Or.inl ⟨(2, k), ?_, ?_⟩
    · rcases edgeKey_eq_some.1 hp with ⟨l, rfl, rfl⟩ | ⟨l, rfl, rfl⟩ <;> rfl
    · rcases edgeKey_eq_some.1 hq with ⟨l, rfl, rfl⟩ | ⟨l, rfl, rfl⟩ <;> rfl
  · have hsubject : ∀ {p : FactPayload}, functionEvidenceKey p = some k →
        (isReturns p = true ∨ isNoReturn p = true ∨ isReturnedOutcome p = true) →
          subject p = some (3, k, 0) := by
      intro p hp hkind
      rcases functionEvidenceKey_eq_some.1 hp with ⟨f, rfl, rfl⟩ | ⟨f, rfl, rfl⟩
      · have htrait : isReturnTrait f.trait = true := by
          simpa [isReturns, isNoReturn, isReturnedOutcome, isReturnTrait] using hkind
        rw [subject, if_pos htrait]
      · have hstop : (f.stop == .returned) = true := by
          simpa [isReturns, isNoReturn, isReturnedOutcome] using hkind
        rw [subject, if_pos hstop]
    simp only [returnsContradict, Bool.or_eq_true, Bool.and_eq_true] at h
    exact Or.inl ⟨_, hsubject hp (by tauto), hsubject hq (by tauto)⟩
  · obtain ⟨l, rfl, rfl⟩ := dispatchMapKey_eq_some.1 hp
    obtain ⟨r, rfl, hr⟩ := dispatchMapKey_eq_some.1 hq
    exact Or.inl ⟨_, rfl, by rw [subject, hr]⟩
  · exact Or.inr h

/-- Payloads that can contradict another one always encode. -/
theorem encodePayload_of_relevant {p : FactPayload} (hp : validatePayload p = .ok ())
    (h : (subject p).isSome = true ∨ p.region?.isSome = true) :
    ∃ key, encodePayload p = .ok key := by
  rw [encodePayload_of_valid hp]
  refine encodeNormalizedPayload_isOk_iff.2 ?_
  cases p <;> simp [subject, FactPayload.region?, payloadStrings, payloadBlobs] at h ⊢
  case functionTrait fact =>
    -- a return trait has no value, so its text is empty
    obtain ⟨⟨⟩, hvalue, hkind⟩ := bind_eq_ok.1 hp
    simp only [validateTraitValue, require_bind_eq_ok] at hvalue
    have hnone : fact.value.kind = .none := by
      rcases htrait : fact.trait <;> simp [isReturnTrait, htrait] at h <;>
        rw [htrait] at hkind <;> exact require_eq_ok.1 hkind
    have htext : fact.value.textValue = [] := hvalue.1.resolve_left (by simp [hnone])
    simp [htext]

/-! ## Completeness of the index -/

section Index

variable {s : EvidenceStore} {index : ContradictionIndex} (hindex : IndexOk s.Has index)

include hindex

theorem mem_subjectCandidates {grouped : Subject} {key : Bytes} {record : EvidenceRecord} :
    (key, record) ∈ subjectCandidates s.records index grouped ↔
      s.records.find key = some record ∧ subject record.payload = some grouped := by
  simp only [subjectCandidates, List.mem_filterMap, hindex.subjects, Records.deref,
    Option.map_eq_some_iff, Prod.mk.injEq]
  constructor
  · rintro ⟨_, ⟨payload, ⟨record', hfind', rfl⟩, hsubject⟩, record, hfind, rfl, rfl⟩
    obtain rfl := Option.some.inj (hfind.symm.trans hfind')
    exact ⟨hfind, hsubject⟩
  · rintro ⟨hfind, hsubject⟩
    exact ⟨key, ⟨_, ⟨record, hfind, rfl⟩, hsubject⟩, record, hfind, rfl, rfl⟩

omit hindex in
/-- A region of at most the given size that ends behind another region's start starts in its
window. -/
theorem not_less_windowStart {region other : CodeRegionFact} {span : Address}
    (hother : other.start < other.endAddr) (hend : region.start < other.endAddr)
    (hspan : other.endAddr - other.start ≤ span) :
    Cxx.Comparator.u64.less other.start (windowStart span region) = false := by
  refine decide_eq_false ?_
  rw [UInt64.lt_iff_toNat_lt] at hother hend
  rw [UInt64.le_iff_toNat_le, UInt64.toNat_sub_of_le _ _ (UInt64.le_iff_toNat_le.2 hother.le)]
    at hspan
  rw [windowStart]
  split_ifs with h
  · have hle : span ≤ region.start := UInt64.le_of_lt h
    rw [UInt64.lt_iff_toNat_lt, UInt64.toNat_sub_of_le _ _ hle]
    rw [UInt64.le_iff_toNat_le] at hle
    omega
  · exact UInt64.not_lt_zero

/-- The window reaches every region that overlaps the given one. -/
theorem mem_regionCandidates {region other : CodeRegionFact} {key : Bytes}
    {record : EvidenceRecord} (hfind : s.records.find key = some record)
    (hpayload : record.payload = .codeRegion other) (hoverlap : Overlap region other)
    (hkind : regionKindsIncompatible region.kind other.kind = true) :
    (key, record) ∈ regionCandidates s.records index region := by
  obtain ⟨⟨-, hother⟩, hstart, hend⟩ := overlap_iff.1 hoverlap
  have hhas : s.Has key (.codeRegion other) := ⟨record, hfind, hpayload⟩
  have hspan := hindex.span key other hhas
  have hlower : Cxx.Comparator.u64.less other.start
      (windowStart index.maximumRegionSize region) = false :=
    not_less_windowStart hother hend hspan
  have hwindow := Cxx.MultiMap.mem_window
    ((hindex.regions other.start key).2 ⟨other, hhas, rfl⟩) hlower
    (decide_eq_true hstart)
  rw [regionCandidates, List.mem_filter, List.mem_filterMap]
  exact ⟨⟨_, hwindow, by simp [Records.deref, hfind]⟩, by
    simp [regionCandidate, hpayload, hkind, hend]⟩

theorem find_of_mem_candidates {payload : FactPayload} {key : Bytes} {record : EvidenceRecord}
    (h : (key, record) ∈ candidates s.records index payload) :
    s.records.find key = some record := by
  have hderef : ∀ {key'}, s.records.deref key' = some (key, record) →
      s.records.find key = some record := by
    intro key' h
    obtain ⟨_, hfind, heq⟩ := Option.map_eq_some_iff.1 h
    obtain ⟨rfl, rfl⟩ := Prod.mk.inj heq
    exact hfind
  unfold candidates at h
  split at h
  · exact ((mem_subjectCandidates hindex).1 h).1
  · obtain ⟨_, -, h⟩ := List.mem_filterMap.1 (List.mem_filter.1 h).1
    exact hderef h
  · cases h

/-- The index offers every record that contradicts the payload. -/
theorem mem_candidates {payload : FactPayload} {key : Bytes} {record : EvidenceRecord}
    (hfind : s.records.find key = some record) (h : contradicts payload record.payload = true) :
    (key, record) ∈ candidates s.records index payload := by
  rcases subject_of_contradicts h with ⟨grouped, hp, hq⟩ | ⟨l, r, rfl, hr, hoverlap, hkind⟩
  · simp only [candidates, hp]
    exact (mem_subjectCandidates hindex).2 ⟨hfind, hq⟩
  · exact mem_regionCandidates hindex hfind hr hoverlap hkind

end Index

/-! ## The answer -/

section Answer

variable {sha : Bytes → FactDigest} {s : EvidenceStore} {payload : FactPayload} {key : Bytes}
  {generation : UInt64}

/-- The comparison finds a contradiction in whichever order it takes the two. -/
theorem contradicts_record_iff {record : EvidenceRecord} (hp : validatePayload payload = .ok ())
    (hr : validatePayload record.payload = .ok ()) :
    contradicts payload record.payload = true ↔
      ∃ c ∈ conflictsWith sha payload record, c.severity = .contradiction := by
  unfold conflictsWith
  split_ifs
  · exact contradicts_iff_exists (l := operandOf sha payload) (r := operandOf sha record.payload)
  · rw [contradicts_comm hp hr]
    exact contradicts_iff_exists (l := operandOf sha record.payload) (r := operandOf sha payload)

/-- The code compares keys where the specification compares payloads. -/
theorem mem_contradictionsWith {key' : Bytes} {record : EvidenceRecord} {c : EvidenceConflict}
    (hkey : encodePayload payload = .ok key) (hkey' : encodePayload record.payload = .ok key') :
    c ∈ contradictionsWith sha payload key generation (key', record) ↔
      record.active generation = true ∧ c ∈ conflictsWith sha payload record ∧
        c.severity = .contradiction := by
  have hless : payloadLess payload record.payload = bytesOrder.less key key' := by
    rw [payloadLess, hkey, hkey']
    rfl
  rw [contradictionsWith, conflictsWith, hless]
  cases record.active generation
  · simp
  · split_ifs <;> simp_all [mem_comparePayloads_true]

theorem mem_activeContradictions {c : EvidenceConflict} :
    c ∈ s.activeContradictions sha payload generation ↔
      ∃ key' record, s.records.find key' = some record ∧ record.active generation = true ∧
        c ∈ conflictsWith sha payload record ∧ c.severity = .contradiction := by
  simp only [EvidenceStore.activeContradictions, List.mem_flatMap, List.mem_filter, Prod.exists,
    Cxx.Map.mem_entries_iff, beq_iff_eq, and_assoc]

/-- The indexed scan finds the contradictions with the active records. -/
theorem mem_scanned (hs : StoreOk s) (hp : validatePayload payload = .ok ())
    (hkey : encodePayload payload = .ok key) {index : ContradictionIndex}
    (hindex : IndexOk s.Has index) {c : EvidenceConflict} :
    c ∈ (candidates s.records index payload).flatMap
        (contradictionsWith sha payload key generation) ↔
      c ∈ s.activeContradictions sha payload generation := by
  rw [mem_activeContradictions, List.mem_flatMap]
  constructor
  · rintro ⟨⟨key', record⟩, hmem, hc⟩
    have hfind := find_of_mem_candidates hindex hmem
    exact ⟨key', record, hfind,
      (mem_contradictionsWith hkey (hs.records _ _ hfind).encodePayload).1 hc⟩
  · rintro ⟨key', record, hfind, hactive, hc, hsev⟩
    have hok := hs.records _ _ hfind
    have hcontradicts := (contradicts_record_iff hp hok.payload_valid).2 ⟨c, hc, hsev⟩
    exact ⟨(key', record), mem_candidates hindex hfind hcontradicts,
      (mem_contradictionsWith hkey hok.encodePayload).2 ⟨hactive, hc, hsev⟩⟩

/-- A payload without a subject contradicts nothing. -/
theorem activeContradictions_eq_nil (hs : StoreOk s) (hp : validatePayload payload = .ok ())
    (hsubject : subject payload = none) (hregion : payload.region? = none) :
    s.activeContradictions sha payload generation = [] := by
  refine List.eq_nil_iff_forall_not_mem.2 fun c hc => ?_
  obtain ⟨key', record, hfind, -, hc, hsev⟩ := mem_activeContradictions.1 hc
  have hr := (hs.records _ _ hfind).payload_valid
  rcases subject_of_contradicts ((contradicts_record_iff hp hr).2 ⟨c, hc, hsev⟩) with
    ⟨grouped, h, -⟩ | ⟨l, r, rfl, -⟩
  · exact nomatch hsubject.symm.trans h
  · cases hregion

/-- The answer is the least contradiction of the brute-force comparison. -/
theorem newContradiction_eq (hs : StoreOk s) (hp : validatePayload payload = .ok ()) :
    (s.newContradiction sha payload generation).1 =
      if (s.find payload).any (EvidenceRecord.active generation) then none
      else Cxx.minElement conflictLess (s.activeContradictions sha payload generation) := by
  rw [EvidenceStore.newContradiction]
  by_cases hrelevant : (subject payload).isNone && payload.region?.isNone
  · simp only [Bool.and_eq_true, Option.isNone_iff_eq_none] at hrelevant
    rw [activeContradictions_eq_nil hs hp hrelevant.1 hrelevant.2]
    simp [hrelevant, Cxx.minElement]
  · obtain ⟨key, hkey⟩ := encodePayload_of_relevant hp (by
      simpa [Option.isSome_iff_ne_none, imp_iff_not_or] using hrelevant)
    have hfind : s.find payload = s.records.find key := by
      simp only [EvidenceStore.find, hkey]
    have hindex : IndexOk s.Has
        (s.contradictionIndex.getD (ContradictionIndex.build s.records)) := by
      rcases hi : s.contradictionIndex with _ | index
      · exact indexOk_build s
      · exact hs.index index hi
    simp only [hrelevant, hkey, hfind]
    by_cases hactive : (s.records.find key).any (EvidenceRecord.active generation) = true
    · simp [hactive]
    · simp only [hactive, EvidenceStore.scanCandidates]
      exact Cxx.minElement_congr conflictOrder fun c => mem_scanned hs hp hkey hindex

/-- A payload that passes the query has an active record or contradicts no active record. -/
theorem active_or_consistent_of_none (hs : StoreOk s) (hp : validatePayload payload = .ok ())
    (h : (s.newContradiction sha payload generation).1 = none) :
    (s.find payload).any (EvidenceRecord.active generation) = true ∨
      ∀ key record, s.records.find key = some record → record.active generation = true →
        contradicts payload record.payload = false := by
  rw [newContradiction_eq hs hp] at h
  split_ifs at h with hactive
  · exact Or.inl hactive
  · refine Or.inr fun key record hfind hrecord => Bool.eq_false_iff.2 fun hcontradicts => ?_
    obtain ⟨c, hc, hsev⟩ : ∃ c ∈ conflictsWith sha payload record, c.severity = .contradiction :=
      (contradicts_record_iff hp (hs.records _ _ hfind).payload_valid).1 hcontradicts
    have hmem := mem_activeContradictions.2 ⟨key, record, hfind, hrecord, hc, hsev⟩
    rw [Cxx.minElement_eq_none.1 h] at hmem
    cases hmem

end Answer

/-- **The indexed query is the brute-force query**: nothing for a payload with an active record, and
otherwise the least contradiction with an active record. -/
theorem new_contradiction_exact {sha : Bytes → FactDigest} {s : EvidenceStore}
    (hs : EvidenceStore.Reachable sha s) {payload : FactPayload}
    (hp : normalizePayload payload = .ok payload) (generation : UInt64) :
    ((s.find payload).any (EvidenceRecord.active generation) = true →
        (s.newContradiction sha payload generation).1 = none) ∧
      ((s.find payload).any (EvidenceRecord.active generation) = false →
        ((s.newContradiction sha payload generation).1 = none ↔
            s.activeContradictions sha payload generation = []) ∧
          ∀ c, (s.newContradiction sha payload generation).1 = some c ↔
            c ∈ s.activeContradictions sha payload generation ∧
              ∀ d ∈ s.activeContradictions sha payload generation, conflictLess d c = false) := by
  rw [newContradiction_eq hs.ok (normalizePayload_eq_ok.1 hp).1]
  constructor
  · intro h
    rw [if_pos h]
  · intro h
    simp only [h, Bool.false_eq_true, if_false]
    exact ⟨Cxx.minElement_eq_none, fun c => Cxx.minElement_eq_some conflictOrder⟩

/-- The store of `sampleFact` after a query, so with an index. -/
def queriedStore (sha : Bytes → FactDigest) : EvidenceStore :=
  ((EvidenceStore.empty.add sha sampleFact).1.newContradiction sha rivalFact.payload 0).2.2

theorem queriedStore_new_contradiction : ∃ c,
    ((queriedStore fun _ => FactDigest.zero).newContradiction (fun _ => FactDigest.zero)
        rivalFact.payload 0).1 = some c ∧
      c ∈ (queriedStore fun _ => FactDigest.zero).activeContradictions (fun _ => FactDigest.zero)
        rivalFact.payload 0 := by
  have hreachable : EvidenceStore.Reachable (fun _ => FactDigest.zero)
      (queriedStore fun _ => FactDigest.zero) := .query _ _ (.add _ .empty)
  have hsome : ((queriedStore fun _ => FactDigest.zero).newContradiction (fun _ => FactDigest.zero)
      rivalFact.payload 0).1.isSome = true := by decide +kernel
  obtain ⟨c, hc⟩ := Option.isSome_iff_exists.1 hsome
  exact ⟨c, hc, (((new_contradiction_exact hreachable rfl 0).2 (by decide +kernel)).2 c).1 hc |>.1⟩

end Viy.Analysis
