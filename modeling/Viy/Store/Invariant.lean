import Viy.Store.Persist

/-!
# The representation invariant

In every reachable store the key of a record is the canonical encoding of its payload, and its
observations are valid, at least one, and strictly sorted by their encoding (`RecordOk`). The
contradiction index, if there is one, lists exactly the records of the store (`IndexOk`).

`Reachable.invariant` is the induction over histories: what the empty store has and `add`, dropping
the index and building it keep, every reachable store has.
-/

namespace Viy.Analysis

open Wire

/-! ## Records -/

/-- A record under its key. -/
structure RecordOk (key : Bytes) (record : EvidenceRecord) : Prop where
  encoded : encodeNormalizedPayload record.payload = .ok key
  nonempty : record.observations ≠ []
  sorted : Cxx.Sorted (fun a b => bytesOrder.less (evidenceForm a) (evidenceForm b))
    record.observations
  valid : ∀ e ∈ record.observations, validateFact ⟨record.payload, e⟩ = .ok ()

theorem RecordOk.payload_valid {key : Bytes} {record : EvidenceRecord} (h : RecordOk key record) :
    validatePayload record.payload = .ok () := by
  obtain ⟨e, he⟩ := List.exists_mem_of_ne_nil _ h.nonempty
  exact (validateFact_eq_ok.1 (h.valid e he)).1

theorem RecordOk.evidence_valid {key : Bytes} {record : EvidenceRecord} (h : RecordOk key record)
    {e : Evidence} (he : e ∈ record.observations) : validateEvidence e = .ok () :=
  (validateFact_eq_ok.1 (h.valid e he)).2.1

/-- A valid payload with the bytes of the key is that of the record. -/
theorem RecordOk.payload_eq {key : Bytes} {record : EvidenceRecord} (h : RecordOk key record)
    {payload : FactPayload} (hvalid : validatePayload payload = .ok ())
    (hkey : encodeNormalizedPayload payload = .ok key) : record.payload = payload :=
  encodeNormalizedPayload_injective h.payload_valid hvalid h.encoded hkey

theorem RecordOk.encodePayload {key : Bytes} {record : EvidenceRecord} (h : RecordOk key record) :
    encodePayload record.payload = .ok key := by
  rw [encodePayload_of_valid h.payload_valid, h.encoded]

def RecordsOk (records : Records) : Prop :=
  ∀ key record, records.find key = some record → RecordOk key record

/-! ## Inserting an observation -/

/-- The observation list after `add`, whether the observation was new or not. -/
def insertObservation (observations : List Evidence) (evidence : Evidence) : List Evidence :=
  let position := Cxx.lowerBound evidenceLess observations evidence
  if position.2.head?.any fun found => evidenceEqual found evidence then observations
  else position.1 ++ evidence :: position.2

section Insert

variable {observations : List Evidence} {evidence : Evidence}
  (hvalid : ∀ e ∈ observations, validateEvidence e = .ok ())
  (hevidence : validateEvidence evidence = .ok ())
  (hsorted : Cxx.Sorted (fun a b => bytesOrder.less (evidenceForm a) (evidenceForm b))
    observations)

include hvalid hevidence

theorem lowerBound_evidence :
    Cxx.lowerBound evidenceLess observations evidence =
      Cxx.lowerBound (fun e w => bytesOrder.less (evidenceForm e) w) observations
        (evidenceForm evidence) :=
  Cxx.lowerBound_congr fun e he => evidenceLess_eq (hvalid e he) hevidence

include hsorted

/-- The observation at the bound is equal to the new one exactly when the list has it. -/
theorem found_iff_mem :
    ((Cxx.lowerBound evidenceLess observations evidence).2.head?.any fun found =>
      evidenceEqual found evidence) = true ↔ evidence ∈ observations := by
  rw [lowerBound_evidence hvalid hevidence, Option.any_eq_true]
  constructor
  · rintro ⟨found, hfound, heq⟩
    have hmem : found ∈ observations := by
      rw [← Cxx.lowerBound_append (fun e w => bytesOrder.less (evidenceForm e) w) observations]
      exact List.mem_append_right _ (List.mem_of_head? hfound)
    rwa [(evidenceEqual_iff (hvalid found hmem) hevidence).1 heq] at hmem
  · intro hmem
    exact ⟨evidence, Cxx.head?_lowerBound hsorted hmem rfl,
      (evidenceEqual_iff hevidence hevidence).2 rfl⟩

theorem mem_insertObservation {e : Evidence} :
    e ∈ insertObservation observations evidence ↔ e = evidence ∨ e ∈ observations := by
  rw [insertObservation]
  split_ifs with h
  · have hmem := (found_iff_mem hvalid hevidence hsorted).1 h
    exact ⟨Or.inr, fun h => h.elim (fun heq => heq ▸ hmem) id⟩
  · have hsplit := Cxx.lowerBound_append evidenceLess observations evidence
    conv_rhs => rw [← hsplit]
    simp only [List.mem_append, List.mem_cons]
    tauto

theorem insertObservation_sorted :
    Cxx.Sorted (fun a b => bytesOrder.less (evidenceForm a) (evidenceForm b))
      (insertObservation observations evidence) := by
  rw [insertObservation]
  split_ifs with h
  · exact hsorted
  · have hnew : evidence ∉ observations := fun hmem =>
      h ((found_iff_mem hvalid hevidence hsorted).2 hmem)
    rw [lowerBound_evidence hvalid hevidence]
    refine Cxx.insert_lowerBound_sorted hsorted fun e he heq => hnew ?_
    rwa [← evidenceForm_injective (hvalid e he) hevidence heq]

end Insert

/-! ## Adding a fact -/

/-- The record after adding a fact under its key. -/
def absorb (fact : AnalysisFact) : Option EvidenceRecord → EvidenceRecord
  | none => ⟨fact.payload, [fact.evidence]⟩
  | some record =>
    { record with observations := insertObservation record.observations fact.evidence }

theorem find_addNormalized (s : EvidenceStore) (key key' : Bytes) (fact : AnalysisFact) :
    (s.addNormalized key fact).1.records.find key' =
      if key = key' then some (absorb fact (s.records.find key)) else s.records.find key' := by
  rw [EvidenceStore.addNormalized]
  rcases hfind : s.records.find key with _ | record
  · exact (Cxx.Map.find_upsert ..).trans (by rw [hfind]; rfl)
  · simp only [absorb, insertObservation]
    split_ifs with hdup heq hkey
    · rw [← heq, hfind]
    · rfl
    · exact (Cxx.Map.find_upsert ..).trans (if_pos hkey)
    · exact (Cxx.Map.find_upsert ..).trans (if_neg hkey)

theorem addNormalized_ne_rejected (s : EvidenceStore) (key : Bytes) (fact : AnalysisFact) :
    (s.addNormalized key fact).2 ≠ .rejectedInvalid := by
  rw [EvidenceStore.addNormalized]
  split
  · simp
  · dsimp only
    split_ifs <;> simp

/-- The form in which `add` takes a fact in, if it does. -/
def admitted (fact : AnalysisFact) : Option AnalysisFact :=
  match normalizeFact fact with
  | .error _ => none
  | .ok normal =>
    match encodePayload normal.payload with
    | .error _ => none
    | .ok _ => some normal

theorem admitted_eq_some {fact normal : AnalysisFact} : admitted fact = some normal ↔
    normalizeFact fact = .ok normal ∧ ∃ key, encodeNormalizedPayload normal.payload = .ok key := by
  rw [admitted]
  rcases hnormal : normalizeFact fact with error | normal'
  · simp
  have hvalid := (validateFact_eq_ok.1 (normalizeFact_eq_ok.1 hnormal).1).1
  simp only [encodePayload_of_valid hvalid]
  rcases hkey : encodeNormalizedPayload normal'.payload with error | key
  · simp only [reduceCtorEq, Except.ok.injEq, false_iff]
    rintro ⟨rfl, key, h⟩
    exact nomatch hkey.symm.trans h
  · simp only [Option.some.injEq, Except.ok.injEq]
    constructor
    · rintro rfl
      exact ⟨rfl, key, hkey⟩
    · exact fun h => h.1

/-- What `add` does: nothing, or the insertion of the normalized fact under its key. -/
theorem add_cases (sha : Bytes → FactDigest) (s : EvidenceStore) (fact : AnalysisFact) :
    (admitted fact = none ∧ (s.add sha fact).1 = s ∧
        (s.add sha fact).2.disposition = .rejectedInvalid) ∨
      ∃ normal key, admitted fact = some normal ∧ validateFact normal = .ok () ∧
        encodeNormalizedPayload normal.payload = .ok key ∧
          (s.add sha fact).1 = (s.addNormalized key normal).1 ∧
            (s.add sha fact).2.disposition = (s.addNormalized key normal).2 := by
  rcases hnormal : normalizeFact fact with error | normal
  · left
    simp only [admitted, EvidenceStore.add, hnormal]
    exact ⟨trivial, trivial, rfl⟩
  have hvalid := (normalizeFact_eq_ok.1 hnormal).1
  have hpayload := encodePayload_of_valid (validateFact_eq_ok.1 hvalid).1
  rcases hkey : encodePayload normal.payload with error | key
  · left
    simp only [admitted, EvidenceStore.add, hnormal, hkey]
    exact ⟨trivial, trivial, rfl⟩
  · refine Or.inr ⟨normal, key, ?_, hvalid, hpayload.symm.trans hkey, ?_, ?_⟩ <;>
      simp only [admitted, EvidenceStore.add, hnormal, hkey]

/-- The record a fact is absorbed into keeps the invariant and the payload of the fact. -/
theorem absorb_ok {key : Bytes} {fact : AnalysisFact} {old : Option EvidenceRecord}
    (hfact : validateFact fact = .ok ()) (hkey : encodeNormalizedPayload fact.payload = .ok key)
    (hold : ∀ record, old = some record → RecordOk key record) :
    RecordOk key (absorb fact old) ∧ (absorb fact old).payload = fact.payload := by
  obtain ⟨hpayload, hevidence, -⟩ := validateFact_eq_ok.1 hfact
  cases old with
  | none =>
    refine ⟨⟨hkey, List.cons_ne_nil _ _, List.pairwise_singleton _ _, fun e he => ?_⟩, rfl⟩
    rwa [List.mem_singleton.1 he]
  | some record =>
    have hrecord := hold record rfl
    have hsame : record.payload = fact.payload := hrecord.payload_eq hpayload hkey
    have hmem {e : Evidence} := mem_insertObservation (e := e)
      (fun _ he => hrecord.evidence_valid he) hevidence hrecord.sorted
    refine ⟨⟨hrecord.encoded, ?_, ?_, fun e he => ?_⟩, hsame⟩
    · exact List.ne_nil_of_mem (hmem.2 (Or.inl rfl))
    · exact insertObservation_sorted (fun _ he => hrecord.evidence_valid he) hevidence
        hrecord.sorted
    · rcases hmem.1 he with rfl | he
      · show validateFact ⟨record.payload, fact.evidence⟩ = .ok ()
        rwa [hsame]
      · exact hrecord.valid e he

theorem recordsOk_addNormalized {s : EvidenceStore} {key : Bytes} {fact : AnalysisFact}
    (hs : RecordsOk s.records) (hfact : validateFact fact = .ok ())
    (hkey : encodeNormalizedPayload fact.payload = .ok key) :
    RecordsOk (s.addNormalized key fact).1.records := by
  intro key' record hfind
  rw [find_addNormalized] at hfind
  split_ifs at hfind with heq
  · obtain rfl := heq
    rw [← Option.some.inj hfind]
    exact (absorb_ok hfact hkey fun record hrecord => hs _ record hrecord).1
  · exact hs key' record hfind

/-! ## The contradiction index -/

/-- The index lists exactly the payloads that `has` says are stored under a key. -/
structure IndexOk (has : Bytes → FactPayload → Prop) (index : ContradictionIndex) : Prop where
  subjects : ∀ grouped key, key ∈ (index.subjects.find grouped).getD [] ↔
    ∃ payload, has key payload ∧ subject payload = some grouped
  regions : ∀ start key, (start, key) ∈ index.regions.entries ↔
    ∃ fact, has key (.codeRegion fact) ∧ fact.start = start
  span : ∀ key fact, has key (.codeRegion fact) →
    fact.endAddr - fact.start ≤ index.maximumRegionSize

theorem IndexOk.congr {has has' : Bytes → FactPayload → Prop} {index : ContradictionIndex}
    (h : IndexOk has index) (hiff : ∀ key payload, has' key payload ↔ has key payload) :
    IndexOk has' index := by
  obtain rfl : has' = has := by
    funext key payload
    exact propext (hiff key payload)
  exact h

theorem indexOk_empty : IndexOk (fun _ _ => False) ContradictionIndex.empty :=
  ⟨fun _ _ => by simp [ContradictionIndex.empty], fun _ _ => by
    simp [ContradictionIndex.empty, Cxx.MultiMap.empty], fun _ _ h => h.elim⟩

section IndexInsert

variable {has : Bytes → FactPayload → Prop} {index : ContradictionIndex} (h : IndexOk has index)
  (key : Bytes)

include h

theorem IndexOk.insert_grouped {payload : FactPayload} {grouped : Subject}
    (hsubject : subject payload = some grouped) :
    IndexOk (fun k p => (k = key ∧ p = payload) ∨ has k p) (index.insert key payload) := by
  have hinsert : index.insert key payload =
      { index with subjects := index.subjects.pushBack grouped key } := by
    simp only [ContradictionIndex.insert, hsubject]
  have hne : ∀ fact, FactPayload.codeRegion fact ≠ payload := by
    rintro fact rfl
    cases hsubject
  rw [hinsert]
  refine ⟨fun g k => ?_, fun start k => ?_, fun k fact hk => ?_⟩
  · rw [Cxx.Map.getD_find_pushBack, List.mem_append, h.subjects]
    constructor
    · rintro (⟨p, hp, hg⟩ | hk)
      · exact ⟨p, Or.inr hp, hg⟩
      · split_ifs at hk with heq
        · exact ⟨payload, Or.inl ⟨List.mem_singleton.1 hk, rfl⟩, hsubject.trans (congrArg _ heq)⟩
        · exact absurd hk List.not_mem_nil
    · rintro ⟨p, ⟨rfl, rfl⟩ | hp, hg⟩
      · rw [if_pos (Option.some.inj (hsubject.symm.trans hg))]
        exact Or.inr (List.mem_singleton.2 rfl)
      · exact Or.inl ⟨p, hp, hg⟩
  · simp [h.regions, hne]
  · exact h.span k fact (hk.resolve_left fun hk => hne fact hk.2)

theorem IndexOk.insert_ungrouped {payload : FactPayload} (hsubject : subject payload = none)
    (grouped : Subject) (k : Bytes) :
    k ∈ (index.subjects.find grouped).getD [] ↔
      ∃ p, ((k = key ∧ p = payload) ∨ has k p) ∧ subject p = some grouped := by
  rw [h.subjects]
  constructor
  · rintro ⟨p, hp, hg⟩
    exact ⟨p, Or.inr hp, hg⟩
  · rintro ⟨p, ⟨-, rfl⟩ | hp, hg⟩
    · rw [hsubject] at hg
      cases hg
    · exact ⟨p, hp, hg⟩

theorem IndexOk.insert_region (region : CodeRegionFact) :
    IndexOk (fun k p => (k = key ∧ p = .codeRegion region) ∨ has k p)
      (index.insert key (.codeRegion region)) := by
  refine ⟨h.insert_ungrouped key rfl, fun start k => ?_, fun k fact hk => ?_⟩
  · refine Cxx.MultiMap.mem_emplace.trans ?_
    rw [h.regions, Prod.mk.injEq]
    constructor
    · rintro (⟨rfl, rfl⟩ | ⟨fact, hfact, rfl⟩)
      · exact ⟨region, Or.inl ⟨rfl, rfl⟩, rfl⟩
      · exact ⟨fact, Or.inr hfact, rfl⟩
    · rintro ⟨fact, ⟨rfl, hfact⟩ | hfact, rfl⟩
      · obtain rfl := FactPayload.codeRegion.inj hfact
        exact Or.inl ⟨rfl, rfl⟩
      · exact Or.inr ⟨fact, hfact, rfl⟩
  · rcases hk with ⟨-, hfact⟩ | hk
    · obtain rfl := FactPayload.codeRegion.inj hfact
      exact UInt64.le_iff_toNat_le.2 (toNat_max_u64 .. ▸ le_max_right _ _)
    · refine UInt64.le_trans (h.span k fact hk) ?_
      exact UInt64.le_iff_toNat_le.2 (toNat_max_u64 .. ▸ le_max_left _ _)

theorem IndexOk.insert (payload : FactPayload) :
    IndexOk (fun k p => (k = key ∧ p = payload) ∨ has k p) (index.insert key payload) := by
  rcases hsubject : subject payload with _ | grouped
  · by_cases hregion : ∃ region, payload = .codeRegion region
    · obtain ⟨region, rfl⟩ := hregion
      exact h.insert_region key region
    · have hne : ∀ region, FactPayload.codeRegion region ≠ payload :=
        fun region heq => hregion ⟨region, heq.symm⟩
      have hinsert : index.insert key payload = index := by
        cases payload <;> simp_all [ContradictionIndex.insert]
      rw [hinsert]
      exact ⟨h.insert_ungrouped key hsubject, fun start k => by simp [h.regions, hne],
        fun k fact hk => h.span k fact (hk.resolve_left fun hk => hne fact hk.2)⟩
  · exact h.insert_grouped key hsubject

end IndexInsert

/-- The payload a store holds under a key. -/
def EvidenceStore.Has (s : EvidenceStore) (key : Bytes) (payload : FactPayload) : Prop :=
  ∃ record, s.records.find key = some record ∧ record.payload = payload

theorem indexOk_foldl : ∀ (l : List (Bytes × EvidenceRecord)) {has : Bytes → FactPayload → Prop}
    {index : ContradictionIndex}, IndexOk has index →
      IndexOk (fun k p => (∃ entry ∈ l, entry.1 = k ∧ entry.2.payload = p) ∨ has k p)
        (l.foldl (fun index entry => index.insert entry.1 entry.2.payload) index)
  | [], _, _, h => h.congr fun _ _ => by simp
  | entry :: l, _, _, h => by
    refine (indexOk_foldl l (h.insert entry.1 entry.2.payload)).congr fun k p => ?_
    simp only [List.exists_mem_cons_iff]
    grind

theorem indexOk_build (s : EvidenceStore) :
    IndexOk s.Has (ContradictionIndex.build s.records) := by
  refine (indexOk_foldl s.records.entries indexOk_empty).congr fun key payload => ?_
  simp only [or_false, EvidenceStore.Has, ← Cxx.Map.mem_entries_iff]
  constructor
  · rintro ⟨record, hmem, hp⟩
    exact ⟨(key, record), hmem, rfl, hp⟩
  · rintro ⟨⟨k, record⟩, hmem, rfl, hp⟩
    exact ⟨record, hmem, hp⟩

/-! ## Stores -/

structure StoreOk (s : EvidenceStore) : Prop where
  records : RecordsOk s.records
  index : ∀ index, s.contradictionIndex = some index → IndexOk s.Has index

theorem storeOk_empty : StoreOk EvidenceStore.empty :=
  ⟨fun _ _ h => (nomatch h), fun _ h => nomatch h⟩

theorem StoreOk.copy {s : EvidenceStore} (h : StoreOk s) : StoreOk s.copy :=
  ⟨h.records, fun _ h => nomatch h⟩

theorem has_addNormalized {s : EvidenceStore} {key : Bytes} {fact : AnalysisFact}
    (hs : RecordsOk s.records) (hfact : validateFact fact = .ok ())
    (hkey : encodeNormalizedPayload fact.payload = .ok key) (key' : Bytes)
    (payload : FactPayload) :
    (s.addNormalized key fact).1.Has key' payload ↔
      (key' = key ∧ payload = fact.payload) ∨ s.Has key' payload := by
  have habsorb := absorb_ok hfact hkey fun record hrecord => hs key record hrecord
  have hsame : ∀ p, s.Has key p → p = fact.payload := by
    rintro p ⟨record, hrecord, rfl⟩
    exact (hs key record hrecord).payload_eq (validateFact_eq_ok.1 hfact).1 hkey
  simp only [EvidenceStore.Has, find_addNormalized]
  by_cases heq : key = key'
  · obtain rfl := heq
    simp only [if_true, Option.some.injEq, exists_eq_left', habsorb.2, true_and]
    constructor
    · rintro rfl
      exact Or.inl rfl
    · rintro (rfl | hp)
      · rfl
      · exact (hsame payload hp).symm
  · simp [heq, Ne.symm heq]

theorem StoreOk.addNormalized {s : EvidenceStore} {key : Bytes} {fact : AnalysisFact}
    (hs : StoreOk s) (hfact : validateFact fact = .ok ())
    (hkey : encodeNormalizedPayload fact.payload = .ok key) :
    StoreOk (s.addNormalized key fact).1 := by
  refine ⟨recordsOk_addNormalized hs.records hfact hkey, fun index hindex => ?_⟩
  have hhas := has_addNormalized hs.records hfact hkey
  rcases hfind : s.records.find key with _ | record
  · -- a new record also goes into the index
    simp only [EvidenceStore.addNormalized, hfind, Option.map_eq_some_iff] at hindex
    obtain ⟨old, hold, rfl⟩ := hindex
    exact ((hs.index old hold).insert key fact.payload).congr hhas
  · have hsame : s.Has key fact.payload := by
      have hok := hs.records key record hfind
      exact ⟨record, hfind, hok.payload_eq (validateFact_eq_ok.1 hfact).1 hkey⟩
    have hold : s.contradictionIndex = some index := by
      simp only [EvidenceStore.addNormalized, hfind] at hindex
      split_ifs at hindex <;> exact hindex
    refine (hs.index index hold).congr fun key' payload => ?_
    rw [hhas]
    refine or_iff_right_of_imp ?_
    rintro ⟨rfl, rfl⟩
    exact hsame

variable {sha : Bytes → FactDigest}

theorem StoreOk.add {s : EvidenceStore} (hs : StoreOk s) (fact : AnalysisFact) :
    StoreOk (s.add sha fact).1 := by
  obtain ⟨-, h, -⟩ | ⟨normal, key, -, hvalid, hkey, h, -⟩ := add_cases sha s fact
  · rwa [h]
  · rw [h]
    exact hs.addNormalized hvalid hkey

/-- The store with its index, built now if it was absent. -/
def EvidenceStore.indexed (s : EvidenceStore) : EvidenceStore :=
  ⟨s.records, some (s.contradictionIndex.getD (ContradictionIndex.build s.records))⟩

theorem StoreOk.indexed {s : EvidenceStore} (hs : StoreOk s) : StoreOk s.indexed := by
  refine ⟨hs.records, fun index hindex => ?_⟩
  obtain rfl := Option.some.inj hindex
  rcases hold : s.contradictionIndex with _ | old
  · exact indexOk_build s
  · exact hs.index old hold

theorem StoreOk.latestGenerationView {s : EvidenceStore} (hs : StoreOk s) :
    StoreOk s.latestGenerationView := by
  refine ⟨fun key active hfind => ?_, fun _ h => nomatch h⟩
  rw [find_latestGenerationView, Option.bind_eq_some_iff] at hfind
  obtain ⟨record, hfind, hactive⟩ := hfind
  obtain ⟨hne, rfl⟩ := activeRecord_eq_some.1 hactive
  have hok := hs.records key record hfind
  exact ⟨hok.encoded, hne, hok.sorted.sublist List.filter_sublist,
    fun e he => hok.valid e (List.mem_of_mem_filter he)⟩

theorem newContradiction_store (s : EvidenceStore) (payload : FactPayload) (generation : UInt64) :
    (s.newContradiction sha payload generation).2.2 = s ∨
      (s.newContradiction sha payload generation).2.2 = s.indexed := by
  rw [EvidenceStore.newContradiction]
  split_ifs
  · exact Or.inl rfl
  · rcases encodePayload payload with error | key
    · exact Or.inl rfl
    · simp only
      split_ifs
      · exact Or.inl rfl
      · exact Or.inr rfl

/-! ## Histories -/

section Histories

variable {P : EvidenceStore → Prop} (hadd : ∀ s fact, P s → P (s.add sha fact).1)

include hadd

theorem addAll_invariant : ∀ (facts : List AnalysisFact) (s : EvidenceStore)
    (report : MergeReport), P s → P (facts.foldl (fun state fact =>
      let (s', result) := EvidenceStore.add sha state.1 fact
      (s', MergeReport.count state.2 result)) (s, report)).1
  | [], _, _, h => h
  | fact :: facts, s, _, h => addAll_invariant facts _ _ (hadd s fact h)

theorem merge_invariant {s other : EvidenceStore} {countConflicts : Bool} (h : P s) :
    P (s.merge sha other countConflicts).1 := addAll_invariant hadd _ s {} h

theorem readFacts_invariant {limits : StoreCodecLimits} : ∀ {n : ℕ} {previous : Option AnalysisFact}
    {decoded : EvidenceStore} {input : Bytes} {result : EvidenceStore × Bytes}, P decoded →
      (EvidenceStore.readFacts sha limits n previous decoded).run input = .ok result → P result.1
  | 0, _, _, _, _, h, hrun => by
    obtain rfl := Except.ok.inj hrun
    exact h
  | n + 1, previous, decoded, input, result, h, hrun => by
    rw [EvidenceStore.readFacts, Reader.run_bind_eq_ok] at hrun
    obtain ⟨fact, _, -, hrun⟩ := hrun
    obtain ⟨_, _, -, hrun⟩ := Reader.run_bind_eq_ok.1 hrun
    obtain ⟨_, _, -, hrun⟩ := Reader.run_bind_eq_ok.1 hrun
    exact readFacts_invariant (hadd decoded fact h) hrun

theorem deserialize_invariant (hempty : P EvidenceStore.empty) {limits : StoreCodecLimits}
    {blob : Bytes} {s : EvidenceStore} (h : EvidenceStore.deserialize sha limits blob = .ok s) :
    P s := by
  rw [EvidenceStore.deserialize, require_bind_eq_ok, require_bind_eq_ok] at h
  obtain ⟨-, h⟩ := require_bind_eq_ok.1 h.2.2
  obtain ⟨⟨decoded, rest⟩, hrun, h⟩ := bind_eq_ok.1 h
  obtain ⟨-, h⟩ := require_bind_eq_ok.1 h
  obtain ⟨_, -, h⟩ := bind_eq_ok.1 h
  obtain rfl := pure_eq_ok.1 (require_bind_eq_ok.1 h).2
  obtain ⟨count, _, -, hrun⟩ := Reader.run_bind_eq_ok.1 hrun
  exact readFacts_invariant hadd hempty hrun

/-- **Induction over histories.** -/
theorem EvidenceStore.Reachable.invariant (hempty : P EvidenceStore.empty)
    (hcopy : ∀ s, P s → P s.copy) (hview : ∀ s, P s → P s.latestGenerationView)
    (hindexed : ∀ s, P s → P s.indexed) {s : EvidenceStore}
    (hs : EvidenceStore.Reachable sha s) : P s := by
  induction hs with
  | empty => exact hempty
  | add fact _ ih => exact hadd _ fact ih
  | merge _ _ _ ih _ => exact merge_invariant hadd ih
  | clear _ _ => exact hempty
  | copy _ ih => exact hcopy _ ih
  | latestGenerationView _ ih => exact hview _ ih
  | query payload generation _ ih =>
    rcases newContradiction_store _ payload generation with h | h
    · rwa [h]
    · rw [h]
      exact hindexed _ ih
  | deserialize h => exact deserialize_invariant hadd hempty h
  | restore answer mode withReport limits _ ih =>
    rcases answer with error | blob
    · exact ih
    · rcases hdecode : EvidenceStore.deserialize sha limits blob with error | decoded
      · simpa only [EvidenceStore.restore, hdecode] using ih
      · cases mode
        · simpa only [EvidenceStore.restore, hdecode] using
            deserialize_invariant hadd hempty hdecode
        · simpa only [EvidenceStore.restore, hdecode] using merge_invariant hadd ih

end Histories

/-- **Representation.** Every reachable store keeps its records and its index in order. -/
theorem EvidenceStore.Reachable.ok {s : EvidenceStore} (hs : EvidenceStore.Reachable sha s) :
    StoreOk s :=
  Reachable.invariant (fun _ fact h => h.add fact) storeOk_empty (fun _ h => h.copy)
    (fun _ h => h.latestGenerationView) (fun _ h => h.indexed) hs

end Viy.Analysis
