import Viy.Store.Ledger

/-!
# The envelope of a store

`serialize` writes the facts in ledger order and `deserialize` demands that order. The main result
is the exact round trip: a reachable store comes back from its envelope when the envelope exists and
the limits admit it, and accepted bytes are the envelope of the store they decode to.
-/

namespace Viy.Analysis

open Wire

/-! ## Ledger order -/

theorem analysisFactLess_irrefl (fact : AnalysisFact) : analysisFactLess fact fact = false := by
  have hpayload : payloadLess fact.payload fact.payload = false := bytesOrder.irrefl _
  have hevidence : evidenceLess fact.evidence fact.evidence = false := bytesOrder.irrefl _
  simp [analysisFactLess, hpayload, hevidence]

/-- The facts of a store come in the order the reader demands. -/
theorem flattenedFacts_pairwise {s : EvidenceStore} (hs : RecordsOk s.records) :
    s.flattenedFacts.Pairwise fun f g => analysisFactLess f g = true := by
  rw [EvidenceStore.flattenedFacts, List.pairwise_flatMap]
  constructor
  · -- within a record the evidence decides
    rintro ⟨key, record⟩ hentry
    have hok := hs key record (Cxx.Map.mem_entries_iff.1 hentry)
    refine List.pairwise_map.2 (hok.sorted.imp_of_mem fun {e e'} he he' hless => ?_)
    have hirrefl : payloadLess record.payload record.payload = false := bytesOrder.irrefl _
    rw [analysisFactLess, hirrefl, evidenceLess_eq (hok.evidence_valid he) (hok.evidence_valid he')]
    exact hless
  · -- between records the key decides
    refine s.records.sorted.imp_of_mem fun {a b} ha hb hless => ?_
    have hoka := hs a.1 a.2 (Cxx.Map.mem_entries_iff.1 ha)
    have hokb := hs b.1 b.2 (Cxx.Map.mem_entries_iff.1 hb)
    have hpayload : payloadLess a.2.payload b.2.payload = true := by
      rw [payloadLess, hoka.encodePayload, hokb.encodePayload]
      exact hless
    simp only [List.mem_map]
    rintro f ⟨e, -, rfl⟩ g ⟨e', -, rfl⟩
    rw [analysisFactLess, if_pos hpayload]

theorem nodup_flattenedFacts {s : EvidenceStore} (hs : RecordsOk s.records) :
    s.flattenedFacts.Nodup :=
  (flattenedFacts_pairwise hs).imp fun {f g} hless heq => by
    subst heq
    exact Cxx.clash (analysisFactLess_irrefl f) hless

theorem StoreOk.normalized_of_mem {s : EvidenceStore} (hs : StoreOk s) {fact : AnalysisFact}
    (h : fact ∈ s.flattenedFacts) : normalizeFact fact = .ok fact :=
  (admitted_eq_some.1 (hs.admitted_of_mem (mem_flattenedFacts.1 h))).1

/-! ## Writing -/

/-- The bytes of a fact that has an encoding. -/
def factBytes (fact : AnalysisFact) : Bytes :=
  match encodeAnalysisFact fact with
  | .ok b => b
  | .error _ => []

/-- A fact fits its frame in an envelope. -/
def FrameFits (fact : AnalysisFact) : Prop := FactFits fact ∧ factSize fact ≤ u32Max

theorem encodeAnalysisFact_of_fits {fact : AnalysisFact} (h : normalizeFact fact = .ok fact)
    (hfits : FactFits fact) :
    encodeAnalysisFact fact = .ok (factBytes fact) ∧ (factBytes fact).length = factSize fact := by
  obtain ⟨b, hb⟩ := (encodeAnalysisFact_isOk_iff h).2 hfits
  have hbytes : factBytes fact = b := by simp only [factBytes, hb]
  refine ⟨hbytes ▸ hb, ?_⟩
  obtain ⟨normal, p, hnormal, hp, -, rfl⟩ := encodeAnalysisFact_eq_ok.1 hb
  obtain rfl : fact = normal := Except.ok.inj (h.symm.trans hnormal)
  rw [hbytes, length_factForm, length_payload hp, length_evidenceForm, factSize]

/-- The frames of a list of facts. -/
def frames (facts : List AnalysisFact) : Bytes := facts.flatMap fun fact => sized (factBytes fact)

theorem encodeFacts_eq_ok : ∀ {facts : List AnalysisFact} {body : Bytes},
    (∀ fact ∈ facts, normalizeFact fact = .ok fact) →
      (EvidenceStore.encodeFacts facts = .ok body ↔
        (∀ fact ∈ facts, FrameFits fact) ∧ frames facts = body)
  | [], body, _ => by simp [EvidenceStore.encodeFacts, frames]
  | fact :: facts, body, h => by
    have hfact := h fact List.mem_cons_self
    have ih := fun body => @encodeFacts_eq_ok facts body fun g hg =>
      h g (List.mem_cons_of_mem _ hg)
    simp only [EvidenceStore.encodeFacts, bind_eq_ok, pure_eq_ok, ih, List.forall_mem_cons]
    constructor
    · rintro ⟨b, hb, ⟨⟩, hsize, _, ⟨hfits, rfl⟩, rfl⟩
      have hfact' := (encodeAnalysisFact_isOk_iff hfact).1 ⟨b, hb⟩
      obtain ⟨hbytes, hlength⟩ := encodeAnalysisFact_of_fits hfact hfact'
      obtain rfl : b = factBytes fact := Except.ok.inj (hb.symm.trans hbytes)
      exact ⟨⟨⟨hfact', hlength ▸ require_eq_ok.1 hsize⟩, hfits⟩, rfl⟩
    · rintro ⟨⟨⟨hfact', hsize⟩, hfits⟩, rfl⟩
      obtain ⟨hbytes, hlength⟩ := encodeAnalysisFact_of_fits hfact hfact'
      exact ⟨_, hbytes, (), require_eq_ok.2 (hlength ▸ hsize), _, ⟨hfits, rfl⟩, rfl⟩

/-- The envelope without its digest. -/
def envelope (facts : List AnalysisFact) : Bytes :=
  kStoreMagic ++ u16 kStoreMajor ++ u16 kStoreMinor ++ u32 kStoreFlagSha256 ++
    u64 (UInt64.ofNat facts.length) ++ frames facts

/-- Every length of the envelope fits its field. -/
structure EvidenceStore.Fits (s : EvidenceStore) : Prop where
  count : s.flattenedFacts.length ≤ u64Max
  frames : ∀ fact ∈ s.flattenedFacts, FrameFits fact

theorem serialize_eq_ok {sha : Bytes → FactDigest} {s : EvidenceStore} (hs : StoreOk s)
    {blob : Bytes} :
    s.serialize sha = .ok blob ↔
      s.Fits ∧ envelope s.flattenedFacts ++ (sha (envelope s.flattenedFacts)).bytes = blob := by
  simp only [EvidenceStore.serialize, bind_eq_ok, pure_eq_ok,
    encodeFacts_eq_ok fun f hf => hs.normalized_of_mem hf]
  constructor
  · rintro ⟨⟨⟩, hcount, _, ⟨hframes, rfl⟩, rfl⟩
    exact ⟨⟨require_eq_ok.1 hcount, hframes⟩, rfl⟩
  · rintro ⟨⟨hcount, hframes⟩, rfl⟩
    exact ⟨(), require_eq_ok.2 hcount, _, ⟨hframes, rfl⟩, rfl⟩

/-! ## Reading -/

/-- One frame. -/
theorem reads_frame (limits : StoreCodecLimits) {fact : AnalysisFact}
    (h : normalizeFact fact = .ok fact) (hfits : FrameFits fact) :
    Reads (StoreReader.fact limits) (sized (factBytes fact)) fact
      (limits.factLimits.Admits fact) := by
  obtain ⟨hencode, hlength⟩ := encodeAnalysisFact_of_fits h hfits.1
  have hcount : (UInt32.ofNat (factBytes fact).length).toNat = (factBytes fact).length :=
    toNat_ofNat_u32 (hlength ▸ hfits.2)
  have hdecode : Reads (Reader.lift ((decodeAnalysisFact limits.factLimits
      (factBytes fact)).mapError fun error => text "invalid fact in evidence store: " ++ error))
        [] fact (limits.factLimits.Admits fact) := by
    refine Reads.lift_iff (fun hadmits => ?_) fun hadmits => ?_
    · rw [decode_of_admits h hencode hadmits]
      rfl
    · obtain ⟨e, he⟩ := decode_error_of_not_admits h hencode hadmits
      exact ⟨_, by rw [he]; rfl⟩
  have hguard := Reads.guard ((factBytes fact).length ≤ limits.factLimits.maxFactBytes)
    (text "encoded fact exceeds configured decode limit")
  have hraw := Reads.raw (text "truncated length-delimited fact in evidence store")
    (factBytes fact)
  have hreads := (Reads.u32 StoreReader.truncated (UInt32.ofNat (factBytes fact).length)).andThen
    (f := fun factSize => do
      Reader.guard (factSize.toNat ≤ limits.factLimits.maxFactBytes) _
      let factBytes ← Reader.raw _ factSize.toNat
      Reader.lift ((decodeAnalysisFact limits.factLimits factBytes).mapError _))
    (by rw [hcount]; exact hguard.check (hraw.andThen hdecode))
  rw [List.append_nil] at hreads
  refine hreads.congr ?_
  rw [decide_eq_true_eq, hlength]
  exact ⟨fun h => h.2, fun hadmits => ⟨hadmits.bytes, hadmits⟩⟩

section Facts

variable (sha : Bytes → FactDigest)

/-- A new fact is neither a duplicate nor rejected. -/
theorem add_disposition_of_new {s : EvidenceStore} (hs : StoreOk s) {fact : AnalysisFact}
    (hadmitted : admitted fact = some fact) (hnew : fact ∉ s.facts) :
    ((s.add sha fact).2.disposition != .duplicateObservation &&
      (s.add sha fact).2.disposition != .rejectedInvalid) = true := by
  obtain ⟨hnone, -⟩ | ⟨normal, key, hsome, hvalid, hkey, -, hdisposition⟩ := add_cases sha s fact
  · exact nomatch hnone.symm.trans hadmitted
  obtain rfl : fact = normal := Option.some.inj (hadmitted.symm.trans hsome)
  have hduplicate : (s.addNormalized key fact).2 ≠ .duplicateObservation := by
    rw [EvidenceStore.addNormalized]
    rcases hfind : s.records.find key with _ | record
    · simp
    · have hok := hs.records key record hfind
      have hfound := found_iff_mem (fun _ he => hok.evidence_valid he)
        (validateFact_eq_ok.1 hvalid).2.1 hok.sorted
      have hpayload := hok.payload_eq (validateFact_eq_ok.1 hvalid).1 hkey
      have hnot : ¬ _ = true := fun h => hnew ⟨key, record, hfind, hpayload, hfound.1 h⟩
      simp only [if_neg hnot]
      simp
  have hrejected := addNormalized_ne_rejected s key fact
  simp [hdisposition, hduplicate, hrejected]

/-- The loop of the reader adds the facts it reads. -/
theorem reads_facts (limits : StoreCodecLimits) : ∀ (facts : List AnalysisFact)
    (previous : Option AnalysisFact) (decoded : EvidenceStore), StoreOk decoded →
      (previous.toList ++ facts).Pairwise (fun f g => analysisFactLess f g = true) →
      facts.Nodup → (∀ fact ∈ facts, admitted fact = some fact ∧ FrameFits fact) →
      (∀ fact ∈ facts, fact ∉ decoded.facts) →
        Reads (EvidenceStore.readFacts sha limits facts.length previous decoded) (frames facts)
          (addFacts sha decoded facts) (∀ fact ∈ facts, limits.factLimits.Admits fact)
  | [], _, decoded, _, _, _, _, _ => (Reads.pure decoded).congr (by simp)
  | fact :: facts, previous, decoded, hok, hsorted, hnodup, hfits, hnew => by
    have hfact := hfits fact List.mem_cons_self
    have hnormal := (admitted_eq_some.1 hfact.1).1
    have hprevious : (previous.all fun previous => analysisFactLess previous fact) = true := by
      rw [Option.all_eq_true]
      intro f hf
      exact (List.pairwise_append.1 hsorted).2.2 f (by simp [hf]) fact List.mem_cons_self
    have hnew' : ∀ g ∈ facts, g ∉ (decoded.add sha fact).1.facts := by
      intro g hg hmem
      rcases (mem_facts_add hok.records).1 hmem with hadmitted | hmem
      · obtain rfl := Option.some.inj (hfact.1.symm.trans hadmitted)
        exact (List.nodup_cons.1 hnodup).1 hg
      · exact hnew g (List.mem_cons_of_mem _ hg) hmem
    have hrest := reads_facts limits facts (some fact) (decoded.add sha fact).1 (hok.add fact)
      (List.pairwise_append.1 hsorted).2.1 (List.nodup_cons.1 hnodup).2
      (fun g hg => hfits g (List.mem_cons_of_mem _ hg)) hnew'
    have hdisposition := add_disposition_of_new sha hok hfact.1 (hnew fact List.mem_cons_self)
    have hreads := (reads_frame limits hnormal hfact.2).bind (f := fun fact => do
        Reader.guard (previous.all fun previous => analysisFactLess previous fact) _
        Reader.guard ((decoded.add sha fact).2.disposition != .duplicateObservation &&
          (decoded.add sha fact).2.disposition != .rejectedInvalid) _
        EvidenceStore.readFacts sha limits facts.length (some fact) (decoded.add sha fact).1)
      ((Reads.guard _ (text "evidence-store observations are duplicated or non-canonical")).check
        ((Reads.guard _ (text "evidence-store contains a duplicate or rejected observation")).check
          hrest))
    refine hreads.congr ?_
    rw [List.forall_mem_cons]
    simp [hprevious, hdisposition]

/-- Facts added to a store without an index leave it without one. -/
theorem addFacts_contradictionIndex : ∀ (facts : List AnalysisFact) {s : EvidenceStore},
    s.contradictionIndex = none → (addFacts sha s facts).contradictionIndex = none
  | [], _, hs => hs
  | fact :: facts, s, hs => by
    refine addFacts_contradictionIndex facts ?_
    show (s.add sha fact).1.contradictionIndex = none
    obtain ⟨-, h, -⟩ | ⟨normal, key, -, -, -, h, -⟩ := add_cases sha s fact
    · rwa [h]
    · rw [h, EvidenceStore.addNormalized]
      split
      · simp [hs]
      · dsimp only
        split_ifs <;> exact hs

/-- Adding all facts of a store to an empty one rebuilds it. -/
theorem addFacts_flattenedFacts {s : EvidenceStore} (hs : StoreOk s) :
    addFacts sha EvidenceStore.empty s.flattenedFacts = s.copy := by
  have hok : StoreOk (addFacts sha EvidenceStore.empty s.flattenedFacts) :=
    storeOk_empty.addFacts _
  have hfacts : (addFacts sha EvidenceStore.empty s.flattenedFacts).facts = s.facts := by
    ext g
    rw [mem_facts_addFacts _ storeOk_empty, facts_empty]
    simp only [mem_flattenedFacts, Set.mem_empty_iff_false, or_false]
    constructor
    · rintro ⟨f, hf, hg⟩
      rw [hs.admitted_of_mem hf] at hg
      exact Option.some.inj hg ▸ hf
    · exact fun hg => ⟨g, hg, hs.admitted_of_mem hg⟩
  have hrecords := records_eq_of_facts hok.records hs.records hfacts
  have hindex := addFacts_contradictionIndex sha s.flattenedFacts
    (s := EvidenceStore.empty) rfl
  rw [EvidenceStore.copy, ← hrecords, ← hindex]

omit sha in
theorem reads_header (limits : StoreCodecLimits) {n : ℕ} (hn : n ≤ u64Max) :
    Reads (StoreReader.header limits)
      (kStoreMagic ++ (u16 kStoreMajor ++ (u16 kStoreMinor ++ (u32 kStoreFlagSha256 ++
        u64 (UInt64.ofNat n))))) n (n ≤ limits.maxObservations) := by
  have hcount : (UInt64.ofNat n).toNat = n := UInt64.toNat_ofNat_of_lt' (by
    unfold u64Max at hn
    show n < 18446744073709551616
    omega)
  have hmagic : Reads StoreReader.magic kStoreMagic () True := by
    have h := (Reads.raw StoreReader.truncated kStoreMagic).andThen
      (f := fun actual => Reader.guard (actual == kStoreMagic) _)
      (Reads.guard (kStoreMagic == kStoreMagic)
        (text "evidence-store envelope has the wrong magic"))
    rw [List.append_nil] at h
    exact h.congr (by simp)
  have hguards : Reads (do
      Reader.guard (kStoreMajor == kStoreMajor && kStoreMinor == kStoreMinor)
        (text "unsupported evidence-store schema version")
      Reader.guard (kStoreFlagSha256 == kStoreFlagSha256)
        (text "unsupported evidence-store feature flags")
      Reader.guard ((UInt64.ofNat n).toNat ≤ limits.maxObservations)
        (text "evidence-store observation count exceeds configured limit")
      return (UInt64.ofNat n).toNat) [] n (n ≤ limits.maxObservations) := by
    rw [hcount]
    exact ((Reads.guard _ _).check ((Reads.guard _ _).check ((Reads.guard _ _).check
      (Reads.pure n)))).congr (by simp)
  rw [← List.append_nil (u64 (UInt64.ofNat n)), StoreReader.header]
  exact hmagic.andThen ((Reads.u16 _ kStoreMajor).andThen ((Reads.u16 _ kStoreMinor).andThen
    ((Reads.u32 _ kStoreFlagSha256).andThen ((Reads.u64 _ (UInt64.ofNat n)).andThen hguards))))

/-- The envelope of a store is read back as the store. -/
theorem reads_envelope (limits : StoreCodecLimits) {s : EvidenceStore} (hs : StoreOk s)
    (hfits : s.Fits) :
    Reads (EvidenceStore.envelopeReader sha limits) (envelope s.flattenedFacts) s.copy
      (s.flattenedFacts.length ≤ limits.maxObservations ∧
        ∀ fact ∈ s.flattenedFacts, limits.factLimits.Admits fact) := by
  have hfacts := reads_facts sha limits s.flattenedFacts none EvidenceStore.empty storeOk_empty
    (flattenedFacts_pairwise hs.records) (nodup_flattenedFacts hs.records)
    (fun f hf => ⟨hs.admitted_of_mem (mem_flattenedFacts.1 hf), hfits.frames f hf⟩)
    (fun f _ hf => by rwa [facts_empty] at hf)
  rw [addFacts_flattenedFacts sha hs] at hfacts
  have h := (reads_header limits hfits.count).bind
    (f := fun count => EvidenceStore.readFacts sha limits count none EvidenceStore.empty) hfacts
  rw [envelope, EvidenceStore.envelopeReader]
  simpa only [List.append_assoc] using h

end Facts

/-! ## Round trip -/

/-- The number of bytes of an envelope with its digest. -/
def storeSize (s : EvidenceStore) : ℕ :=
  56 + (s.flattenedFacts.map fun fact => 4 + factSize fact).sum

/-- The configured limits are not exceeded by the envelope of a store. -/
structure StoreCodecLimits.Admits (limits : StoreCodecLimits) (s : EvidenceStore) : Prop where
  blob : storeSize s ≤ limits.maxBlobBytes
  observations : s.flattenedFacts.length ≤ limits.maxObservations
  facts : ∀ fact ∈ s.flattenedFacts, limits.factLimits.Admits fact

/-- Limits below the width of the length fields leave nothing else to check. -/
theorem StoreCodecLimits.Admits.fits {limits : StoreCodecLimits} {s : EvidenceStore}
    (h : limits.Admits s) (hcount : limits.maxObservations ≤ u64Max)
    (hbytes : limits.factLimits.maxFactBytes ≤ u32Max) : s.Fits := by
  refine ⟨h.observations.trans hcount, fun fact hfact => ?_⟩
  exact ⟨(h.facts fact hfact).fits hbytes, (h.facts fact hfact).bytes.trans hbytes⟩

theorem length_frames : ∀ {facts : List AnalysisFact},
    (∀ fact ∈ facts, normalizeFact fact = .ok fact ∧ FrameFits fact) →
      (frames facts).length = (facts.map fun fact => 4 + factSize fact).sum
  | [], _ => rfl
  | fact :: facts, h => by
    have hfact := h fact List.mem_cons_self
    have ih := length_frames fun g hg => h g (List.mem_cons_of_mem _ hg)
    have hlength := (encodeAnalysisFact_of_fits hfact.1 hfact.2.1).2
    unfold frames at ih ⊢
    rw [List.flatMap_cons, List.length_append, ih, length_sized, hlength, List.map_cons,
      List.sum_cons]

section RoundTrip

variable {sha : Bytes → FactDigest} {limits : StoreCodecLimits} {s : EvidenceStore} {blob : Bytes}

theorem length_envelope (hs : StoreOk s) (hfits : s.Fits) :
    (envelope s.flattenedFacts).length + 32 = storeSize s := by
  have hmagic : kStoreMagic.length = 8 := rfl
  have hframes := length_frames fun f hf => ⟨hs.normalized_of_mem hf, hfits.frames f hf⟩
  simp only [envelope, List.length_append, hmagic, length_u16, length_u32, length_u64, hframes,
    storeSize]
  omega

/-- A serialization is the envelope and its digest. -/
theorem split_serialize (hs : StoreOk s) (hblob : s.serialize sha = .ok blob) :
    blob.length = storeSize s ∧
      blob.take (blob.length - kDigestSize) = envelope s.flattenedFacts ∧
        blob.drop (blob.length - kDigestSize) = (sha (envelope s.flattenedFacts)).bytes := by
  obtain ⟨hfits, heq⟩ := (serialize_eq_ok hs).1 hblob
  have hsize := length_envelope hs hfits
  have hdigest : (sha (envelope s.flattenedFacts)).bytes.length = 32 :=
    (sha (envelope s.flattenedFacts)).size
  have hlength : blob.length = storeSize s := by
    rw [← heq, List.length_append, hdigest, hsize]
  refine ⟨hlength, ?_, ?_⟩ <;> rw [hlength, ← hsize, ← heq]
  · exact List.take_left' (by simp [kDigestSize])
  · exact List.drop_left' (by simp [kDigestSize])

/-- A serialization that decodes is within the limits. -/
theorem admits_of_deserialize (hs : StoreOk s) (hblob : s.serialize sha = .ok blob)
    {t : EvidenceStore} (h : EvidenceStore.deserialize sha limits blob = .ok t) :
    limits.Admits s := by
  obtain ⟨hlength, htake, hdrop⟩ := split_serialize hs hblob
  rw [EvidenceStore.deserialize, require_bind_eq_ok, require_bind_eq_ok, htake, hdrop,
    require_bind_eq_ok] at h
  obtain ⟨hmax, -, -, h⟩ := h
  obtain ⟨x, hrun, -⟩ := bind_eq_ok.1 h
  have hreads := reads_envelope sha limits hs ((serialize_eq_ok hs).1 hblob).1
  obtain ⟨hcount, hfacts⟩ := hreads.of_run_ok hrun
  exact ⟨hlength ▸ hmax, hcount, hfacts⟩

/-- The envelope of a store is accepted exactly within the limits. -/
theorem deserialize_serialize_iff (hs : StoreOk s) (hblob : s.serialize sha = .ok blob) :
    EvidenceStore.deserialize sha limits blob = .ok s.copy ↔ limits.Admits s := by
  refine ⟨admits_of_deserialize hs hblob, fun h => ?_⟩
  obtain ⟨hlength, htake, hdrop⟩ := split_serialize hs hblob
  have hreads := reads_envelope sha limits hs ((serialize_eq_ok hs).1 hblob).1
  have hcopy : s.copy.serialize sha = .ok blob := (serialize_eq_of_records rfl).trans hblob
  rw [EvidenceStore.deserialize, require_bind_eq_ok, require_bind_eq_ok, htake, hdrop,
    require_bind_eq_ok]
  refine ⟨hlength ▸ h.blob, by rw [hlength, storeSize]; omega, rfl, ?_⟩
  refine bind_eq_ok.2 ⟨_, hreads.run_ok ⟨h.observations, h.facts⟩, ?_⟩
  refine require_bind_eq_ok.2 ⟨rfl, bind_eq_ok.2 ⟨blob, ?_, require_bind_eq_ok.2 ⟨rfl, rfl⟩⟩⟩
  rw [hcopy]
  rfl

/-- Accepted bytes are the envelope of the decoded store. -/
theorem serialize_of_deserialize (h : EvidenceStore.deserialize sha limits blob = .ok s) :
    s.serialize sha = .ok blob := by
  obtain ⟨-, h⟩ := require_bind_eq_ok.1 h
  obtain ⟨-, h⟩ := require_bind_eq_ok.1 h
  obtain ⟨-, h⟩ := require_bind_eq_ok.1 h
  obtain ⟨⟨decoded, remaining⟩, -, h⟩ := bind_eq_ok.1 h
  obtain ⟨-, h⟩ := require_bind_eq_ok.1 h
  obtain ⟨canonical, hcanonical, h⟩ := bind_eq_ok.1 h
  obtain ⟨heq, hresult⟩ := require_bind_eq_ok.1 h
  obtain rfl := pure_eq_ok.1 hresult
  subst heq
  rcases hserialize : decoded.serialize sha with e | b
  · rw [hserialize] at hcanonical
    cases hcanonical
  · rw [hserialize] at hcanonical
    exact hcanonical

end RoundTrip

/-- **The envelope of a store.** Under any limits: a reachable store comes back from its
serialization exactly when the serialization fits the format and the limits admit it, and accepted
bytes are the serialization of what they decode to. -/
theorem store_round_trip (sha : Bytes → FactDigest) (limits : StoreCodecLimits) :
    (∀ s, EvidenceStore.Reachable sha s →
      ((∃ blob, s.serialize sha = .ok blob ∧
          EvidenceStore.deserialize sha limits blob = .ok s.copy) ↔
        s.Fits ∧ limits.Admits s)) ∧
      ∀ blob s, EvidenceStore.deserialize sha limits blob = .ok s → s.serialize sha = .ok blob := by
  refine ⟨fun s hs => ⟨?_, ?_⟩, fun blob s h => serialize_of_deserialize h⟩
  · rintro ⟨blob, hblob, hdecode⟩
    exact ⟨((serialize_eq_ok hs.ok).1 hblob).1, (deserialize_serialize_iff hs.ok hblob).1 hdecode⟩
  · rintro ⟨hfits, hadmits⟩
    obtain ⟨blob, hblob⟩ : ∃ blob, s.serialize sha = .ok blob :=
      ⟨_, (serialize_eq_ok hs.ok).2 ⟨hfits, rfl⟩⟩
    exact ⟨blob, hblob, (deserialize_serialize_iff hs.ok hblob).2 hadmits⟩

theorem sampleStore_round_trip : ∃ blob,
    (EvidenceStore.empty.add (fun _ => FactDigest.zero) sampleFact).1.serialize
        (fun _ => FactDigest.zero) = .ok blob ∧
      EvidenceStore.deserialize (fun _ => FactDigest.zero) {} blob =
        .ok (EvidenceStore.empty.add (fun _ => FactDigest.zero) sampleFact).1.copy := by
  have hfacts : (EvidenceStore.empty.add (fun _ => FactDigest.zero) sampleFact).1.flattenedFacts =
      [sampleFact] := by decide +kernel
  have hadmits : ({} : StoreCodecLimits).Admits
      (EvidenceStore.empty.add (fun _ => FactDigest.zero) sampleFact).1 := by
    refine ⟨?_, ?_, ?_⟩
    · rw [storeSize, hfacts]
      decide
    · rw [hfacts]
      decide
    · rw [hfacts, List.forall_mem_singleton]
      exact ⟨by decide, by decide, by decide⟩
  exact ((store_round_trip (fun _ => FactDigest.zero) {}).1 _ (.add sampleFact .empty)).2
    ⟨hadmits.fits (by decide) (by decide), hadmits⟩

end Viy.Analysis
