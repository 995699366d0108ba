import Viy.Facts.PayloadCodec

/-!
# Round trips of the canonical codec

`decodeAnalysisFact` recovers a fact from its encoding exactly when the encoding exists and the
limits admit it (`decode_encode_iff`), and it accepts no other bytes than an encoding
(`decodeAnalysisFact_eq_ok`). The bytes of a payload determine its normal form
(`encodeNormalizedPayload_injective`).
-/

namespace Viy.Analysis

open Wire

/-! ## Evidence -/

/-- What the evidence readers check against the configured limits. -/
def EvidenceWithin (limits : FactCodecLimits) (evidence : Evidence) : Prop :=
  evidence.producer.length ≤ limits.maxStringBytes ∧
    evidence.method.length ≤ limits.maxStringBytes ∧
      evidence.supportAddresses.length ≤ limits.maxVectorItems ∧
        evidence.detail.length ≤ limits.maxStringBytes

/-- The bytes of an evidence encoding, header first. -/
def evidenceForm (evidence : Evidence) : Bytes :=
  (kEvidenceMagic ++ (u16 kCodecVersion ++ (sized evidence.producer ++ (sized evidence.method ++
    ([code evidence.proof] ++ (u16 evidence.confidence ++ (writeOptionalU64 evidence.scope.runId ++
    (writeOptionalU64 evidence.scope.seed ++ (writeOptionalU64 evidence.scope.functionStart ++
    (writeOptionalU64 evidence.scope.functionEnd ++ u64 evidence.scope.generation)))))))))) ++
  (u32 (UInt32.ofNat evidence.supportAddresses.length) ++
    (evidence.supportAddresses.flatMap u64 ++ sized evidence.detail))

theorem encodeNormalizedEvidence_eq_ok {evidence : Evidence} {w : Bytes} :
    encodeNormalizedEvidence evidence = .ok w ↔
      (evidence.producer.length ≤ u32Max ∧ evidence.method.length ≤ u32Max ∧
        evidence.supportAddresses.length ≤ u32Max ∧ evidence.detail.length ≤ u32Max) ∧
        evidenceForm evidence = w := by
  simp only [encodeNormalizedEvidence, bind_eq_ok, pure_eq_ok, Writer.string_eq_ok]
  constructor
  · rintro ⟨_, ⟨hp, rfl⟩, _, ⟨hm, rfl⟩, ⟨⟩, hs, _, ⟨hd, rfl⟩, rfl⟩
    exact ⟨⟨hp, hm, require_eq_ok.1 hs, hd⟩, by simp [evidenceForm]⟩
  · rintro ⟨⟨hp, hm, hs, hd⟩, rfl⟩
    exact ⟨_, ⟨hp, rfl⟩, _, ⟨hm, rfl⟩, (), require_eq_ok.2 hs, _, ⟨hd, rfl⟩, by
      simp [evidenceForm]⟩

/-- Valid evidence always has an encoding. -/
theorem encodeNormalizedEvidence_of_valid {evidence : Evidence}
    (h : validateEvidence evidence = .ok ()) :
    encodeNormalizedEvidence evidence = .ok (evidenceForm evidence) := by
  simp only [validateEvidence, validateEvidenceWith, require_bind_eq_ok, require_eq_ok] at h
  obtain ⟨-, -, -, -, -, -, -, -, hs, hp, hm, hd⟩ := h
  exact encodeNormalizedEvidence_eq_ok.2 ⟨⟨hp, hm, hs, hd⟩, rfl⟩

theorem length_evidenceForm (evidence : Evidence) :
    (evidenceForm evidence).length = evidenceSize evidence := by
  have hmagic : kEvidenceMagic.length = 4 := rfl
  have hsupport : (evidence.supportAddresses.flatMap u64).length =
      8 * evidence.supportAddresses.length := by
    rw [List.length_flatMap]
    simp [mul_comm]
  simp only [evidenceForm, evidenceSize, List.length_append, hmagic, hsupport, length_sized,
    length_u16, length_u32, length_u64, length_writeOptionalU64, List.length_singleton]
  omega

open FactReader in
theorem reads_evidenceHeader {limits : FactCodecLimits} {evidence : Evidence}
    (hp : evidence.producer.length ≤ u32Max) (hm : evidence.method.length ≤ u32Max) :
    Reads (evidenceHeader limits)
      (kEvidenceMagic ++ (u16 kCodecVersion ++ (sized evidence.producer ++ (sized evidence.method ++
        ([code evidence.proof] ++ (u16 evidence.confidence ++
        (writeOptionalU64 evidence.scope.runId ++ (writeOptionalU64 evidence.scope.seed ++
        (writeOptionalU64 evidence.scope.functionStart ++
        (writeOptionalU64 evidence.scope.functionEnd ++ u64 evidence.scope.generation))))))))))
      (code evidence.proof, { evidence with supportAddresses := [], detail := [] })
      (evidence.producer.length ≤ limits.maxStringBytes ∧
        evidence.method.length ≤ limits.maxStringBytes) := by
  have hvalue : ({ evidence with supportAddresses := [], detail := [] } : Evidence) =
      { evidence with
        proof := (ofCode? ProofKind (code evidence.proof)).getD .unknown
        supportAddresses := []
        detail := [] } := by
    rw [ofCode?_code, Option.getD_some]
  rw [hvalue]
  exact ((reads_magic rfl).andThen <| reads_version.andThen <| (reads_string hp).bind <|
    (reads_string hm).bind <| (reads_u8 (code evidence.proof)).andThen <|
    (reads_u16 evidence.confidence).andThen <| (reads_optionalU64 evidence.scope.runId).andThen <|
    (reads_optionalU64 evidence.scope.seed).andThen <|
    (reads_optionalU64 evidence.scope.functionStart).andThen <|
    (reads_optionalU64 evidence.scope.functionEnd).andThen
    (reads_u64 evidence.scope.generation).map).congr (by simp)

open FactReader in
theorem reads_evidence (limits : FactCodecLimits) {evidence : Evidence}
    (h : validateEvidence evidence = .ok ()) :
    Reads (evidenceReader limits) (evidenceForm evidence) (true, evidence)
      (EvidenceWithin limits evidence) := by
  obtain ⟨⟨hp, hm, hs, hd⟩, -⟩ :=
    encodeNormalizedEvidence_eq_ok.1 (encodeNormalizedEvidence_of_valid h)
  have hproof : (ofCode? ProofKind (code evidence.proof)).isSome = true := by
    rw [ofCode?_code, Option.isSome_some]
  have hsupport := Reads.many fun a (_ : a ∈ evidence.supportAddresses) => reads_u64 a
  have hall : Reads (evidenceReader limits) (evidenceForm evidence)
      ((ofCode? ProofKind (code evidence.proof)).isSome, evidence) _ :=
    (reads_reporting (reads_evidenceHeader hp hm)).bind <|
      (reads_reporting (reads_count hs)).bind <| (reads_reporting hsupport).bind
        (reads_reporting (reads_string hd)).map
  rw [hproof] at hall
  exact hall.congr (by simp [EvidenceWithin, and_assoc])

/-- Decoded evidence is valid and the input is its encoding. -/
theorem decodeEvidence_eq_ok {limits : FactCodecLimits} {w : Bytes} {evidence : Evidence}
    (h : decodeEvidence limits w = .ok evidence) :
    validateEvidence evidence = .ok () ∧ encodeNormalizedEvidence evidence = .ok w := by
  rw [decodeEvidence, require_bind_eq_ok] at h
  obtain ⟨⟨⟨proofValid, decoded⟩, rest⟩, -, h⟩ := bind_eq_ok.1 h.2
  obtain ⟨-, h⟩ := require_bind_eq_ok.1 h
  obtain ⟨⟨⟩, hvalid, h⟩ := bind_eq_ok.1 h
  obtain ⟨canonical, hcanonical, h⟩ := bind_eq_ok.1 h
  obtain ⟨hsame, hresult⟩ := require_bind_eq_ok.1 h
  obtain rfl := pure_eq_ok.1 hresult
  rw [hsame] at hcanonical
  exact ⟨(validateEvidenceWith_eq_ok.1 hvalid).2, hcanonical⟩

theorem decodeEvidence_iff {limits : FactCodecLimits} {evidence : Evidence}
    (hvalid : validateEvidence evidence = .ok ()) :
    decodeEvidence limits (evidenceForm evidence) = .ok evidence ↔
      evidenceSize evidence ≤ limits.maxFactBytes ∧ EvidenceWithin limits evidence := by
  have hreads := reads_evidence limits hvalid
  rw [decodeEvidence, require_bind_eq_ok, bind_eq_ok, length_evidenceForm]
  refine and_congr_right fun _ => ⟨fun ⟨x, hrun, _⟩ => hreads.of_run_ok hrun, fun hwithin => ?_⟩
  exact ⟨_, hreads.run_ok hwithin, require_bind_eq_ok.2 ⟨rfl, bind_eq_ok.2 ⟨(), hvalid,
    bind_eq_ok.2 ⟨_, encodeNormalizedEvidence_of_valid hvalid,
      require_bind_eq_ok.2 ⟨rfl, rfl⟩⟩⟩⟩⟩

/-! ## The bytes determine the value -/

theorem encodeNormalizedPayload_injective {p q : FactPayload} {w : Bytes}
    (hp : validatePayload p = .ok ()) (hq : validatePayload q = .ok ())
    (hpw : encodeNormalizedPayload p = .ok w) (hqw : encodeNormalizedPayload q = .ok w) :
    p = q := by
  -- limits that admit everything a valid payload of this size can contain
  let limits : FactCodecLimits := ⟨w.length, w.length, u32Max⟩
  have hwithin : ∀ {r : FactPayload}, validatePayload r = .ok () →
      encodeNormalizedPayload r = .ok w → PayloadWithin limits r := fun hr hrw =>
    ⟨fun s hs => (length_le_payloadSize (Or.inl hs)).trans (length_payload hrw).ge,
      fun s hs => (length_le_payloadSize (Or.inr hs)).trans (length_payload hrw).ge,
      payloadCounts_of_valid hr⟩
  have hrunp := (reads_payload limits hp hpw).run_ok (hwithin hp hpw)
  have hrunq := (reads_payload limits hq hqw).run_ok (hwithin hq hqw)
  rw [hrunp] at hrunq
  exact congrArg Prod.fst (Except.ok.inj hrunq)

theorem evidenceForm_injective {e e' : Evidence} (he : validateEvidence e = .ok ())
    (he' : validateEvidence e' = .ok ()) (h : evidenceForm e = evidenceForm e') : e = e' := by
  let limits : FactCodecLimits := ⟨0, u32Max, u32Max⟩
  have hwithin : ∀ {e : Evidence}, validateEvidence e = .ok () → EvidenceWithin limits e :=
    fun he => (encodeNormalizedEvidence_eq_ok.1 (encodeNormalizedEvidence_of_valid he)).1
  have hrun := (reads_evidence limits he).run_ok (hwithin he)
  rw [h, (reads_evidence limits he').run_ok (hwithin he')] at hrun
  exact (congrArg (fun x => x.1.2) (Except.ok.inj hrun)).symm

/-! ## Facts -/

/-- The number of bytes of a fact's encoding. -/
def factSize (fact : AnalysisFact) : ℕ :=
  14 + payloadSize fact.payload + evidenceSize fact.evidence

/-- The texts of a fact's encoding. -/
def factStrings (fact : AnalysisFact) : List Bytes :=
  payloadStrings fact.payload ++
    [fact.evidence.producer, fact.evidence.method, fact.evidence.detail]

/-- The item counts of a fact's encoding. -/
def factCounts (fact : AnalysisFact) : List ℕ :=
  payloadCounts fact.payload ++ [fact.evidence.supportAddresses.length]

/-- The payload and the evidence fit the two 32-bit lengths of the encoding. -/
def FactFits (fact : AnalysisFact) : Prop :=
  payloadSize fact.payload ≤ u32Max ∧ evidenceSize fact.evidence ≤ u32Max

/-- The configured limits are not exceeded by the encoding of a fact. -/
structure FactCodecLimits.Admits (limits : FactCodecLimits) (fact : AnalysisFact) : Prop where
  bytes : factSize fact ≤ limits.maxFactBytes
  strings : ∀ s ∈ factStrings fact, s.length ≤ limits.maxStringBytes
  counts : ∀ n ∈ factCounts fact, n ≤ limits.maxVectorItems

theorem FactCodecLimits.Admits.payloadWithin {limits : FactCodecLimits} {fact : AnalysisFact}
    (h : limits.Admits fact) : PayloadWithin limits fact.payload := by
  refine ⟨fun s hs => h.strings s (List.mem_append_left _ hs), fun b hb => ?_,
    fun n hn => h.counts n (List.mem_append_left _ hn)⟩
  have hle := length_le_payloadSize (Or.inr hb)
  have hbytes := h.bytes
  unfold factSize at hbytes
  omega

theorem FactCodecLimits.Admits.evidenceWithin {limits : FactCodecLimits} {fact : AnalysisFact}
    (h : limits.Admits fact) : EvidenceWithin limits fact.evidence :=
  ⟨h.strings _ (by simp [factStrings]), h.strings _ (by simp [factStrings]),
    h.counts _ (by simp [factCounts]), h.strings _ (by simp [factStrings])⟩

/-- Limits below the width of the length fields leave nothing else to check. -/
theorem FactCodecLimits.Admits.fits {limits : FactCodecLimits} {fact : AnalysisFact}
    (h : limits.Admits fact) (hbytes : limits.maxFactBytes ≤ u32Max) : FactFits fact := by
  have hsize := h.bytes.trans hbytes
  unfold factSize at hsize
  exact ⟨by omega, by omega⟩

/-- The bytes of a fact with given payload bytes. -/
def factForm (payloadBytes evidenceBytes : Bytes) : Bytes :=
  (kFactMagic ++ u16 kCodecVersion) ++ (sized payloadBytes ++ sized evidenceBytes)

theorem length_factForm (p e : Bytes) : (factForm p e).length = 14 + p.length + e.length := by
  have hmagic : kFactMagic.length = 4 := rfl
  simp only [factForm, List.length_append, hmagic, length_u16, length_sized]
  omega

theorem encodeAnalysisFact_eq_ok {fact : AnalysisFact} {b : Bytes} :
    encodeAnalysisFact fact = .ok b ↔ ∃ normal payloadBytes, normalizeFact fact = .ok normal ∧
      encodeNormalizedPayload normal.payload = .ok payloadBytes ∧ FactFits normal ∧
        factForm payloadBytes (evidenceForm normal.evidence) = b := by
  simp only [encodeAnalysisFact, bind_eq_ok, pure_eq_ok, Writer.blob_eq_ok]
  constructor
  · rintro ⟨normal, hnormal, p, hp, e, he, _, ⟨hpl, rfl⟩, _, ⟨hel, rfl⟩, rfl⟩
    obtain ⟨-, rfl⟩ := encodeNormalizedEvidence_eq_ok.1 he
    rw [length_payload hp] at hpl
    rw [length_evidenceForm] at hel
    exact ⟨normal, p, hnormal, hp, ⟨hpl, hel⟩, by simp [factForm]⟩
  · rintro ⟨normal, p, hnormal, hp, ⟨hpl, hel⟩, rfl⟩
    have hvalid := (validateFact_eq_ok.1 (normalizeFact_eq_ok.1 hnormal).1).2.1
    rw [← length_payload hp] at hpl
    rw [← length_evidenceForm] at hel
    exact ⟨normal, hnormal, p, hp, _, encodeNormalizedEvidence_of_valid hvalid, _, ⟨hpl, rfl⟩, _,
      ⟨hel, rfl⟩, by simp [factForm]⟩

/-- A normalized fact has an encoding exactly when its two parts fit their length fields. -/
theorem encodeAnalysisFact_isOk_iff {fact normal : AnalysisFact}
    (h : normalizeFact fact = .ok normal) :
    (∃ b, encodeAnalysisFact fact = .ok b) ↔ FactFits normal := by
  constructor
  · rintro ⟨b, hb⟩
    obtain ⟨normal', _, hnormal, -, hfits, -⟩ := encodeAnalysisFact_eq_ok.1 hb
    rw [h] at hnormal
    exact Except.ok.inj hnormal ▸ hfits
  · intro hfits
    obtain ⟨w, hw⟩ := encodeNormalizedPayload_isOk_iff.2
      ⟨fun s hs => (length_le_payloadSize (Or.inl hs)).trans hfits.1,
        fun s hs => (length_le_payloadSize (Or.inr hs)).trans hfits.1⟩
    exact ⟨_, encodeAnalysisFact_eq_ok.2 ⟨normal, w, h, hw, hfits, rfl⟩⟩

open FactReader in
theorem reads_fact (limits : FactCodecLimits) {p e : Bytes} (hp : p.length ≤ u32Max)
    (he : e.length ≤ u32Max) :
    Reads (factReader limits) (factForm p e) (p, e)
      (p.length ≤ limits.maxFactBytes ∧ e.length ≤ limits.maxFactBytes) :=
  (reads_reporting ((reads_magic rfl).andThen reads_version)).andThen
    (reads_reporting ((reads_blob hp).bind (reads_blob he).map))

/-- **Accepted bytes.** A decoded fact is valid and the input is its encoding. -/
theorem decodeAnalysisFact_eq_ok {limits : FactCodecLimits} {b : Bytes} {fact : AnalysisFact}
    (h : decodeAnalysisFact limits b = .ok fact) :
    normalizeFact fact = .ok fact ∧ encodeAnalysisFact fact = .ok b := by
  rw [decodeAnalysisFact, require_bind_eq_ok] at h
  obtain ⟨⟨⟨p, e⟩, rest⟩, -, h⟩ := bind_eq_ok.1 h.2
  obtain ⟨-, h⟩ := require_bind_eq_ok.1 h
  obtain ⟨payload, hp, h⟩ := bind_eq_ok.1 h
  obtain ⟨evidence, he, h⟩ := bind_eq_ok.1 h
  obtain ⟨canonical, hcanonical, h⟩ := bind_eq_ok.1 h
  obtain ⟨hsame, hresult⟩ := require_bind_eq_ok.1 h
  obtain rfl := pure_eq_ok.1 hresult
  rw [hsame] at hcanonical
  -- the decoded parts are valid, so normalization returns them unchanged
  obtain ⟨normal, _, hnormal, -⟩ := encodeAnalysisFact_eq_ok.1 hcanonical
  obtain ⟨hvalid, hp', he'⟩ := normalizeFact_eq_ok.1 hnormal
  rw [normalForm_of_valid (decodePayload_eq_ok hp).1] at hp'
  rw [normalEvidence_of_valid (decodeEvidence_eq_ok he).1] at he'
  have hself : normal = { payload, evidence } := by
    cases normal
    simp only at hp' he'
    rw [hp', he']
  exact ⟨hself ▸ hnormal, hcanonical⟩

section Exact

variable {limits : FactCodecLimits} {fact normal : AnalysisFact} {b : Bytes}

theorem decode_of_admits (h : normalizeFact fact = .ok normal)
    (hb : encodeAnalysisFact fact = .ok b) (hadmits : limits.Admits normal) :
    decodeAnalysisFact limits b = .ok normal := by
  obtain ⟨normal', p, hnormal, hp, hfits, rfl⟩ := encodeAnalysisFact_eq_ok.1 hb
  obtain rfl : normal = normal' := Except.ok.inj (h.symm.trans hnormal)
  have hvalid := (normalizeFact_eq_ok.1 h).1
  obtain ⟨hvp, hve, -⟩ := validateFact_eq_ok.1 hvalid
  have hpsize := length_payload hp
  have hesize := length_evidenceForm normal.evidence
  have hbytes := hadmits.bytes
  unfold factSize at hbytes
  have hrun := (reads_fact limits (hpsize.trans_le hfits.1) (hesize.trans_le hfits.2)).run_ok
    ⟨by omega, by omega⟩
  have hdp := (decodePayload_iff hvp hp).2 ⟨by omega, hadmits.payloadWithin⟩
  have hde := (decodeEvidence_iff hve).2 ⟨by omega, hadmits.evidenceWithin⟩
  have hcanonical : encodeAnalysisFact normal = .ok (factForm p (evidenceForm normal.evidence)) :=
    encodeAnalysisFact_eq_ok.2 ⟨normal, p, normalizeFact_self_iff.2 hvalid, hp, hfits, rfl⟩
  refine require_bind_eq_ok.2 ⟨by rw [length_factForm]; omega, bind_eq_ok.2 ⟨_, hrun, ?_⟩⟩
  exact require_bind_eq_ok.2 ⟨rfl, bind_eq_ok.2 ⟨_, hdp, bind_eq_ok.2 ⟨_, hde,
    bind_eq_ok.2 ⟨_, hcanonical, require_bind_eq_ok.2 ⟨rfl, rfl⟩⟩⟩⟩⟩

theorem admits_of_decode (h : normalizeFact fact = .ok normal)
    (hb : encodeAnalysisFact fact = .ok b) (hdecode : decodeAnalysisFact limits b = .ok normal) :
    limits.Admits normal := by
  obtain ⟨normal', p, hnormal, hp, hfits, rfl⟩ := encodeAnalysisFact_eq_ok.1 hb
  obtain rfl : normal = normal' := Except.ok.inj (h.symm.trans hnormal)
  obtain ⟨hvp, hve, -⟩ := validateFact_eq_ok.1 (normalizeFact_eq_ok.1 h).1
  have hreads := reads_fact limits ((length_payload hp).trans_le hfits.1)
    ((length_evidenceForm normal.evidence).trans_le hfits.2)
  rw [decodeAnalysisFact, require_bind_eq_ok, bind_eq_ok] at hdecode
  obtain ⟨hsize, x, hrun, hdecode⟩ := hdecode
  rw [hreads.run_ok (hreads.of_run_ok hrun)] at hrun
  obtain rfl := Except.ok.inj hrun
  obtain ⟨-, hdecode⟩ := require_bind_eq_ok.1 hdecode
  obtain ⟨payload, hdp, hdecode⟩ := bind_eq_ok.1 hdecode
  obtain ⟨evidence, hde, hdecode⟩ := bind_eq_ok.1 hdecode
  obtain ⟨_, -, hdecode⟩ := bind_eq_ok.1 hdecode
  obtain rfl := pure_eq_ok.1 (require_bind_eq_ok.1 hdecode).2
  -- each part decoder succeeds only within the limits
  have hpw := (decodePayload_iff hvp hp).1 hdp
  have hew := (decodeEvidence_iff hve).1 hde
  refine ⟨?_, ?_, ?_⟩
  · rw [length_factForm, length_payload hp, length_evidenceForm] at hsize
    exact hsize
  · simpa [factStrings, or_imp, forall_and] using ⟨hpw.2.1, hew.2.1, hew.2.2.1, hew.2.2.2.2⟩
  · simpa [factCounts, or_imp, forall_and] using ⟨hpw.2.2.2, hew.2.2.2.1⟩

/-- **Exact round trip.** A normalized fact comes back from its encoding exactly when it has one
and the limits admit it. -/
theorem decode_encode_iff (h : normalizeFact fact = .ok normal) :
    (∃ b, encodeAnalysisFact fact = .ok b ∧ decodeAnalysisFact limits b = .ok normal) ↔
      FactFits normal ∧ limits.Admits normal := by
  rw [← encodeAnalysisFact_isOk_iff h]
  constructor
  · rintro ⟨b, hb, hdecode⟩
    exact ⟨⟨b, hb⟩, admits_of_decode h hb hdecode⟩
  · rintro ⟨⟨b, hb⟩, hadmits⟩
    exact ⟨b, hb, decode_of_admits h hb hadmits⟩

end Exact

/-- Normalized facts with the same bytes are equal. -/
theorem encodeAnalysisFact_injective {f g : AnalysisFact} {b : Bytes}
    (hf : normalizeFact f = .ok f) (hg : normalizeFact g = .ok g)
    (hfb : encodeAnalysisFact f = .ok b) (hgb : encodeAnalysisFact g = .ok b) : f = g := by
  obtain ⟨f', p, hf', hp, hpfits, rfl⟩ := encodeAnalysisFact_eq_ok.1 hfb
  obtain ⟨g', q, hg', hq, hqfits, heq⟩ := encodeAnalysisFact_eq_ok.1 hgb
  obtain rfl : f = f' := Except.ok.inj (hf.symm.trans hf')
  obtain rfl : g = g' := Except.ok.inj (hg.symm.trans hg')
  obtain ⟨hvf, hef, -⟩ := validateFact_eq_ok.1 (normalizeFact_eq_ok.1 hf).1
  obtain ⟨hvg, heg, -⟩ := validateFact_eq_ok.1 (normalizeFact_eq_ok.1 hg).1
  -- reading the bytes back gives the two parts
  have hrun : ∀ {h : AnalysisFact} {w : Bytes}, encodeNormalizedPayload h.payload = .ok w →
      FactFits h → (factReader ⟨u32Max, 0, 0⟩).run (factForm w (evidenceForm h.evidence)) =
        .ok ((w, evidenceForm h.evidence), []) := by
    intro h w hw hfits
    have hwl := (length_payload hw).trans_le hfits.1
    have hel := (length_evidenceForm h.evidence).trans_le hfits.2
    exact (reads_fact ⟨u32Max, 0, 0⟩ hwl hel).run_ok ⟨hwl, hel⟩
  have hparts := hrun hp hpfits
  rw [← heq, hrun hq hqfits] at hparts
  obtain ⟨rfl, hevidence⟩ := Prod.mk.inj (congrArg Prod.fst (Except.ok.inj hparts))
  cases f
  cases g
  exact congrArg₂ AnalysisFact.mk (encodeNormalizedPayload_injective hvf hvg hp hq)
    (evidenceForm_injective hef heg hevidence.symm)

/-- Beyond the limits the decoder fails. -/
theorem decode_error_of_not_admits {limits : FactCodecLimits} {fact : AnalysisFact} {b : Bytes}
    (h : normalizeFact fact = .ok fact) (hb : encodeAnalysisFact fact = .ok b)
    (hadmits : ¬ limits.Admits fact) : ∃ e, decodeAnalysisFact limits b = .error e := by
  rcases hdecode : decodeAnalysisFact limits b with e | g
  · exact ⟨e, rfl⟩
  · obtain ⟨hg, hgb⟩ := decodeAnalysisFact_eq_ok hdecode
    obtain rfl := encodeAnalysisFact_injective h hg hb hgb
    exact absurd (admits_of_decode h hb hdecode) hadmits

/-- The canonical bytes of a payload determine its normal form, and conversely. -/
theorem encodePayload_eq_iff {p q : FactPayload} {b : Bytes} (hp : encodePayload p = .ok b) :
    encodePayload q = .ok b ↔ normalForm q = normalForm p := by
  constructor
  · intro hq
    obtain ⟨p', hp', hpb⟩ := bind_eq_ok.1 hp
    obtain ⟨q', hq', hqb⟩ := bind_eq_ok.1 hq
    obtain ⟨hvp, rfl⟩ := normalizePayload_eq_ok.1 hp'
    obtain ⟨hvq, rfl⟩ := normalizePayload_eq_ok.1 hq'
    exact encodeNormalizedPayload_injective hvq hvp hqb hpb
  · intro h
    rw [← hp, encodePayload, encodePayload, normalizePayload, normalizePayload, h]

/-- **The canonical codec.** Under any limits: a fact that normalization accepts comes back
normalized from its encoding, exactly when the encoding fits the format and the limits admit it;
the bytes the decoder accepts are the encoding of what it returns; and the bytes of a payload are
those of another one exactly when both have the same normal form. -/
theorem canonical_codec_round_trip (limits : FactCodecLimits) :
    (∀ fact normal, normalizeFact fact = .ok normal →
      ((∃ b, encodeAnalysisFact fact = .ok b ∧ decodeAnalysisFact limits b = .ok normal) ↔
        FactFits normal ∧ limits.Admits normal)) ∧
    (∀ b fact, decodeAnalysisFact limits b = .ok fact → encodeAnalysisFact fact = .ok b) ∧
    ∀ p q b, encodePayload p = .ok b → (encodePayload q = .ok b ↔ normalForm q = normalForm p) :=
  ⟨fun _ _ h => decode_encode_iff h, fun _ _ h => (decodeAnalysisFact_eq_ok h).2,
    fun _ _ _ h => encodePayload_eq_iff h⟩

/-- A call with a unique target, observed once. -/
def sampleFact : AnalysisFact where
  payload := .codeTarget { fromAddr := 0x1000, target := 0x2000, kind := .call, unique := true }
  evidence := { producer := text "emu", method := text "trace", proof := .observed }

theorem sampleFact_round_trip :
    ∃ b, encodeAnalysisFact sampleFact = .ok b ∧ decodeAnalysisFact {} b = .ok sampleFact :=
  ((canonical_codec_round_trip {}).1 sampleFact sampleFact rfl).2
    ⟨⟨by decide, by decide⟩, by decide, by decide, by decide⟩

end Viy.Analysis
