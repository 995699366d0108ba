import Viy.Facts.Codec

/-!
# Reading payloads back

Every field reader yields back what the writer of its field produced, exactly when the configured
limits admit it (`reads_string`, `reads_blob`, `reads_count`). Hence the body reader of a kind
recovers a payload of that kind (`reads_payloadBody`), and `decodePayload` recovers a valid payload
from its encoding exactly when the limits admit its fields (`decodePayload_iff`).
-/

namespace Viy.Analysis

open Wire

/-! ## Fields -/

theorem length_sized (value : Bytes) : (sized value).length = 4 + value.length := by
  simp [sized]

theorem Writer.string_eq_ok {value w : Bytes} :
    Writer.string value = .ok w ↔ value.length ≤ u32Max ∧ sized value = w := by
  rw [Writer.string, require_bind_eq_ok, pure_eq_ok]

theorem Writer.blob_eq_ok {value w : Bytes} :
    Writer.blob value = .ok w ↔ value.length ≤ u32Max ∧ sized value = w := by
  rw [Writer.blob, require_bind_eq_ok, pure_eq_ok]

theorem toNat_ofNat_u32 {n : ℕ} (h : n ≤ u32Max) : (UInt32.ofNat n).toNat = n :=
  UInt32.toNat_ofNat_of_lt' (by unfold u32Max at h; show n < 4294967296; omega)

namespace FactReader

theorem reads_u8 (v : UInt8) : Reads u8 [v] v True := Reads.u8 _ v

theorem reads_u16 (v : UInt16) : Reads u16 (Wire.u16 v) v True := Reads.u16 _ v

theorem reads_u32 (v : UInt32) : Reads u32 (Wire.u32 v) v True := Reads.u32 _ v

theorem reads_u64 (v : UInt64) : Reads u64 (Wire.u64 v) v True := Reads.u64 _ v

theorem reads_i64 (v : Int64) : Reads i64 (Wire.i64 v) v True := Reads.i64 _ v

theorem reads_enum {α : Type} [Code α] (a : α) : Reads (enum α) [code a] a True :=
  Reads.enum _ _ a

theorem reads_boolean (b : Bool) : Reads boolean (Wire.boolean b) b True := by
  cases b <;> exact Reads.of_true fun _ => rfl

theorem reads_magic {m : Bytes} (hm : m.length = 4) : Reads (magic m) m () True := by
  have hraw : Reads (Reader.raw truncated 4) m m True := hm ▸ Reads.raw truncated m
  have h := hraw.andThen (f := fun actual => Reader.guard (actual == m) _)
    (Reads.guard (m == m) (text "canonical input has the wrong magic"))
  rw [List.append_nil] at h
  exact h.congr (by simp)

theorem reads_version : Reads version (Wire.u16 kCodecVersion) () True :=
  Reads.of_true fun _ => rfl

theorem reads_optional_none {α : Type} (read : FactReader α) :
    Reads (optional read) [0] none True := Reads.of_true fun _ => rfl

theorem reads_optional_some {α : Type} {read : FactReader α} {bytes : Bytes} {v : α}
    (h : Reads read bytes v True) : Reads (optional read) (1 :: bytes) (some v) True := by
  refine Reads.of_true fun rest => ?_
  have hsome := (h.map (f := some)).ok trivial rest
  exact hsome

theorem reads_optionalU64 (o : Option UInt64) :
    Reads (optional u64) (writeOptionalU64 o) o True := by
  cases o with
  | none => exact reads_optional_none u64
  | some v => exact reads_optional_some (reads_u64 v)

theorem reads_optionalI64 (o : Option Int64) :
    Reads (optional i64) (writeOptionalI64 o) o True := by
  cases o with
  | none => exact reads_optional_none i64
  | some v => exact reads_optional_some (reads_i64 v)

variable {limits : FactCodecLimits}

theorem reads_string {v : Bytes} (hv : v.length ≤ u32Max) :
    Reads (string limits) (sized v) v (v.length ≤ limits.maxStringBytes) := by
  have hraw := Reads.raw (text "truncated canonical string") v
  have hguard := Reads.guard (v.length ≤ limits.maxStringBytes)
    (text "canonical string exceeds configured decode limit")
  have h := (reads_u32 (UInt32.ofNat v.length)).andThen (f := fun size => do
      Reader.guard (size.toNat ≤ limits.maxStringBytes) _
      Reader.raw _ size.toNat)
    (by rw [toNat_ofNat_u32 hv]; exact hguard.check hraw)
  exact h.congr (by simp)

theorem reads_blob {v : Bytes} (hv : v.length ≤ u32Max) :
    Reads (blob limits) (sized v) v (v.length ≤ limits.maxFactBytes) := by
  have hraw := Reads.raw (text "truncated canonical byte vector") v
  have hguard := Reads.guard (v.length ≤ limits.maxFactBytes)
    (text "canonical byte vector exceeds configured decode limit")
  have h := (reads_u32 (UInt32.ofNat v.length)).andThen (f := fun size => do
      Reader.guard (size.toNat ≤ limits.maxFactBytes) _
      Reader.raw _ size.toNat)
    (by rw [toNat_ofNat_u32 hv]; exact hguard.check hraw)
  exact h.congr (by simp)

theorem reads_count {n : ℕ} (hn : n ≤ u32Max) :
    Reads (count limits) (Wire.u32 (UInt32.ofNat n)) n (n ≤ limits.maxVectorItems) := by
  have hguard := Reads.guard (n ≤ limits.maxVectorItems)
    (text "canonical vector exceeds configured item limit")
  have h := (reads_u32 (UInt32.ofNat n)).andThen (f := fun count => do
      Reader.guard (count.toNat ≤ limits.maxVectorItems) _
      return count.toNat)
    (by rw [toNat_ofNat_u32 hn]; exact hguard.check (Reads.pure n))
  rw [List.append_nil] at h
  exact h.congr (by simp)

theorem reads_reporting {α : Type} {r : FactReader α} {w : Bytes} {a : α} {P : Prop}
    {fallback : String} (h : Reads r w a P) : Reads (reporting fallback r) w a P := by
  constructor
  · intro p rest
    simp only [reporting, h.ok p rest]
  · intro p rest
    obtain ⟨e, he⟩ := h.error p rest
    exact ⟨if e = [] then text fallback else e, by simp only [reporting, he]⟩

end FactReader

/-! ## Payloads -/

/-- The length-prefixed texts of a payload's encoding. -/
def payloadStrings : FactPayload → List Bytes
  | .stringCandidate fact => [fact.decoded]
  | .functionTrait fact => [fact.value.textValue]
  | .registerValue fact => [fact.registerId]
  | .callObservation fact => (fact.arguments ++ fact.returns).map CallValue.location
  | _ => []

/-- The length-prefixed byte vectors of a payload's encoding. -/
def payloadBlobs : FactPayload → List Bytes
  | .memoryValue fact => [fact.bytes]
  | .stringCandidate fact => [fact.bytes]
  | .registerValue fact => [fact.bytes]
  | .callObservation fact => (fact.arguments ++ fact.returns).map CallValue.bytes
  | _ => []

/-- The item counts of a payload's encoding. -/
def payloadCounts : FactPayload → List ℕ
  | .dispatchMap fact => [fact.cases.length]
  | .callObservation fact => [fact.arguments.length, fact.returns.length]
  | _ => []

/-- What a payload's readers check against the configured limits. -/
def PayloadWithin (limits : FactCodecLimits) (payload : FactPayload) : Prop :=
  (∀ s ∈ payloadStrings payload, s.length ≤ limits.maxStringBytes) ∧
    (∀ b ∈ payloadBlobs payload, b.length ≤ limits.maxFactBytes) ∧
      ∀ n ∈ payloadCounts payload, n ≤ limits.maxVectorItems

theorem reads_dispatchCase (c : DispatchCase) :
    Reads FactReader.dispatchCase (writeDispatchCase c) c True :=
  (FactReader.reads_optionalU64 c.selector).andThen (FactReader.reads_u64 c.target).map

/-- The bytes of one call value. -/
def callValueForm (value : CallValue) : Bytes :=
  u32 value.ordinal ++ (sized value.location ++ sized value.bytes)

theorem reads_callValue {limits : FactCodecLimits} {v : CallValue}
    (hl : v.location.length ≤ u32Max) (hb : v.bytes.length ≤ u32Max) :
    Reads (FactReader.callValue limits) (callValueForm v) v
      (v.location.length ≤ limits.maxStringBytes ∧ v.bytes.length ≤ limits.maxFactBytes) :=
  (FactReader.reads_u32 v.ordinal).andThen
    ((FactReader.reads_string hl).bind (FactReader.reads_blob hb).map)

theorem writeCallValues_eq_ok : ∀ {l : List CallValue} {w : Bytes},
    writeCallValues l = .ok w ↔
      (∀ v ∈ l, v.location.length ≤ u32Max ∧ v.bytes.length ≤ u32Max) ∧
        l.flatMap callValueForm = w
  | [], w => by simp [writeCallValues]
  | v :: l, w => by
    simp only [writeCallValues, bind_eq_ok, pure_eq_ok, Writer.string_eq_ok, Writer.blob_eq_ok,
      writeCallValues_eq_ok, List.forall_mem_cons, List.flatMap_cons]
    constructor
    · rintro ⟨_, ⟨hl, rfl⟩, _, ⟨hb, rfl⟩, _, ⟨h, rfl⟩, rfl⟩
      exact ⟨⟨⟨hl, hb⟩, h⟩, by simp [callValueForm]⟩
    · rintro ⟨⟨⟨hl, hb⟩, h⟩, rfl⟩
      exact ⟨_, ⟨hl, rfl⟩, _, ⟨hb, rfl⟩, _, ⟨h, rfl⟩, by simp [callValueForm]⟩

theorem reads_callValues {limits : FactCodecLimits} {l : List CallValue} {w : Bytes}
    (h : writeCallValues l = .ok w) :
    Reads ((FactReader.callValue limits).many l.length) w l
      (∀ v ∈ l, v.location.length ≤ limits.maxStringBytes ∧
        v.bytes.length ≤ limits.maxFactBytes) := by
  obtain ⟨hfit, rfl⟩ := writeCallValues_eq_ok.1 h
  exact Reads.many fun v hv => reads_callValue (hfit v hv).1 (hfit v hv).2

open FactReader in
/-- **Payload bodies.** The body reader of a payload's kind recovers the payload exactly when the
limits admit its fields. -/
theorem reads_payloadBody {limits : FactCodecLimits} {payload : FactPayload} {w : Bytes}
    (hcounts : ∀ n ∈ payloadCounts payload, n ≤ u32Max)
    (h : encodePayloadBody payload = .ok w) :
    Reads (decodePayloadBody limits (factKind payload)) w payload
      (PayloadWithin limits payload) := by
  cases payload with
  | codeTarget f =>
    obtain rfl := pure_eq_ok.1 h
    simp only [List.append_assoc]
    exact ((reads_u64 f.fromAddr).andThen <| (reads_u64 f.target).andThen <|
      (reads_enum f.kind).andThen (reads_boolean f.unique).map).congr
        (by simp [PayloadWithin, payloadStrings, payloadBlobs, payloadCounts])
  | branchReachability f =>
    obtain rfl := pure_eq_ok.1 h
    simp only [List.append_assoc]
    exact ((reads_u64 f.branch).andThen <| (reads_u64 f.successor).andThen
      (reads_enum f.state).map).congr
        (by simp [PayloadWithin, payloadStrings, payloadBlobs, payloadCounts])
  | memoryAccess f =>
    obtain rfl := pure_eq_ok.1 h
    simp only [List.append_assoc]
    exact ((reads_u64 f.instruction).andThen <| (reads_u64 f.address).andThen <|
      (reads_u32 f.size).andThen (reads_enum f.kind).map).congr
        (by simp [PayloadWithin, payloadStrings, payloadBlobs, payloadCounts])
  | memoryValue f =>
    obtain ⟨_, hblob, h⟩ := bind_eq_ok.1 h
    obtain ⟨hb, rfl⟩ := Writer.blob_eq_ok.1 hblob
    obtain rfl := pure_eq_ok.1 h
    simp only [List.append_assoc]
    exact ((reads_u64 f.instruction).andThen <| (reads_u64 f.address).andThen <|
      (reads_enum f.kind).andThen (reads_blob hb).map).congr
        (by simp [PayloadWithin, payloadStrings, payloadBlobs, payloadCounts])
  | stringCandidate f =>
    obtain ⟨_, hblob, h⟩ := bind_eq_ok.1 h
    obtain ⟨hb, rfl⟩ := Writer.blob_eq_ok.1 hblob
    obtain ⟨_, hstring, h⟩ := bind_eq_ok.1 h
    obtain ⟨hs, rfl⟩ := Writer.string_eq_ok.1 hstring
    obtain rfl := pure_eq_ok.1 h
    simp only [List.append_assoc]
    exact ((reads_u64 f.address).andThen <| (reads_enum f.encoding).andThen <|
      (reads_blob hb).bind <| (reads_string hs).bind (reads_boolean f.nullTerminated).map).congr
        (by simp [PayloadWithin, payloadStrings, payloadBlobs, payloadCounts, and_comm])
  | functionCandidate f =>
    obtain rfl := pure_eq_ok.1 h
    simp only [List.append_assoc]
    exact ((reads_u64 f.entry).andThen <| (reads_optionalU64 f.endAddr).andThen
      (reads_enum f.kind).map).congr
        (by simp [PayloadWithin, payloadStrings, payloadBlobs, payloadCounts])
  | functionTrait f =>
    obtain ⟨_, hstring, h⟩ := bind_eq_ok.1 h
    obtain ⟨hs, rfl⟩ := Writer.string_eq_ok.1 hstring
    obtain rfl := pure_eq_ok.1 h
    simp only [List.append_assoc]
    exact ((reads_u64 f.function).andThen <| (reads_enum f.trait).andThen <|
      (reads_enum f.value.kind).andThen <| (reads_i64 f.value.signedValue).andThen <|
      (reads_u64 f.value.unsignedValue).andThen <| (reads_boolean f.value.booleanValue).andThen
      (reads_string hs).map).congr
        (by simp [PayloadWithin, payloadStrings, payloadBlobs, payloadCounts])
  | codeRegion f =>
    obtain rfl := pure_eq_ok.1 h
    simp only [List.append_assoc]
    exact ((reads_u64 f.start).andThen <| (reads_u64 f.endAddr).andThen
      (reads_enum f.kind).map).congr
        (by simp [PayloadWithin, payloadStrings, payloadBlobs, payloadCounts])
  | dispatchMap f =>
    have hn : f.cases.length ≤ u32Max := hcounts _ (by simp [payloadCounts])
    have hcases := Reads.many fun c (_ : c ∈ f.cases) => reads_dispatchCase c
    obtain rfl := pure_eq_ok.1 h
    simp only [List.append_assoc]
    exact ((reads_u64 f.site).andThen <| (reads_count hn).bind <| hcases.bind <|
      (reads_optionalU64 f.defaultTarget).andThen (reads_boolean f.complete).map).congr
        (by simp [PayloadWithin, payloadStrings, payloadBlobs, payloadCounts])
  | cfgCandidate f =>
    obtain rfl := pure_eq_ok.1 h
    simp only [List.append_assoc]
    exact ((reads_u64 f.fromAddr).andThen <| (reads_u64 f.toAddr).andThen <|
      (reads_enum f.kind).andThen (reads_enum f.state).map).congr
        (by simp [PayloadWithin, payloadStrings, payloadBlobs, payloadCounts])
  | functionOutcome f =>
    obtain rfl := pure_eq_ok.1 h
    simp only [List.append_assoc]
    exact ((reads_u64 f.function).andThen <| (reads_enum f.stop).andThen <|
      (reads_optionalU64 f.stopPc).andThen <| (reads_optionalI64 f.stackDelta).andThen
      (reads_optionalU64 f.instructionCount).map).congr
        (by simp [PayloadWithin, payloadStrings, payloadBlobs, payloadCounts])
  | registerValue f =>
    obtain ⟨_, hstring, h⟩ := bind_eq_ok.1 h
    obtain ⟨hs, rfl⟩ := Writer.string_eq_ok.1 hstring
    obtain ⟨_, hblob, h⟩ := bind_eq_ok.1 h
    obtain ⟨hb, rfl⟩ := Writer.blob_eq_ok.1 hblob
    obtain rfl := pure_eq_ok.1 h
    simp only [List.append_assoc]
    exact ((reads_u64 f.instruction).andThen <| (reads_enum f.point).andThen <|
      (reads_string hs).bind (reads_blob hb).map).congr
        (by simp [PayloadWithin, payloadStrings, payloadBlobs, payloadCounts])
  | callObservation f =>
    have ha : f.arguments.length ≤ u32Max := hcounts _ (by simp [payloadCounts])
    have hr : f.returns.length ≤ u32Max := hcounts _ (by simp [payloadCounts])
    obtain ⟨_, harguments, h⟩ := bind_eq_ok.1 h
    obtain ⟨_, hreturns, h⟩ := bind_eq_ok.1 h
    obtain rfl := pure_eq_ok.1 h
    simp only [List.append_assoc]
    exact ((reads_u64 f.source).andThen <| (reads_optionalU64 f.target).andThen <|
      (reads_enum f.kind).andThen <| (reads_enum f.result).andThen <|
      (reads_count ha).bind <| (reads_callValues harguments).bind <|
      (reads_count hr).bind (reads_callValues hreturns).map).congr
        (by
          simp only [PayloadWithin, payloadStrings, payloadBlobs, payloadCounts,
            List.forall_mem_map, List.forall_mem_append, List.forall_mem_cons]
          simp only [forall_and]
          simp
          tauto)

/-! ## Sizes -/

/-- The bytes of an optional 64-bit field. -/
def optionalSize {α : Type} : Option α → ℕ
  | none => 1
  | some _ => 9

def callValueSize (value : CallValue) : ℕ := 12 + value.location.length + value.bytes.length

/-- The number of bytes of a payload's encoding. -/
def payloadSize : FactPayload → ℕ
  | .codeTarget _ => 25
  | .branchReachability _ => 24
  | .memoryAccess _ => 28
  | .memoryValue fact => 28 + fact.bytes.length
  | .stringCandidate fact => 25 + fact.bytes.length + fact.decoded.length
  | .functionCandidate fact => 16 + optionalSize fact.endAddr
  | .functionTrait fact => 38 + fact.value.textValue.length
  | .codeRegion _ => 24
  | .dispatchMap fact =>
    20 + (fact.cases.map fun c => optionalSize c.selector + 8).sum +
      optionalSize fact.defaultTarget
  | .cfgCandidate _ => 25
  | .functionOutcome fact =>
    16 + optionalSize fact.stopPc + optionalSize fact.stackDelta +
      optionalSize fact.instructionCount
  | .registerValue fact => 24 + fact.registerId.length + fact.bytes.length
  | .callObservation fact =>
    25 + optionalSize fact.target + (fact.arguments.map callValueSize).sum +
      (fact.returns.map callValueSize).sum

/-- The number of bytes of an evidence encoding. -/
def evidenceSize (evidence : Evidence) : ℕ :=
  33 + evidence.producer.length + evidence.method.length + optionalSize evidence.scope.runId +
    optionalSize evidence.scope.seed + optionalSize evidence.scope.functionStart +
    optionalSize evidence.scope.functionEnd + 8 * evidence.supportAddresses.length +
    evidence.detail.length

@[simp] theorem length_writeOptionalU64 (o : Option UInt64) :
    (writeOptionalU64 o).length = optionalSize o := by cases o <;> rfl

@[simp] theorem length_writeOptionalI64 (o : Option Int64) :
    (writeOptionalI64 o).length = optionalSize o := by cases o <;> rfl

theorem length_callValueForm (v : CallValue) : (callValueForm v).length = callValueSize v := by
  simp only [callValueForm, callValueSize, List.length_append, length_u32, length_sized]
  omega

theorem length_flatMap_callValueForm (l : List CallValue) :
    (l.flatMap callValueForm).length = (l.map callValueSize).sum := by
  simp only [List.length_flatMap, length_callValueForm]

theorem length_flatMap_writeDispatchCase (l : List DispatchCase) :
    (l.flatMap writeDispatchCase).length = (l.map fun c => optionalSize c.selector + 8).sum := by
  simp only [List.length_flatMap, writeDispatchCase, List.length_append, length_writeOptionalU64,
    length_u64]

theorem length_payload {payload : FactPayload} {w : Bytes}
    (h : encodeNormalizedPayload payload = .ok w) : w.length = payloadSize payload := by
  obtain ⟨body, hbody, h⟩ := bind_eq_ok.1 h
  obtain rfl := pure_eq_ok.1 h
  have hmagic : kPayloadMagic.length = 4 := rfl
  have hlength : body.length + 7 = payloadSize payload := by
    cases payload <;>
      simp only [encodePayloadBody, bind_eq_ok, pure_eq_ok, Writer.string_eq_ok,
        Writer.blob_eq_ok, writeCallValues_eq_ok] at hbody
    case memoryValue =>
      obtain ⟨_, ⟨-, rfl⟩, rfl⟩ := hbody
      simp [payloadSize, length_sized]
      omega
    case stringCandidate =>
      obtain ⟨_, ⟨-, rfl⟩, _, ⟨-, rfl⟩, rfl⟩ := hbody
      simp [payloadSize, length_sized]
      omega
    case functionTrait =>
      obtain ⟨_, ⟨-, rfl⟩, rfl⟩ := hbody
      simp [payloadSize, length_sized]
      omega
    case registerValue =>
      obtain ⟨_, ⟨-, rfl⟩, _, ⟨-, rfl⟩, rfl⟩ := hbody
      simp [payloadSize, length_sized]
      omega
    case callObservation =>
      obtain ⟨_, ⟨-, rfl⟩, _, ⟨-, rfl⟩, rfl⟩ := hbody
      simp only [payloadSize, List.length_append, length_flatMap_callValueForm]
      simp
      omega
    case dispatchMap =>
      obtain rfl := hbody
      simp only [payloadSize, List.length_append, length_flatMap_writeDispatchCase]
      simp
      omega
    all_goals
      obtain rfl := hbody
      simp [payloadSize]
      try omega
  simp only [List.length_append, hmagic, length_u16, List.length_singleton]
  omega

/-! ## Encoding succeeds -/

theorem encodeNormalizedPayload_isOk_iff {payload : FactPayload} :
    (∃ w, encodeNormalizedPayload payload = .ok w) ↔
      (∀ s ∈ payloadStrings payload, s.length ≤ u32Max) ∧
        ∀ b ∈ payloadBlobs payload, b.length ≤ u32Max := by
  have hbody : (∃ w, encodeNormalizedPayload payload = .ok w) ↔
      ∃ w, encodePayloadBody payload = .ok w := by
    simp only [encodeNormalizedPayload, bind_eq_ok, pure_eq_ok]
    exact ⟨fun ⟨_, body, h, _⟩ => ⟨body, h⟩, fun ⟨body, h⟩ => ⟨_, body, h, rfl⟩⟩
  rw [hbody]
  cases payload <;>
    simp only [encodePayloadBody, bind_eq_ok, pure_eq_ok, Writer.string_eq_ok,
      Writer.blob_eq_ok, writeCallValues_eq_ok, payloadStrings, payloadBlobs]
  case callObservation =>
    simp only [List.forall_mem_map, List.forall_mem_append, forall_and]
    constructor
    · rintro ⟨_, _, ⟨ha, -⟩, _, ⟨hr, -⟩, -⟩
      exact ⟨⟨ha.1, hr.1⟩, ha.2, hr.2⟩
    · rintro ⟨⟨hal, hrl⟩, hab, hrb⟩
      exact ⟨_, _, ⟨⟨hal, hab⟩, rfl⟩, _, ⟨⟨hrl, hrb⟩, rfl⟩, rfl⟩
  all_goals simp [and_comm]

/-- A length is at most the size of the whole. -/
theorem length_le_payloadSize {payload : FactPayload} {s : Bytes}
    (hs : s ∈ payloadStrings payload ∨ s ∈ payloadBlobs payload) :
    s.length ≤ payloadSize payload := by
  have hcall : ∀ (l : List CallValue), ∀ v ∈ l, callValueSize v ≤ (l.map callValueSize).sum :=
    fun l v hv => List.le_sum_of_mem (List.mem_map_of_mem hv)
  cases payload <;>
    simp only [payloadStrings, payloadBlobs, List.mem_singleton, List.not_mem_nil, or_false,
      false_or] at hs
  case callObservation fact =>
    have hmem : ∃ v ∈ fact.arguments ++ fact.returns, s.length ≤ callValueSize v := by
      rcases hs with hs | hs <;> obtain ⟨v, hv, rfl⟩ := List.mem_map.1 hs
      · exact ⟨v, hv, by unfold callValueSize; omega⟩
      · exact ⟨v, hv, by unfold callValueSize; omega⟩
    obtain ⟨v, hv, hle⟩ := hmem
    rw [payloadSize]
    rcases List.mem_append.1 hv with hv | hv
    · have := hcall _ v hv
      omega
    · have := hcall _ v hv
      omega
  case stringCandidate =>
    rw [payloadSize]
    rcases hs with rfl | rfl <;> omega
  case registerValue =>
    rw [payloadSize]
    rcases hs with rfl | rfl <;> omega
  all_goals
    obtain rfl := hs
    rw [payloadSize]
    omega

theorem payloadCounts_of_valid {payload : FactPayload} (h : validatePayload payload = .ok ()) :
    ∀ n ∈ payloadCounts payload, n ≤ u32Max := by
  cases payload with
  | dispatchMap fact =>
    simp only [validatePayload, require_bind_eq_ok] at h
    simpa [payloadCounts] using h.2.1
  | callObservation fact =>
    obtain ⟨⟨⟩, harguments, h⟩ := bind_eq_ok.1 h
    obtain ⟨⟨⟩, hreturns, -⟩ := bind_eq_ok.1 h
    simp only [validateCallValues, require_bind_eq_ok] at harguments hreturns
    simpa [payloadCounts] using ⟨harguments.1, hreturns.1⟩
  | _ => simp [payloadCounts]

/-! ## Decoding a payload -/

theorem reads_payload (limits : FactCodecLimits) {payload : FactPayload} {w : Bytes}
    (hvalid : validatePayload payload = .ok ()) (h : encodeNormalizedPayload payload = .ok w) :
    Reads (payloadReader limits) w payload (PayloadWithin limits payload) := by
  obtain ⟨body, hbody, h⟩ := bind_eq_ok.1 h
  obtain rfl := pure_eq_ok.1 h
  have hheader : Reads (FactReader.reporting "unsupported payload codec version" (do
      FactReader.magic kPayloadMagic
      FactReader.version
      FactReader.u8)) (kPayloadMagic ++ (u16 kCodecVersion ++ [code (factKind payload)]))
      (code (factKind payload)) True :=
    FactReader.reads_reporting ((FactReader.reads_magic rfl).andThen
      (FactReader.reads_version.andThen (FactReader.reads_u8 _)))
  have hb : Reads (FactReader.reporting "payload contains an invalid enum or field"
      (decodePayloadBody limits (factKind payload))) body payload (PayloadWithin limits payload) :=
    FactReader.reads_reporting (reads_payloadBody (payloadCounts_of_valid hvalid) hbody)
  simp only [List.append_assoc] at hheader ⊢
  rw [← List.append_assoc (u16 kCodecVersion), ← List.append_assoc kPayloadMagic]
  refine hheader.andThen ?_
  rw [ofCode?_code]
  exact hb

/-- A decoded payload is valid and the input is its encoding. -/
theorem decodePayload_eq_ok {limits : FactCodecLimits} {w : Bytes} {payload : FactPayload}
    (h : decodePayload limits w = .ok payload) :
    validatePayload payload = .ok () ∧ encodeNormalizedPayload payload = .ok w := by
  rw [decodePayload, require_bind_eq_ok] at h
  obtain ⟨⟨decoded, rest⟩, -, h⟩ := bind_eq_ok.1 h.2
  obtain ⟨-, h⟩ := require_bind_eq_ok.1 h
  obtain ⟨normalized, hnormal, h⟩ := bind_eq_ok.1 h
  obtain ⟨canonical, hcanonical, h⟩ := bind_eq_ok.1 h
  obtain ⟨hsame, hresult⟩ := require_bind_eq_ok.1 h
  obtain rfl := pure_eq_ok.1 hresult
  rw [hsame] at hcanonical
  exact ⟨(normalizePayload_eq_ok.1 hnormal).1, hcanonical⟩

theorem decodePayload_iff {limits : FactCodecLimits} {w : Bytes} {payload : FactPayload}
    (hvalid : validatePayload payload = .ok ()) (h : encodeNormalizedPayload payload = .ok w) :
    decodePayload limits w = .ok payload ↔
      w.length ≤ limits.maxFactBytes ∧ PayloadWithin limits payload := by
  have hreads := reads_payload limits hvalid h
  rw [decodePayload, require_bind_eq_ok, bind_eq_ok]
  refine and_congr_right fun _ => ⟨fun ⟨x, hrun, _⟩ => hreads.of_run_ok hrun, fun hwithin => ?_⟩
  have hnormal : normalizePayload payload = .ok payload :=
    normalizePayload_eq_ok.2 ⟨hvalid, normalForm_of_valid hvalid⟩
  exact ⟨_, hreads.run_ok hwithin, require_bind_eq_ok.2 ⟨rfl, bind_eq_ok.2 ⟨_, hnormal,
    bind_eq_ok.2 ⟨_, h, require_bind_eq_ok.2 ⟨rfl, rfl⟩⟩⟩⟩⟩

end Viy.Analysis
