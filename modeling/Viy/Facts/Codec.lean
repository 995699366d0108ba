import Viy.Facts.Normalize

/-!
# The canonical codec

`encodePayload`, `encodeEvidence` and `encodeAnalysisFact` with their decoders. Every field has a
fixed width or a 32-bit length in front of it. A decoder reads the fields, validates, encodes the
result again and compares: only the canonical bytes of a value are accepted. A reader's error is
the text of its first `set_error`, empty when a check failed without one.
-/

namespace Viy.Analysis

open Wire

def kCodecVersion : UInt16 := 1

def kPayloadMagic : Bytes := text "VIYP"

def kEvidenceMagic : Bytes := text "VIYE"

def kFactMagic : Bytes := text "VIYF"

/-! ## Writing -/

/-- A byte sequence behind its 32-bit length. -/
def sized (value : Bytes) : Bytes := u32 (UInt32.ofNat value.length) ++ value

namespace Writer

def string (value : Bytes) : Except Bytes Bytes := do
  require (value.length ≤ u32Max) "string exceeds the canonical 32-bit length limit"
  return sized value

def blob (value : Bytes) : Except Bytes Bytes := do
  require (value.length ≤ u32Max) "byte vector exceeds the canonical 32-bit length limit"
  return sized value

end Writer

def writeOptionalU64 : Option UInt64 → Bytes
  | none => [0]
  | some value => 1 :: u64 value

def writeOptionalI64 : Option Int64 → Bytes
  | none => [0]
  | some value => 1 :: i64 value

def writeDispatchCase (dispatchCase : DispatchCase) : Bytes :=
  writeOptionalU64 dispatchCase.selector ++ u64 dispatchCase.target

/-- The loop that writes the arguments or the returns of a call. -/
def writeCallValues : List CallValue → Except Bytes Bytes
  | [] => .ok []
  | value :: rest => do
    let location ← Writer.string value.location
    let bytes ← Writer.blob value.bytes
    let rest ← writeCallValues rest
    return u32 value.ordinal ++ location ++ bytes ++ rest

def encodePayloadBody : FactPayload → Except Bytes Bytes
  | .codeTarget fact =>
    return u64 fact.fromAddr ++ u64 fact.target ++ [code fact.kind] ++ boolean fact.unique
  | .branchReachability fact =>
    return u64 fact.branch ++ u64 fact.successor ++ [code fact.state]
  | .memoryAccess fact =>
    return u64 fact.instruction ++ u64 fact.address ++ u32 fact.size ++ [code fact.kind]
  | .memoryValue fact => do
    let bytes ← Writer.blob fact.bytes
    return u64 fact.instruction ++ u64 fact.address ++ [code fact.kind] ++ bytes
  | .stringCandidate fact => do
    let bytes ← Writer.blob fact.bytes
    let decoded ← Writer.string fact.decoded
    return u64 fact.address ++ [code fact.encoding] ++ bytes ++ decoded ++
      boolean fact.nullTerminated
  | .functionCandidate fact =>
    return u64 fact.entry ++ writeOptionalU64 fact.endAddr ++ [code fact.kind]
  | .functionTrait fact => do
    let textValue ← Writer.string fact.value.textValue
    return u64 fact.function ++ [code fact.trait] ++ [code fact.value.kind] ++
      i64 fact.value.signedValue ++ u64 fact.value.unsignedValue ++
      boolean fact.value.booleanValue ++ textValue
  | .codeRegion fact =>
    return u64 fact.start ++ u64 fact.endAddr ++ [code fact.kind]
  | .dispatchMap fact =>
    return u64 fact.site ++ u32 (UInt32.ofNat fact.cases.length) ++
      fact.cases.flatMap writeDispatchCase ++ writeOptionalU64 fact.defaultTarget ++
      boolean fact.complete
  | .cfgCandidate fact =>
    return u64 fact.fromAddr ++ u64 fact.toAddr ++ [code fact.kind] ++ [code fact.state]
  | .functionOutcome fact =>
    return u64 fact.function ++ [code fact.stop] ++ writeOptionalU64 fact.stopPc ++
      writeOptionalI64 fact.stackDelta ++ writeOptionalU64 fact.instructionCount
  | .registerValue fact => do
    let registerId ← Writer.string fact.registerId
    let bytes ← Writer.blob fact.bytes
    return u64 fact.instruction ++ [code fact.point] ++ registerId ++ bytes
  | .callObservation fact => do
    let arguments ← writeCallValues fact.arguments
    let returns ← writeCallValues fact.returns
    return u64 fact.source ++ writeOptionalU64 fact.target ++ [code fact.kind] ++
      [code fact.result] ++ u32 (UInt32.ofNat fact.arguments.length) ++ arguments ++
      u32 (UInt32.ofNat fact.returns.length) ++ returns

def encodeNormalizedPayload (payload : FactPayload) : Except Bytes Bytes := do
  let body ← encodePayloadBody payload
  return kPayloadMagic ++ u16 kCodecVersion ++ [code (factKind payload)] ++ body

def encodeNormalizedEvidence (evidence : Evidence) : Except Bytes Bytes := do
  let producer ← Writer.string evidence.producer
  let method ← Writer.string evidence.method
  require (evidence.supportAddresses.length ≤ u32Max)
    "support-address vector exceeds the canonical 32-bit item limit"
  let detail ← Writer.string evidence.detail
  return kEvidenceMagic ++ u16 kCodecVersion ++ producer ++ method ++ [code evidence.proof] ++
    u16 evidence.confidence ++ writeOptionalU64 evidence.scope.runId ++
    writeOptionalU64 evidence.scope.seed ++ writeOptionalU64 evidence.scope.functionStart ++
    writeOptionalU64 evidence.scope.functionEnd ++ u64 evidence.scope.generation ++
    u32 (UInt32.ofNat evidence.supportAddresses.length) ++
    evidence.supportAddresses.flatMap u64 ++ detail

def encodePayload (payload : FactPayload) : Except Bytes Bytes := do
  let normalized ← normalizePayload payload
  encodeNormalizedPayload normalized

def encodeEvidence (evidence : Evidence) : Except Bytes Bytes := do
  let normalized ← normalizeEvidence evidence
  encodeNormalizedEvidence normalized

def encodeAnalysisFact (fact : AnalysisFact) : Except Bytes Bytes := do
  let normalized ← normalizeFact fact
  let payloadBytes ← encodeNormalizedPayload normalized.payload
  let evidenceBytes ← encodeNormalizedEvidence normalized.evidence
  let payload ← Writer.blob payloadBytes
  let evidence ← Writer.blob evidenceBytes
  return kFactMagic ++ u16 kCodecVersion ++ payload ++ evidence

/-! ## Reading -/

/-- The reader of the codec; its error is the recorded text. -/
abbrev FactReader := Reader Bytes

namespace FactReader

def truncated : Bytes := text "truncated canonical input"

def u8 : FactReader UInt8 := Reader.u8 truncated

def u16 : FactReader UInt16 := Reader.u16 truncated

def u32 : FactReader UInt32 := Reader.u32 truncated

def u64 : FactReader UInt64 := Reader.u64 truncated

def i64 : FactReader Int64 := Reader.i64 truncated

/-- `read_enum_u8`; an unknown code fails without a text. -/
def enum (α : Type) [Code α] : FactReader α := Reader.enum α truncated []

def magic (expected : Bytes) : FactReader Unit := do
  let actual ← Reader.raw truncated 4
  Reader.guard (actual == expected) (text "canonical input has the wrong magic")

/-- `read_version`; another version fails without a text. -/
def version : FactReader Unit := do
  let version ← u16
  Reader.guard (version == kCodecVersion) []

def boolean : FactReader Bool := do
  let value ← u8
  Reader.guard (value ≤ 1) (text "invalid canonical boolean")
  return value != 0

def optional {α : Type} (readValue : FactReader α) : FactReader (Option α) := do
  let present ← u8
  Reader.guard (present ≤ 1) (text "invalid canonical optional tag")
  if present = 0 then return none
  else return some (← readValue)

section Limits

variable (limits : FactCodecLimits)

def string : FactReader Bytes := do
  let size ← u32
  Reader.guard (size.toNat ≤ limits.maxStringBytes)
    (text "canonical string exceeds configured decode limit")
  Reader.raw (text "truncated canonical string") size.toNat

def blob : FactReader Bytes := do
  let size ← u32
  Reader.guard (size.toNat ≤ limits.maxFactBytes)
    (text "canonical byte vector exceeds configured decode limit")
  Reader.raw (text "truncated canonical byte vector") size.toNat

def count : FactReader ℕ := do
  let count ← u32
  Reader.guard (count.toNat ≤ limits.maxVectorItems)
    (text "canonical vector exceeds configured item limit")
  return count.toNat

def dispatchCase : FactReader DispatchCase := do
  let selector ← optional u64
  let target ← u64
  return { selector, target }

def callValue : FactReader CallValue := do
  let ordinal ← u32
  let location ← string limits
  let bytes ← blob limits
  return { ordinal, location, bytes }

end Limits

/-- `report_reader_error`: a failure without a text gets the fallback. -/
def reporting {α : Type} (fallback : String) (r : FactReader α) : FactReader α :=
  ⟨fun s => match r.run s with
    | .ok result => .ok result
    | .error e => .error (if e = [] then text fallback else e)⟩

end FactReader

def decodePayloadBody (limits : FactCodecLimits) : FactKind → FactReader FactPayload
  | .codeTarget => do
    let fromAddr ← FactReader.u64
    let target ← FactReader.u64
    let kind ← FactReader.enum CodeTargetKind
    let unique ← FactReader.boolean
    return .codeTarget { fromAddr, target, kind, unique }
  | .branchReachability => do
    let branch ← FactReader.u64
    let successor ← FactReader.u64
    let state ← FactReader.enum Reachability
    return .branchReachability { branch, successor, state }
  | .memoryAccess => do
    let instruction ← FactReader.u64
    let address ← FactReader.u64
    let size ← FactReader.u32
    let kind ← FactReader.enum MemoryAccessKind
    return .memoryAccess { instruction, address, size, kind }
  | .memoryValue => do
    let instruction ← FactReader.u64
    let address ← FactReader.u64
    let kind ← FactReader.enum MemoryAccessKind
    let bytes ← FactReader.blob limits
    return .memoryValue { instruction, address, kind, bytes }
  | .stringCandidate => do
    let address ← FactReader.u64
    let encoding ← FactReader.enum StringEncoding
    let bytes ← FactReader.blob limits
    let decoded ← FactReader.string limits
    let nullTerminated ← FactReader.boolean
    return .stringCandidate { address, encoding, bytes, decoded, nullTerminated }
  | .functionCandidate => do
    let entry ← FactReader.u64
    let endAddr ← FactReader.optional FactReader.u64
    let kind ← FactReader.enum FunctionCandidateKind
    return .functionCandidate { entry, endAddr, kind }
  | .functionTrait => do
    let function ← FactReader.u64
    let trait ← FactReader.enum FunctionTraitKind
    let kind ← FactReader.enum TraitValueKind
    let signedValue ← FactReader.i64
    let unsignedValue ← FactReader.u64
    let booleanValue ← FactReader.boolean
    let textValue ← FactReader.string limits
    return .functionTrait
      { function, trait, value := { kind, signedValue, unsignedValue, booleanValue, textValue } }
  | .codeRegion => do
    let start ← FactReader.u64
    let endAddr ← FactReader.u64
    let kind ← FactReader.enum CodeRegionKind
    return .codeRegion { start, endAddr, kind }
  | .dispatchMap => do
    let site ← FactReader.u64
    let count ← FactReader.count limits
    let cases ← FactReader.dispatchCase.many count
    let defaultTarget ← FactReader.optional FactReader.u64
    let complete ← FactReader.boolean
    return .dispatchMap { site, cases, defaultTarget, complete }
  | .cfgCandidate => do
    let fromAddr ← FactReader.u64
    let toAddr ← FactReader.u64
    let kind ← FactReader.enum CfgEdgeKind
    let state ← FactReader.enum Reachability
    return .cfgCandidate { fromAddr, toAddr, kind, state }
  | .functionOutcome => do
    let function ← FactReader.u64
    let stop ← FactReader.enum FunctionStopKind
    let stopPc ← FactReader.optional FactReader.u64
    let stackDelta ← FactReader.optional FactReader.i64
    let instructionCount ← FactReader.optional FactReader.u64
    return .functionOutcome { function, stop, stopPc, stackDelta, instructionCount }
  | .registerValue => do
    let instruction ← FactReader.u64
    let point ← FactReader.enum RegisterStatePoint
    let registerId ← FactReader.string limits
    let bytes ← FactReader.blob limits
    return .registerValue { instruction, point, registerId, bytes }
  | .callObservation => do
    let source ← FactReader.u64
    let target ← FactReader.optional FactReader.u64
    let kind ← FactReader.enum CallKind
    let result ← FactReader.enum CallResult
    let argumentCount ← FactReader.count limits
    let arguments ← (FactReader.callValue limits).many argumentCount
    let returnCount ← FactReader.count limits
    let returns ← (FactReader.callValue limits).many returnCount
    return .callObservation { source, target, kind, result, arguments, returns }

/-- The reading part of `decode_payload`. -/
def payloadReader (limits : FactCodecLimits) : FactReader FactPayload := do
  let rawKind ← FactReader.reporting "unsupported payload codec version" do
    FactReader.magic kPayloadMagic
    FactReader.version
    FactReader.u8
  match ofCode? FactKind rawKind with
  | none => Reader.fail (text "payload has an invalid fact kind")
  | some kind =>
    FactReader.reporting "payload contains an invalid enum or field" (decodePayloadBody limits kind)

def decodePayload (limits : FactCodecLimits) (bytes : Bytes) : Except Bytes FactPayload := do
  require (bytes.length ≤ limits.maxFactBytes) "payload exceeds configured decode limit"
  let (decoded, remaining) ← (payloadReader limits).run bytes
  require (remaining = []) "payload has trailing bytes"
  let normalized ← normalizePayload decoded
  let canonical ← encodeNormalizedPayload normalized
  require (canonical = bytes) "payload is valid but non-canonical"
  return normalized

/-- The fields of `decode_evidence` before the support addresses, with the raw proof byte. -/
def evidenceHeader (limits : FactCodecLimits) : FactReader (UInt8 × Evidence) := do
  FactReader.magic kEvidenceMagic
  FactReader.version
  let producer ← FactReader.string limits
  let method ← FactReader.string limits
  let proof ← FactReader.u8
  let confidence ← FactReader.u16
  let runId ← FactReader.optional FactReader.u64
  let seed ← FactReader.optional FactReader.u64
  let functionStart ← FactReader.optional FactReader.u64
  let functionEnd ← FactReader.optional FactReader.u64
  let generation ← FactReader.u64
  return (proof, {
    producer, method, confidence
    proof := (ofCode? ProofKind proof).getD .unknown
    scope := { runId, seed, functionStart, functionEnd, generation } })

/-- The reading part of `decode_evidence`; the Boolean says whether the proof byte is a code. -/
def evidenceReader (limits : FactCodecLimits) : FactReader (Bool × Evidence) := do
  let (proof, header) ← FactReader.reporting "invalid evidence header" (evidenceHeader limits)
  let supportCount ← FactReader.reporting "invalid evidence support count"
    (FactReader.count limits)
  let supportAddresses ← FactReader.reporting "truncated evidence support addresses"
    (FactReader.u64.many supportCount)
  let detail ← FactReader.reporting "invalid evidence detail" (FactReader.string limits)
  return ((ofCode? ProofKind proof).isSome, { header with supportAddresses, detail })

def decodeEvidence (limits : FactCodecLimits) (bytes : Bytes) : Except Bytes Evidence := do
  require (bytes.length ≤ limits.maxFactBytes) "evidence exceeds configured decode limit"
  let ((proofValid, decoded), remaining) ← (evidenceReader limits).run bytes
  require (remaining = []) "evidence has trailing bytes"
  validateEvidenceWith proofValid decoded
  let canonical ← encodeNormalizedEvidence decoded
  require (canonical = bytes) "evidence is valid but non-canonical"
  return decoded

/-- The reading part of `decode_analysis_fact`. -/
def factReader (limits : FactCodecLimits) : FactReader (Bytes × Bytes) := do
  FactReader.reporting "unsupported analysis-fact codec version" do
    FactReader.magic kFactMagic
    FactReader.version
  FactReader.reporting "invalid length-delimited analysis fact" do
    let payloadBytes ← FactReader.blob limits
    let evidenceBytes ← FactReader.blob limits
    return (payloadBytes, evidenceBytes)

def decodeAnalysisFact (limits : FactCodecLimits) (bytes : Bytes) :
    Except Bytes AnalysisFact := do
  require (bytes.length ≤ limits.maxFactBytes) "analysis fact exceeds configured decode limit"
  let ((payloadBytes, evidenceBytes), remaining) ← (factReader limits).run bytes
  require (remaining = []) "analysis fact has trailing bytes"
  let payload ← decodePayload limits payloadBytes
  let evidence ← decodeEvidence limits evidenceBytes
  let canonical ← encodeAnalysisFact { payload, evidence }
  require (canonical = bytes) "analysis fact is valid but non-canonical"
  return { payload, evidence }

end Viy.Analysis
