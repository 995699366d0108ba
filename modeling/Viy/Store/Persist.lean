import Viy.Store.Query
import Viy.Store.View

/-!
# Merging, serialization and reachable stores

`merge` adds the facts of another store. `serialize` writes an envelope of magic, version,
observation count, length-delimited facts and a digest of all that; `deserialize` accepts an
envelope only if its facts come in strict ledger order and it is the serialization of the store it
yields. `Reachable` are the stores any history of operations can produce.
-/

namespace Viy.Analysis

open Wire

structure MergeReport where
  insertedRecords : ℕ := 0
  addedObservations : ℕ := 0
  duplicateObservations : ℕ := 0
  rejectedObservations : ℕ := 0
  recordsAfter : ℕ := 0
  observationsAfter : ℕ := 0
  conflictsAfter : ℕ := 0
  errors : List Bytes := []

def MergeReport.count (report : MergeReport) (result : AddResult) : MergeReport :=
  match result.disposition with
  | .insertedRecord => { report with insertedRecords := report.insertedRecords + 1 }
  | .addedObservation => { report with addedObservations := report.addedObservations + 1 }
  | .duplicateObservation =>
    { report with duplicateObservations := report.duplicateObservations + 1 }
  | .rejectedInvalid =>
    { report with
      rejectedObservations := report.rejectedObservations + 1
      errors := report.errors ++ [result.error] }

def kStoreMagic : Bytes := text "VIYEVDB" ++ [0]

def kStoreMajor : UInt16 := 1

def kStoreMinor : UInt16 := 0

def kStoreFlagSha256 : UInt32 := 1

def kDigestSize : ℕ := 32

structure StoreCodecLimits where
  maxBlobBytes : ℕ := 64 * 1024 * 1024
  maxObservations : ℕ := 1000000
  factLimits : FactCodecLimits := {}

inductive RestoreMode where
  | replace | merge
  deriving DecidableEq

/-! ## Reading an envelope -/

abbrev StoreReader := Reader Bytes

namespace StoreReader

def truncated : Bytes := text "truncated evidence-store envelope"

def magic : StoreReader Unit := do
  let actual ← Reader.raw truncated 8
  Reader.guard (actual == kStoreMagic) (text "evidence-store envelope has the wrong magic")

/-- The header behind the magic; the result is the observation count. -/
def header (limits : StoreCodecLimits) : StoreReader ℕ := do
  magic
  let major ← Reader.u16 truncated
  let minor ← Reader.u16 truncated
  let flags ← Reader.u32 truncated
  let count ← Reader.u64 truncated
  Reader.guard (major == kStoreMajor && minor == kStoreMinor)
    (text "unsupported evidence-store schema version")
  Reader.guard (flags == kStoreFlagSha256) (text "unsupported evidence-store feature flags")
  Reader.guard (count.toNat ≤ limits.maxObservations)
    (text "evidence-store observation count exceeds configured limit")
  return count.toNat

/-- One length-delimited fact. -/
def fact (limits : StoreCodecLimits) : StoreReader AnalysisFact := do
  let factSize ← Reader.u32 truncated
  Reader.guard (factSize.toNat ≤ limits.factLimits.maxFactBytes)
    (text "encoded fact exceeds configured decode limit")
  let factBytes ← Reader.raw (text "truncated length-delimited fact in evidence store")
    factSize.toNat
  Reader.lift ((decodeAnalysisFact limits.factLimits factBytes).mapError fun error =>
    text "invalid fact in evidence store: " ++ error)

end StoreReader

namespace EvidenceStore

section Sha

variable (sha : Bytes → FactDigest)

/-! ## Merging -/

/-- The loop of `merge`. -/
def addAll (s : EvidenceStore) (facts : List AnalysisFact) : EvidenceStore × MergeReport :=
  facts.foldl (fun state fact =>
    let (s', result) := state.1.add sha fact
    (s', state.2.count result)) (s, {})

def merge (s other : EvidenceStore) (countConflicts : Bool) : EvidenceStore × MergeReport :=
  let (s', report) := s.addAll sha other.flattenedFacts
  (s', { report with
    recordsAfter := s'.recordCount
    observationsAfter := s'.observationCount
    conflictsAfter := if countConflicts then (s'.detectConflicts sha).length else 0 })

/-! ## Serialization -/

/-- The loop of `serialize`. -/
def encodeFacts : List AnalysisFact → Except Bytes Bytes
  | [] => .ok []
  | fact :: rest => do
    let encoded ← encodeAnalysisFact fact
    require (encoded.length ≤ u32Max) "encoded analysis fact exceeds store length limit"
    let rest ← encodeFacts rest
    return sized encoded ++ rest

def serialize (s : EvidenceStore) : Except Bytes Bytes := do
  let facts := s.flattenedFacts
  require (facts.length ≤ u64Max) "evidence store contains too many observations to serialize"
  let body ← encodeFacts facts
  let envelope := kStoreMagic ++ u16 kStoreMajor ++ u16 kStoreMinor ++ u32 kStoreFlagSha256 ++
    u64 (UInt64.ofNat facts.length) ++ body
  return envelope ++ (sha envelope).bytes

/-- The loop of `deserialize`, with the fact before the current one and the store so far. -/
def readFacts (limits : StoreCodecLimits) :
    ℕ → Option AnalysisFact → EvidenceStore → StoreReader EvidenceStore
  | 0, _, decoded => return decoded
  | n + 1, previous, decoded => do
    let fact ← StoreReader.fact limits
    Reader.guard (previous.all fun previous => analysisFactLess previous fact)
      (text "evidence-store observations are duplicated or non-canonical")
    let added := decoded.add sha fact
    Reader.guard (added.2.disposition != .duplicateObservation &&
        added.2.disposition != .rejectedInvalid)
      (text "evidence-store contains a duplicate or rejected observation")
    readFacts limits n (some fact) added.1

/-- The reading part of `deserialize`. -/
def envelopeReader (limits : StoreCodecLimits) : StoreReader EvidenceStore := do
  let count ← StoreReader.header limits
  readFacts sha limits count none empty

def deserialize (limits : StoreCodecLimits) (blob : Bytes) : Except Bytes EvidenceStore := do
  require (blob.length ≤ limits.maxBlobBytes)
    "evidence-store blob exceeds configured decode limit"
  require (56 ≤ blob.length) "evidence-store blob is too short"
  let envelope := blob.take (blob.length - kDigestSize)
  require ((sha envelope).bytes = blob.drop (blob.length - kDigestSize))
    "evidence-store SHA-256 integrity check failed"
  let (decoded, remaining) ← (envelopeReader sha limits).run envelope
  require (remaining = []) "evidence-store envelope has trailing bytes"
  let canonical ← (decoded.serialize sha).mapError fun error =>
    text "failed to re-encode evidence store: " ++ error
  require (canonical = blob) "evidence-store blob is valid but non-canonical"
  return decoded

/-! ## Persistence -/

/-- The text an adapter failure is reported with. -/
def adapterError (fallback : String) (error : Bytes) : Bytes :=
  if error = [] then text fallback else error

/-- `persist` through the `write_blob` of an adapter, with the effects the adapter has. -/
def persist {m : Type → Type} [Monad m] (s : EvidenceStore)
    (writeBlob : Bytes → m (Except Bytes Unit)) : m (Except Bytes Unit) :=
  match s.serialize sha with
  | .error error => return .error error
  | .ok blob => do
    return (← writeBlob blob).mapError (adapterError "persistence adapter write failed")

/-- `restore`; `answer` is what the adapter's `read_blob` returned. -/
def restore (s : EvidenceStore) (answer : Except Bytes Bytes) (mode : RestoreMode)
    (withReport : Bool) (limits : StoreCodecLimits) :
    EvidenceStore × Except Bytes MergeReport :=
  match answer with
  | .error error => (s, .error (adapterError "persistence adapter read failed" error))
  | .ok blob =>
    match deserialize sha limits blob with
    | .error error => (s, .error error)
    | .ok decoded =>
      match mode with
      | .replace =>
        (decoded, .ok {
          insertedRecords := decoded.recordCount
          addedObservations := decoded.observationCount - decoded.recordCount
          recordsAfter := decoded.recordCount
          observationsAfter := decoded.observationCount
          conflictsAfter := if withReport then (decoded.detectConflicts sha).length else 0 })
      | .merge =>
        let (merged, report) := s.merge sha decoded withReport
        (merged, .ok report)

/-! ## Reachable stores -/

/-- The stores that histories of operations produce. A move leaves the target with the source's
state and the source empty, so it needs no case of its own. -/
inductive Reachable : EvidenceStore → Prop
  | empty : Reachable empty
  | add {s : EvidenceStore} (fact : AnalysisFact) : Reachable s → Reachable (s.add sha fact).1
  | merge {s other : EvidenceStore} (countConflicts : Bool) :
    Reachable s → Reachable other → Reachable (s.merge sha other countConflicts).1
  | clear {s : EvidenceStore} : Reachable s → Reachable s.clear
  | copy {s : EvidenceStore} : Reachable s → Reachable s.copy
  | latestGenerationView {s : EvidenceStore} : Reachable s → Reachable s.latestGenerationView
  | query {s : EvidenceStore} (payload : FactPayload) (generation : UInt64) :
    Reachable s → Reachable (s.newContradiction sha payload generation).2.2
  | deserialize {s : EvidenceStore} {limits : StoreCodecLimits} {blob : Bytes} :
    EvidenceStore.deserialize sha limits blob = .ok s → Reachable s
  | restore {s : EvidenceStore} (answer : Except Bytes Bytes) (mode : RestoreMode)
    (withReport : Bool) (limits : StoreCodecLimits) :
    Reachable s → Reachable (s.restore sha answer mode withReport limits).1

end Sha

end EvidenceStore

end Viy.Analysis
