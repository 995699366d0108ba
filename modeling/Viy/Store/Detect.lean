import Viy.Store.State

/-!
# Scanning a store for conflicts

`detectConflicts` compares the records that share a subject, bucket by bucket, and the regions in an
interval sweep. `contradictedPayloadDigests` is the scan of the automatic application: it marks the
participants of contradictions with loops of its own.
-/

namespace Viy.Analysis

open Wire

/-- A record of the ledger with its position in key order. -/
structure Indexed where
  index : ℕ
  key : Bytes
  payload : FactPayload

/-- The records in key order. -/
def EvidenceStore.ordered (s : EvidenceStore) : List Indexed :=
  s.records.entries.zipIdx.map fun x => ⟨x.2, x.1.1, x.1.2.payload⟩

/-! ## Bucket keys -/

def codeTargetKey : FactPayload → Option (Address × UInt8)
  | .codeTarget fact => some (fact.fromAddr, code fact.kind)
  | _ => none

def edgeKey : FactPayload → Option (Address × Address)
  | .branchReachability fact => some (fact.branch, fact.successor)
  | .cfgCandidate fact => some (fact.fromAddr, fact.toAddr)
  | _ => none

def memoryValueKey : FactPayload → Option (Address × Address × UInt8)
  | .memoryValue fact => some (fact.instruction, fact.address, code fact.kind)
  | _ => none

def stringKey : FactPayload → Option Address
  | .stringCandidate fact => some fact.address
  | _ => none

def functionCandidateKey : FactPayload → Option Address
  | .functionCandidate fact => some fact.entry
  | _ => none

def functionEvidenceKey : FactPayload → Option Address
  | .functionTrait fact => some fact.function
  | .functionOutcome fact => some fact.function
  | _ => none

def dispatchMapKey : FactPayload → Option Address
  | .dispatchMap fact => some fact.site
  | _ => none

def registerKey : FactPayload → Option (Address × UInt8 × Bytes)
  | .registerValue fact => some (fact.instruction, code fact.point, fact.registerId)
  | _ => none

def callKey : FactPayload → Option Address
  | .callObservation fact => some fact.source
  | _ => none

/-! ## Regions -/

/-- A region record. -/
structure IndexedRegion where
  entry : Indexed
  fact : CodeRegionFact

def Indexed.region? (entry : Indexed) : Option IndexedRegion :=
  match entry.payload with
  | .codeRegion fact => some ⟨entry, fact⟩
  | _ => none

/-- The sort key of the sweep. -/
def IndexedRegion.sweepKey (r : IndexedRegion) : Address × Address × ℕ :=
  (r.fact.start, r.fact.endAddr, r.entry.index)

def sweepOrder : Cxx.Comparator (Address × Address × ℕ) :=
  Cxx.Comparator.u64.tie (Cxx.Comparator.u64.tie Cxx.Comparator.nat)

/-- The regions in sweep order. -/
def sweepRegions (ordered : List Indexed) : List IndexedRegion :=
  Cxx.sort (fun lhs rhs => sweepOrder.less lhs.sweepKey rhs.sweepKey)
    (ordered.filterMap Indexed.region?)

/-- The pairs the sweep visits: it leaves a region at the first one that starts behind it. -/
def regionPairs (ordered : List Indexed) : List (IndexedRegion × IndexedRegion) :=
  Cxx.sweep (fun left right => right.fact.start ≥ left.fact.endAddr) (sweepRegions ordered)

/-! ## All conflicts -/

section Detect

variable (sha : Bytes → FactDigest)

/-- A record with its digest in the accumulator. -/
def Indexed.operand (entry : Indexed) : Operand := ⟨entry.payload, sha entry.key⟩

/-- The comparison of two records in the order given. -/
def compareIndexed (pair : Indexed × Indexed) : List EvidenceConflict :=
  comparePayloads false (pair.1.operand sha) (pair.2.operand sha)

def compareBuckets {κ : Type} (c : Cxx.Comparator κ) (key : FactPayload → Option κ)
    (ordered : List Indexed) : List EvidenceConflict :=
  (Cxx.Map.bucketPairs c (fun entry => key entry.payload) ordered).flatMap (compareIndexed sha)

def EvidenceStore.detectConflicts (s : EvidenceStore) : List EvidenceConflict :=
  let ordered := s.ordered
  let u8 := Cxx.Comparator.u8
  let u64 := Cxx.Comparator.u64
  let conflicts :=
    compareBuckets sha (u64.tie u8) codeTargetKey ordered ++
    compareBuckets sha (u64.tie u64) edgeKey ordered ++
    compareBuckets sha (u64.tie (u64.tie u8)) memoryValueKey ordered ++
    compareBuckets sha u64 stringKey ordered ++
    compareBuckets sha u64 functionCandidateKey ordered ++
    compareBuckets sha u64 functionEvidenceKey ordered ++
    compareBuckets sha u64 dispatchMapKey ordered ++
    compareBuckets sha (u64.tie (u8.tie bytesOrder)) registerKey ordered ++
    compareBuckets sha u64 callKey ordered ++
    (regionPairs ordered).flatMap fun pair => compareIndexed sha (pair.1.entry, pair.2.entry)
  Cxx.sortUnique conflictLess conflictsEqual conflicts

end Detect

/-! ## Contradicted payloads -/

structure ContradictionScanStats where
  recordsIndexed : ℕ := 0
  candidateRelationsExamined : ℕ := 0
  payloadDigestsComputed : ℕ := 0

/-- What a loop of the scan does: the relations it counts and the records it marks, in order. -/
structure ScanEffect where
  relations : ℕ
  marks : List Indexed

namespace ScanEffect

/-- A double loop that counts every pair and marks both sides of those that contradict. -/
def ofPairs (contradict : FactPayload → FactPayload → Bool) (pairs : List (Indexed × Indexed)) :
    ScanEffect :=
  ⟨pairs.length, pairs.flatMap fun pair =>
    if contradict pair.1.payload pair.2.payload then [pair.1, pair.2] else []⟩

instance : Append ScanEffect := ⟨fun a b => ⟨a.relations + b.relations, a.marks ++ b.marks⟩⟩

/-- One loop after the other. -/
def sequence (effects : List ScanEffect) : ScanEffect :=
  ⟨(effects.map ScanEffect.relations).sum, effects.flatMap ScanEffect.marks⟩

end ScanEffect

def codeTargetsContradict : FactPayload → FactPayload → Bool
  | .codeTarget left, .codeTarget right =>
    left.target != right.target && (left.unique || right.unique)
  | _, _ => false

def edgeState : FactPayload → Option Reachability
  | .branchReachability fact => some fact.state
  | .cfgCandidate fact => some fact.state
  | _ => none

def edgesContradict (left right : FactPayload) : Bool :=
  match edgeState left, edgeState right with
  | some left, some right => oppositeReachability left right
  | _, _ => false

def isReturns : FactPayload → Bool
  | .functionTrait fact => fact.trait == .returns
  | _ => false

def isNoReturn : FactPayload → Bool
  | .functionTrait fact => fact.trait == .noReturn
  | _ => false

def isReturnedOutcome : FactPayload → Bool
  | .functionOutcome fact => fact.stop == .returned
  | _ => false

/-- The loop over one bucket of function evidence: it counts two relations at most and marks whole
lists. -/
def functionEffect (bucket : List Indexed) : ScanEffect :=
  let returns := bucket.filter fun entry => isReturns entry.payload
  let noReturns := bucket.filter fun entry => isNoReturn entry.payload
  let returnedOutcomes := bucket.filter fun entry => isReturnedOutcome entry.payload
  (if !returns.isEmpty && !noReturns.isEmpty then ⟨1, returns ++ noReturns⟩ else ⟨0, []⟩) ++
    (if !noReturns.isEmpty && !returnedOutcomes.isEmpty then ⟨1, noReturns ++ returnedOutcomes⟩
    else ⟨0, []⟩)

def dispatchesContradict : FactPayload → FactPayload → Bool
  | .dispatchMap left, .dispatchMap right => dispatchMapsContradict left right
  | _, _ => false

def regionEffect (ordered : List Indexed) : ScanEffect :=
  let pairs := regionPairs ordered
  ⟨pairs.length, pairs.flatMap fun pair =>
    if regionKindsIncompatible pair.1.fact.kind pair.2.fact.kind then
      [pair.1.entry, pair.2.entry] else []⟩

/-- All loops of `contradicted_payload_digests`. -/
def contradictionScan (ordered : List Indexed) : ScanEffect :=
  let u8 := Cxx.Comparator.u8
  let u64 := Cxx.Comparator.u64
  .ofPairs codeTargetsContradict
      (Cxx.Map.bucketPairs (u64.tie u8) (fun e => codeTargetKey e.payload) ordered) ++
    .ofPairs edgesContradict
      (Cxx.Map.bucketPairs (u64.tie u64) (fun e => edgeKey e.payload) ordered) ++
    .sequence ((Cxx.Map.group u64 (fun e => functionEvidenceKey e.payload) ordered).entries.map
      fun bucket => functionEffect bucket.2) ++
    .ofPairs dispatchesContradict
      (Cxx.Map.bucketPairs u64 (fun e => dispatchMapKey e.payload) ordered) ++
    regionEffect ordered

/-- The digests of the marked records and the statistics; the counters stop at `SIZE_MAX`. -/
def EvidenceStore.contradictedPayloadDigests (sha : Bytes → FactDigest) (s : EvidenceStore) :
    Finset FactDigest × ContradictionScanStats :=
  let scan := contradictionScan s.ordered
  ((scan.marks.map fun entry => sha entry.key).toFinset,
    { recordsIndexed := s.recordCount
      candidateRelationsExamined := min scan.relations u64Max
      payloadDigestsComputed := min (scan.marks.map Indexed.index).dedup.length u64Max })

end Viy.Analysis
