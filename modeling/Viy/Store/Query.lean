import Viy.Store.Detect

/-!
# Contradictions of a new payload

`newContradiction` asks for the first contradiction that activating a payload would introduce. It
looks only at the records the contradiction index offers for the payload's subject, or at the
regions whose start lies in a window around the payload's region, and builds the index if the store
has none.
-/

namespace Viy.Analysis

open Wire

/-- Whether an observation is in the view of a generation; zero selects all observations. -/
def Evidence.active (generation : UInt64) (evidence : Evidence) : Bool :=
  generation == 0 || evidence.scope.generation == generation || evidence.proof == .userAsserted

def EvidenceRecord.active (generation : UInt64) (record : EvidenceRecord) : Bool :=
  record.observations.any (Evidence.active generation)

/-- `stable_digest` into a digest that starts out zero. -/
def stableDigest (sha : Bytes → FactDigest) (payload : FactPayload) : FactDigest :=
  match encodePayload payload with
  | .ok encoded => sha encoded
  | .error _ => FactDigest.zero

def FactPayload.region? : FactPayload → Option CodeRegionFact
  | .codeRegion fact => some fact
  | _ => none

/-- The record an index entry refers to. -/
def Records.deref (records : Records) (key : Bytes) : Option (Bytes × EvidenceRecord) :=
  (records.find key).map fun record => (key, record)

/-- The records in the bucket of a subject. -/
def subjectCandidates (records : Records) (index : ContradictionIndex) (grouped : Subject) :
    List (Bytes × EvidenceRecord) :=
  ((index.subjects.find grouped).getD []).filterMap records.deref

/-- The lowest start of a region that can reach the given one. -/
def windowStart (span : Address) (region : CodeRegionFact) : Address :=
  if region.start > span then region.start - span else 0

/-- Whether the scan of the region window compares a record. -/
def regionCandidate (region : CodeRegionFact) (record : EvidenceRecord) : Bool :=
  match record.payload with
  | .codeRegion other =>
    other.endAddr > region.start && regionKindsIncompatible region.kind other.kind
  | _ => false

def regionCandidates (records : Records) (index : ContradictionIndex) (region : CodeRegionFact) :
    List (Bytes × EvidenceRecord) :=
  let window := index.regions.window (windowStart index.maximumRegionSize region) region.endAddr
  (window.filterMap fun entry => records.deref entry.2).filter fun entry =>
    regionCandidate region entry.2

section Query

variable (sha : Bytes → FactDigest)

def operandOf (payload : FactPayload) : Operand := ⟨payload, stableDigest sha payload⟩

/-- The contradictions of a payload with one record, in ledger pair order. -/
def contradictionsWith (payload : FactPayload) (key : Bytes) (generation : UInt64)
    (entry : Bytes × EvidenceRecord) : List EvidenceConflict :=
  if !entry.2.active generation then []
  else if bytesOrder.less key entry.1 then
    comparePayloads true (operandOf sha payload) (operandOf sha entry.2.payload)
  else comparePayloads true (operandOf sha entry.2.payload) (operandOf sha payload)

/-- The records the index offers for a payload. -/
def candidates (records : Records) (index : ContradictionIndex) (payload : FactPayload) :
    List (Bytes × EvidenceRecord) :=
  match subject payload, payload.region? with
  | some grouped, _ => subjectCandidates records index grouped
  | none, some region => regionCandidates records index region
  | none, none => []

/-- The indexed scan for a payload that has no active record. -/
def EvidenceStore.scanCandidates (s : EvidenceStore) (payload : FactPayload) (key : Bytes)
    (generation : UInt64) : Option EvidenceConflict × ContradictionScanStats × EvidenceStore :=
  let index := s.contradictionIndex.getD (ContradictionIndex.build s.records)
  let offered := candidates s.records index payload
  let conflicts := offered.flatMap (contradictionsWith sha payload key generation)
  -- the digest cache holds the payload and every record it conflicts with
  let conflicting := offered.filter fun entry =>
    !(contradictionsWith sha payload key generation entry).isEmpty
  (Cxx.minElement conflictLess conflicts,
    { recordsIndexed := if s.contradictionIndex.isSome then 0 else s.recordCount
      candidateRelationsExamined := offered.length
      payloadDigestsComputed := if conflicting.isEmpty then 0 else conflicting.length + 1 },
    { s with contradictionIndex := some index })

/-- The answer, the statistics, and the store with the index the query leaves behind. -/
def EvidenceStore.newContradiction (s : EvidenceStore) (payload : FactPayload)
    (generation : UInt64) : Option EvidenceConflict × ContradictionScanStats × EvidenceStore :=
  if (subject payload).isNone && payload.region?.isNone then (none, {}, s)
  else
    match encodePayload payload with
    | .error _ => (none, {}, s)
    | .ok key =>
      if (s.records.find key).any (EvidenceRecord.active generation) then (none, {}, s)
      else s.scanCandidates sha payload key generation

end Query

end Viy.Analysis
