import Viy.Cxx.Map
import Viy.Store.Conflict

/-!
# The evidence store

An `EvidenceStore` maps canonical payload bytes to records: a payload with its observations. `add`
normalizes a fact and inserts a record or an observation, keeping the observations sorted and free
of repetitions. The contradiction index is built by the first `new_contradiction` query and from
then on maintained by `add`; its entries are references to map nodes, which stay where they are as
long as the record exists, so an entry is modelled by its key and read in the current records.

SHA-256 is a parameter of everything that uses it.
-/

namespace Viy.Analysis

open Wire

/-! ## Records -/

structure EvidenceRecord where
  payload : FactPayload
  observations : List Evidence
  deriving DecidableEq

/-- The map of the ledger, in the order of the canonical payload bytes. -/
abbrev Records := Cxx.Map bytesOrder EvidenceRecord

/-! ## The contradiction index -/

/-- A group, an address, and a second address or a kind. -/
abbrev Subject := UInt8 × Address × Address

def subjectOrder : Cxx.Comparator Subject :=
  Cxx.Comparator.u8.tie (Cxx.Comparator.u64.tie Cxx.Comparator.u64)

/-- The subject on which a payload can contradict another one; regions have none. -/
def subject : FactPayload → Option Subject
  | .codeTarget fact => some (1, fact.fromAddr, (code fact.kind).toUInt64)
  | .branchReachability fact => some (2, fact.branch, fact.successor)
  | .cfgCandidate fact => some (2, fact.fromAddr, fact.toAddr)
  | .functionTrait fact => if isReturnTrait fact.trait then some (3, fact.function, 0) else none
  | .functionOutcome fact => if fact.stop == .returned then some (3, fact.function, 0) else none
  | .dispatchMap fact => some (4, fact.site, 0)
  | _ => none

structure ContradictionIndex where
  subjects : Cxx.Map subjectOrder (List Bytes)
  regions : Cxx.MultiMap Cxx.Comparator.u64 Bytes
  maximumRegionSize : Address

namespace ContradictionIndex

def empty : ContradictionIndex := ⟨Cxx.Map.empty, Cxx.MultiMap.empty, 0⟩

def insert (index : ContradictionIndex) (key : Bytes) (payload : FactPayload) :
    ContradictionIndex :=
  match subject payload with
  | some grouped => { index with subjects := index.subjects.pushBack grouped key }
  | none =>
    match payload with
    | .codeRegion region =>
      { index with
        regions := index.regions.emplace region.start key
        maximumRegionSize := max index.maximumRegionSize (region.endAddr - region.start) }
    | _ => index

/-- The index of all records, as a query builds it. -/
def build (records : Records) : ContradictionIndex :=
  records.entries.foldl (fun index entry => index.insert entry.1 entry.2.payload) empty

end ContradictionIndex

/-! ## The store -/

@[ext]
structure EvidenceStore where
  records : Records
  contradictionIndex : Option ContradictionIndex

inductive AddDisposition where
  | insertedRecord | addedObservation | duplicateObservation | rejectedInvalid
  deriving DecidableEq

structure AddResult where
  disposition : AddDisposition
  payloadDigest : FactDigest
  error : Bytes

namespace EvidenceStore

def empty : EvidenceStore := ⟨Cxx.Map.empty, none⟩

/-- The result of a rejected fact. -/
def rejected (error : Bytes) : AddResult := ⟨.rejectedInvalid, FactDigest.zero, error⟩

/-- Insert a normalized fact under its key. -/
def addNormalized (s : EvidenceStore) (key : Bytes) (fact : AnalysisFact) :
    EvidenceStore × AddDisposition :=
  match s.records.find key with
  | none =>
    ({ records := s.records.emplace key ⟨fact.payload, [fact.evidence]⟩
       contradictionIndex := s.contradictionIndex.map fun index => index.insert key fact.payload },
      .insertedRecord)
  | some record =>
    let position := Cxx.lowerBound evidenceLess record.observations fact.evidence
    if position.2.head?.any fun found => evidenceEqual found fact.evidence then
      (s, .duplicateObservation)
    else
      ({ s with records := s.records.upsert key fun _ =>
          { record with observations := position.1 ++ fact.evidence :: position.2 } },
        .addedObservation)

def add (sha : Bytes → FactDigest) (s : EvidenceStore) (fact : AnalysisFact) :
    EvidenceStore × AddResult :=
  match normalizeFact fact with
  | .error error => (s, rejected error)
  | .ok fact =>
    match encodePayload fact.payload with
    | .error error => (s, rejected error)
    | .ok key =>
      let (s', disposition) := s.addNormalized key fact
      (s', ⟨disposition, sha key, []⟩)

def clear (_ : EvidenceStore) : EvidenceStore := empty

def recordCount (s : EvidenceStore) : ℕ := s.records.entries.length

def observationCount (s : EvidenceStore) : ℕ :=
  (s.records.entries.map fun entry => entry.2.observations.length).sum

def flattenedFacts (s : EvidenceStore) : List AnalysisFact :=
  s.records.entries.flatMap fun entry =>
    entry.2.observations.map fun evidence => ⟨entry.2.payload, evidence⟩

def find (s : EvidenceStore) (payload : FactPayload) : Option EvidenceRecord :=
  match encodePayload payload with
  | .error _ => none
  | .ok key => s.records.find key

theorem find_eq_some {s : EvidenceStore} {payload : FactPayload} {record : EvidenceRecord} :
    s.find payload = some record ↔
      ∃ key, encodePayload payload = .ok key ∧ s.records.find key = some record := by
  rw [find]
  rcases encodePayload payload with error | key <;> simp

/-- Copy construction and assignment take the records and leave the index behind. -/
def copy (s : EvidenceStore) : EvidenceStore := ⟨s.records, none⟩

end EvidenceStore

end Viy.Analysis
