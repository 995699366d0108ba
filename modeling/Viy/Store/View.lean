import Viy.Store.State

/-!
# The latest generation

`latestGenerationView` retires the observations of a producer's older snapshots of a function. The
first pass finds the latest generation of each producer and function over all records, the second
keeps the observations of that generation.
-/

namespace Viy.Analysis

open Wire

/-- A producer and the function it took a snapshot of. -/
abbrev SnapshotKey := Bytes × Address

def snapshotOrder : Cxx.Comparator SnapshotKey := bytesOrder.tie Cxx.Comparator.u64

/-- Evidence without a function is no snapshot. -/
def snapshotKey (evidence : Evidence) : Option SnapshotKey :=
  evidence.scope.functionStart.map fun functionStart => (evidence.producer, functionStart)

abbrev Generations := Cxx.Map snapshotOrder UInt64

/-- One step of the first pass. -/
def noteGeneration (latest : Generations) (evidence : Evidence) : Generations :=
  match snapshotKey evidence with
  | none => latest
  | some key => latest.upsert key fun
    | none => evidence.scope.generation
    | some generation => max generation evidence.scope.generation

def latestGenerations (records : Records) : Generations :=
  (records.entries.flatMap fun entry => entry.2.observations).foldl noteGeneration Cxx.Map.empty

/-- Whether the second pass keeps an observation. -/
def retain (latest : Generations) (evidence : Evidence) : Bool :=
  match snapshotKey evidence with
  | none => true
  | some key => (latest.find key).any fun generation => evidence.scope.generation == generation

/-- The active part of a record, unless no observation is left. -/
def activeRecord (latest : Generations) (record : EvidenceRecord) : Option EvidenceRecord :=
  let observations := record.observations.filter (retain latest)
  if observations.isEmpty then none else some { record with observations }

def EvidenceStore.latestGenerationView (s : EvidenceStore) : EvidenceStore :=
  let latest := latestGenerations s.records
  let active := s.records.entries.filterMap fun entry =>
    (activeRecord latest entry.2).map fun record => (entry.1, record)
  ⟨active.foldl (fun records entry => records.emplace entry.1 entry.2) Cxx.Map.empty, none⟩

theorem activeRecord_eq_some {latest : Generations} {record active : EvidenceRecord} :
    activeRecord latest record = some active ↔ active.observations ≠ [] ∧
      active = { record with observations := record.observations.filter (retain latest) } := by
  rw [activeRecord]
  split_ifs with h
  · rw [List.isEmpty_iff] at h
    simp only [false_iff]
    rintro ⟨hne, rfl⟩
    exact hne h
  · rw [List.isEmpty_iff] at h
    rw [Option.some.injEq]
    constructor
    · rintro rfl
      exact ⟨h, rfl⟩
    · rintro ⟨-, rfl⟩
      rfl

/-- The view holds the active parts of the records under their keys. -/
theorem find_latestGenerationView (s : EvidenceStore) (key : Bytes) :
    s.latestGenerationView.records.find key =
      (s.records.find key).bind (activeRecord (latestGenerations s.records)) :=
  Cxx.Map.find_foldl_emplace_filterMap s.records (activeRecord (latestGenerations s.records)) key

end Viy.Analysis
