import Viy.Lifecycle.Generations

/-!
# Epochs and the dynamic cache

An epoch takes a snapshot of the image, gives every function its generation and submits one
emulation job for each. A completed job puts its fingerprint into the dynamic cache; a function
whose fingerprint is cached is submitted without runs. Identities are rebuilt in every epoch from
the functions that are present, the cache is kept.

The trace of a run says which epochs began and which jobs recorded evidence under which generation.
-/

namespace Viy

open Analysis

/-- What an epoch finds. A fingerprint was computed from a content hash and a byte hash, which
`contentOf` and `byteOf` give back. -/
structure Epoch (contentOf byteOf : UInt64 → UInt64) where
  contentHash : UInt64
  /-- The snapshot; the generations in it are not yet assigned. -/
  entries : List FuncRange
  /-- The fingerprint of the job for the function at a start. -/
  fingerprint : UInt64 → UInt64
  /-- Whether the emulator is loaded. -/
  dynamic : Bool
  distinct : (entries.map FuncRange.start).Nodup
  determined : ∀ f ∈ entries, contentOf (fingerprint f.start) = contentHash ∧
    byteOf (fingerprint f.start) = f.byteHash

/-- A submitted job; `cacheHit` means that its runs were dropped. -/
structure WorkerJobInfo where
  index : ℕ
  fingerprint : UInt64
  cacheHit : Bool

/-- The fields of `viy_t` that decide generations and cache hits. -/
structure Sweep where
  allocator : EvidenceGenerationAllocator
  priorContentHash : Option UInt64 := none
  identities : Identities := Cxx.Map.empty
  dynamicCache : Cxx.Map Cxx.Comparator.u64 UInt64 := Cxx.Map.empty
  providerGeneration : UInt64 := 0
  entries : List FuncRange := []
  fingerprint : UInt64 → UInt64 := fun _ => 0
  /-- Whether there is a worker pool. -/
  workers : Bool := false
  next : ℕ := 0
  /-- `worker_jobs`, the oldest ticket first. -/
  jobs : List WorkerJobInfo := []

namespace Sweep

/-! ## The begin of an epoch -/

/-- The first pass: a function keeps its generation with its bytes, in an image that is the same. -/
def keptIdentity (s : Sweep) (contentHash : UInt64) (function : FuncRange) : Option UInt64 :=
  if s.priorContentHash = some contentHash then
    match s.identities.find function.start with
    | some old => if old.byteHash = function.byteHash then some old.generation else none
    | none => none
  else none

def identitiesOf (entries : List FuncRange) : Identities :=
  (entries.map fun f => (f.start, FunctionEvidenceIdentity.mk f.byteHash f.generation)).foldl
    (fun identities entry => identities.emplace entry.1 entry.2) Cxx.Map.empty

def assignFunctionGenerations (s : Sweep) (contentHash : UInt64) (entries : List FuncRange) :
    Option Sweep := do
  let (entries, allocator) ← assignGenerations (s.keptIdentity contentHash) entries 0 s.allocator
  return { s with
    allocator := allocator
    entries := entries
    identities := identitiesOf entries
    priorContentHash := some contentHash }

/-- The cache holds the fingerprint of the job for a start. -/
def cached (s : Sweep) (start : UInt64) : Bool :=
  s.dynamicCache.find start == some (s.fingerprint start)

/-- The second pass: a function keeps its generation when its job is cached. -/
def keptJob (s : Sweep) (function : FuncRange) : Option UInt64 :=
  if s.cached function.start then some function.generation else none

/-- A new generation in an identity that exists. -/
def setGeneration (identities : Identities) (function : FuncRange) : Identities :=
  match identities.find function.start with
  | none => identities
  | some identity =>
    identities.upsert function.start fun _ => { identity with generation := function.generation }

def assignEmulationGenerations (s : Sweep) : Option Sweep := do
  let (entries, allocator) ← assignGenerations s.keptJob s.entries 0 s.allocator
  return { s with
    allocator := allocator
    entries := entries
    identities := entries.foldl (fun identities function =>
      if s.cached function.start then identities else setGeneration identities function)
      s.identities }

variable {contentOf byteOf : UInt64 → UInt64}

/-- The jobs of the epoch before are dropped with its workers. -/
def dropJobs (s : Sweep) (fingerprint : UInt64 → UInt64) : Sweep :=
  { s with next := 0, jobs := [], workers := false, fingerprint := fingerprint }

def allocateProviderGeneration (s : Sweep) : Option Sweep := do
  let (generation, allocator) ← s.allocator.allocate
  return { s with allocator := allocator, providerGeneration := generation }

/-- `begin_epoch` -/
def beginEpoch (s : Sweep) (e : Epoch contentOf byteOf) : Option Sweep := do
  let s ← (s.dropJobs e.fingerprint).assignFunctionGenerations e.contentHash e.entries
  let s ← s.allocateProviderGeneration
  if e.dynamic && !e.entries.isEmpty then
    return { ← s.assignEmulationGenerations with workers := true }
  else return s

/-- A new sweep begins with an empty cache. -/
def restart (s : Sweep) : Sweep := { s with dynamicCache := Cxx.Map.empty }

/-! ## Jobs -/

/-- Submit the job of the next function. -/
def submit (s : Sweep) : Option Sweep :=
  match s.workers, s.entries[s.next]? with
  | true, some function => some { s with
      next := s.next + 1
      jobs := s.jobs ++ [⟨s.next, s.fingerprint function.start, s.cached function.start⟩] }
  | _, _ => none

/-- Apply the result of the oldest job; a completed one is cached. -/
def deliver (s : Sweep) (completed : Bool) : Option Sweep :=
  match s.jobs with
  | [] => none
  | job :: jobs =>
    match s.entries[job.index]? with
    | none => none
    | some function => some { s with
        jobs := jobs
        dynamicCache := if completed then s.dynamicCache.upsert function.start fun _ =>
          job.fingerprint else s.dynamicCache }

/-- The policy of `active_evidence_view`. -/
def policy (s : Sweep) (providerFunctions : Finset UInt64) : ActiveEvidencePolicy where
  providerGeneration := s.providerGeneration
  providerFunctions := providerFunctions
  functionGenerations := (s.identities.entries.map fun e => (e.1, e.2.generation)).foldl
    (fun generations entry => generations.emplace entry.1 entry.2) Cxx.Map.empty

end Sweep

/-! ## Runs -/

inductive SweepEvent (contentOf byteOf : UInt64 → UInt64) where
  | began (epoch : Epoch contentOf byteOf)
  | recorded (start generation : UInt64)

/-- The evidence that a delivery records, by its function: a job without runs records nothing. -/
def Sweep.recorded {contentOf byteOf : UInt64 → UInt64} (s : Sweep) (completed : Bool) :
    List (SweepEvent contentOf byteOf) :=
  match s.jobs with
  | [] => []
  | job :: _ =>
    match completed && !job.cacheHit, s.entries[job.index]? with
    | true, some function => [.recorded function.start function.generation]
    | _, _ => []

/-- A run of sweeps with its trace, the latest event first. -/
inductive Sweep.Run {contentOf byteOf : UInt64 → UInt64} :
    List (SweepEvent contentOf byteOf) → Sweep → Prop
  | construct (history : EvidenceStore) :
      Run [] { allocator := EvidenceGenerationAllocator.seed history }
  | epoch {trace : List (SweepEvent contentOf byteOf)} {s s' : Sweep}
      (e : Epoch contentOf byteOf) :
      Run trace s → s.beginEpoch e = some s' → Run (.began e :: trace) s'
  | restart {trace : List (SweepEvent contentOf byteOf)} {s s' : Sweep}
      (e : Epoch contentOf byteOf) :
      Run trace s → s.restart.beginEpoch e = some s' → Run (.began e :: trace) s'
  | submit {trace : List (SweepEvent contentOf byteOf)} {s s' : Sweep} :
      Run trace s → s.submit = some s' → Run trace s'
  | deliver {trace : List (SweepEvent contentOf byteOf)} {s s' : Sweep} (completed : Bool) :
      Run trace s → s.deliver completed = some s' → Run (s.recorded completed ++ trace) s'

end Viy
