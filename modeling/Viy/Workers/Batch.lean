import Viy.Workers.Pool
import Viy.Lifecycle.Sweep

/-!
# One epoch of `process_batch`

The main thread calls `process_batch` again and again. Each call takes results from the pool,
submits jobs, takes results once more, and returns; only a call that finds every function processed
goes on to apply the evidence. `Host.advance` is one turn of one of its loops, so that worker
threads run between any two turns; what the code reads from outside (the clock, the built job) is
the `Tick` of the turn.

Without an emulator there is no pool, and the functions are processed with empty results.
-/

namespace Viy

open Wire

/-- Where the main thread is. -/
inductive Phase where
  /-- Not in `process_batch`. -/
  | outside
  /-- In the loops that take results (the second time after submitting) and the one that submits. -/
  | drain (budget applied : ℕ)
  | submit (budget applied submitted : ℕ)
  | drainAgain (budget applied : ℕ)
  /-- At the wait for one result. -/
  | wait (applied : ℕ)
  /-- In the loop without a pool. -/
  | direct (budget i : ℕ)
  /-- Behind the loops, at the evidence of the epoch. -/
  | evidence
  deriving DecidableEq

/-- What one turn reads from outside. -/
structure Tick (J : Type) where
  /-- The argument of the call. -/
  count : Int
  /-- The clock is before the deadline. -/
  early : Bool
  /-- The job that is built, without its function. -/
  body : J
  fingerprint : UInt64

/-- The fields of `viy_t` that an epoch works on. -/
structure Host (J D : Type) where
  inlineMode : Bool
  entries : List FuncRange
  pool : Option (Pool J D)
  next : ℕ := 0
  workerJobs : Cxx.Map Cxx.Comparator.nat WorkerJobInfo := Cxx.Map.empty
  dynamicCache : Cxx.Map Cxx.Comparator.u64 UInt64 := Cxx.Map.empty
  dynamicCacheHits : ℕ := 0
  phase : Phase := .outside
  /-- The calls of `process_function` so far. -/
  calls : List (ℕ × EmulationJobResult D) := []
  /-- A result did not fit the job it came for. -/
  mismatched : Bool := false

namespace Host

variable {J D : Type}

/-! ## Applying a result -/

/-- A result without its evidence. -/
def discard [Inhabited D] (result : EmulationJobResult D) (diagnostic : Bytes) :
    EmulationJobResult D :=
  { result with evidence := default, status := .failed, diagnostic := diagnostic }

def processFunction (h : Host J D) (index : ℕ) (result : EmulationJobResult D) : Host J D :=
  { h with calls := h.calls ++ [(index, result)] }

/-- `apply_one`, with the job of the result. -/
def applyTo [Inhabited D] (h : Host J D) (ticket : ℕ) (info : WorkerJobInfo)
    (result : EmulationJobResult D) : Host J D :=
  let h := { h with workerJobs := h.workerJobs.erase ticket }
  if (h.entries[info.index]?).map FuncRange.start ≠ some result.functionStart then
    { h with mismatched := true }.processFunction info.index
      (discard result (text "worker result function mismatch"))
  else if result.status = .completed then
    { h with
      dynamicCache := h.dynamicCache.upsert result.functionStart fun _ => info.fingerprint
      }.processFunction info.index result
  else h.processFunction info.index result

/-- `apply_one`, and whether it counts as applied; a result without a job goes to the oldest one. -/
def applyOne [Inhabited D] (h : Host J D) (result : EmulationJobResult D) : Bool × Host J D :=
  match h.workerJobs.find result.ticket with
  | some info => (true, h.applyTo result.ticket info result)
  | none =>
    match h.workerJobs.entries with
    | [] => (false, { h with mismatched := true })
    | (ticket, info) :: _ =>
      (true, { h with mismatched := true }.applyTo ticket info
        (discard result (text "worker result ticket mismatch")))

/-! ## The loops -/

/-- One turn of a loop that takes results. -/
def drainTurn [Inhabited D] (h : Host J D) (pool : Pool J D) (tick : Tick J) (applied budget : ℕ)
    (again : ℕ → Phase) (leave : Phase) : Host J D :=
  if applied < budget ∧ (h.inlineMode || tick.early) then
    match pool.takeNext with
    | (none, pool) => { h with pool := some pool, phase := leave }
    | (some result, pool) =>
      let (counts, h) := { h with pool := some pool }.applyOne result
      { h with phase := again (if counts then applied + 1 else applied) }
  else { h with phase := leave }

/-- The result of building, looking up and submitting the next job. -/
def submitTurn [Inhabited D] (h : Host J D) (pool : Pool J D) (tick : Tick J) (function : FuncRange)
    (again leave : Phase) : Host J D :=
  if h.workerJobs.entries.length ≥ pool.requestedWorkers * 3 then { h with phase := leave }
  else
    let cacheHit := h.dynamicCache.find function.start == some tick.fingerprint
    match pool.trySubmit ⟨function.start, tick.body⟩ with
    | (none, pool) => { h with pool := some pool, phase := leave }
    | (some ticket, pool) => { h with
        pool := some pool
        dynamicCacheHits := if cacheHit then h.dynamicCacheHits + 1 else h.dynamicCacheHits
        workerJobs := h.workerJobs.emplace ticket ⟨h.next, tick.fingerprint, cacheHit⟩
        next := h.next + 1
        phase := again }

/-- The test at the end of a call. -/
def leave (h : Host J D) : Host J D :=
  { h with phase :=
      if h.next < h.entries.length ∨ h.workerJobs.entries ≠ [] then .outside else .evidence }

/-- One turn of the main thread with a pool. -/
def poolTurn [Inhabited D] (h : Host J D) (pool : Pool J D) (tick : Tick J) : Host J D :=
  match h.phase with
  | .drain budget applied =>
    h.drainTurn pool tick applied budget (.drain budget) (.submit budget applied 0)
  | .submit budget applied submitted =>
    match h.entries[h.next]? with
    | some function =>
      if submitted < budget ∧ applied < budget ∧ (h.inlineMode || tick.early) then
        h.submitTurn pool tick function (.submit budget applied (submitted + 1))
          (.drainAgain budget applied)
      else { h with phase := .drainAgain budget applied }
    | none => { h with phase := .drainAgain budget applied }
  | .drainAgain budget applied =>
    h.drainTurn pool tick applied budget (.drainAgain budget) (.wait applied)
  | .wait applied =>
    if h.inlineMode ∧ applied = 0 ∧ h.workerJobs.entries ≠ [] then
      match pool.takeNext with
      | (none, pool) => { h with pool := some pool }.leave
      | (some result, pool) => ({ h with pool := some pool }.applyOne result).2.leave
    else h.leave
  | _ => h

/-- One turn of the main thread without a pool. -/
def directTurn [Inhabited D] (h : Host J D) : Host J D :=
  match h.phase with
  | .direct budget i =>
    match h.entries[h.next]? with
    | some function =>
      if i < budget then
        { h with next := h.next + 1, phase := .direct budget (i + 1) }.processFunction h.next
          { functionStart := function.start, status := .unavailable, evidence := default }
      else { h with phase := .outside }
    | none => { h with phase := .evidence }
  | _ => h

/-- One turn of the main thread. -/
def advance [Inhabited D] (h : Host J D) (tick : Tick J) : Host J D :=
  let budget := (max tick.count 1).toNat
  match h.phase, h.pool with
  | .outside, some pool =>
    -- the constructor of the pool returns before the first call
    if pool.constructing then h else { h with phase := .drain budget 0 }
  | .outside, none => { h with phase := .direct budget 0 }
  | _, some pool => h.poolTurn pool tick
  | _, none => h.directTurn

/-! ## Epochs -/

/-- The start of an epoch: a new pool, if there is an emulator and a function. -/
def begun (inlineMode : Bool) (entries : List FuncRange)
    (dynamicCache : Cxx.Map Cxx.Comparator.u64 UInt64) (workers : Option (ℕ × ℕ)) : Host J D :=
  { inlineMode := inlineMode, entries := entries, dynamicCache := dynamicCache
    pool := workers.map fun (workerCount, maxQueuedJobs) =>
      Pool.initial workerCount maxQueuedJobs }

/-- Worker threads and main thread take turns in any order. -/
inductive Step [Inhabited D] (h : Host J D) : Host J D → Prop
  | worker {p p' : Pool J D} : h.pool = some p → p.Internal p' →
      Step h { h with pool := some p' }
  | main (tick : Tick J) : Step h (h.advance tick)

end Host

end Viy
