import Viy.Conc.Tickets
import Viy.Cxx.Map
import Viy.Wire.Words

/-!
# The emulation worker pool

The pool hands jobs to worker threads and delivers their results in submission order. Every section
of the code that holds the mutex is one function on the state; what threads do in between is the
state of the worker. `Pool.Step` is any of them, in any order, so its runs are all interleavings.

`trace` is not part of the code: it records what an observer sees, the latest event first.
-/

namespace Viy

open Wire

/-! ## Jobs and results -/

/-- A job: the start of its function, and everything else. -/
structure EmulationJob (J : Type) where
  functionStart : UInt64
  body : J

inductive EmulationJobStatus where
  | completed | cancelled | unavailable | failed
  deriving DecidableEq

/-- A result; `evidence` stands for runs, merged events and decoder audit. -/
structure EmulationJobResult (D : Type) where
  ticket : ℕ := 0
  functionStart : UInt64 := 0
  status : EmulationJobStatus := .failed
  diagnostic : Bytes := []
  evidence : D

section Results

variable {D : Type} [Inhabited D]

/-- `cancelled_result` and `unavailable_result`: no evidence, with the reason. -/
def emptyResult (status : EmulationJobStatus) (ticket : ℕ) (functionStart : UInt64)
    (reason : Bytes) : EmulationJobResult D :=
  { ticket := ticket, functionStart := functionStart, status := status, diagnostic := reason,
    evidence := default }

def cancelledResult : ℕ → UInt64 → Bytes → EmulationJobResult D := emptyResult .cancelled

def unavailableResult : ℕ → UInt64 → Bytes → EmulationJobResult D := emptyResult .unavailable

end Results

structure QueuedJob (J : Type) where
  ticket : ℕ
  generation : UInt64
  job : EmulationJob J

/-- What `execute` did: it returned a result, or it threw (with a text, if a standard exception). -/
inductive Executed (D : Type) where
  | returned (result : EmulationJobResult D)
  | threw (what : Option Bytes)

/-- The status of the executor itself. -/
def Executed.status {D : Type} : Executed D → EmulationJobStatus
  | .returned result => result.status
  | .threw _ => .failed

/-- The result of an execution; its ticket and start are those of the job, whatever was returned. -/
def Executed.result {D J : Type} [Inhabited D] (item : QueuedJob J) :
    Executed D → EmulationJobResult D
  | .returned result =>
    { result with ticket := item.ticket, functionStart := item.job.functionStart }
  | .threw what =>
    { ticket := item.ticket, functionStart := item.job.functionStart, status := .failed,
      diagnostic := what.getD (text "worker executor threw"), evidence := default }

/-! ## The state -/

/-- A thread: initializing, waiting for a job, in `execute`, or returned. -/
inductive Worker (J : Type) where
  | starting | idle | running (item : QueuedJob J) | exited

/-- The job a worker holds. -/
def Worker.item? {J : Type} : Worker J → Option (QueuedJob J)
  | .running item => some item
  | _ => none

/-- Where a settlement came from. -/
inductive Source (D : Type) where
  | executed (executed : Executed D) | noWorker | dropped

structure Settlement (D : Type) where
  result : EmulationJobResult D
  source : Source D

/-- Calls that cancel, with whether they advanced the generation. -/
inductive PoolNote where
  | cancelPending (advanced : Bool) | shutdown (advanced : Bool)

abbrev PoolTrace (J D : Type) :=
  Conc.Trace (EmulationJob J) (Settlement D) (EmulationJobResult D) PoolNote

structure Pool (J D : Type) where
  requestedWorkers : ℕ
  maxQueuedJobs : ℕ
  /-- The constructor has not returned. -/
  constructing : Bool := true
  generation : UInt64 := 1
  workers : List (Worker J) := []
  queue : List (QueuedJob J) := []
  completed : Cxx.Map Cxx.Comparator.nat (EmulationJobResult D) := Cxx.Map.empty
  firstUnavailableReason : Bytes := []
  nextTicket : ℕ := 1
  nextDelivery : ℕ := 1
  submitted : ℕ := 0
  settled : ℕ := 0
  delivered : ℕ := 0
  unsettled : ℕ := 0
  initializedWorkers : ℕ := 0
  availableWorkers : ℕ := 0
  unavailableWorkers : ℕ := 0
  running : ℕ := 0
  stopping : Bool := false
  trace : PoolTrace J D := []

/-- The largest 64-bit value, which is no ticket. -/
def maxTicket : ℕ := 2 ^ 64 - 1

namespace Pool

variable {J D : Type}

/-- `requested_workers` is at least one. -/
def initial (workerCount maxQueuedJobs : ℕ) : Pool J D :=
  { requestedWorkers := max workerCount 1, maxQueuedJobs := maxQueuedJobs }

/-- All workers have initialized, and none is available. -/
def allUnavailable (p : Pool J D) : Bool :=
  p.initializedWorkers == p.requestedWorkers && p.availableWorkers == 0

/-! ## Settling -/

/-- `settle_locked`: a second result for a ticket is ignored. -/
def settleLocked (p : Pool J D) (result : EmulationJobResult D) (source : Source D) : Pool J D :=
  match p.completed.find result.ticket with
  | some _ => p
  | none => { p with
      completed := p.completed.emplace result.ticket result
      settled := p.settled + 1
      unsettled := p.unsettled - 1
      trace := .settled result.ticket ⟨result, source⟩ :: p.trace }

section Drain

variable [Inhabited D]

/-- One turn of `drain_queued_locked`. -/
def drop (p : Pool J D) (status : EmulationJobStatus) (reason : Bytes) (item : QueuedJob J) :
    Pool J D :=
  match status with
  | .unavailable =>
    p.settleLocked (unavailableResult item.ticket item.job.functionStart reason) .noWorker
  | _ => p.settleLocked (cancelledResult item.ticket item.job.functionStart reason) .dropped

/-- `drain_queued_locked` -/
def drainQueuedLocked (p : Pool J D) (status : EmulationJobStatus) (reason : Bytes) : Pool J D :=
  p.queue.foldl (fun p item => p.drop status reason item) { p with queue := [] }

end Drain

/-! ## The constructor -/

/-- A thread is created. -/
def spawn (p : Pool J D) : Option (Pool J D) :=
  if p.constructing && p.workers.length < p.requestedWorkers then
    some { p with workers := p.workers ++ [.starting] }
  else none

/-- All threads are created. -/
def constructed (p : Pool J D) : Option (Pool J D) :=
  if p.constructing && p.workers.length == p.requestedWorkers then
    some { p with constructing := false }
  else none

/-- Creating a thread failed: the missing ones count as unavailable. -/
def creationFailed [Inhabited D] (p : Pool J D) : Option (Pool J D) :=
  if p.constructing then
    let missing := p.requestedWorkers - p.workers.length
    let p := { p with
      constructing := false
      initializedWorkers := p.initializedWorkers + missing
      unavailableWorkers := p.unavailableWorkers + missing
      firstUnavailableReason :=
        if missing ≠ 0 ∧ p.firstUnavailableReason = [] then text "worker thread creation failed"
        else p.firstUnavailableReason }
    some (if p.workers.length = 0 then p.drainQueuedLocked .unavailable p.firstUnavailableReason
      else p)
  else none

/-! ## Workers -/

/-- The counters after the initialization of a worker, with the error of an unavailable one. -/
def countWorker (p : Pool J D) (i : ℕ) (available : Bool) (error : Bytes) : Pool J D :=
  if available then { p with
    workers := p.workers.set i .idle
    initializedWorkers := p.initializedWorkers + 1
    availableWorkers := p.availableWorkers + 1 }
  else { p with
    workers := p.workers.set i .exited
    initializedWorkers := p.initializedWorkers + 1
    unavailableWorkers := p.unavailableWorkers + 1
    firstUnavailableReason :=
      if p.firstUnavailableReason = [] then
        if error = [] then text "worker executor is unavailable" else error
      else p.firstUnavailableReason }

/-- The end of the initialization of a worker. -/
def initializeWorker [Inhabited D] (p : Pool J D) (i : ℕ) (available : Bool) (error : Bytes) :
    Option (Pool J D) :=
  match p.workers[i]? with
  | some .starting =>
    let p := p.countWorker i available error
    some (if p.allUnavailable then p.drainQueuedLocked .unavailable p.firstUnavailableReason
      else p)
  | _ => none

/-- A waiting worker takes the oldest job. -/
def pop (p : Pool J D) (i : ℕ) : Option (Pool J D) :=
  match p.workers[i]?, p.stopping, p.queue with
  | some .idle, false, item :: queue =>
    some { p with
      workers := p.workers.set i (.running item)
      queue := queue
      running := p.running + 1 }
  | _, _, _ => none

/-- A waiting worker sees that the pool stops. -/
def exit (p : Pool J D) (i : ℕ) : Option (Pool J D) :=
  match p.workers[i]?, p.stopping with
  | some .idle, true => some { p with workers := p.workers.set i .exited }
  | _, _ => none

/-- The result of a job whose generation was cancelled meanwhile. -/
def cancelStale (p : Pool J D) (item : QueuedJob J) (result : EmulationJobResult D) :
    EmulationJobResult D :=
  if p.generation ≠ item.generation ∧ result.status ≠ .cancelled then
    { result with status := .cancelled, diagnostic := text "emulation generation cancelled" }
  else result

/-- A worker comes back from `execute`. -/
def settleJob [Inhabited D] (p : Pool J D) (i : ℕ) (executed : Executed D) : Option (Pool J D) :=
  match p.workers[i]? with
  | some (.running item) =>
    some ({ p with workers := p.workers.set i .idle, running := p.running - 1 }.settleLocked
      (p.cancelStale item (executed.result item)) (.executed executed))
  | _ => none

/-! ## Calls -/

/-- A ticket is given to a job. -/
def accept (p : Pool J D) (job : EmulationJob J) : Pool J D :=
  { p with
    nextTicket := p.nextTicket + 1
    submitted := p.submitted + 1
    unsettled := p.unsettled + 1
    trace := .accepted p.nextTicket job :: p.trace }

/-- An accepted job is queued, or settled at once when no worker is available. -/
def place [Inhabited D] (p : Pool J D) (item : QueuedJob J) : Pool J D :=
  if p.allUnavailable then
    p.settleLocked (unavailableResult item.ticket item.job.functionStart
      (if p.firstUnavailableReason = [] then text "no emulation worker is available"
        else p.firstUnavailableReason)) .noWorker
  else { p with queue := p.queue ++ [item] }

/-- `try_submit` -/
def trySubmit [Inhabited D] (p : Pool J D) (job : EmulationJob J) : Option ℕ × Pool J D :=
  let outstanding := p.nextTicket - p.nextDelivery
  if p.stopping then (none, p)
  else if p.maxQueuedJobs ≠ 0 ∧ p.queue.length ≥ p.maxQueuedJobs then (none, p)
  else if p.maxQueuedJobs ≠ 0 ∧ outstanding ≥ p.requestedWorkers ∧
      outstanding - p.requestedWorkers ≥ p.maxQueuedJobs then (none, p)
  else if p.nextTicket = maxTicket then (none, p)
  else
    (some p.nextTicket, (p.accept job).place ⟨p.nextTicket, p.generation, job⟩)

/-- The next result is handed out. -/
def deliver (p : Pool J D) (result : EmulationJobResult D) : Pool J D :=
  { p with
    completed := p.completed.erase p.nextDelivery
    nextDelivery := p.nextDelivery + 1
    delivered := p.delivered + 1
    trace := .delivered p.nextDelivery result :: p.trace }

/-- `try_take_next`, and `wait_take_next` when the result comes in time. -/
def takeNext (p : Pool J D) : Option (EmulationJobResult D) × Pool J D :=
  match p.completed.find p.nextDelivery with
  | none => (none, p)
  | some result => (some result, p.deliver result)

/-- The loop of `take_ready`; every turn takes a result from `completed`, which bounds it. -/
def takeLoop (maximum : ℕ) : ℕ → List (EmulationJobResult D) → Pool J D →
    List (EmulationJobResult D) × Pool J D
  | 0, results, p => (results, p)
  | fuel + 1, results, p =>
    if maximum = 0 ∨ results.length < maximum then
      match p.takeNext with
      | (none, p) => (results, p)
      | (some result, p) => takeLoop maximum fuel (results ++ [result]) p
    else (results, p)

/-- `take_ready` -/
def takeReady (p : Pool J D) (maximum : ℕ) : List (EmulationJobResult D) × Pool J D :=
  takeLoop maximum (p.completed.entries.length + 1) [] p

/-- `cancel_pending` -/
def cancelPending [Inhabited D] (p : Pool J D) : Pool J D :=
  if p.stopping then { p with trace := .note (.cancelPending false) :: p.trace }
  else
    drainQueuedLocked { p with
      generation := p.generation + 1
      trace := .note (.cancelPending true) :: p.trace } .cancelled
      (text "emulation generation cancelled")

/-- `shutdown`, up to the joining of the threads. -/
def shutdown [Inhabited D] (p : Pool J D) : Pool J D :=
  if p.stopping then { p with trace := .note (.shutdown false) :: p.trace }
  else
    drainQueuedLocked { p with
      stopping := true
      generation := p.generation + 1
      trace := .note (.shutdown true) :: p.trace } .cancelled (text "worker pool shut down")

/-! ## Interleavings -/

/-- The steps of the threads of the pool itself. -/
inductive Internal [Inhabited D] (p p' : Pool J D) : Prop
  | spawn : p.spawn = some p' → Internal p p'
  | constructed : p.constructed = some p' → Internal p p'
  | creationFailed : p.creationFailed = some p' → Internal p p'
  | initializeWorker (i : ℕ) (available : Bool) (error : Bytes) :
      p.initializeWorker i available error = some p' → Internal p p'
  | pop (i : ℕ) : p.pop i = some p' → Internal p p'
  | exit (i : ℕ) : p.exit i = some p' → Internal p p'
  | settle (i : ℕ) (executed : Executed D) : p.settleJob i executed = some p' → Internal p p'

/-- Any step: one of the pool, or a call once it is constructed. -/
inductive Step [Inhabited D] (p : Pool J D) : Pool J D → Prop
  | internal {p' : Pool J D} : Internal p p' → Step p p'
  | trySubmit (job : EmulationJob J) : p.constructing = false → Step p (p.trySubmit job).2
  | takeNext : p.constructing = false → Step p p.takeNext.2
  | takeReady (maximum : ℕ) : p.constructing = false → Step p (p.takeReady maximum).2
  | cancelPending : p.constructing = false → Step p p.cancelPending
  | shutdown : p.constructing = false → Step p p.shutdown

/-- Runs from the constructor on. -/
abbrev Reachable [Inhabited D] (workerCount maxQueuedJobs : ℕ) (p : Pool J D) : Prop :=
  Relation.ReflTransGen Step (initial workerCount maxQueuedJobs) p

end Pool

end Viy
