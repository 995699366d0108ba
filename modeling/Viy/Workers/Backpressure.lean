import Viy.Workers.Delivery

/-!
# Backpressure

With a limit on queued jobs, `try_submit` bounds the queue, and it bounds the tickets that are
queued, running or kept until the oldest one completes. The second check is made on
`next_ticket - next_delivery`, which no section but `try_submit` lets grow. That this difference
counts the undelivered tickets is the accounting of `Books`.
-/

namespace Viy

namespace Pool

open Conc Conc.Trace

variable {J D : Type}

/-- The tickets that were accepted and not delivered: queued, running or completed. -/
def undelivered (p : Pool J D) : ℕ :=
  p.queue.length + p.runningItems.length + p.completed.keys.length

/-- `next_ticket - next_delivery` counts them. -/
theorem Books.undelivered_eq {p : Pool J D} (h : Books (p.held []) p.desk) :
    p.nextDelivery + p.undelivered = p.nextTicket := by
  have hnext : (acceptedTickets p.trace).length + 1 = p.nextTicket := h.accepted
  have hout : (deliveredTickets p.trace).length + 1 = p.nextDelivery := h.handedOut
  have hplaces : (settledTickets p.trace).length + (p.held []).length =
      (acceptedTickets p.trace).length := by
    have hlength := h.places.length_eq
    rwa [List.length_append, List.length_map] at hlength
  have hsettled : (settledTickets p.trace).length =
      p.nextDelivery - 1 + p.completed.keys.length := by
    have hlength := h.settledTickets_perm.length_eq
    rwa [List.length_append, List.length_range'] at hlength
  have hheld : (p.held []).length = p.queue.length + p.runningItems.length := by
    unfold held
    rw [List.append_nil, List.length_append]
  unfold undelivered
  omega

/-! ## Sections that accept no job -/

/-- A section that gives out no ticket: the settings stay, and neither bound gets closer. -/
structure Eases (p p' : Pool J D) : Prop where
  requestedWorkers : p'.requestedWorkers = p.requestedWorkers
  maxQueuedJobs : p'.maxQueuedJobs = p.maxQueuedJobs
  queue : p'.queue.length ≤ p.queue.length
  nextTicket : p'.nextTicket = p.nextTicket
  nextDelivery : p.nextDelivery ≤ p'.nextDelivery

namespace Eases

theorem refl (p : Pool J D) : Eases p p := ⟨rfl, rfl, le_rfl, rfl, le_rfl⟩

theorem trans {p p' p'' : Pool J D} (h : Eases p p') (h' : Eases p' p'') : Eases p p'' where
  requestedWorkers := h'.requestedWorkers.trans h.requestedWorkers
  maxQueuedJobs := h'.maxQueuedJobs.trans h.maxQueuedJobs
  queue := h'.queue.trans h.queue
  nextTicket := h'.nextTicket.trans h.nextTicket
  nextDelivery := h.nextDelivery.trans h'.nextDelivery

theorem settleLocked {p p' : Pool J D} (h : Eases p p') (result : EmulationJobResult D)
    (source : Source D) : Eases p (p'.settleLocked result source) := by
  unfold Pool.settleLocked
  split
  · exact h
  · exact ⟨h.requestedWorkers, h.maxQueuedJobs, h.queue, h.nextTicket, h.nextDelivery⟩

theorem countWorker (p : Pool J D) (i : ℕ) (available : Bool) (error : Wire.Bytes) :
    Eases p (p.countWorker i available error) := by
  cases available <;> exact ⟨rfl, rfl, le_rfl, rfl, le_rfl⟩

theorem takeNext (p : Pool J D) : Eases p p.takeNext.2 := by
  rcases takeNext_cases p with ⟨-, hnone⟩ | ⟨result, -, hsome⟩
  · rw [hnone]
    exact .refl p
  · rw [hsome]
    exact ⟨rfl, rfl, le_rfl, rfl, Nat.le_succ _⟩

theorem takeLoop (maximum : ℕ) : ∀ (fuel : ℕ) (results : List (EmulationJobResult D))
    (p : Pool J D), Eases p (takeLoop maximum fuel results p).2
  | 0, _, p => .refl p
  | fuel + 1, results, p => by
    unfold Pool.takeLoop
    split_ifs with hmore
    · have hnext := takeNext p
      split
      · rename_i hnone
        rwa [hnone] at hnext
      · rename_i hsome
        rw [hsome] at hnext
        exact hnext.trans (takeLoop maximum fuel _ _)
    · exact .refl p

theorem pop {p p' : Pool J D} {i : ℕ} (h : p.pop i = some p') : Eases p p' := by
  unfold Pool.pop at h
  split at h
  · rename_i item queue _ _ hqueue
    obtain rfl := Option.some.inj h
    refine ⟨rfl, rfl, ?_, rfl, le_rfl⟩
    rw [hqueue]
    exact Nat.le_succ _
  · cases h

section Sections

variable [Inhabited D]

theorem drop {p p' : Pool J D} (h : Eases p p') (status : EmulationJobStatus)
    (reason : Wire.Bytes) (item : QueuedJob J) : Eases p (p'.drop status reason item) := by
  cases status <;> exact h.settleLocked _ _

theorem foldl_drop {p : Pool J D} (status : EmulationJobStatus) (reason : Wire.Bytes) :
    ∀ (items : List (QueuedJob J)) {p' : Pool J D}, Eases p p' →
      Eases p (items.foldl (fun p item => p.drop status reason item) p')
  | [], _, h => h
  | item :: items, _, h => foldl_drop status reason items (h.drop status reason item)

theorem drainQueuedLocked {p p' : Pool J D} (h : Eases p p') (status : EmulationJobStatus)
    (reason : Wire.Bytes) : Eases p (p'.drainQueuedLocked status reason) :=
  foldl_drop status reason p'.queue
    ⟨h.requestedWorkers, h.maxQueuedJobs, Nat.zero_le _, h.nextTicket, h.nextDelivery⟩

theorem creationFailed {p p' : Pool J D} (h : p.creationFailed = some p') : Eases p p' := by
  unfold Pool.creationFailed at h
  by_cases hconstructing : p.constructing = true
  swap
  · exact absurd ((if_neg hconstructing).symm.trans h) (by simp)
  rw [if_pos hconstructing] at h
  obtain rfl := Option.some.inj h
  by_cases hnone : p.workers.length = 0
  · rw [if_pos hnone]
    refine drainQueuedLocked ?_ _ _
    exact ⟨rfl, rfl, le_rfl, rfl, le_rfl⟩
  · rw [if_neg hnone]
    exact ⟨rfl, rfl, le_rfl, rfl, le_rfl⟩

theorem initializeWorker {p p' : Pool J D} {i : ℕ} {available : Bool} {error : Wire.Bytes}
    (h : p.initializeWorker i available error = some p') : Eases p p' := by
  have hcount := countWorker p i available error
  unfold Pool.initializeWorker at h
  split at h
  swap
  · cases h
  obtain rfl := Option.some.inj h
  split_ifs
  · exact hcount.drainQueuedLocked _ _
  · exact hcount

theorem settleJob {p p' : Pool J D} {i : ℕ} {executed : Executed D}
    (h : p.settleJob i executed = some p') : Eases p p' := by
  unfold Pool.settleJob at h
  split at h
  · obtain rfl := Option.some.inj h
    refine settleLocked ?_ _ _
    exact ⟨rfl, rfl, le_rfl, rfl, le_rfl⟩
  · cases h

theorem internal {p p' : Pool J D} (h : Internal p p') : Eases p p' := by
  cases h with
  | spawn h =>
    unfold Pool.spawn at h
    split_ifs at h
    obtain rfl := Option.some.inj h
    exact ⟨rfl, rfl, le_rfl, rfl, le_rfl⟩
  | constructed h =>
    unfold Pool.constructed at h
    split_ifs at h
    obtain rfl := Option.some.inj h
    exact ⟨rfl, rfl, le_rfl, rfl, le_rfl⟩
  | creationFailed h => exact creationFailed h
  | initializeWorker i available error h => exact initializeWorker h
  | pop i h => exact pop h
  | exit i h =>
    unfold Pool.exit at h
    split at h
    · obtain rfl := Option.some.inj h
      exact ⟨rfl, rfl, le_rfl, rfl, le_rfl⟩
    · cases h
  | settle i executed h => exact settleJob h

theorem cancelPending (p : Pool J D) : Eases p p.cancelPending := by
  unfold Pool.cancelPending
  split_ifs
  · exact ⟨rfl, rfl, le_rfl, rfl, le_rfl⟩
  · refine drainQueuedLocked ?_ _ _
    exact ⟨rfl, rfl, le_rfl, rfl, le_rfl⟩

theorem shutdown (p : Pool J D) : Eases p p.shutdown := by
  unfold Pool.shutdown
  split_ifs
  · exact ⟨rfl, rfl, le_rfl, rfl, le_rfl⟩
  · refine drainQueuedLocked ?_ _ _
    exact ⟨rfl, rfl, le_rfl, rfl, le_rfl⟩

end Sections

end Eases

/-! ## The bounds -/

/-- The settings of the pool, and its two bounds. -/
structure Bounded (workers jobs : ℕ) (p : Pool J D) : Prop where
  requestedWorkers : p.requestedWorkers = workers
  maxQueuedJobs : p.maxQueuedJobs = jobs
  queue : p.queue.length ≤ jobs
  outstanding : p.nextTicket ≤ p.nextDelivery + (jobs + workers)

theorem bounded_initial (workerCount maxQueuedJobs : ℕ) :
    Bounded (max workerCount 1) maxQueuedJobs (initial workerCount maxQueuedJobs : Pool J D) :=
  ⟨rfl, rfl, Nat.zero_le _, Nat.le_add_right _ _⟩

theorem Bounded.ease {workers jobs : ℕ} {p p' : Pool J D} (h : Bounded workers jobs p)
    (heases : Eases p p') : Bounded workers jobs p' where
  requestedWorkers := heases.requestedWorkers.trans h.requestedWorkers
  maxQueuedJobs := heases.maxQueuedJobs.trans h.maxQueuedJobs
  queue := heases.queue.trans h.queue
  outstanding := by
    have hdelivery := heases.nextDelivery
    have hbound := h.outstanding
    rw [heases.nextTicket]
    omega

section Runs

variable [Inhabited D]

/-- What `try_submit` answers, and why. -/
theorem trySubmit_decides (p : Pool J D) (job : EmulationJob J) (hjobs : 0 < p.maxQueuedJobs) :
    p.trySubmit job = (none, p) ∧ (p.stopping = true ∨ p.maxQueuedJobs ≤ p.queue.length ∨
        p.nextDelivery + (p.maxQueuedJobs + p.requestedWorkers) ≤ p.nextTicket ∨
          p.nextTicket = maxTicket) ∨
      p.queue.length < p.maxQueuedJobs ∧
        p.nextTicket < p.nextDelivery + (p.maxQueuedJobs + p.requestedWorkers) ∧
          p.trySubmit job =
            (some p.nextTicket, (p.accept job).place ⟨p.nextTicket, p.generation, job⟩) := by
  unfold trySubmit
  by_cases hstopping : p.stopping = true
  · rw [if_pos hstopping]
    exact Or.inl ⟨rfl, Or.inl hstopping⟩
  rw [if_neg hstopping]
  split_ifs with hqueue houtstanding hmax
  · exact Or.inl ⟨rfl, Or.inr (Or.inl hqueue.2)⟩
  · refine Or.inl ⟨rfl, Or.inr (Or.inr (Or.inl ?_))⟩
    omega
  · exact Or.inl ⟨rfl, Or.inr (Or.inr (Or.inr hmax))⟩
  · refine Or.inr ⟨?_, ?_, rfl⟩
    · omega
    · omega

theorem Bounded.place {workers jobs : ℕ} {p : Pool J D} (item : QueuedJob J)
    (h : Bounded workers jobs p) (hroom : p.queue.length < jobs) :
    Bounded workers jobs (p.place item) := by
  unfold Pool.place
  by_cases hall : p.allUnavailable = true
  · rw [if_pos hall]
    exact h.ease ((Eases.refl p).settleLocked _ _)
  · rw [if_neg hall]
    refine ⟨h.requestedWorkers, h.maxQueuedJobs, ?_, h.outstanding⟩
    rw [List.length_append]
    exact hroom

theorem Bounded.trySubmit {workers jobs : ℕ} {p : Pool J D} (job : EmulationJob J)
    (h : Bounded workers jobs p) (hjobs : 0 < jobs) :
    Bounded workers jobs (p.trySubmit job).2 := by
  obtain ⟨rfl, rfl, hqueue, houtstanding⟩ := h
  rcases trySubmit_decides p job hjobs with ⟨hnone, -⟩ | ⟨hroom, hspare, hsome⟩
  · rw [hnone]
    exact ⟨rfl, rfl, hqueue, houtstanding⟩
  · rw [hsome]
    have haccept : Bounded p.requestedWorkers p.maxQueuedJobs (p.accept job) :=
      ⟨rfl, rfl, hqueue, hspare⟩
    exact haccept.place _ hroom

theorem Step.bounded {workers jobs : ℕ} {p p' : Pool J D} (h : Step p p')
    (hbounded : Bounded workers jobs p) (hjobs : 0 < jobs) : Bounded workers jobs p' := by
  cases h with
  | internal h => exact hbounded.ease (.internal h)
  | trySubmit job _ => exact hbounded.trySubmit job hjobs
  | takeNext _ => exact hbounded.ease (.takeNext p)
  | takeReady maximum _ => exact hbounded.ease (.takeLoop maximum _ _ p)
  | cancelPending _ => exact hbounded.ease (.cancelPending p)
  | shutdown _ => exact hbounded.ease (.shutdown p)

theorem Reachable.bounded {workerCount maxQueuedJobs : ℕ} {p : Pool J D}
    (h : Reachable workerCount maxQueuedJobs p) (hjobs : 0 < maxQueuedJobs) :
    Bounded (max workerCount 1) maxQueuedJobs p := by
  induction h with
  | refl => exact bounded_initial _ _
  | tail _ hstep ih => exact hstep.bounded ih hjobs

/-- **Backpressure.** In every interleaving the queue stays within its limit and the undelivered
tickets within that limit plus the number of workers; while the pool does not stop, a job is refused
only at one of these bounds or when there are no tickets left. -/
theorem Reachable.backpressure {workerCount maxQueuedJobs : ℕ} {p : Pool J D}
    (h : Reachable workerCount maxQueuedJobs p) (hjobs : 0 < maxQueuedJobs) :
    p.requestedWorkers = max workerCount 1 ∧
      p.queue.length ≤ maxQueuedJobs ∧
      p.undelivered ≤ maxQueuedJobs + p.requestedWorkers ∧
      ∀ job, p.stopping = false → (p.trySubmit job).1 = none →
        p.queue.length = maxQueuedJobs ∨
          p.undelivered = maxQueuedJobs + p.requestedWorkers ∨ p.nextTicket = maxTicket := by
  have hcount : p.nextDelivery + p.undelivered = p.nextTicket :=
    Books.undelivered_eq h.ok.books
  obtain ⟨hworkers, hlimit, hqueue, houtstanding⟩ := h.bounded hjobs
  rw [← hworkers] at houtstanding
  refine ⟨hworkers, hqueue, by omega, fun job hrunning hrefused => ?_⟩
  rcases trySubmit_decides p job (hlimit ▸ hjobs) with ⟨-, hwhy⟩ | ⟨-, -, hsome⟩
  · rw [hlimit] at hwhy
    rcases hwhy with hstopping | hfull | hspent | hmax
    · exact Cxx.clash hrunning hstopping
    · exact Or.inl (Nat.le_antisymm hqueue hfull)
    · exact Or.inr (Or.inl (by omega))
    · exact Or.inr (Or.inr hmax)
  · rw [hsome] at hrefused
    cases hrefused

/-- A job is refused with an empty queue: one result waits for delivery, another job runs. -/
theorem undelivered_result_holds_back : ∃ p : Pool Unit Unit, Reachable 1 1 p ∧
    p.stopping = false ∧ p.queue.length = 0 ∧ (p.trySubmit ⟨48, ()⟩).1 = none ∧
      p.undelivered = 1 + p.requestedWorkers := by
  have h₁ : Reachable 1 1 _ :=
    .single (.internal (.spawn (p := (initial 1 1 : Pool Unit Unit)) rfl))
  have h₂ := h₁.tail (.internal (.constructed rfl))
  have h₃ := h₂.tail (.internal (.initializeWorker 0 true [] rfl))
  have h₄ := h₃.tail (.trySubmit ⟨16, ()⟩ rfl)
  have h₅ := h₄.tail (.internal (.pop 0 rfl))
  have h₆ := h₅.tail (.internal (.settle 0 (.returned ⟨0, 0, .completed, [], ()⟩) rfl))
  have h₇ := h₆.tail (.trySubmit ⟨32, ()⟩ rfl)
  have h₈ := h₇.tail (.internal (.pop 0 rfl))
  refine ⟨_, h₈, rfl, rfl, rfl, ?_⟩
  have hbounds := Reachable.backpressure h₈ (by decide)
  have hwhy := hbounds.2.2.2 ⟨48, ()⟩ rfl rfl
  exact (hwhy.resolve_left (by decide)).resolve_right (by decide)

end Runs

end Pool

end Viy
