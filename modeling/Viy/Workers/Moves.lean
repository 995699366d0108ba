import Viy.Workers.Pool

/-!
# Moves of a job

A mutex-held section of the pool takes jobs from one place to another, several at a time: a drain
settles a whole queue. Here every section is cut into moves of one kind. Between two moves some jobs
are in hand: neither queued, nor running, nor settled. `Step.moves` is the cut; whatever the moves
keep holds along every interleaving.

The cut itself needs a little about the pool (`Ready`): queued jobs are of the current generation,
and when no worker is available all threads have returned.
-/

namespace Viy

def Worker.starting? {J : Type} : Worker J → Option Unit
  | .starting => some ()
  | _ => none

namespace Pool

variable {J D : Type}

/-- The jobs in `execute`. -/
def runningItems (p : Pool J D) : List (QueuedJob J) := p.workers.filterMap Worker.item?

/-- Threads that have not initialized. -/
def startingWorkers (p : Pool J D) : ℕ := (p.workers.filterMap Worker.starting?).length

/-- No thread is left that could take a job. -/
def Unstaffed (p : Pool J D) : Prop :=
  p.constructing = false ∧ ∀ worker ∈ p.workers, worker = .exited

/-! ## What the cut needs -/

structure Ready (p : Pool J D) : Prop where
  fresh : ∀ item ∈ p.queue, item.generation = p.generation
  waiting : p.constructing = true → p.queue = []
  room : p.workers.length ≤ p.requestedWorkers
  count : p.initializedWorkers + p.startingWorkers =
    if p.constructing then p.workers.length else p.requestedWorkers
  idle : p.availableWorkers = 0 → ∀ worker ∈ p.workers, worker = .starting ∨ worker = .exited

theorem Ready.unstaffed {p : Pool J D} (h : p.Ready) (hconstructed : p.constructing = false)
    (hall : p.allUnavailable = true) : p.Unstaffed := by
  unfold allUnavailable at hall
  simp only [Bool.and_eq_true, beq_iff_eq] at hall
  have hcount := h.count
  rw [hconstructed, if_neg (by decide)] at hcount
  have hnone : p.startingWorkers = 0 := by omega
  refine ⟨hconstructed, fun worker hmem => ?_⟩
  rcases h.idle hall.2 worker hmem with rfl | hexited
  · have hmem' : () ∈ p.workers.filterMap Worker.starting? :=
      List.mem_filterMap.2 ⟨.starting, hmem, rfl⟩
    rw [List.length_eq_zero_iff.1 hnone] at hmem'
    exact nomatch hmem'
  · exact hexited

/-! ## Moves -/

/-- The part of the state that concerns tickets. -/
structure Desk (J D : Type) where
  completed : Cxx.Map Cxx.Comparator.nat (EmulationJobResult D)
  nextTicket : ℕ
  nextDelivery : ℕ
  submitted : ℕ
  settled : ℕ
  delivered : ℕ
  unsettled : ℕ
  trace : PoolTrace J D

def desk (p : Pool J D) : Desk J D :=
  ⟨p.completed, p.nextTicket, p.nextDelivery, p.submitted, p.settled, p.delivered, p.unsettled,
    p.trace⟩

/-- A step of the threads that no job notices. -/
structure Quiet (p p' : Pool J D) : Prop where
  desk : p'.desk = p.desk
  generation : p'.generation = p.generation
  queue : p'.queue = p.queue
  runningItems : p'.runningItems = p.runningItems
  running : p'.running = p.running
  stopping : p'.stopping = p.stopping
  constructed : p.constructing = false → p'.constructing = false
  ready : p.Ready → p'.Ready
  unstaffed : p.Unstaffed → p'.Unstaffed

/-- The results that settle a job, and where they come from. -/
inductive Outcome [Inhabited D] (p : Pool J D) (item : QueuedJob J) :
    EmulationJobResult D → Source D → Prop
  | executed (executed : Executed D) :
      Outcome p item (p.cancelStale item (executed.result item)) (.executed executed)
  | noWorker (reason : Wire.Bytes) : item.generation = p.generation → p.Unstaffed →
      Outcome p item (unavailableResult item.ticket item.job.functionStart reason) .noWorker
  | dropped (reason : Wire.Bytes) : item.generation ≠ p.generation →
      Outcome p item (cancelledResult item.ticket item.job.functionStart reason) .dropped

/-- The moves; the list holds the jobs in hand. -/
inductive Move [Inhabited D] :
    List (QueuedJob J) × Pool J D → List (QueuedJob J) × Pool J D → Prop
  | quiet {hand : List (QueuedJob J)} {p p' : Pool J D} : Quiet p p' → Move (hand, p) (hand, p')
  | accept {hand : List (QueuedJob J)} {p : Pool J D} (job : EmulationJob J) :
      p.constructing = false → p.stopping = false → p.nextTicket ≠ maxTicket →
      Move (hand, p) (⟨p.nextTicket, p.generation, job⟩ :: hand, p.accept job)
  | enqueue {hand : List (QueuedJob J)} {p : Pool J D} {item : QueuedJob J} :
      p.constructing = false → p.stopping = false → item.generation = p.generation →
      Move (item :: hand, p) (hand, { p with queue := p.queue ++ [item] })
  | dequeue {hand : List (QueuedJob J)} {p : Pool J D} {taken rest : List (QueuedJob J)} :
      p.queue = taken ++ rest → Move (hand, p) (taken ++ hand, { p with queue := rest })
  | start {hand : List (QueuedJob J)} {p : Pool J D} {item : QueuedJob J} {i : ℕ} :
      p.workers[i]? = some .idle →
      Move (item :: hand, p)
        (hand, { p with workers := p.workers.set i (.running item), running := p.running + 1 })
  | finish {hand : List (QueuedJob J)} {p : Pool J D} {item : QueuedJob J} {i : ℕ} :
      p.workers[i]? = some (.running item) →
      Move (hand, p)
        (item :: hand, { p with workers := p.workers.set i .idle, running := p.running - 1 })
  | settle {hand : List (QueuedJob J)} {p : Pool J D} {item : QueuedJob J}
      {result : EmulationJobResult D} {source : Source D} : Outcome p item result source →
      Move (item :: hand, p) (hand, p.settleLocked result source)
  | deliver {hand : List (QueuedJob J)} {p : Pool J D} {result : EmulationJobResult D} :
      p.completed.find p.nextDelivery = some result → Move (hand, p) (hand, p.deliver result)
  | cancel {hand : List (QueuedJob J)} {p : Pool J D} : p.stopping = false → p.queue = [] →
      Move (hand, p) (hand, { p with
        generation := p.generation + 1
        trace := .note (.cancelPending true) :: p.trace })
  | stop {hand : List (QueuedJob J)} {p : Pool J D} : p.stopping = false → p.queue = [] →
      Move (hand, p) (hand, { p with
        stopping := true
        generation := p.generation + 1
        trace := .note (.shutdown true) :: p.trace })
  | idleCancel {hand : List (QueuedJob J)} {p : Pool J D} : p.stopping = true →
      Move (hand, p) (hand, { p with trace := .note (.cancelPending false) :: p.trace })
  | idleStop {hand : List (QueuedJob J)} {p : Pool J D} : p.stopping = true →
      Move (hand, p) (hand, { p with trace := .note (.shutdown false) :: p.trace })

/-- Sequences of moves. -/
abbrev Moves [Inhabited D] :
    List (QueuedJob J) × Pool J D → List (QueuedJob J) × Pool J D → Prop :=
  Relation.ReflTransGen Move

/-! ## Settling changes neither threads nor queue -/

section Settle

variable (p : Pool J D) (result : EmulationJobResult D) (source : Source D)

@[simp] theorem generation_settleLocked :
    (p.settleLocked result source).generation = p.generation := by
  unfold settleLocked
  split <;> rfl

theorem trace_settleLocked (h : p.completed.find result.ticket = none) :
    (p.settleLocked result source).trace =
      .settled result.ticket ⟨result, source⟩ :: p.trace := by
  unfold settleLocked
  rw [h]

theorem unstaffed_settleLocked : (p.settleLocked result source).Unstaffed ↔ p.Unstaffed := by
  unfold settleLocked
  split <;> rfl

theorem ready_settleLocked (h : p.Ready) : (p.settleLocked result source).Ready := by
  unfold settleLocked
  split
  · exact h
  · exact ⟨h.fresh, h.waiting, h.room, h.count, h.idle⟩

end Settle

/-! ## Moves keep the pool ready -/

theorem ready_initial (workerCount maxQueuedJobs : ℕ) :
    (initial workerCount maxQueuedJobs : Pool J D).Ready :=
  ⟨by simp [initial], fun _ => rfl, Nat.zero_le _, rfl, by simp [initial]⟩

/-- Changing one thread that has initialized into another such. -/
theorem Ready.set_worker {p : Pool J D} (h : p.Ready) {i running : ℕ} {a b : Worker J}
    (ha : p.workers[i]? = some a) (hstarting : a.starting? = none) (hb : b.starting? = none)
    (hidle : a ≠ .starting ∧ a ≠ .exited) :
    { p with workers := p.workers.set i b, running := running }.Ready where
  fresh := h.fresh
  waiting := h.waiting
  room := by simpa using h.room
  count := by
    have hlength := Conc.length_filterMap_set Worker.starting? ha (b := b)
    have hcount := h.count
    rw [hstarting, hb] at hlength
    simp only [startingWorkers, List.length_set, Option.toList_none, List.length_nil,
      Nat.zero_add] at hlength hcount ⊢
    rw [hlength]
    exact hcount
  idle havailable := by
    -- the pool has an available worker, so that there is nothing to show
    rcases h.idle havailable a (List.mem_of_getElem? ha) with rfl | rfl
    · exact absurd rfl hidle.1
    · exact absurd rfl hidle.2

theorem Move.ready [Inhabited D] {x y : List (QueuedJob J) × Pool J D} (h : Move x y)
    (hx : x.2.Ready) : y.2.Ready := by
  cases h with
  | quiet hquiet => exact hquiet.ready hx
  | accept job => exact ⟨hx.fresh, hx.waiting, hx.room, hx.count, hx.idle⟩
  | enqueue hconstructed hstopping hgeneration =>
    refine ⟨fun item hitem => ?_, fun hc => ?_, hx.room, hx.count, hx.idle⟩
    · rcases List.mem_append.1 hitem with hitem | hitem
      · exact hx.fresh item hitem
      · rw [List.mem_singleton.1 hitem]
        exact hgeneration
    · exact Cxx.clash hconstructed hc
  | dequeue hqueue =>
    refine ⟨fun item hitem => ?_, fun hc => ?_, hx.room, hx.count, hx.idle⟩
    · apply hx.fresh
      rw [hqueue]
      exact List.mem_append_right _ hitem
    · have hempty := hx.waiting hc
      rw [hqueue] at hempty
      exact (List.append_eq_nil_iff.1 hempty).2
  | start hworker => exact hx.set_worker hworker rfl rfl ⟨nofun, nofun⟩
  | finish hworker => exact hx.set_worker hworker rfl rfl ⟨nofun, nofun⟩
  | settle => exact ready_settleLocked _ _ _ hx
  | deliver => exact ⟨hx.fresh, hx.waiting, hx.room, hx.count, hx.idle⟩
  | cancel _ hqueue => exact ⟨by simp [hqueue], hx.waiting, hx.room, hx.count, hx.idle⟩
  | stop _ hqueue => exact ⟨by simp [hqueue], hx.waiting, hx.room, hx.count, hx.idle⟩
  | idleCancel => exact ⟨hx.fresh, hx.waiting, hx.room, hx.count, hx.idle⟩
  | idleStop => exact ⟨hx.fresh, hx.waiting, hx.room, hx.count, hx.idle⟩

/-- Changing a thread without a job into another such. -/
theorem filterMap_item_set {workers : List (Worker J)} {i : ℕ} {a b : Worker J}
    (ha : workers[i]? = some a) (hnone : a.item? = none) (hb : b.item? = none) :
    (workers.set i b).filterMap Worker.item? = workers.filterMap Worker.item? := by
  induction workers generalizing i with
  | nil => rfl
  | cons worker workers ih =>
    cases i with
    | zero =>
      obtain rfl := Option.some.inj ha
      rw [List.set_cons_zero, List.filterMap_cons_none hb, List.filterMap_cons_none hnone]
    | succ i =>
      rw [List.set_cons_succ, Conc.filterMap_cons_eq_append, Conc.filterMap_cons_eq_append, ih ha]

/-! ## Quiet steps -/

theorem quiet_spawn {p p' : Pool J D} (hready : p.Ready) (h : p.spawn = some p') : Quiet p p' := by
  unfold spawn at h
  split_ifs at h with hguard
  obtain rfl := Option.some.inj h
  simp only [Bool.and_eq_true, decide_eq_true_eq] at hguard
  refine ⟨rfl, rfl, rfl, ?_, rfl, rfl, id, fun _ => ?_, fun hno => ?_⟩
  · simp [runningItems, Worker.item?]
  · have hcount := hready.count
    rw [if_pos hguard.1] at hcount
    refine ⟨hready.fresh, hready.waiting, ?_, ?_, fun havailable worker hmem => ?_⟩
    · simpa using hguard.2
    · simp only [startingWorkers] at hcount
      simp only [startingWorkers, List.filterMap_append, List.length_append, hguard.1, if_pos,
        ← hcount]
      rfl
    · rcases List.mem_append.1 hmem with hmem | hmem
      · exact hready.idle havailable worker hmem
      · exact Or.inl (List.mem_singleton.1 hmem)
  · exact Cxx.clash hno.1 hguard.1

theorem quiet_constructed {p p' : Pool J D} (hready : p.Ready) (h : p.constructed = some p') :
    Quiet p p' := by
  unfold constructed at h
  split_ifs at h with hguard
  obtain rfl := Option.some.inj h
  simp only [Bool.and_eq_true, beq_iff_eq] at hguard
  refine ⟨rfl, rfl, rfl, rfl, rfl, rfl, fun _ => rfl, fun _ => ?_, fun hno => ?_⟩
  · have hcount := hready.count
    rw [if_pos hguard.1, hguard.2] at hcount
    exact ⟨hready.fresh, nofun, hready.room, hcount, hready.idle⟩
  · exact Cxx.clash hno.1 hguard.1

theorem quiet_countWorker {p : Pool J D} {i : ℕ} (available : Bool) (error : Wire.Bytes)
    (hready : p.Ready) (h : p.workers[i]? = some .starting) :
    Quiet p (p.countWorker i available error) := by
  have hcount : ∀ b : Worker J, b.starting? = none →
      p.initializedWorkers + 1 + ((p.workers.set i b).filterMap Worker.starting?).length =
        if p.constructing then (p.workers.set i b).length else p.requestedWorkers := by
    intro b hb
    have hlength := Conc.length_filterMap_set Worker.starting? h (b := b)
    rw [hb] at hlength
    rw [List.length_set, ← hready.count]
    show _ = _ + (p.workers.filterMap Worker.starting?).length
    simp only [Worker.starting?, Option.toList_some, List.length_singleton, Option.toList_none,
      List.length_nil] at hlength
    omega
  have hunstaffed : ¬ p.Unstaffed := fun hno => nomatch hno.2 _ (List.mem_of_getElem? h)
  cases available with
  | true =>
    refine ⟨rfl, rfl, rfl, filterMap_item_set h rfl rfl, rfl, rfl, id, fun _ => ?_,
      fun hno => (hunstaffed hno).elim⟩
    refine ⟨hready.fresh, hready.waiting, (List.length_set ..).trans_le hready.room,
      hcount _ rfl, nofun⟩
  | false =>
    refine ⟨rfl, rfl, rfl, filterMap_item_set h rfl rfl, rfl, rfl, id, fun _ => ?_,
      fun hno => (hunstaffed hno).elim⟩
    refine ⟨hready.fresh, hready.waiting, (List.length_set ..).trans_le hready.room,
      hcount _ rfl, fun havailable worker hmem => ?_⟩
    rcases List.mem_or_eq_of_mem_set hmem with hmem | rfl
    · exact hready.idle havailable worker hmem
    · exact Or.inr rfl

theorem quiet_exit {p p' : Pool J D} {i : ℕ} (hready : p.Ready) (h : p.exit i = some p') :
    Quiet p p' := by
  unfold exit at h
  split at h
  · rename_i hworker hstopping
    obtain rfl := Option.some.inj h
    refine ⟨rfl, rfl, rfl, filterMap_item_set hworker rfl rfl, rfl, rfl, id,
      fun _ => hready.set_worker hworker rfl rfl ⟨nofun, nofun⟩, fun hno => ?_⟩
    exact nomatch hno.2 _ (List.mem_of_getElem? hworker)
  · exact nomatch h

theorem generation_ne_succ {generation : UInt64} : generation ≠ generation + 1 := by
  intro h
  have hval := congrArg UInt64.toNat h
  have hlt := generation.toNat_lt
  rw [UInt64.toNat_add] at hval
  change generation.toNat = (generation.toNat + 1) % 2 ^ 64 at hval
  omega

theorem takeNext_cases (p : Pool J D) :
    p.completed.find p.nextDelivery = none ∧ p.takeNext = (none, p) ∨
      ∃ result, p.completed.find p.nextDelivery = some result ∧
        p.takeNext = (some result, p.deliver result) := by
  unfold takeNext
  rcases p.completed.find p.nextDelivery with _ | result
  · exact Or.inl ⟨rfl, rfl⟩
  · exact Or.inr ⟨result, rfl, rfl⟩

/-! ## The cut -/

section Cut

variable [Inhabited D]

/-- The jobs a drain may settle with a status. -/
def Droppable (p : Pool J D) (status : EmulationJobStatus) (item : QueuedJob J) : Prop :=
  match status with
  | .unavailable => item.generation = p.generation ∧ p.Unstaffed
  | _ => item.generation ≠ p.generation

theorem drop_move {hand : List (QueuedJob J)} {p : Pool J D} {status : EmulationJobStatus}
    {item : QueuedJob J} (reason : Wire.Bytes) (h : p.Droppable status item) :
    Move (item :: hand, p) (hand, p.drop status reason item) := by
  cases status with
  | unavailable => exact .settle (.noWorker reason h.1 h.2)
  | completed => exact .settle (.dropped reason h)
  | cancelled => exact .settle (.dropped reason h)
  | failed => exact .settle (.dropped reason h)

theorem droppable_drop {p : Pool J D} {status : EmulationJobStatus} {reason : Wire.Bytes}
    {item item' : QueuedJob J} (h : p.Droppable status item') :
    (p.drop status reason item).Droppable status item' := by
  cases status with
  | unavailable =>
    exact ⟨h.1.trans (generation_settleLocked _ _ _).symm, (unstaffed_settleLocked _ _ _).2 h.2⟩
  | completed => exact fun heq => h (heq.trans (generation_settleLocked _ _ _))
  | cancelled => exact fun heq => h (heq.trans (generation_settleLocked _ _ _))
  | failed => exact fun heq => h (heq.trans (generation_settleLocked _ _ _))

theorem drop_moves {status : EmulationJobStatus} (reason : Wire.Bytes) :
    ∀ (items : List (QueuedJob J)) (p : Pool J D), (∀ item ∈ items, p.Droppable status item) →
      Moves (items, p) ([], items.foldl (fun p item => p.drop status reason item) p)
  | [], p, _ => .refl
  | item :: items, p, h => by
    have hrest : ∀ item' ∈ items, (p.drop status reason item).Droppable status item' :=
      fun item' hmem => droppable_drop (h item' (List.mem_cons_of_mem _ hmem))
    exact .head (drop_move reason (h item List.mem_cons_self))
      (drop_moves reason items (p.drop status reason item) hrest)

/-- A section that takes the whole queue in hand, advances the generation and drains. -/
theorem drain_moves {p p' : Pool J D} {status : EmulationJobStatus} (reason : Wire.Bytes)
    (hmove : Moves (p.queue, { p with queue := [] }) (p.queue, { p' with queue := [] }))
    (hqueue : p'.queue = p.queue) (h : ∀ item ∈ p.queue, p'.Droppable status item) :
    Moves ([], p) ([], p'.drainQueuedLocked status reason) := by
  have htake : Move ([], p) (p.queue ++ [], { p with queue := [] }) :=
    .dequeue (List.append_nil _).symm
  rw [List.append_nil] at htake
  refine .head htake (hmove.trans ?_)
  unfold drainQueuedLocked
  rw [hqueue]
  refine drop_moves reason p.queue _ fun item hitem => ?_
  cases status <;> exact h item hitem

/-- Draining an empty queue does nothing. -/
theorem drainQueuedLocked_nil {p : Pool J D} (status : EmulationJobStatus) (reason : Wire.Bytes)
    (h : p.queue = []) : p.drainQueuedLocked status reason = p := by
  unfold drainQueuedLocked
  rw [h]
  exact congrArg (fun queue => { p with queue := queue }) h.symm

theorem quiet_creationFailed {p p' : Pool J D} (hready : p.Ready)
    (h : p.creationFailed = some p') : Quiet p p' := by
  unfold creationFailed at h
  by_cases hconstructing : p.constructing = true
  swap
  · exact nomatch (if_neg hconstructing).symm.trans h
  rw [if_pos hconstructing] at h
  -- the queue is still empty, so that the drain does nothing
  have hqueue : p.queue = [] := hready.waiting hconstructing
  simp only [hqueue, drainQueuedLocked_nil, ite_self] at h
  obtain rfl := Option.some.inj h
  refine ⟨rfl, rfl, hqueue.symm, rfl, rfl, rfl, fun _ => rfl, fun _ => ?_, fun hno => ?_⟩
  · have hcount := hready.count
    have hroom := hready.room
    rw [if_pos hconstructing] at hcount
    refine ⟨by simp, nofun, hroom, ?_, hready.idle⟩
    show p.initializedWorkers + (p.requestedWorkers - p.workers.length) + p.startingWorkers =
      p.requestedWorkers
    omega
  · exact Cxx.clash hno.1 hconstructing

theorem initializeWorker_cases {p p' : Pool J D} {i : ℕ} {available : Bool} {error : Wire.Bytes}
    (hready : p.Ready) (h : p.initializeWorker i available error = some p') :
    Quiet p (p.countWorker i available error) ∧
      (p' = p.countWorker i available error ∨
        (p.countWorker i available error).allUnavailable = true ∧
          ∃ reason, p' =
            (p.countWorker i available error).drainQueuedLocked .unavailable reason) := by
  unfold initializeWorker at h
  split at h
  swap
  · exact nomatch h
  rename_i hworker
  refine ⟨quiet_countWorker available error hready hworker, ?_⟩
  by_cases hall : (p.countWorker i available error).allUnavailable = true
  · exact Or.inr ⟨hall, _, Option.some.inj (h.symm.trans (congrArg some (if_pos hall)))⟩
  · exact Or.inl (Option.some.inj (h.symm.trans (congrArg some (if_neg hall))))

theorem initializeWorker_moves {p p' : Pool J D} {i : ℕ} {available : Bool} {error : Wire.Bytes}
    (hready : p.Ready) (h : p.initializeWorker i available error = some p') :
    Moves ([], p) ([], p') := by
  obtain ⟨hquiet, rfl | ⟨hall, reason, rfl⟩⟩ := initializeWorker_cases hready h
  · exact .single (.quiet hquiet)
  · have hready' := hquiet.ready hready
    refine .head (.quiet hquiet) ?_
    rcases hc : (p.countWorker i available error).constructing with _ | _
    · have hno := hready'.unstaffed hc hall
      exact drain_moves _ .refl rfl fun item hitem => ⟨hready'.fresh item hitem, hno⟩
    · rw [drainQueuedLocked_nil _ _ (hready'.waiting hc)]

theorem pop_moves {p p' : Pool J D} {i : ℕ} (h : p.pop i = some p') : Moves ([], p) ([], p') := by
  unfold pop at h
  split at h
  · rename_i item queue hworker hstopping hqueue
    obtain rfl := Option.some.inj h
    have htake : Move ([], p) ([item] ++ [], { p with queue := queue }) := .dequeue hqueue
    exact .head htake (.single (.start hworker))
  · exact nomatch h

theorem settleJob_moves {p p' : Pool J D} {i : ℕ} {executed : Executed D}
    (h : p.settleJob i executed = some p') : Moves ([], p) ([], p') := by
  unfold settleJob at h
  split at h
  · rename_i item hworker
    obtain rfl := Option.some.inj h
    exact .head (.finish hworker) (.single (.settle (.executed executed)))
  · exact nomatch h

/-! ### Calls -/

theorem trySubmit_cases (p : Pool J D) (job : EmulationJob J) :
    p.trySubmit job = (none, p) ∨
      p.stopping = false ∧ p.nextTicket ≠ maxTicket ∧
        p.trySubmit job =
          (some p.nextTicket, (p.accept job).place ⟨p.nextTicket, p.generation, job⟩) := by
  unfold trySubmit
  by_cases hstopping : p.stopping = true
  · rw [if_pos hstopping]
    exact Or.inl rfl
  rw [if_neg hstopping]
  split_ifs with hqueue houtstanding hmax
  · exact Or.inl rfl
  · exact Or.inl rfl
  · exact Or.inl rfl
  · exact Or.inr ⟨by simpa using hstopping, hmax, rfl⟩

theorem trySubmit_moves {p : Pool J D} (job : EmulationJob J) (hready : p.Ready)
    (hconstructed : p.constructing = false) : Moves ([], p) ([], (p.trySubmit job).2) := by
  rcases trySubmit_cases p job with hsame | ⟨hstopping, hmax, haccepted⟩
  · rw [hsame]
  rw [haccepted]
  have haccept : Move ([], p) ([⟨p.nextTicket, p.generation, job⟩], p.accept job) :=
    .accept job hconstructed hstopping hmax
  refine .head haccept (.single ?_)
  unfold place
  by_cases hall : (p.accept job).allUnavailable = true
  · have hno := (haccept.ready hready).unstaffed hconstructed hall
    rw [if_pos hall]
    exact .settle (.noWorker _ rfl hno)
  · rw [if_neg hall]
    exact .enqueue (p := p.accept job) hconstructed hstopping rfl

theorem takeNext_moves (p : Pool J D) : Moves ([], p) ([], p.takeNext.2) := by
  rcases takeNext_cases p with ⟨-, hnone⟩ | ⟨result, hfind, hsome⟩
  · rw [hnone]
  · rw [hsome]
    exact .single (.deliver hfind)

theorem takeLoop_moves (maximum : ℕ) : ∀ (fuel : ℕ) (results : List (EmulationJobResult D))
    (p : Pool J D), Moves ([], p) ([], (takeLoop maximum fuel results p).2)
  | 0, _, _ => .refl
  | fuel + 1, results, p => by
    unfold takeLoop
    split_ifs with hmore
    · have hnext := takeNext_moves p
      split
      · rename_i hnone
        rwa [hnone] at hnext
      · rename_i hsome
        rw [hsome] at hnext
        exact hnext.trans (takeLoop_moves maximum fuel _ _)
    · exact .refl

theorem cancelPending_moves {p : Pool J D} (hready : p.Ready) :
    Moves ([], p) ([], p.cancelPending) := by
  unfold cancelPending
  split_ifs with hstopping
  · exact .single (.idleCancel hstopping)
  · refine drain_moves _ (.single (.cancel (by simpa using hstopping) rfl)) rfl
      fun item hitem heq => ?_
    rw [hready.fresh item hitem] at heq
    exact generation_ne_succ heq

theorem shutdown_moves {p : Pool J D} (hready : p.Ready) : Moves ([], p) ([], p.shutdown) := by
  unfold shutdown
  split_ifs with hstopping
  · exact .single (.idleStop hstopping)
  · refine drain_moves _ (.single (.stop (by simpa using hstopping) rfl)) rfl
      fun item hitem heq => ?_
    rw [hready.fresh item hitem] at heq
    exact generation_ne_succ heq

/-- Every section is a sequence of moves, with no job in hand before and after. -/
theorem Step.moves {p p' : Pool J D} (h : Step p p') (hready : p.Ready) :
    Moves ([], p) ([], p') := by
  cases h with
  | internal h =>
    cases h with
    | spawn h => exact .single (.quiet (quiet_spawn hready h))
    | constructed h => exact .single (.quiet (quiet_constructed hready h))
    | creationFailed h => exact .single (.quiet (quiet_creationFailed hready h))
    | initializeWorker i available error h => exact initializeWorker_moves hready h
    | pop i h => exact pop_moves h
    | exit i h => exact .single (.quiet (quiet_exit hready h))
    | settle i executed h => exact settleJob_moves h
  | trySubmit job hconstructed => exact trySubmit_moves job hready hconstructed
  | takeNext => exact takeNext_moves p
  | takeReady maximum => exact takeLoop_moves maximum _ _ p
  | cancelPending => exact cancelPending_moves hready
  | shutdown => exact shutdown_moves hready

theorem Moves.ready {x y : List (QueuedJob J) × Pool J D} (h : Moves x y) (hx : x.2.Ready) :
    y.2.Ready := by
  induction h with
  | refl => exact hx
  | tail _ hmove ih => exact hmove.ready ih

/-- **Invariants of the pool.** What the moves keep holds in every reachable state. -/
theorem Reachable.invariant {workerCount maxQueuedJobs : ℕ} {p : Pool J D}
    (I : List (QueuedJob J) → Pool J D → Prop) (hinit : I [] (initial workerCount maxQueuedJobs))
    (hmove : ∀ {x y : List (QueuedJob J) × Pool J D}, Move x y → I x.1 x.2 → I y.1 y.2)
    (h : Reachable workerCount maxQueuedJobs p) : I [] p := by
  have hmoves : ∀ {x y : List (QueuedJob J) × Pool J D}, Moves x y → I x.1 x.2 → I y.1 y.2 := by
    intro x y hxy hx
    induction hxy with
    | refl => exact hx
    | tail _ hlast ih => exact hmove hlast ih
  have hboth : p.Ready ∧ I [] p := by
    induction h with
    | refl => exact ⟨ready_initial _ _, hinit⟩
    | tail _ hstep ih =>
      have hcut := hstep.moves ih.1
      exact ⟨hcut.ready ih.1, hmoves hcut ih.2⟩
  exact hboth.2

theorem Reachable.ready {workerCount maxQueuedJobs : ℕ} {p : Pool J D}
    (h : Reachable workerCount maxQueuedJobs p) : p.Ready :=
  h.invariant (fun _ p => p.Ready) (ready_initial _ _) fun hmove hx => hmove.ready hx

end Cut

end Pool

end Viy
