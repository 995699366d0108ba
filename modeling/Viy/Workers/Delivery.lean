import Viy.Workers.Moves

/-!
# Tickets of the pool

The pool is a ticket desk: its traces are legal, and every accepted ticket is settled, queued,
running or in hand, in exactly one of these places. `Books` says so of the desk and the jobs it
still holds; each move keeps the books.
-/

namespace Viy

namespace Pool

open Conc Conc.Trace

variable {J D : Type}

/-- The jobs that are not settled. -/
def held (hand : List (QueuedJob J)) (p : Pool J D) : List (QueuedJob J) :=
  p.queue ++ (p.runningItems ++ hand)

/-! ## Books -/

/-- Settled results name their ticket and the function of their job. -/
def Answered (trace : PoolTrace J D) : Prop :=
  ∀ ticket settlement, .settled ticket settlement ∈ trace →
    settlement.result.ticket = ticket ∧
      ∃ job, .accepted ticket job ∈ trace ∧ settlement.result.functionStart = job.functionStart

theorem Answered.cons {trace : PoolTrace J D} (h : Answered trace)
    {event : Conc.Event (EmulationJob J) (Settlement D) (EmulationJobResult D) PoolNote}
    (hevent : ∀ ticket settlement, .settled ticket settlement ≠ event) :
    Answered (event :: trace) := by
  intro ticket settlement hmem
  obtain ⟨hticket, job, hjob, hstart⟩ := h ticket settlement
    ((List.mem_cons.1 hmem).resolve_left (hevent ticket settlement))
  exact ⟨hticket, job, List.mem_cons_of_mem _ hjob, hstart⟩

structure Books (held : List (QueuedJob J)) (d : Desk J D) : Prop where
  legal : Legal Settlement.result d.trace
  accepted : (acceptedTickets d.trace).length + 1 = d.nextTicket
  handedOut : (deliveredTickets d.trace).length + 1 = d.nextDelivery
  places : (settledTickets d.trace ++ held.map QueuedJob.ticket).Perm (acceptedTickets d.trace)
  jobs : ∀ item ∈ held, .accepted item.ticket item.job ∈ d.trace
  completed : ∀ ticket result, d.completed.find ticket = some result ↔
    d.nextDelivery ≤ ticket ∧ ∃ source, .settled ticket ⟨result, source⟩ ∈ d.trace
  answers : Answered d.trace
  submitted : d.submitted = (acceptedTickets d.trace).length
  settled : d.settled = (settledTickets d.trace).length
  delivered : d.delivered = (deliveredTickets d.trace).length
  unsettled : d.unsettled = held.length
  fits : d.nextTicket ≤ maxTicket

namespace Books

variable {item : QueuedJob J} {held held' : List (QueuedJob J)} {d : Desk J D} {p : Pool J D}

theorem perm (h : Books held d) (hperm : held.Perm held') : Books held' d where
  legal := h.legal
  accepted := h.accepted
  handedOut := h.handedOut
  places := ((hperm.symm.map _).append_left _).trans h.places
  jobs item hitem := h.jobs item (hperm.symm.subset hitem)
  completed := h.completed
  answers := h.answers
  submitted := h.submitted
  settled := h.settled
  delivered := h.delivered
  unsettled := h.unsettled.trans hperm.length_eq
  fits := h.fits

/-- Tickets are in one place only. -/
theorem nodup (h : Books held d) : (settledTickets d.trace ++ held.map QueuedJob.ticket).Nodup := by
  rw [h.places.nodup_iff]
  exact h.legal.nodup_acceptedTickets

theorem not_settled (h : Books held d) (hitem : item ∈ held) :
    item.ticket ∉ settledTickets d.trace := fun hsettled =>
  List.disjoint_of_nodup_append h.nodup hsettled (List.mem_map_of_mem hitem)

/-- A ticket that is not settled has not come up for delivery. -/
theorem nextDelivery_le (h : Books held d) (hitem : item ∈ held) :
    d.nextDelivery ≤ item.ticket := by
  have haccepted := mem_acceptedTickets.2 ⟨_, h.jobs item hitem⟩
  have hpos := (h.legal.mem_acceptedTickets_iff.1 haccepted).1
  have hnot : item.ticket ∉ deliveredTickets d.trace := fun hdelivered =>
    h.not_settled hitem (h.legal.settled_of_delivered hdelivered)
  rw [h.legal.mem_deliveredTickets_iff] at hnot
  have hout := h.handedOut
  omega

theorem find_eq_none (h : Books held d) (hitem : item ∈ held) :
    d.completed.find item.ticket = none := by
  rcases hfind : d.completed.find item.ticket with _ | result
  · rfl
  · obtain ⟨-, source, hsettled⟩ := (h.completed _ _).1 hfind
    exact (h.not_settled hitem (mem_settledTickets.2 ⟨_, hsettled⟩)).elim

/-! ## Each move keeps the books -/

theorem accept (h : Books held p.desk) (job : EmulationJob J) (generation : UInt64)
    (hmax : p.nextTicket ≠ maxTicket) :
    Books (⟨p.nextTicket, generation, job⟩ :: held) (p.accept job).desk where
  legal := by
    have hlegal := h.legal.accept job
    rwa [h.accepted] at hlegal
  accepted := congrArg (· + 1) h.accepted
  handedOut := h.handedOut
  places := List.perm_middle.trans (h.places.cons _)
  jobs item hitem := by
    rcases List.mem_cons.1 hitem with rfl | hitem
    · exact List.mem_cons_self
    · exact List.mem_cons_of_mem _ (h.jobs item hitem)
  completed ticket result := by
    rw [show (p.accept job).desk.completed = p.desk.completed from rfl, h.completed]
    simp [desk, Pool.accept]
  answers := h.answers.cons nofun
  submitted := congrArg (· + 1) h.submitted
  settled := h.settled
  delivered := h.delivered
  unsettled := congrArg (· + 1) h.unsettled
  fits := by
    have hfits : p.nextTicket ≤ maxTicket := h.fits
    exact Nat.lt_of_le_of_ne hfits hmax

theorem note (h : Books held p.desk) (note : PoolNote) :
    Books held { p.desk with trace := .note note :: p.trace } where
  legal := h.legal.note note
  accepted := h.accepted
  handedOut := h.handedOut
  places := h.places
  jobs item hitem := List.mem_cons_of_mem _ (h.jobs item hitem)
  completed ticket result := by
    rw [h.completed]
    simp [desk]
  answers := h.answers.cons nofun
  submitted := h.submitted
  settled := h.settled
  delivered := h.delivered
  unsettled := h.unsettled
  fits := h.fits

theorem deliver (h : Books held p.desk) {result : EmulationJobResult D}
    (hfind : p.completed.find p.nextDelivery = some result) :
    Books held (p.deliver result).desk where
  legal := by
    obtain ⟨-, source, hsettled⟩ := (h.completed _ _).1 hfind
    have hout : (deliveredTickets p.desk.trace).length + 1 = p.nextDelivery := h.handedOut
    rw [← hout] at hsettled
    have hlegal := h.legal.deliver hsettled
    rwa [hout] at hlegal
  accepted := h.accepted
  handedOut := congrArg (· + 1) h.handedOut
  places := h.places
  jobs item hitem := List.mem_cons_of_mem _ (h.jobs item hitem)
  completed ticket result' := by
    show (p.completed.erase p.nextDelivery).find ticket = some result' ↔ _
    have hold := h.completed ticket result'
    rw [Cxx.Map.find_erase]
    simp only [desk, Pool.deliver, List.mem_cons, reduceCtorEq, false_or] at hold ⊢
    split_ifs with heq
    · subst heq
      simp
    · rw [hold]
      constructor
      · rintro ⟨hle, hsettled⟩
        exact ⟨by omega, hsettled⟩
      · rintro ⟨hle, hsettled⟩
        exact ⟨by omega, hsettled⟩
  answers := h.answers.cons nofun
  submitted := h.submitted
  settled := h.settled
  delivered := congrArg (· + 1) h.delivered
  unsettled := h.unsettled
  fits := h.fits

theorem settle (h : Books (item :: held) p.desk) {result : EmulationJobResult D}
    (source : Source D) (hticket : result.ticket = item.ticket)
    (hstart : result.functionStart = item.job.functionStart) :
    Books held (p.settleLocked result source).desk := by
  have hitem : item ∈ item :: held := List.mem_cons_self
  have hnot := h.not_settled hitem
  have haccepted := h.jobs item hitem
  have hnone : p.completed.find item.ticket = none := h.find_eq_none hitem
  have hlater : p.nextDelivery ≤ item.ticket := h.nextDelivery_le hitem
  unfold settleLocked
  rw [hticket, hnone]
  exact {
    legal := h.legal.settle _ (mem_acceptedTickets.2 ⟨_, haccepted⟩) hnot
    accepted := h.accepted
    handedOut := h.handedOut
    places := List.perm_middle.symm.trans h.places
    jobs := fun item' hitem' =>
      List.mem_cons_of_mem _ (h.jobs item' (List.mem_cons_of_mem _ hitem'))
    completed := fun ticket result' => by
      show (p.completed.emplace item.ticket result).find ticket = some result' ↔ _
      have hold := h.completed ticket result'
      rw [Cxx.Map.emplace, Cxx.Map.find_upsert, hnone]
      simp only [desk, List.mem_cons, Event.settled.injEq, Settlement.mk.injEq] at hold ⊢
      split_ifs with heq
      · -- the only settlement of this ticket is the new one
        subst heq
        constructor
        · intro hsome
          exact ⟨hlater, source, Or.inl ⟨rfl, (Option.some.inj hsome).symm, rfl⟩⟩
        · rintro ⟨-, source', ⟨-, rfl, -⟩ | hsettled⟩
          · rfl
          · exact (hnot (mem_settledTickets.2 ⟨_, hsettled⟩)).elim
      · rw [hold]
        constructor
        · rintro ⟨hle, source', hsettled⟩
          exact ⟨hle, source', Or.inr hsettled⟩
        · rintro ⟨hle, source', ⟨rfl, -⟩ | hsettled⟩
          · exact (heq rfl).elim
          · exact ⟨hle, source', hsettled⟩
    answers := fun ticket settlement hmem => by
      rcases List.mem_cons.1 hmem with heq | hmem
      · obtain ⟨rfl, rfl⟩ := Event.settled.inj heq
        exact ⟨hticket, item.job, List.mem_cons_of_mem _ haccepted, hstart⟩
      · obtain ⟨hticket', job, hjob, hstart'⟩ := h.answers ticket settlement hmem
        exact ⟨hticket', job, List.mem_cons_of_mem _ hjob, hstart'⟩
    submitted := h.submitted
    settled := congrArg (· + 1) h.settled
    delivered := h.delivered
    unsettled := congrArg (· - 1) h.unsettled
    fits := h.fits }

end Books

/-! ## The books of the pool -/

/-- The invariant between two moves. -/
structure Ok (hand : List (QueuedJob J)) (p : Pool J D) : Prop where
  books : Books (p.held hand) p.desk
  running : p.running = p.runningItems.length
  stopped : p.stopping = true → p.queue = []

theorem held_cons_perm (item : QueuedJob J) (hand : List (QueuedJob J)) (p : Pool J D) :
    (p.held (item :: hand)).Perm (item :: p.held hand) := by
  unfold held
  rw [← List.append_assoc, ← List.append_assoc]
  exact List.perm_middle

section Held

variable {hand : List (QueuedJob J)} {p p' : Pool J D} {item : QueuedJob J} {i running : ℕ}

theorem held_quiet (h : Quiet p p') : p'.held hand = p.held hand := by
  unfold held
  rw [h.queue, h.runningItems]

theorem held_enqueue :
    (p.held (item :: hand)).Perm ({ p with queue := p.queue ++ [item] }.held hand) := by
  refine (held_cons_perm item hand p).trans ?_
  show (item :: (p.queue ++ (p.runningItems ++ hand))).Perm
    (p.queue ++ [item] ++ (p.runningItems ++ hand))
  rw [List.append_assoc]
  exact List.perm_middle.symm

theorem held_dequeue {taken rest : List (QueuedJob J)} (h : p.queue = taken ++ rest) :
    (p.held hand).Perm ({ p with queue := rest }.held (taken ++ hand)) := by
  show (p.queue ++ (p.runningItems ++ hand)).Perm (rest ++ (p.runningItems ++ (taken ++ hand)))
  rw [h, List.append_assoc]
  refine (List.perm_append_comm_assoc taken rest _).trans (List.Perm.append_left rest ?_)
  exact List.perm_append_comm_assoc taken p.runningItems hand

theorem runningItems_start (h : p.workers[i]? = some .idle) :
    ({ p with workers := p.workers.set i (.running item), running := running }.runningItems).Perm
      (item :: p.runningItems) :=
  filterMap_set_perm Worker.item? h

theorem held_start (h : p.workers[i]? = some .idle) :
    (p.held (item :: hand)).Perm
      ({ p with workers := p.workers.set i (.running item), running := running }.held hand) := by
  refine (held_cons_perm item hand p).trans ?_
  refine List.perm_middle.symm.trans (List.Perm.append_left p.queue ?_)
  exact ((runningItems_start h).append_right hand).symm

theorem runningItems_finish (h : p.workers[i]? = some (.running item)) :
    (item :: { p with workers := p.workers.set i .idle, running := running }.runningItems).Perm
      p.runningItems :=
  filterMap_set_perm Worker.item? h

theorem held_finish (h : p.workers[i]? = some (.running item)) :
    (p.held hand).Perm
      ({ p with workers := p.workers.set i .idle, running := running }.held (item :: hand)) := by
  refine List.Perm.trans ?_ (held_cons_perm item hand _).symm
  refine (List.Perm.append_left p.queue ?_).trans List.perm_middle
  exact ((runningItems_finish h).append_right hand).symm

end Held

theorem ok_initial (workerCount maxQueuedJobs : ℕ) :
    Ok [] (initial workerCount maxQueuedJobs : Pool J D) where
  books :=
    { legal := .nil
      accepted := rfl
      handedOut := rfl
      places := .nil
      jobs := by simp [held, initial, runningItems]
      completed := by simp [desk, initial]
      answers := by simp [Answered, desk, initial]
      submitted := rfl
      settled := rfl
      delivered := rfl
      unsettled := rfl
      fits := (by decide : 1 ≤ maxTicket) }
  running := rfl
  stopped := nofun

section Settle

variable (p : Pool J D) (result : EmulationJobResult D) (source : Source D)

theorem held_settleLocked (hand : List (QueuedJob J)) :
    (p.settleLocked result source).held hand = p.held hand := by
  unfold settleLocked
  split <;> rfl

theorem ok_settleLocked {hand hand' : List (QueuedJob J)} (h : Ok hand' p)
    (hbooks : Books (p.held hand) (p.settleLocked result source).desk) :
    Ok hand (p.settleLocked result source) := by
  refine ⟨by rwa [held_settleLocked], ?_, ?_⟩ <;> unfold settleLocked <;> split
  · exact h.running
  · exact h.running
  · exact h.stopped
  · exact h.stopped

end Settle

section Moves

variable [Inhabited D]

/-- Every result names its job. -/
theorem Outcome.names {p : Pool J D} {item : QueuedJob J} {result : EmulationJobResult D}
    {source : Source D} (h : Outcome p item result source) :
    result.ticket = item.ticket ∧ result.functionStart = item.job.functionStart := by
  cases h with
  | executed executed =>
    unfold cancelStale
    cases executed <;> split <;> exact ⟨rfl, rfl⟩
  | noWorker reason => exact ⟨rfl, rfl⟩
  | dropped reason => exact ⟨rfl, rfl⟩

theorem Move.ok {x y : List (QueuedJob J) × Pool J D} (h : Move x y) (hx : Ok x.1 x.2) :
    Ok y.1 y.2 := by
  cases h with
  | @quiet hand p p' hquiet =>
    refine ⟨?_, ?_, fun hstopping => ?_⟩
    · show Books (p'.held hand) p'.desk
      rw [held_quiet hquiet, hquiet.desk]
      exact hx.books
    · show p'.running = p'.runningItems.length
      rw [hquiet.running, hquiet.runningItems]
      exact hx.running
    · show p'.queue = []
      rw [hquiet.queue]
      exact hx.stopped (hquiet.stopping ▸ hstopping)
  | @accept hand p job _ _ hmax =>
    have hbooks := hx.books.accept job p.generation hmax
    exact ⟨hbooks.perm (held_cons_perm _ hand p).symm, hx.running, hx.stopped⟩
  | enqueue _ hstopping _ =>
    exact ⟨hx.books.perm held_enqueue, hx.running, fun hstop => Cxx.clash hstopping hstop⟩
  | dequeue hqueue =>
    refine ⟨hx.books.perm (held_dequeue hqueue), hx.running, fun hstop => ?_⟩
    have hempty := hx.stopped hstop
    rw [hqueue] at hempty
    exact (List.append_eq_nil_iff.1 hempty).2
  | start hworker =>
    refine ⟨hx.books.perm (held_start hworker), ?_, hx.stopped⟩
    exact (congrArg (· + 1) hx.running).trans (runningItems_start hworker).length_eq.symm
  | finish hworker =>
    refine ⟨hx.books.perm (held_finish hworker), ?_, hx.stopped⟩
    exact congrArg (· - 1) (hx.running.trans (runningItems_finish hworker).length_eq.symm)
  | @settle hand p item result source houtcome =>
    obtain ⟨hticket, hstart⟩ := houtcome.names
    have hbooks := hx.books.perm (held_cons_perm item hand p)
    exact ok_settleLocked p result source hx (hbooks.settle source hticket hstart)
  | deliver hfind => exact ⟨hx.books.deliver hfind, hx.running, hx.stopped⟩
  | cancel _ _ => exact ⟨hx.books.note _, hx.running, hx.stopped⟩
  | stop _ hqueue => exact ⟨hx.books.note _, hx.running, fun _ => hqueue⟩
  | idleCancel _ => exact ⟨hx.books.note _, hx.running, hx.stopped⟩
  | idleStop _ => exact ⟨hx.books.note _, hx.running, hx.stopped⟩

theorem Reachable.ok {workerCount maxQueuedJobs : ℕ} {p : Pool J D}
    (h : Reachable workerCount maxQueuedJobs p) : Ok [] p :=
  h.invariant Ok (ok_initial _ _) fun hmove hx => hmove.ok hx

end Moves

theorem mem_trace_place [Inhabited D] {p : Pool J D} {item : QueuedJob J}
    {event : Conc.Event (EmulationJob J) (Settlement D) (EmulationJobResult D) PoolNote}
    (h : event ∈ p.trace) : event ∈ (p.place item).trace := by
  unfold place
  by_cases hall : p.allUnavailable = true
  · rw [if_pos hall]
    unfold settleLocked
    split
    · exact h
    · exact List.mem_cons_of_mem _ h
  · rw [if_neg hall]
    exact h

/-! ## Taking results -/

theorem ticket_of_takeNext {held : List (QueuedJob J)} {p p' : Pool J D}
    {result : EmulationJobResult D} (hbooks : Books held p.desk)
    (h : p.takeNext = (some result, p')) :
    result.ticket = p.nextDelivery ∧ p'.nextDelivery = p.nextDelivery + 1 ∧ Books held p'.desk ∧
      ∃ source, .settled p.nextDelivery ⟨result, source⟩ ∈ p.trace := by
  rcases takeNext_cases p with ⟨-, hnone⟩ | ⟨ready, hfind, hsome⟩
  · exact nomatch hnone.symm.trans h
  · obtain ⟨hready, rfl⟩ := Prod.mk.inj (hsome.symm.trans h)
    obtain rfl := Option.some.inj hready
    obtain ⟨-, source, hsettled⟩ := (hbooks.completed _ _).1 hfind
    exact ⟨(hbooks.answers _ _ hsettled).1, rfl, hbooks.deliver hfind, source, hsettled⟩

theorem takeLoop_tickets (maximum first : ℕ) : ∀ (fuel : ℕ) (results : List (EmulationJobResult D))
    (p : Pool J D) {held : List (QueuedJob J)}, Books held p.desk →
      results.map EmulationJobResult.ticket = List.range' first results.length →
      p.nextDelivery = first + results.length →
      (takeLoop maximum fuel results p).1.map EmulationJobResult.ticket =
        List.range' first (takeLoop maximum fuel results p).1.length
  | 0, _, _, _, _, hresults, _ => hresults
  | fuel + 1, results, p, held, hbooks, hresults, hnext => by
    unfold takeLoop
    by_cases hmore : maximum = 0 ∨ results.length < maximum
    swap
    · rw [if_neg hmore]
      exact hresults
    rw [if_pos hmore]
    split
    · exact hresults
    · rename_i result p' htake
      obtain ⟨hticket, hnext', hbooks', -⟩ := ticket_of_takeNext hbooks htake
      refine takeLoop_tickets maximum first fuel _ p' hbooks' ?_ ?_
      · rw [List.map_append, hresults, List.length_append, List.length_singleton,
          List.range'_1_concat, ← hnext, ← hticket]
        rfl
      · rw [hnext', hnext, List.length_append]
        rfl

/-- The loop ends as in the code: with enough results, or with none ready. -/
theorem takeLoop_ends (maximum : ℕ) : ∀ (fuel : ℕ) (results : List (EmulationJobResult D))
    (p : Pool J D), p.completed.entries.length < fuel →
      (maximum ≠ 0 ∧ maximum ≤ (takeLoop maximum fuel results p).1.length) ∨
        (takeLoop maximum fuel results p).2.completed.find
          (takeLoop maximum fuel results p).2.nextDelivery = none
  | 0, _, _, hfuel => absurd hfuel (Nat.not_lt_zero _)
  | fuel + 1, results, p, hfuel => by
    unfold takeLoop
    by_cases hmore : maximum = 0 ∨ results.length < maximum
    swap
    · rw [if_neg hmore]
      push Not at hmore
      exact Or.inl hmore
    rw [if_pos hmore]
    rcases takeNext_cases p with ⟨hfind, htake⟩ | ⟨result, hfind, htake⟩
    · rw [htake]
      exact Or.inr hfind
    · rw [htake]
      have hless := Cxx.Map.length_erase_lt hfind
      refine takeLoop_ends maximum fuel (results ++ [result]) (p.deliver result) ?_
      exact Nat.lt_of_lt_of_le hless (Nat.le_of_lt_succ hfuel)

/-! ## Accounts -/

/-- The settled tickets are those delivered and those waiting for it. -/
theorem Books.settledTickets_perm {held : List (QueuedJob J)} {d : Desk J D} (h : Books held d) :
    (settledTickets d.trace).Perm (List.range' 1 (d.nextDelivery - 1) ++ d.completed.keys) := by
  have hkeys : ∀ {ticket}, ticket ∈ d.completed.keys ↔
      d.nextDelivery ≤ ticket ∧ ticket ∈ settledTickets d.trace := by
    intro ticket
    rw [Cxx.Map.mem_keys, mem_settledTickets]
    constructor
    · rintro ⟨result, hfind⟩
      obtain ⟨hle, source, hsettled⟩ := (h.completed _ _).1 hfind
      exact ⟨hle, _, hsettled⟩
    · rintro ⟨hle, ⟨result, source⟩, hsettled⟩
      exact ⟨result, (h.completed _ _).2 ⟨hle, source, hsettled⟩⟩
  have hout := h.handedOut
  have hdelivered : ∀ {ticket}, ticket ∈ List.range' 1 (d.nextDelivery - 1) ↔
      ticket ∈ deliveredTickets d.trace := by
    intro ticket
    rw [h.legal.mem_deliveredTickets_iff, List.mem_range'_1]
    omega
  refine (List.perm_ext_iff_of_nodup h.legal.nodup_settledTickets ?_).2 fun ticket => ?_
  · refine List.Nodup.append List.nodup_range' d.completed.nodup_keys fun ticket hrange hkey => ?_
    have hle := (hkeys.1 hkey).1
    rw [List.mem_range'_1] at hrange
    omega
  · rw [List.mem_append, hdelivered, hkeys]
    constructor
    · intro hsettled
      have hpos := (h.legal.mem_acceptedTickets_iff.1 (h.legal.accepted_of_settled hsettled)).1
      by_cases hle : d.nextDelivery ≤ ticket
      · exact Or.inr ⟨hle, hsettled⟩
      · exact Or.inl (h.legal.mem_deliveredTickets_iff.2 (by omega))
    · rintro (hmem | ⟨-, hsettled⟩)
      · exact h.legal.settled_of_delivered hmem
      · exact hsettled

/-- What the pool promises about tickets, in one state. -/
structure Accounted [Inhabited D] (p : Pool J D) : Prop where
  /-- Tickets are accepted in the order 1, 2, 3, …. -/
  accepted : (acceptedTickets p.trace).reverse = List.range' 1 (p.nextTicket - 1)
  submit : ∀ job, p.trySubmit job = (none, p) ∨
    (p.trySubmit job).1 = some p.nextTicket ∧
      .accepted p.nextTicket job ∈ (p.trySubmit job).2.trace
  /-- Every accepted ticket is delivered, completed, queued or running, and only one of these. -/
  places : (List.range' 1 (p.nextDelivery - 1) ++ (p.completed.keys ++
    (p.queue.map QueuedJob.ticket ++ p.runningItems.map QueuedJob.ticket))).Perm
      (List.range' 1 (p.nextTicket - 1))
  /-- No ticket settles twice; those settled are the delivered and the completed ones. -/
  settledOnce : (settledTickets p.trace).Nodup
  settledPlaces : (settledTickets p.trace).Perm
    (List.range' 1 (p.nextDelivery - 1) ++ p.completed.keys)
  /-- Tickets are delivered in the order 1, 2, 3, …, each with the result it settled with. -/
  delivered : (deliveredTickets p.trace).reverse = List.range' 1 (p.nextDelivery - 1)
  take : ∀ result p', p.takeNext = (some result, p') → result.ticket = p.nextDelivery ∧
    p'.nextDelivery = p.nextDelivery + 1 ∧
      ∃ source, .settled p.nextDelivery ⟨result, source⟩ ∈ p.trace
  takeMany : ∀ maximum, (p.takeReady maximum).1.map EmulationJobResult.ticket =
    List.range' p.nextDelivery (p.takeReady maximum).1.length ∧
      ((maximum ≠ 0 ∧ maximum ≤ (p.takeReady maximum).1.length) ∨
        (p.takeReady maximum).2.completed.find (p.takeReady maximum).2.nextDelivery = none)
  /-- The counters are the sizes of these sets. -/
  unsettledCount : p.unsettled = p.queue.length + p.runningItems.length
  settledCount : p.settled = (p.nextDelivery - 1) + p.completed.keys.length
  deliveredCount : p.delivered = p.nextDelivery - 1
  /-- After shutdown, when all workers have returned, every accepted ticket is settled. -/
  stopped : p.stopping = true → (∀ worker ∈ p.workers, worker = .exited) →
    p.unsettled = 0 ∧ (settledTickets p.trace).Perm (acceptedTickets p.trace)

section Accounts

variable [Inhabited D]

/-- **Tickets.** In every interleaving tickets are numbered in order, are in one place, settle once
and are delivered in order; after shutdown none is left. -/
theorem Reachable.accounted {workerCount maxQueuedJobs : ℕ} {p : Pool J D}
    (h : Reachable workerCount maxQueuedJobs p) : p.Accounted := by
  have hok := h.ok
  have hbooks : Books (p.held []) p.desk := hok.books
  have hnext : (acceptedTickets p.trace).length + 1 = p.nextTicket := hbooks.accepted
  have hout : (deliveredTickets p.trace).length + 1 = p.nextDelivery := hbooks.handedOut
  have haccepted : (acceptedTickets p.trace).reverse = List.range' 1 (p.nextTicket - 1) := by
    rw [← hnext, Nat.add_sub_cancel]
    exact hbooks.legal.acceptedTickets_eq
  have hsettled : (settledTickets p.trace).Perm
    (List.range' 1 (p.nextDelivery - 1) ++ p.completed.keys) := hbooks.settledTickets_perm
  have hheld : p.held [] = p.queue ++ p.runningItems := by
    unfold held
    rw [List.append_nil]
  refine ⟨haccepted, fun job => ?_, ?_, hbooks.legal.nodup_settledTickets, hsettled, ?_,
    fun result p' htake => ?_, fun maximum => ?_, ?_, ?_, ?_, fun hstopping hexited => ?_⟩
  · rcases trySubmit_cases p job with hsame | ⟨-, -, hplaced⟩
    · exact Or.inl hsame
    · rw [hplaced]
      exact Or.inr ⟨rfl, mem_trace_place List.mem_cons_self⟩
  · rw [← haccepted, ← List.append_assoc, ← List.map_append, ← hheld]
    exact ((hsettled.symm.append_right _).trans hbooks.places).trans
      (List.reverse_perm _).symm
  · rw [← hout, Nat.add_sub_cancel]
    exact hbooks.legal.deliveredTickets_eq
  · obtain ⟨hticket, hnext', -, hsource⟩ := ticket_of_takeNext hbooks htake
    exact ⟨hticket, hnext', hsource⟩
  · exact ⟨takeLoop_tickets maximum p.nextDelivery _ [] p hbooks rfl rfl,
      takeLoop_ends maximum _ [] p (Nat.lt_succ_self _)⟩
  · have hunsettled : p.unsettled = (p.held []).length := hbooks.unsettled
    rw [hunsettled, hheld, List.length_append]
  · have hcount : p.settled = (settledTickets p.trace).length := hbooks.settled
    rw [hcount, hsettled.length_eq, List.length_append, List.length_range']
  · have hcount : p.delivered = (deliveredTickets p.trace).length := hbooks.delivered
    omega
  · have hrunning : p.runningItems = [] := by
      refine List.filterMap_eq_nil_iff.2 fun worker hmem => ?_
      rw [hexited worker hmem]
      rfl
    have hnone : p.held [] = [] := by
      rw [hheld, hok.stopped hstopping, hrunning]
      rfl
    have hunsettled : p.unsettled = (p.held []).length := hbooks.unsettled
    have hplaces := hbooks.places
    rw [hnone] at hunsettled hplaces
    rw [List.map_nil, List.append_nil] at hplaces
    exact ⟨hunsettled, hplaces⟩

/-- Two jobs, of which the second is dropped by a shutdown while the first runs. -/
theorem shutdown_settles_both : ∃ p : Pool Unit Unit, Reachable 1 2 p ∧ p.stopping = true ∧
    (∀ worker ∈ p.workers, worker matches .exited) ∧ settledTickets p.trace = [1, 2] ∧
      p.Accounted := by
  have h₁ : Reachable 1 2 _ :=
    .single (.internal (.spawn (p := (initial 1 2 : Pool Unit Unit)) rfl))
  have h₂ := h₁.tail (.internal (.constructed rfl))
  have h₃ := h₂.tail (.internal (.initializeWorker 0 true [] rfl))
  have h₄ := h₃.tail (.trySubmit ⟨16, ()⟩ rfl)
  have h₅ := h₄.tail (.trySubmit ⟨32, ()⟩ rfl)
  have h₆ := h₅.tail (.internal (.pop 0 rfl))
  have h₇ := h₆.tail (.shutdown rfl)
  have h₈ := h₇.tail (.internal (.settle 0 (.returned ⟨0, 0, .completed, [], ()⟩) rfl))
  have h₉ := h₈.tail (.internal (.exit 0 rfl))
  exact ⟨_, h₉, rfl, by decide, by decide, Reachable.accounted h₉⟩

end Accounts

end Pool

end Viy
