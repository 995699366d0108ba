import Viy.Workers.Delivery

/-!
# Cancellation

A job carries the generation in which it was accepted, and a call that cancels advances the
generation. So the generation tells a worker that comes back from `execute` whether its job was
cancelled meanwhile, as long as the 64-bit counter has not come round.

Every job that the pool holds was accepted at a place of the trace (`Born`), and its generation
counts the advances before that place. `Judged` reads the verdict of a settlement off the calls
between acceptance and settlement. Which calls these are is then said of the steps: a cancelling
call leaves a note behind everything that was accepted before, and no other step leaves one.
-/

namespace Viy

def PoolNote.advanced : PoolNote → Bool
  | .cancelPending advanced => advanced
  | .shutdown advanced => advanced

namespace Pool

open Conc Conc.Trace

variable {J D : Type}

abbrev PoolEvent (J D : Type) :=
  Conc.Event (EmulationJob J) (Settlement D) (EmulationJobResult D) PoolNote

/-! ## Advances of the generation -/

def advances : PoolEvent J D → Bool
  | .note note => note.advanced
  | _ => false

/-- How often the generation was advanced. -/
def advanceCount (trace : PoolTrace J D) : ℕ := trace.countP advances

/-- There is a call that cancels. -/
def Cancels (trace : PoolTrace J D) : Prop := ∃ note, .note note ∈ trace

theorem advanceCount_split (later earlier : PoolTrace J D) (ticket : ℕ) (job : EmulationJob J) :
    advanceCount (later ++ .accepted ticket job :: earlier) =
      advanceCount later + advanceCount earlier := by
  unfold advanceCount
  rw [List.countP_append, List.countP_cons_of_neg (by simp [advances])]

theorem cancels_of_advanceCount {trace : PoolTrace J D} (h : 0 < advanceCount trace) :
    Cancels trace := by
  obtain ⟨event, hmem, hadvances⟩ := List.countP_pos_iff.1 h
  cases event with
  | note note => exact ⟨note, hmem⟩
  | _ => exact nomatch hadvances

/-- The generation after some advances. -/
def generationAfter (count : ℕ) : UInt64 := UInt64.ofNat (count + 1)

theorem generationAfter_succ (count : ℕ) :
    generationAfter (count + 1) = generationAfter count + 1 := UInt64.ofNat_add _ 1

/-- Generations of one period of the counter are distinct. -/
theorem generationAfter_eq_iff {more count : ℕ} (h : more + count < 2 ^ 64) :
    generationAfter count = generationAfter (more + count) ↔ more = 0 := by
  unfold generationAfter
  rw [← UInt64.toNat_inj, UInt64.toNat_ofNat', UInt64.toNat_ofNat']
  omega

/-! ## Jobs and their generation -/

/-- The job was accepted in its generation; a call that cancels has advanced it since. -/
def Born (trace : PoolTrace J D) (stopping : Bool) (item : QueuedJob J) : Prop :=
  ∃ later earlier, trace = later ++ .accepted item.ticket item.job :: earlier ∧
    item.generation = generationAfter (advanceCount earlier) ∧
      (stopping = true ∨ Cancels later → 0 < advanceCount later)

theorem Born.cons {trace : PoolTrace J D} {stopping : Bool} {item : QueuedJob J}
    (h : Born trace stopping item) {event : PoolEvent J D} (hevent : ∀ note, event ≠ .note note) :
    Born (event :: trace) stopping item := by
  obtain ⟨later, earlier, rfl, hgeneration, hsince⟩ := h
  have hcount : advanceCount (event :: later) = advanceCount later := by
    cases event with
    | note note => exact absurd rfl (hevent note)
    | _ => rfl
  refine ⟨event :: later, earlier, rfl, hgeneration, fun hcancelled => ?_⟩
  rw [hcount]
  refine hsince (hcancelled.imp_right ?_)
  rintro ⟨note, hmem⟩
  exact ⟨note, (List.mem_cons.1 hmem).resolve_left fun heq => hevent note heq.symm⟩

/-- A call that advances the generation. -/
theorem Born.advance {trace : PoolTrace J D} {stopping stopping' : Bool} {item : QueuedJob J}
    (h : Born trace stopping item) {note : PoolNote} (hnote : note.advanced = true) :
    Born (.note note :: trace) stopping' item := by
  obtain ⟨later, earlier, rfl, hgeneration, -⟩ := h
  refine ⟨.note note :: later, earlier, rfl, hgeneration, fun _ => ?_⟩
  unfold advanceCount
  rw [List.countP_cons_of_pos (by exact hnote)]
  exact Nat.succ_pos _

/-- A call on a pool that is stopping already. -/
theorem Born.idle {trace : PoolTrace J D} {item : QueuedJob J} (h : Born trace true item)
    (note : PoolNote) : Born (.note note :: trace) true item := by
  obtain ⟨later, earlier, rfl, hgeneration, hsince⟩ := h
  refine ⟨.note note :: later, earlier, rfl, hgeneration, fun _ => ?_⟩
  have hpos := hsince (Or.inl rfl)
  unfold advanceCount at hpos ⊢
  rw [List.countP_cons]
  omega

/-! ## Verdicts -/

/-- The status is the executor's own, or that of a pool without workers. -/
def Own : Source D → EmulationJobStatus → Prop
  | .executed executed, status => status = executed.status
  | .noWorker, status => status = .unavailable
  | .dropped, _ => False

/-- The verdict of a settlement, when `between` lies between acceptance and settlement. -/
def Verdict (between : PoolTrace J D) (settlement : Settlement D) : Prop :=
  (Cancels between → settlement.result.status = .cancelled) ∧
    (¬ Cancels between → Own settlement.source settlement.result.status)

/-- Every settlement has the right verdict, while the counter has not come round. -/
def Judged (trace : PoolTrace J D) : Prop :=
  ∀ after between earlier ticket job settlement,
    trace = after ++ .settled ticket settlement :: (between ++ .accepted ticket job :: earlier) →
      advanceCount trace < 2 ^ 64 → Verdict between settlement

theorem Judged.cons {trace : PoolTrace J D} (h : Judged trace) {event : PoolEvent J D}
    (hevent : ∀ ticket settlement, event = .settled ticket settlement →
      ∀ between earlier job, trace = between ++ .accepted ticket job :: earlier →
        advanceCount trace < 2 ^ 64 → Verdict between settlement) : Judged (event :: trace) := by
  intro after between earlier ticket job settlement heq hfew
  have hless : advanceCount trace < 2 ^ 64 := by
    unfold advanceCount at hfew ⊢
    rw [List.countP_cons] at hfew
    omega
  cases after with
  | nil =>
    obtain ⟨hhead, htail⟩ := List.cons.inj heq
    exact hevent ticket settlement hhead between earlier job htail hless
  | cons first after =>
    exact h after between earlier ticket job settlement (List.cons.inj heq).2 hless

theorem Judged.cons_other {trace : PoolTrace J D} (h : Judged trace) {event : PoolEvent J D}
    (hevent : ∀ ticket settlement, event ≠ .settled ticket settlement) : Judged (event :: trace) :=
  h.cons fun ticket settlement heq => absurd heq (hevent ticket settlement)

/-- The verdict over a ticket that is not settled yet in an earlier part of the trace. -/
theorem Judged.verdict_of_mem {later mid earlier : PoolTrace J D} {ticket : ℕ}
    {job : EmulationJob J} {settlement : Settlement D}
    (h : Judged (later ++ (mid ++ .accepted ticket job :: earlier)))
    (hfew : advanceCount (later ++ (mid ++ .accepted ticket job :: earlier)) < 2 ^ 64)
    (hunsettled : ticket ∉ settledTickets (mid ++ .accepted ticket job :: earlier))
    (hmem : .settled ticket settlement ∈ later ++ (mid ++ .accepted ticket job :: earlier)) :
    ∃ since, since <:+ later ∧ Verdict (since ++ mid) settlement := by
  rcases List.mem_append.1 hmem with hlater | hbefore
  · obtain ⟨after, since, rfl⟩ := List.append_of_mem hlater
    refine ⟨since, ⟨after ++ [.settled ticket settlement], by simp⟩, ?_⟩
    exact h after (since ++ mid) earlier ticket job settlement (by simp) hfew
  · exact (hunsettled (mem_settledTickets.2 ⟨_, hbefore⟩)).elim

section Verdicts

variable [Inhabited D]

/-- The generation of a job tells whether it was cancelled since it was accepted. -/
theorem Outcome.verdict {p : Pool J D} {item : QueuedJob J} {result : EmulationJobResult D}
    {source : Source D} (h : Outcome p item result source) {later earlier : PoolTrace J D}
    (hgeneration : p.generation = generationAfter (advanceCount p.trace))
    (htrace : p.trace = later ++ .accepted item.ticket item.job :: earlier)
    (hborn : item.generation = generationAfter (advanceCount earlier))
    (hsince : Cancels later → 0 < advanceCount later) (hfew : advanceCount p.trace < 2 ^ 64) :
    Verdict later ⟨result, source⟩ := by
  have hsame : item.generation = p.generation ↔ ¬ Cancels later := by
    rw [htrace, advanceCount_split] at hfew
    rw [hgeneration, hborn, htrace, advanceCount_split, generationAfter_eq_iff hfew]
    constructor
    · intro hzero hcancels
      have := hsince hcancels
      omega
    · intro hnot
      by_contra hzero
      exact hnot (cancels_of_advanceCount (Nat.pos_of_ne_zero hzero))
  cases h with
  | executed executed =>
    unfold cancelStale
    constructor
    · intro hcancels
      have hne : p.generation ≠ item.generation := fun heq => hsame.1 heq.symm hcancels
      by_cases hstatus : (executed.result item).status = .cancelled
      · rw [if_neg fun hboth => hboth.2 hstatus]
        exact hstatus
      · rw [if_pos ⟨hne, hstatus⟩]
    · intro hnot
      rw [if_neg fun hboth => hboth.1 (hsame.2 hnot).symm]
      cases executed <;> rfl
  | noWorker reason heq => exact ⟨fun hcancels => absurd hcancels (hsame.1 heq), fun _ => rfl⟩
  | dropped reason hne => exact ⟨fun _ => rfl, fun hnot => (hne (hsame.2 hnot)).elim⟩

end Verdicts

/-! ## Every move keeps the dates -/

structure Dated (hand : List (QueuedJob J)) (p : Pool J D) : Prop where
  generation : p.generation = generationAfter (advanceCount p.trace)
  born : ∀ item ∈ p.held hand, Born p.trace p.stopping item
  judged : Judged p.trace
  unstaffed : (∃ ticket result, .settled ticket ⟨result, .noWorker⟩ ∈ p.trace) → p.Unstaffed

theorem dated_initial (workerCount maxQueuedJobs : ℕ) :
    Dated [] (initial workerCount maxQueuedJobs : Pool J D) where
  generation := rfl
  born := by simp [held, initial, runningItems]
  judged := by simp [Judged, initial]
  unstaffed := by simp [initial]

/-- Jobs change places. -/
theorem Dated.perm {hand hand' : List (QueuedJob J)} {p p' : Pool J D} (h : Dated hand p)
    (hperm : (p.held hand).Perm (p'.held hand')) (htrace : p'.trace = p.trace)
    (hgeneration : p'.generation = p.generation) (hstopping : p'.stopping = p.stopping)
    (hunstaffed : p.Unstaffed → p'.Unstaffed) : Dated hand' p' where
  generation := by
    rw [hgeneration, htrace]
    exact h.generation
  born item hitem := by
    rw [htrace, hstopping]
    exact h.born item (hperm.symm.subset hitem)
  judged := by
    rw [htrace]
    exact h.judged
  unstaffed := by
    rw [htrace]
    exact fun hsettled => hunstaffed (h.unstaffed hsettled)

/-- An event that neither settles nor cancels. -/
theorem Dated.cons {hand : List (QueuedJob J)} {p p' : Pool J D} (h : Dated hand p)
    {event : PoolEvent J D} (htrace : p'.trace = event :: p.trace)
    (hnote : ∀ note, event ≠ .note note)
    (hsettled : ∀ ticket settlement, event ≠ .settled ticket settlement)
    (hheld : p'.held hand = p.held hand) (hgeneration : p'.generation = p.generation)
    (hstopping : p'.stopping = p.stopping) (hunstaffed : p.Unstaffed → p'.Unstaffed) :
    Dated hand p' where
  generation := by
    have hcount : advanceCount (event :: p.trace) = advanceCount p.trace := by
      cases event with
      | note note => exact absurd rfl (hnote note)
      | _ => rfl
    rw [hgeneration, htrace, hcount]
    exact h.generation
  born item hitem := by
    rw [htrace, hstopping]
    rw [hheld] at hitem
    exact (h.born item hitem).cons hnote
  judged := by
    rw [htrace]
    exact h.judged.cons_other hsettled
  unstaffed := by
    rw [htrace]
    rintro ⟨ticket, result, hmem⟩
    exact hunstaffed (h.unstaffed ⟨ticket, result,
      (List.mem_cons.1 hmem).resolve_left fun heq => hsettled _ _ heq.symm⟩)

/-- A call that cancels. -/
theorem Dated.note {hand : List (QueuedJob J)} {p p' : Pool J D} (h : Dated hand p)
    {note : PoolNote} (htrace : p'.trace = .note note :: p.trace)
    (hheld : p'.held hand = p.held hand)
    (hgeneration : p'.generation = if note.advanced then p.generation + 1 else p.generation)
    (hstopping : note.advanced = true ∨ p.stopping = true ∧ p'.stopping = true)
    (hunstaffed : p.Unstaffed → p'.Unstaffed) : Dated hand p' where
  generation := by
    rw [hgeneration, htrace, h.generation]
    unfold advanceCount
    rw [List.countP_cons]
    show _ = generationAfter (_ + if note.advanced = true then 1 else 0)
    by_cases hadvanced : note.advanced = true
    · rw [if_pos hadvanced, if_pos hadvanced, generationAfter_succ]
    · rw [if_neg hadvanced, if_neg hadvanced, Nat.add_zero]
  born item hitem := by
    rw [hheld] at hitem
    rw [htrace]
    have hborn := h.born item hitem
    rcases hstopping with hadvanced | ⟨hbefore, hafter⟩
    · exact hborn.advance hadvanced
    · rw [hbefore] at hborn
      rw [hafter]
      exact hborn.idle note
  judged := by
    rw [htrace]
    exact h.judged.cons_other nofun
  unstaffed := by
    rw [htrace]
    rintro ⟨ticket, result, hmem⟩
    exact hunstaffed (h.unstaffed ⟨ticket, result, (List.mem_cons.1 hmem).resolve_left nofun⟩)

section Moves

variable [Inhabited D]

theorem Dated.settle {hand : List (QueuedJob J)} {p : Pool J D} {item : QueuedJob J}
    {result : EmulationJobResult D} {source : Source D} (h : Dated (item :: hand) p)
    (hok : Ok (item :: hand) p) (houtcome : Outcome p item result source) :
    Dated hand (p.settleLocked result source) := by
  have hperm := held_cons_perm item hand p
  have hitem : item ∈ p.held (item :: hand) := hperm.symm.subset List.mem_cons_self
  have hrest : ∀ item' ∈ p.held hand, Born p.trace p.stopping item' := fun item' hmem =>
    h.born item' (hperm.symm.subset (List.mem_cons_of_mem _ hmem))
  unfold settleLocked
  split
  · exact ⟨h.generation, hrest, h.judged, h.unstaffed⟩
  · refine ⟨h.generation, fun item' hmem => (hrest item' hmem).cons nofun, ?_, ?_⟩
    · -- the place where the job was accepted is the one in its date
      obtain ⟨later, earlier, htrace, hborn, hsince⟩ := h.born item hitem
      refine h.judged.cons fun ticket settlement heq between earlier' job hsplit hfew => ?_
      obtain ⟨rfl, rfl⟩ := Event.settled.inj heq
      have hlegal : Legal Settlement.result p.trace := hok.books.legal
      rw [houtcome.names.1, htrace] at hsplit
      rw [htrace] at hlegal
      obtain ⟨rfl, -, -⟩ := hlegal.accepted_split hsplit
      exact houtcome.verdict h.generation htrace hborn (fun hc => hsince (Or.inr hc)) hfew
    · rintro ⟨ticket, result', hmem⟩
      rcases List.mem_cons.1 hmem with heq | hmem
      · obtain ⟨-, hsettlement⟩ := Event.settled.inj heq
        obtain ⟨rfl, rfl⟩ := Settlement.mk.inj hsettlement
        cases houtcome with
        | noWorker reason _ hunstaffed => exact hunstaffed
      · exact h.unstaffed ⟨ticket, result', hmem⟩

theorem Move.dated {x y : List (QueuedJob J) × Pool J D} (h : Move x y) (hok : Ok x.1 x.2)
    (hx : Dated x.1 x.2) : Dated y.1 y.2 := by
  cases h with
  | @quiet hand p p' hquiet =>
    have htrace : p'.trace = p.trace := congrArg Desk.trace hquiet.desk
    exact hx.perm (.of_eq (held_quiet hquiet).symm) htrace hquiet.generation hquiet.stopping
      hquiet.unstaffed
  | @accept hand p job _ hstopping _ =>
    have hdated : Dated hand (p.accept job) := hx.cons rfl nofun nofun rfl rfl rfl id
    refine ⟨hdated.generation, fun item hitem => ?_, hdated.judged, hdated.unstaffed⟩
    rcases List.mem_cons.1 ((held_cons_perm _ hand _).subset hitem) with rfl | hitem
    · refine ⟨[], p.trace, rfl, hx.generation, fun hcancelled => ?_⟩
      rcases hcancelled with hstop | ⟨note, hmem⟩
      · exact Cxx.clash hstopping hstop
      · exact nomatch hmem
    · exact hdated.born item hitem
  | enqueue _ _ _ => exact hx.perm held_enqueue rfl rfl rfl id
  | dequeue hqueue => exact hx.perm (held_dequeue hqueue) rfl rfl rfl id
  | start hworker =>
    exact hx.perm (held_start hworker) rfl rfl rfl fun hno =>
      nomatch hno.2 _ (List.mem_of_getElem? hworker)
  | finish hworker =>
    exact hx.perm (held_finish hworker) rfl rfl rfl fun hno =>
      nomatch hno.2 _ (List.mem_of_getElem? hworker)
  | settle houtcome => exact hx.settle hok houtcome
  | deliver _ => exact hx.cons rfl nofun nofun rfl rfl rfl id
  | cancel _ _ => exact hx.note rfl rfl rfl (Or.inl rfl) id
  | stop _ _ => exact hx.note rfl rfl rfl (Or.inl rfl) id
  | idleCancel hstopping => exact hx.note rfl rfl rfl (Or.inr ⟨hstopping, hstopping⟩) id
  | idleStop hstopping => exact hx.note rfl rfl rfl (Or.inr ⟨hstopping, hstopping⟩) id

theorem Reachable.dated {workerCount maxQueuedJobs : ℕ} {p : Pool J D}
    (h : Reachable workerCount maxQueuedJobs p) : Ok [] p ∧ Dated [] p :=
  h.invariant (fun hand p => Ok hand p ∧ Dated hand p) ⟨ok_initial _ _, dated_initial _ _⟩
    fun hmove hx => ⟨hmove.ok hx.1, hmove.dated hx.1 hx.2⟩

end Moves

/-! ## Growth of the trace -/

/-- The trace grows by events that are no cancelling calls. -/
def Extends (p p' : Pool J D) : Prop :=
  ∃ events : PoolTrace J D, p'.trace = events ++ p.trace ∧ ¬ Cancels events

theorem extends_of_eq {p p' : Pool J D} (h : p'.trace = p.trace) : Extends p p' :=
  ⟨[], h, fun ⟨_, hmem⟩ => nomatch hmem⟩

theorem extends_cons {p p' : Pool J D} {event : PoolEvent J D} (h : p'.trace = event :: p.trace)
    (hevent : ∀ note, event ≠ .note note) : Extends p p' :=
  ⟨[event], h, fun ⟨note, hmem⟩ => hevent note (List.mem_singleton.1 hmem).symm⟩

theorem Extends.trans {p p' p'' : Pool J D} (h : Extends p p') (h' : Extends p' p'') :
    Extends p p'' := by
  obtain ⟨events, htrace, hnone⟩ := h
  obtain ⟨events', htrace', hnone'⟩ := h'
  refine ⟨events' ++ events, by rw [htrace', htrace, List.append_assoc], ?_⟩
  rintro ⟨note, hmem⟩
  rcases List.mem_append.1 hmem with hmem | hmem
  · exact hnone' ⟨note, hmem⟩
  · exact hnone ⟨note, hmem⟩

theorem extends_settleLocked (p : Pool J D) (result : EmulationJobResult D) (source : Source D) :
    Extends p (p.settleLocked result source) := by
  unfold settleLocked
  split
  · exact extends_of_eq rfl
  · exact extends_cons rfl nofun

theorem extends_takeNext (p : Pool J D) : Extends p p.takeNext.2 := by
  rcases takeNext_cases p with ⟨-, hnone⟩ | ⟨result, -, hsome⟩
  · rw [hnone]
    exact extends_of_eq rfl
  · rw [hsome]
    exact extends_cons rfl nofun

theorem extends_takeLoop (maximum : ℕ) : ∀ (fuel : ℕ) (results : List (EmulationJobResult D))
    (p : Pool J D), Extends p (takeLoop maximum fuel results p).2
  | 0, _, _ => extends_of_eq rfl
  | fuel + 1, results, p => by
    have hnext := extends_takeNext p
    unfold takeLoop
    split_ifs
    · split
      · rename_i hnone
        rwa [hnone] at hnext
      · rename_i hsome
        rw [hsome] at hnext
        exact hnext.trans (extends_takeLoop maximum fuel _ _)
    · exact extends_of_eq rfl

/-! ## Running jobs -/

/-- Queued jobs are of the current generation, so a job of another one is running. -/
theorem Ready.running_of_stale {p : Pool J D} {item : QueuedJob J} (h : p.Ready)
    (hitem : item ∈ p.held []) (hstale : item.generation ≠ p.generation) :
    item ∈ p.runningItems := by
  unfold held at hitem
  rw [List.append_nil] at hitem
  rcases List.mem_append.1 hitem with hqueued | hrunning
  · exact (hstale (h.fresh item hqueued)).elim
  · exact hrunning

section Guarantees

variable [Inhabited D]

/-- A job in `execute` can be settled, whatever it returns. -/
theorem settleJob_trace {p : Pool J D} {i : ℕ} {item : QueuedJob J} (hok : Ok [] p)
    (h : p.workers[i]? = some (.running item)) (executed : Executed D) :
    ∃ p' result, p.settleJob i executed = some p' ∧
      p'.trace = .settled item.ticket ⟨result, .executed executed⟩ :: p.trace ∧
        p'.completed.find item.ticket = some result := by
  have hitem : item ∈ p.runningItems := List.mem_filterMap.2 ⟨_, List.mem_of_getElem? h, rfl⟩
  have hheld : item ∈ p.held [] :=
    List.mem_append_right _ (List.mem_append_left _ hitem)
  have hnone : p.completed.find item.ticket = none := hok.books.find_eq_none hheld
  have houtcome : Outcome p item (p.cancelStale item (executed.result item)) (.executed executed) :=
    .executed executed
  have hticket := houtcome.names.1
  have hsettle : p.settleJob i executed =
      some ({ p with workers := p.workers.set i .idle, running := p.running - 1 }.settleLocked
        (p.cancelStale item (executed.result item)) (.executed executed)) := by
    unfold settleJob
    rw [h]
  refine ⟨_, p.cancelStale item (executed.result item), hsettle, ?_⟩
  rw [← hticket] at hnone ⊢
  refine ⟨trace_settleLocked _ _ _ hnone, ?_⟩
  unfold settleLocked
  rw [hnone]
  show (p.completed.emplace _ _).find _ = _
  rw [Cxx.Map.emplace, Cxx.Map.find_upsert, if_pos rfl, hnone]
  rfl

/-- A job that is held after a cancelling call is running, since the call empties the queue. -/
theorem Reachable.running_of_cancels {workerCount maxQueuedJobs : ℕ} {p : Pool J D}
    (h : Reachable workerCount maxQueuedJobs p) (hfew : advanceCount p.trace < 2 ^ 64)
    {item : QueuedJob J} (hitem : item ∈ p.held []) {job : EmulationJob J}
    {later earlier : PoolTrace J D}
    (htrace : p.trace = later ++ .accepted item.ticket job :: earlier) (hcancels : Cancels later) :
    item ∈ p.runningItems := by
  obtain ⟨hok, hdated⟩ := h.dated
  have hlegal : Legal Settlement.result p.trace := hok.books.legal
  obtain ⟨later', earlier', hborn, hgeneration, hsince⟩ := hdated.born item hitem
  obtain rfl : later' = later := by
    rw [hborn] at hlegal
    exact (hlegal.accepted_split (hborn.symm.trans htrace)).1
  have hpos := hsince (Or.inr hcancels)
  have hstale : item.generation ≠ p.generation := by
    rw [hborn, advanceCount_split] at hfew
    rw [hdated.generation, hgeneration, hborn, advanceCount_split, Ne, generationAfter_eq_iff hfew]
    omega
  exact h.ready.running_of_stale hitem hstale

/-! ## What a step leaves in the trace -/

/-- Any step but a call that cancels. -/
inductive Undisturbed (p : Pool J D) : Pool J D → Prop
  | internal {p' : Pool J D} : Internal p p' → Undisturbed p p'
  | trySubmit (job : EmulationJob J) : p.constructing = false → Undisturbed p (p.trySubmit job).2
  | takeNext : p.constructing = false → Undisturbed p p.takeNext.2
  | takeReady (maximum : ℕ) : p.constructing = false → Undisturbed p (p.takeReady maximum).2

theorem extends_drain (p : Pool J D) (status : EmulationJobStatus) (reason : Wire.Bytes) :
    Extends p (p.drainQueuedLocked status reason) := by
  have hdrops : ∀ (items : List (QueuedJob J)) (p : Pool J D),
      Extends p (items.foldl (fun p item => p.drop status reason item) p) := by
    intro items
    induction items with
    | nil => exact fun p => extends_of_eq rfl
    | cons item items ih =>
      intro p
      have hdrop : Extends p (p.drop status reason item) := by
        unfold drop
        split <;> exact extends_settleLocked p _ _
      exact hdrop.trans (ih _)
  exact (extends_of_eq rfl : Extends p { p with queue := [] }).trans (hdrops p.queue _)

theorem extends_place (p : Pool J D) (item : QueuedJob J) : Extends p (p.place item) := by
  unfold place
  by_cases hall : p.allUnavailable = true
  · rw [if_pos hall]
    exact extends_settleLocked p _ _
  · rw [if_neg hall]
    exact extends_of_eq rfl

theorem Internal.extends {p p' : Pool J D} (h : Internal p p') (hready : p.Ready) :
    Extends p p' := by
  have hquiet : ∀ {p' : Pool J D}, Quiet p p' → Extends p p' := fun hquiet =>
    extends_of_eq (congrArg Desk.trace hquiet.desk)
  cases h with
  | spawn h => exact hquiet (quiet_spawn hready h)
  | constructed h => exact hquiet (quiet_constructed hready h)
  | creationFailed h => exact hquiet (quiet_creationFailed hready h)
  | initializeWorker i available error h =>
    obtain ⟨hcount, rfl | ⟨-, reason, rfl⟩⟩ := initializeWorker_cases hready h
    · exact hquiet hcount
    · exact (hquiet hcount).trans (extends_drain _ _ _)
  | pop i h =>
    unfold Pool.pop at h
    split at h
    · exact extends_of_eq (congrArg trace (Option.some.inj h)).symm
    · exact nomatch h
  | exit i h => exact hquiet (quiet_exit hready h)
  | settle i executed h =>
    unfold Pool.settleJob at h
    split at h
    · obtain rfl := Option.some.inj h
      exact extends_settleLocked { p with workers := _, running := _ } _ _
    · exact nomatch h

theorem Undisturbed.extends {p p' : Pool J D} (h : Undisturbed p p') (hready : p.Ready) :
    Extends p p' := by
  cases h with
  | internal h => exact h.extends hready
  | trySubmit job =>
    rcases trySubmit_cases p job with hsame | ⟨-, -, hplaced⟩
    · rw [hsame]
      exact extends_of_eq rfl
    · rw [hplaced]
      exact (extends_cons rfl nofun : Extends p (p.accept job)).trans (extends_place _ _)
  | takeNext => exact extends_takeNext p
  | takeReady maximum => exact extends_takeLoop maximum _ _ p

theorem Undisturbed.step {p p' : Pool J D} (h : Undisturbed p p') : Step p p' := by
  cases h with
  | internal h => exact .internal h
  | trySubmit job hcalls => exact .trySubmit job hcalls
  | takeNext hcalls => exact .takeNext hcalls
  | takeReady maximum hcalls => exact .takeReady maximum hcalls

/-- A cancelling call leaves a note behind the trace so far. -/
theorem cancel_noted {p p' : Pool J D} (h : p' = p.cancelPending ∨ p' = p.shutdown) :
    ∃ note, .note note :: p.trace <:+ p'.trace := by
  have hdrain : ∀ (p₁ : Pool J D) note status reason, p₁.trace = .note note :: p.trace →
      ∃ note, .note note :: p.trace <:+ (p₁.drainQueuedLocked status reason).trace := by
    intro p₁ note status reason htrace
    obtain ⟨events, hevents, -⟩ := extends_drain p₁ status reason
    exact ⟨note, events, by rw [hevents, htrace]⟩
  rcases h with rfl | rfl
  · unfold cancelPending
    split_ifs
    · exact ⟨_, List.suffix_rfl⟩
    · exact hdrain _ _ _ _ rfl
  · unfold shutdown
    split_ifs
    · exact ⟨_, List.suffix_rfl⟩
    · exact hdrain _ _ _ _ rfl

theorem Step.undisturbed_or {p p' : Pool J D} (h : Step p p') :
    Undisturbed p p' ∨ p' = p.cancelPending ∨ p' = p.shutdown := by
  cases h with
  | internal h => exact Or.inl (.internal h)
  | trySubmit job hcalls => exact Or.inl (.trySubmit job hcalls)
  | takeNext hcalls => exact Or.inl (.takeNext hcalls)
  | takeReady maximum hcalls => exact Or.inl (.takeReady maximum hcalls)
  | cancelPending => exact Or.inr (Or.inl rfl)
  | shutdown => exact Or.inr (Or.inr rfl)

theorem Step.suffix {p p' : Pool J D} (h : Step p p') (hready : p.Ready) :
    p.trace <:+ p'.trace := by
  rcases h.undisturbed_or with hquiet | hcancels
  · obtain ⟨events, htrace, -⟩ := hquiet.extends hready
    exact ⟨events, htrace.symm⟩
  · obtain ⟨note, hnote⟩ := cancel_noted hcancels
    exact (List.suffix_cons _ _).trans hnote

section Runs

variable {workerCount maxQueuedJobs : ℕ} {p q : Pool J D}

theorem Reachable.suffix (h : Reachable workerCount maxQueuedJobs p)
    (hrun : Relation.ReflTransGen Step p q) : p.trace <:+ q.trace := by
  induction hrun with
  | refl => exact List.suffix_rfl
  | tail hbefore hstep ih => exact ih.trans (hstep.suffix (Reachable.ready (h.trans hbefore)))

theorem Reachable.extends (h : Reachable workerCount maxQueuedJobs p)
    (hrun : Relation.ReflTransGen Undisturbed p q) :
    Reachable workerCount maxQueuedJobs q ∧ Extends p q := by
  induction hrun with
  | refl => exact ⟨h, extends_of_eq rfl⟩
  | tail _ hstep ih => exact ⟨ih.1.tail hstep.step, ih.2.trans (hstep.extends ih.1.ready)⟩

/-! ## The two guarantees -/

/-- Every settlement of the ticket has such a status: the one that it has, the one that waits for
delivery, and the one that it gets when its worker comes back, whatever the executor did. -/
structure Decides (q : Pool J D) (ticket : ℕ) (verdict : Source D → EmulationJobStatus → Prop) :
    Prop where
  settled : ∀ settlement, .settled ticket settlement ∈ q.trace →
    verdict settlement.source settlement.result.status
  completed : ∀ result, q.completed.find ticket = some result →
    ∃ source, verdict source result.status
  running : ∀ (i : ℕ) (item : QueuedJob J), q.workers[i]? = some (.running item) →
    item.ticket = ticket → ∀ executed, ∃ q' result, q.settleJob i executed = some q' ∧
      q'.completed.find ticket = some result ∧ verdict (.executed executed) result.status

/-- What holds of the settlements in every state that a property leads to decides the ticket. -/
theorem Reachable.decides (hq : Reachable workerCount maxQueuedJobs q) {ticket : ℕ}
    {verdict : Source D → EmulationJobStatus → Prop}
    (hnow : ∀ settlement, .settled ticket settlement ∈ q.trace →
      verdict settlement.source settlement.result.status)
    (hnext : ∀ (q' : Pool J D) settlement, Internal q q' →
      q'.trace = .settled ticket settlement :: q.trace →
        verdict settlement.source settlement.result.status) : q.Decides ticket verdict where
  settled := hnow
  completed result hfind := by
    obtain ⟨-, source, hsettled⟩ := (hq.ok.books.completed ticket result).1 hfind
    exact ⟨source, hnow _ hsettled⟩
  running i item hworker hticket executed := by
    obtain ⟨q', result, hstep, htrace, hfind⟩ := settleJob_trace hq.ok hworker executed
    rw [hticket] at htrace hfind
    exact ⟨q', result, hstep, hfind, hnext q' _ (.settle i executed hstep) htrace⟩

/-- The verdicts over a ticket that is not settled in an earlier part of the trace decide it. -/
theorem Reachable.decides_of_verdicts (hq : Reachable workerCount maxQueuedJobs q)
    (hfew : advanceCount q.trace < 2 ^ 64) {later mid earlier : PoolTrace J D} {ticket : ℕ}
    {job : EmulationJob J} {verdict : Source D → EmulationJobStatus → Prop}
    (htrace : q.trace = later ++ (mid ++ .accepted ticket job :: earlier))
    (hunsettled : ticket ∉ settledTickets (mid ++ .accepted ticket job :: earlier))
    (hverdict : ∀ since settlement, (Cancels since → Cancels later) →
      Verdict (since ++ mid) settlement → verdict settlement.source settlement.result.status) :
    q.Decides ticket verdict := by
  refine hq.decides ?_ ?_
  · intro settlement hmem
    have hjudged := hq.dated.2.judged
    rw [htrace] at hjudged hfew hmem
    obtain ⟨since, hsince, hsettled⟩ := hjudged.verdict_of_mem hfew hunsettled hmem
    exact hverdict since settlement (fun ⟨note, hnote⟩ => ⟨note, hsince.subset hnote⟩) hsettled
  · intro q' settlement hstep htrace'
    have hjudged := (Reachable.dated (hq.tail (.internal hstep))).2.judged
    rw [htrace', htrace] at hjudged
    rw [htrace] at hfew
    obtain ⟨since, hsince, hsettled⟩ :=
      @Judged.verdict_of_mem _ _ (.settled ticket settlement :: later) _ _ _ _ settlement hjudged
        hfew hunsettled List.mem_cons_self
    refine hverdict since settlement ?_ hsettled
    rintro ⟨note, hnote⟩
    exact ⟨note, (List.mem_cons.1 (hsince.subset hnote)).resolve_left nofun⟩

/-- A ticket that is accepted and not settled in front of a note. -/
theorem Reachable.decides_cancelled (hq : Reachable workerCount maxQueuedJobs q)
    (hfew : advanceCount q.trace < 2 ^ 64) {before : PoolTrace J D} {note : PoolNote} {ticket : ℕ}
    (hnote : .note note :: before <:+ q.trace) (haccepted : ticket ∈ acceptedTickets before)
    (hunsettled : ticket ∉ settledTickets before) :
    (ticket ∈ settledTickets q.trace ∨ ∃ item ∈ q.runningItems, item.ticket = ticket) ∧
      q.Decides ticket fun _ status => status = .cancelled := by
  obtain ⟨later, htrace⟩ := hnote
  obtain ⟨job, hjob⟩ := mem_acceptedTickets.1 haccepted
  obtain ⟨mid, earlier, rfl⟩ := List.append_of_mem hjob
  have hsplit : q.trace = later ++ ((.note note :: mid) ++ .accepted ticket job :: earlier) :=
    htrace.symm
  constructor
  · by_cases hsettled : ticket ∈ settledTickets q.trace
    · exact Or.inl hsettled
    · right
      have hmem : ticket ∈ acceptedTickets q.trace := by
        rw [mem_acceptedTickets, hsplit]
        exact ⟨job, by simp⟩
      obtain ⟨item, hitem, rfl⟩ : ∃ item ∈ q.held [], item.ticket = ticket := by
        rcases List.mem_append.1 (hq.ok.books.places.symm.subset hmem) with hin | hin
        · exact (hsettled hin).elim
        · exact List.mem_map.1 hin
      rw [← List.append_assoc] at hsplit
      exact ⟨item, hq.running_of_cancels hfew hitem hsplit ⟨note, by simp⟩, rfl⟩
  · refine hq.decides_of_verdicts hfew hsplit hunsettled fun since settlement _ hverdict => ?_
    exact hverdict.1 ⟨note, by simp⟩

/-- A ticket that is accepted without a note behind it. -/
theorem Reachable.decides_own (hq : Reachable workerCount maxQueuedJobs q)
    (hfew : advanceCount q.trace < 2 ^ 64) {later before : PoolTrace J D} {ticket : ℕ}
    {job : EmulationJob J} (htrace : q.trace = later ++ .accepted ticket job :: before)
    (hlater : ¬ Cancels later) (hunsettled : ticket ∉ settledTickets before) :
    q.Decides ticket Own := by
  have hsplit : q.trace = later ++ ([] ++ .accepted ticket job :: before) := htrace
  refine hq.decides_of_verdicts hfew hsplit hunsettled
    fun since settlement hsince hverdict => hverdict.2 ?_
  rw [List.append_nil]
  exact fun hcancels => hlater (hsince hcancels)

/-- **Cancellation.** A ticket that is accepted and not settled when `cancel_pending` or `shutdown`
comes is settled or running in every later state, and settles as cancelled whatever its executor
returns. A ticket that is accepted and followed by no such call settles with its executor's own
status, or as unavailable, and this only when no thread is left. -/
theorem Reachable.cancellation_decides (h : Reachable workerCount maxQueuedJobs p)
    (hcalls : p.constructing = false) :
    (∀ ticket ∈ acceptedTickets p.trace, ticket ∉ settledTickets p.trace →
      ∀ p', p' = p.cancelPending ∨ p' = p.shutdown →
      ∀ q, Relation.ReflTransGen Step p' q → advanceCount q.trace < 2 ^ 64 →
        (ticket ∈ settledTickets q.trace ∨ ∃ item ∈ q.runningItems, item.ticket = ticket) ∧
          q.Decides ticket fun _ status => status = .cancelled) ∧
    (∀ job ticket p', p.trySubmit job = (some ticket, p') →
      ∀ q, Relation.ReflTransGen Undisturbed p' q → advanceCount q.trace < 2 ^ 64 →
        q.Decides ticket Own ∧
          ∀ result, .settled ticket ⟨result, .noWorker⟩ ∈ q.trace → q.Unstaffed) := by
  constructor
  · intro ticket haccepted hunsettled p' hcall q hrun hfew
    have hp' : Reachable workerCount maxQueuedJobs p' := by
      rcases hcall with rfl | rfl
      · exact h.tail (.cancelPending hcalls)
      · exact h.tail (.shutdown hcalls)
    obtain ⟨note, hnote⟩ := cancel_noted hcall
    exact Reachable.decides_cancelled (hp'.trans hrun) hfew (hnote.trans (hp'.suffix hrun))
      haccepted hunsettled
  · intro job ticket p' hsubmit q hrun hfew
    have hp' : Reachable workerCount maxQueuedJobs p' := by
      have hstep := h.tail (.trySubmit job hcalls)
      rwa [hsubmit] at hstep
    rcases trySubmit_cases p job with hnone | ⟨-, -, hplaced⟩
    · exact nomatch hnone.symm.trans hsubmit
    obtain ⟨hticket, rfl⟩ := Prod.mk.inj (hplaced.symm.trans hsubmit)
    obtain rfl := Option.some.inj hticket
    obtain ⟨hq, hextends⟩ := hp'.extends hrun
    obtain ⟨later, htrace, hlater⟩ := (extends_place _ _).trans hextends
    -- the ticket is new, so that it has not been settled before
    have hunsettled : p.nextTicket ∉ settledTickets p.trace := by
      intro hsettled
      have hbooks := h.ok.books
      have hlast := hbooks.legal.mem_acceptedTickets_iff.1
        (hbooks.legal.accepted_of_settled hsettled)
      have hnext : (acceptedTickets p.trace).length + 1 = p.nextTicket := hbooks.accepted
      have hle : p.nextTicket ≤ (acceptedTickets p.trace).length := hlast.2
      omega
    refine ⟨hq.decides_own hfew htrace hlater hunsettled, fun result hmem => ?_⟩
    exact hq.dated.2.unstaffed ⟨_, result, hmem⟩

end Runs

/-- One job is running and one is queued when `cancel_pending` comes; the running one completes and
is cancelled all the same. A job submitted afterwards completes. -/
theorem cancelled_then_completed : ∃ p q q' : Pool Unit Unit, Reachable 1 0 p ∧
    acceptedTickets p.trace = [2, 1] ∧ settledTickets p.trace = [] ∧
    Relation.ReflTransGen Step p.cancelPending q ∧ settledTickets q.trace = [1, 2] ∧
    (∀ ticket ∈ [1, 2], q.Decides ticket fun _ status => status = .cancelled) ∧
    (q.trySubmit ⟨48, ()⟩).1 = some 3 ∧
    Relation.ReflTransGen Undisturbed (q.trySubmit ⟨48, ()⟩).2 q' ∧ q'.Decides 3 Own ∧
    q'.completed.entries.map (fun entry => (entry.1, entry.2.status)) =
      [(1, .cancelled), (2, .cancelled), (3, .completed)] := by
  have h₁ : Reachable 1 0 _ :=
    .single (.internal (.spawn (p := (initial 1 0 : Pool Unit Unit)) rfl))
  have h₂ := h₁.tail (.internal (.constructed rfl))
  have h₃ := h₂.tail (.internal (.initializeWorker 0 true [] rfl))
  have h₄ := h₃.tail (.trySubmit ⟨16, ()⟩ rfl)
  have h₅ := h₄.tail (.internal (.pop 0 rfl))
  have h₆ := h₅.tail (.trySubmit ⟨32, ()⟩ rfl)
  have h₇ := h₆.tail (.cancelPending rfl)
  have hstart : ∀ {R : Pool Unit Unit → Pool Unit Unit → Prop} {p : Pool Unit Unit},
      Reachable 1 0 p → Relation.ReflTransGen R p p := fun _ => .refl
  have hcancelled := (hstart h₇).tail (Step.internal (.settle 0
    (.returned ⟨0, 0, .completed, [], ()⟩) rfl))
  have h₈ := h₇.trans hcancelled
  have h₉ := h₈.tail (.trySubmit ⟨48, ()⟩ rfl)
  have hpop := (hstart h₉).tail (Undisturbed.internal (.pop 0 rfl))
  have hcompleted := hpop.tail (.internal (.settle 0 (.returned ⟨0, 0, .completed, [], ()⟩) rfl))
  refine ⟨_, _, _, h₆, rfl, rfl, hcancelled, rfl, ?_, rfl, hcompleted, ?_, rfl⟩
  · intro ticket hticket
    have hunsettled : ticket ∈ [2, 1] := List.mem_reverse.1 hticket
    exact ((Reachable.cancellation_decides h₆ rfl).1 ticket hunsettled List.not_mem_nil _
      (Or.inl rfl) _ hcancelled (by decide)).2
  · exact ((Reachable.cancellation_decides h₈ rfl).2 _ 3 _ rfl _ hcompleted (by decide)).1

end Guarantees

end Pool

end Viy
