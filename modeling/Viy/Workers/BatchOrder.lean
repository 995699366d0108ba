import Viy.Workers.Batch
import Viy.Workers.Delivery

/-!
# The order of `process_function`

The host gives ticket `i + 1` to function `i`, because both count from the start of the epoch and
only the host submits. The pool delivers tickets in order, so the results come for functions 0, 1,
2, …, each the result of its own job. `Paired` ties the two sides; worker threads keep it because
they only settle (`Settles`).
-/

namespace Viy

open Conc Conc.Trace

variable {J D : Type}

namespace Pool

/-! ## What worker threads change -/

/-- The pool changes, but as far as its callers are concerned tickets were only settled. -/
structure Settles (p p' : Pool J D) : Prop where
  nextTicket : p'.nextTicket = p.nextTicket
  nextDelivery : p'.nextDelivery = p.nextDelivery
  constructing : p.constructing = false → p'.constructing = false
  keeps : ∀ event ∈ p.trace, event ∈ p'.trace
  accepted : ∀ ticket job, .accepted ticket job ∈ p'.trace → .accepted ticket job ∈ p.trace

theorem Settles.refl (p : Pool J D) : Settles p p := ⟨rfl, rfl, id, fun _ h => h, fun _ _ h => h⟩

theorem Settles.trans {p q r : Pool J D} (h : Settles p q) (h' : Settles q r) : Settles p r where
  nextTicket := h'.nextTicket.trans h.nextTicket
  nextDelivery := h'.nextDelivery.trans h.nextDelivery
  constructing hc := h'.constructing (h.constructing hc)
  keeps event hmem := h'.keeps event (h.keeps event hmem)
  accepted ticket job hmem := h.accepted ticket job (h'.accepted ticket job hmem)

theorem Settles.of_desk {p p' : Pool J D} (h : p'.desk = p.desk)
    (hconstructing : p.constructing = false → p'.constructing = false) : Settles p p' := by
  have htrace : p'.trace = p.trace := congrArg Desk.trace h
  refine ⟨congrArg Desk.nextTicket h, congrArg Desk.nextDelivery h, hconstructing, ?_, ?_⟩
  · rw [htrace]
    exact fun _ hmem => hmem
  · rw [htrace]
    exact fun _ _ hmem => hmem

theorem Quiet.settles {p p' : Pool J D} (h : Quiet p p') : Settles p p' :=
  .of_desk h.desk h.constructed

theorem settles_settleLocked (p : Pool J D) (result : EmulationJobResult D) (source : Source D) :
    Settles p (p.settleLocked result source) := by
  unfold settleLocked
  split
  · exact .refl p
  · refine ⟨rfl, rfl, id, fun _ hmem => List.mem_cons_of_mem _ hmem, fun ticket job hmem => ?_⟩
    exact (List.mem_cons.1 hmem).resolve_left nofun

section Steps

variable [Inhabited D]

theorem settles_drop (p : Pool J D) (status : EmulationJobStatus) (reason : Wire.Bytes)
    (item : QueuedJob J) : Settles p (p.drop status reason item) := by
  cases status <;> exact settles_settleLocked _ _ _

theorem settles_drain (p : Pool J D) (status : EmulationJobStatus) (reason : Wire.Bytes) :
    Settles p (p.drainQueuedLocked status reason) := by
  have hfold : ∀ (items : List (QueuedJob J)) (q : Pool J D),
      Settles q (items.foldl (fun p item => p.drop status reason item) q) := by
    intro items
    induction items with
    | nil => exact fun q => .refl q
    | cons item items ih => exact fun q => (settles_drop q status reason item).trans (ih _)
  refine Settles.trans ?_ (hfold p.queue { p with queue := [] })
  exact .of_desk rfl id

theorem settles_place (p : Pool J D) (item : QueuedJob J) : Settles p (p.place item) := by
  unfold place
  by_cases hall : p.allUnavailable = true
  · rw [if_pos hall]
    exact settles_settleLocked _ _ _
  · rw [if_neg hall]
    exact .of_desk rfl id

/-- Worker threads only settle. -/
theorem Internal.settles {p p' : Pool J D} (hready : p.Ready) (h : Internal p p') :
    Settles p p' := by
  cases h with
  | spawn h => exact (quiet_spawn hready h).settles
  | constructed h => exact (quiet_constructed hready h).settles
  | creationFailed h => exact (quiet_creationFailed hready h).settles
  | initializeWorker i available error h =>
    obtain ⟨hquiet, rfl | ⟨-, reason, rfl⟩⟩ := initializeWorker_cases hready h
    · exact hquiet.settles
    · exact hquiet.settles.trans (settles_drain _ _ _)
  | pop i h =>
    unfold Pool.pop at h
    split at h
    · obtain rfl := Option.some.inj h
      exact .of_desk rfl id
    · exact nomatch h
  | exit i h => exact (quiet_exit hready h).settles
  | settle i executed h =>
    unfold settleJob at h
    split at h
    · obtain rfl := Option.some.inj h
      refine Settles.trans ?_ (settles_settleLocked _ _ _)
      exact .of_desk rfl id
    · exact nomatch h

end Steps

end Pool

namespace Host

/-! ## Host and pool -/

/-- Function `i` has ticket `i + 1`, and the calls so far are those of the delivered tickets. -/
structure Paired [Inhabited D] (workerCount maxQueuedJobs : ℕ) (entries : List FuncRange)
    (h : Host J D) (p : Pool J D) : Prop where
  pool : h.pool = some p
  image : h.entries = entries
  reach : Pool.Reachable workerCount maxQueuedJobs p
  tickets : p.nextTicket = h.next + 1
  deliveries : p.nextDelivery = h.calls.length + 1
  bound : h.next ≤ entries.length
  jobs : ∀ ticket info, h.workerJobs.find ticket = some info → info.index + 1 = ticket
  outstanding : ∀ ticket, (∃ info, h.workerJobs.find ticket = some info) ↔
    p.nextDelivery ≤ ticket ∧ ticket < p.nextTicket
  submitted : ∀ ticket job, .accepted ticket job ∈ p.trace →
    (entries[ticket - 1]?).map FuncRange.start = some job.functionStart
  calls : ∀ (i : ℕ) (call : ℕ × EmulationJobResult D), h.calls[i]? = some call →
    call.1 = i ∧ ∃ source, .settled (i + 1) ⟨call.2, source⟩ ∈ p.trace
  matched : h.mismatched = false

/-- One more call, with the next index. -/
theorem forall_getElem?_concat {α : Type} {l : List α} {a : α} {P : ℕ → α → Prop}
    (hl : ∀ (i : ℕ) (b : α), l[i]? = some b → P i b) (ha : P l.length a) (i : ℕ) (b : α)
    (h : (l ++ [a])[i]? = some b) : P i b := by
  rcases Nat.lt_or_ge i l.length with hlt | hge
  · rw [List.getElem?_append_left hlt] at h
    exact hl i b h
  · rw [List.getElem?_append_right hge] at h
    have hlast : i = l.length := by
      have hbound := (List.getElem?_eq_some_iff.1 h).1
      rw [List.length_singleton] at hbound
      omega
    subst hlast
    rw [Nat.sub_self] at h
    exact Option.some.inj h ▸ ha

/-- A result with a job, which fits its function, is passed on as it is. -/
theorem applyOne_eq [Inhabited D] {h : Host J D} {info : WorkerJobInfo}
    {result : EmulationJobResult D} (hinfo : h.workerJobs.find result.ticket = some info)
    (hfits : (h.entries[info.index]?).map FuncRange.start = some result.functionStart) :
    ∃ cache, h.applyOne result = (true, { h with
      workerJobs := h.workerJobs.erase result.ticket
      dynamicCache := cache
      calls := h.calls ++ [(info.index, result)] }) := by
  unfold applyOne
  rw [hinfo]
  show ∃ cache, (true, h.applyTo result.ticket info result) = _
  unfold applyTo
  rw [if_neg (not_not.2 hfits)]
  by_cases hcompleted : result.status = .completed
  · rw [if_pos hcompleted]
    exact ⟨_, rfl⟩
  · rw [if_neg hcompleted]
    exact ⟨_, rfl⟩

namespace Paired

variable [Inhabited D] {workerCount maxQueuedJobs : ℕ} {entries : List FuncRange} {h : Host J D}
  {p p' : Pool J D}

theorem begun (inlineMode : Bool) (entries : List FuncRange)
    (dynamicCache : Cxx.Map Cxx.Comparator.u64 UInt64) (workerCount maxQueuedJobs : ℕ) :
    Paired workerCount maxQueuedJobs entries
      (Host.begun inlineMode entries dynamicCache (some (workerCount, maxQueuedJobs)) : Host J D)
      (Pool.initial workerCount maxQueuedJobs) where
  pool := rfl
  image := rfl
  reach := .refl
  tickets := rfl
  deliveries := rfl
  bound := Nat.zero_le _
  jobs := by simp [Host.begun]
  outstanding := by
    intro ticket
    simp only [Host.begun, Cxx.Map.find_empty, Pool.initial, reduceCtorEq, exists_false,
      false_iff, not_and]
    omega
  submitted := by simp [Pool.initial]
  calls := by simp [Host.begun]
  matched := rfl

theorem setPhase (hp : Paired workerCount maxQueuedJobs entries h p) (phase : Phase) :
    Paired workerCount maxQueuedJobs entries { h with phase := phase } p :=
  ⟨hp.pool, hp.image, hp.reach, hp.tickets, hp.deliveries, hp.bound, hp.jobs, hp.outstanding,
    hp.submitted, hp.calls, hp.matched⟩

/-- A worker thread takes a step. -/
theorem worker (hp : Paired workerCount maxQueuedJobs entries h p) (hstep : p.Internal p') :
    Paired workerCount maxQueuedJobs entries { h with pool := some p' } p' where
  pool := rfl
  image := hp.image
  reach := hp.reach.tail (.internal hstep)
  tickets := (hstep.settles hp.reach.ready).nextTicket.trans hp.tickets
  deliveries := (hstep.settles hp.reach.ready).nextDelivery.trans hp.deliveries
  bound := hp.bound
  jobs := hp.jobs
  outstanding ticket := by
    have hsettles := hstep.settles hp.reach.ready
    rw [hsettles.nextTicket, hsettles.nextDelivery]
    exact hp.outstanding ticket
  submitted ticket job hmem :=
    hp.submitted ticket job ((hstep.settles hp.reach.ready).accepted _ _ hmem)
  calls i call hcall := by
    obtain ⟨hindex, source, hsettled⟩ := hp.calls i call hcall
    exact ⟨hindex, source, (hstep.settles hp.reach.ready).keeps _ hsettled⟩
  matched := hp.matched

/-- A delivered result is that of the next function. -/
theorem result_is_next (hp : Paired workerCount maxQueuedJobs entries h p)
    {result : EmulationJobResult D} (htake : p.takeNext = (some result, p')) :
    result.ticket = h.calls.length + 1 ∧
      (entries[h.calls.length]?).map FuncRange.start = some result.functionStart ∧
        (∃ source, .settled (h.calls.length + 1) ⟨result, source⟩ ∈ p.trace) ∧
          ∃ info, h.workerJobs.find result.ticket = some info ∧ info.index = h.calls.length := by
  have hbooks := (Pool.Reachable.ok hp.reach).books
  obtain ⟨hticket, -, -, source, hsettled⟩ := Pool.ticket_of_takeNext hbooks htake
  have hdeliveries := hp.deliveries
  rw [hdeliveries] at hticket hsettled
  obtain ⟨-, job, haccepted, hstart⟩ := hbooks.answers _ _ hsettled
  have hfunction := hp.submitted _ job haccepted
  rw [Nat.add_sub_cancel, ← hstart] at hfunction
  -- the ticket was accepted, so it is outstanding
  have hlater : h.calls.length + 1 < p.nextTicket := by
    have hmem := hbooks.legal.mem_acceptedTickets_iff.1 (mem_acceptedTickets.2 ⟨job, haccepted⟩)
    have hcount : (acceptedTickets p.trace).length + 1 = p.nextTicket := hbooks.accepted
    exact hcount ▸ Nat.lt_succ_of_le hmem.2
  obtain ⟨info, hinfo⟩ := (hp.outstanding (h.calls.length + 1)).2 ⟨hdeliveries.le, hlater⟩
  have hindex := hp.jobs _ info hinfo
  refine ⟨hticket, hfunction, ⟨source, hsettled⟩, info, ?_, by omega⟩
  rw [hticket]
  exact hinfo

/-- Taking a result processes the next function with it. -/
theorem apply (hp : Paired workerCount maxQueuedJobs entries h p) (hc : p.constructing = false)
    {result : EmulationJobResult D} (htake : p.takeNext = (some result, p')) :
    ∃ h', { h with pool := some p' }.applyOne result = (true, h') ∧
      Paired workerCount maxQueuedJobs entries h' p' ∧ p'.constructing = false := by
  obtain ⟨hticket, hfunction, ⟨source, hsettled⟩, info, hinfo, hindex⟩ := hp.result_is_next htake
  have hreach : Pool.Reachable workerCount maxQueuedJobs p.takeNext.2 :=
    hp.reach.tail (.takeNext hc)
  rcases Pool.takeNext_cases p with ⟨-, hnone⟩ | ⟨ready, hfind, hsome⟩
  · exact nomatch hnone.symm.trans htake
  obtain ⟨hready, rfl⟩ := Prod.mk.inj (hsome.symm.trans htake)
  obtain rfl := Option.some.inj hready
  rw [hsome] at hreach
  have hfits : (h.entries[info.index]?).map FuncRange.start = some ready.functionStart := by
    rw [hindex, hp.image]
    exact hfunction
  obtain ⟨cache, happly⟩ :=
    applyOne_eq (h := { h with pool := some (p.deliver ready) }) hinfo hfits
  refine ⟨_, happly, ?_, hc⟩
  have hdeliveries := hp.deliveries
  refine ⟨rfl, hp.image, hreach, hp.tickets, ?_, hp.bound, fun ticket info' hfind' => ?_,
    fun ticket => ?_, fun ticket job hmem => ?_, fun i call hcall => ?_, hp.matched⟩
  · show p.nextDelivery + 1 = (h.calls ++ [_]).length + 1
    rw [List.length_append, hdeliveries]
    rfl
  · rw [Cxx.Map.find_erase] at hfind'
    split_ifs at hfind'
    exact hp.jobs ticket info' hfind'
  · show (∃ info, (h.workerJobs.erase ready.ticket).find ticket = some info) ↔
      p.nextDelivery + 1 ≤ ticket ∧ ticket < p.nextTicket
    rw [Cxx.Map.find_erase]
    split_ifs with heq
    · simp only [exists_false, false_iff, not_and]
      omega
    · rw [hp.outstanding]
      omega
  · exact hp.submitted ticket job ((List.mem_cons.1 hmem).resolve_left nofun)
  · refine forall_getElem?_concat (P := fun i call => call.1 = i ∧
      ∃ source, .settled (i + 1) ⟨call.2, source⟩ ∈ (p.deliver ready).trace)
      (fun i call hcall => ?_) ?_ i call hcall
    · obtain ⟨hcallIndex, source', hsettled'⟩ := hp.calls i call hcall
      exact ⟨hcallIndex, source', List.mem_cons_of_mem _ hsettled'⟩
    · exact ⟨hindex, source, List.mem_cons_of_mem _ hsettled⟩

theorem nextDelivery_le (hp : Paired workerCount maxQueuedJobs entries h p) :
    p.nextDelivery ≤ p.nextTicket := by
  have hbooks := (Pool.Reachable.ok hp.reach).books
  have haccepted : (acceptedTickets p.trace).length + 1 = p.nextTicket := hbooks.accepted
  have hout : (deliveredTickets p.trace).length + 1 = p.nextDelivery := hbooks.handedOut
  rw [← haccepted, ← hout]
  exact Nat.succ_le_succ hbooks.legal.length_deliveredTickets_le

/-- Submitting the next function. -/
theorem submit (hp : Paired workerCount maxQueuedJobs entries h p) (hc : p.constructing = false)
    {function : FuncRange} (hfunction : entries[h.next]? = some function) {body : J} {ticket : ℕ}
    (hsubmit : p.trySubmit ⟨function.start, body⟩ = (some ticket, p')) (fingerprint : UInt64)
    (cacheHit : Bool) (hits : ℕ) (phase : Phase) :
    Paired workerCount maxQueuedJobs entries { h with
      pool := some p'
      dynamicCacheHits := hits
      workerJobs := h.workerJobs.emplace ticket ⟨h.next, fingerprint, cacheHit⟩
      next := h.next + 1
      phase := phase } p' ∧ p'.constructing = false := by
  have hreach : Pool.Reachable workerCount maxQueuedJobs (p.trySubmit ⟨function.start, body⟩).2 :=
    hp.reach.tail (.trySubmit _ hc)
  rw [hsubmit] at hreach
  rcases Pool.trySubmit_cases p ⟨function.start, body⟩ with hsame | ⟨-, -, hplaced⟩
  · exact nomatch hsame.symm.trans hsubmit
  obtain ⟨hassigned, hplace⟩ := Prod.mk.inj (hplaced.symm.trans hsubmit)
  obtain rfl := Option.some.inj hassigned
  have hsettles : Pool.Settles (p.accept ⟨function.start, body⟩) p' :=
    hplace ▸ Pool.settles_place _ _
  have hticket : p'.nextTicket = p.nextTicket + 1 := hsettles.nextTicket
  have hdelivery : p'.nextDelivery = p.nextDelivery := hsettles.nextDelivery
  have htickets := hp.tickets
  have hdeliveries := hp.deliveries
  have hfree : h.workerJobs.find p.nextTicket = none := by
    rcases hfind : h.workerJobs.find p.nextTicket with _ | info
    · rfl
    · exact absurd ((hp.outstanding _).1 ⟨info, hfind⟩).2 (Nat.lt_irrefl _)
  have hle := hp.nextDelivery_le
  refine ⟨⟨rfl, hp.image, hreach, ?_, ?_, ?_, fun ticket info hfind => ?_, fun ticket => ?_,
    fun ticket job hmem => ?_, fun i call hcall => ?_, hp.matched⟩, hsettles.constructing hc⟩
  · rw [hticket, htickets]
  · rw [hdelivery, hdeliveries]
  · exact (List.getElem?_eq_some_iff.1 hfunction).1
  · rw [Cxx.Map.emplace, Cxx.Map.find_upsert, hfree] at hfind
    split_ifs at hfind with heq
    · obtain rfl := Option.some.inj hfind
      exact (heq.symm.trans htickets).symm
    · exact hp.jobs ticket info hfind
  · rw [Cxx.Map.emplace, Cxx.Map.find_upsert, hfree, hticket, hdelivery]
    split_ifs with heq
    · subst heq
      simp only [Option.some.injEq, exists_eq', true_iff]
      omega
    · rw [hp.outstanding]
      omega
  · rcases List.mem_cons.1 (hsettles.accepted _ _ hmem) with heq | hmem
    · obtain ⟨rfl, rfl⟩ := Event.accepted.inj heq
      rw [htickets, Nat.add_sub_cancel, hfunction]
      rfl
    · exact hp.submitted ticket job hmem
  · obtain ⟨hindex, source, hsettled⟩ := hp.calls i call hcall
    exact ⟨hindex, source, hsettles.keeps _ (List.mem_cons_of_mem _ hsettled)⟩

end Paired

/-! ## Turns of the main thread -/

section Turns

variable [Inhabited D] {workerCount maxQueuedJobs : ℕ} {entries : List FuncRange} {h : Host J D}
  {p : Pool J D}

/-- The host works with a pool that is constructed. -/
def Working (workerCount maxQueuedJobs : ℕ) (entries : List FuncRange) (h : Host J D) : Prop :=
  ∃ p, Paired workerCount maxQueuedJobs entries h p ∧ p.constructing = false

theorem working_drainTurn (hp : Paired workerCount maxQueuedJobs entries h p)
    (hc : p.constructing = false) (tick : Tick J) (applied budget : ℕ) (again : ℕ → Phase)
    (leave : Phase) :
    Working workerCount maxQueuedJobs entries (h.drainTurn p tick applied budget again leave) ∧
      ((h.drainTurn p tick applied budget again leave).phase = leave ∨
        ∃ n, (h.drainTurn p tick applied budget again leave).phase = again n) := by
  unfold drainTurn
  by_cases hmore : applied < budget ∧ (h.inlineMode || tick.early) = true
  swap
  · rw [if_neg hmore]
    exact ⟨⟨p, hp.setPhase leave, hc⟩, Or.inl rfl⟩
  rw [if_pos hmore]
  rcases Pool.takeNext_cases p with ⟨-, htake⟩ | ⟨result, -, htake⟩
  · simp only [htake, ← hp.pool]
    exact ⟨⟨p, hp.setPhase leave, hc⟩, Or.inl trivial⟩
  · obtain ⟨h', happly, hp', hc'⟩ := hp.apply hc htake
    simp only [htake, happly]
    exact ⟨⟨_, hp'.setPhase _, hc'⟩, Or.inr ⟨_, rfl⟩⟩

theorem working_submitTurn (hp : Paired workerCount maxQueuedJobs entries h p)
    (hc : p.constructing = false) (tick : Tick J) {function : FuncRange}
    (hfunction : entries[h.next]? = some function) (again leave : Phase) :
    Working workerCount maxQueuedJobs entries (h.submitTurn p tick function again leave) ∧
      ((h.submitTurn p tick function again leave).phase = leave ∨
        (h.submitTurn p tick function again leave).phase = again) := by
  unfold submitTurn
  split_ifs with hfull
  · exact ⟨⟨p, hp.setPhase leave, hc⟩, Or.inl rfl⟩
  rcases hsubmit : p.trySubmit ⟨function.start, tick.body⟩ with ⟨_ | ticket, p'⟩
  · rcases Pool.trySubmit_cases p ⟨function.start, tick.body⟩ with hsame | ⟨-, -, hplaced⟩
    · obtain ⟨-, rfl⟩ := Prod.mk.inj (hsame.symm.trans hsubmit)
      simp only [← hp.pool]
      exact ⟨⟨p, hp.setPhase leave, hc⟩, Or.inl trivial⟩
    · exact nomatch hplaced.symm.trans hsubmit
  · exact ⟨⟨p', hp.submit hc hfunction hsubmit _ _ _ _⟩, Or.inr rfl⟩

/-- A call goes on to the evidence only after every function. -/
theorem working_leave (hw : Working workerCount maxQueuedJobs entries h) :
    Working workerCount maxQueuedJobs entries h.leave ∧
      (h.leave.phase = .outside ∨ h.leave.phase = .evidence ∧ h.calls.length = entries.length) := by
  obtain ⟨p, hp, hc⟩ := hw
  refine ⟨⟨p, hp.setPhase _, hc⟩, ?_⟩
  by_cases hmore : h.next < h.entries.length ∨ h.workerJobs.entries ≠ []
  · exact Or.inl (if_pos hmore)
  refine Or.inr ⟨if_neg hmore, ?_⟩
  push Not at hmore
  obtain ⟨hdone, hempty⟩ := hmore
  rw [hp.image] at hdone
  have hnext : h.next = entries.length := Nat.le_antisymm hp.bound hdone
  -- no ticket is outstanding, so that all are delivered
  by_contra hne
  have hout : p.nextDelivery ≤ p.nextDelivery ∧ p.nextDelivery < p.nextTicket := by
    have hle := hp.nextDelivery_le
    have htickets := hp.tickets
    have hdeliveries := hp.deliveries
    omega
  obtain ⟨info, hinfo⟩ := (hp.outstanding p.nextDelivery).2 hout
  have hmem := Cxx.Map.mem_entries_iff.2 hinfo
  rw [hempty] at hmem
  exact nomatch hmem

/-- What holds between two turns: the host is outside or works with its pool, and it is at the
evidence only after every function. -/
structure Sound (workerCount maxQueuedJobs : ℕ) (entries : List FuncRange) (h : Host J D) :
    Prop where
  paired : ∃ p, Paired workerCount maxQueuedJobs entries h p ∧
    (h.phase = .outside ∨ p.constructing = false)
  complete : h.phase = .evidence → h.calls.length = entries.length

theorem Working.sound (hw : Working workerCount maxQueuedJobs entries h)
    (hcomplete : h.phase = .evidence → h.calls.length = entries.length) :
    Sound workerCount maxQueuedJobs entries h := by
  obtain ⟨p, hp, hc⟩ := hw
  exact ⟨⟨p, hp, Or.inr hc⟩, hcomplete⟩

theorem sound_leave (hw : Working workerCount maxQueuedJobs entries h) :
    Sound workerCount maxQueuedJobs entries h.leave := by
  obtain ⟨hw', hphase⟩ := working_leave hw
  refine hw'.sound fun hevidence => ?_
  rcases hphase with hout | ⟨-, hcount⟩
  · exact nomatch hout.symm.trans hevidence
  · exact hcount

theorem sound_poolTurn (hs : Sound workerCount maxQueuedJobs entries h)
    (hp : Paired workerCount maxQueuedJobs entries h p) (hc : p.constructing = false)
    (tick : Tick J) : Sound workerCount maxQueuedJobs entries (h.poolTurn p tick) := by
  unfold poolTurn
  split
  · rename_i budget applied hphase
    obtain ⟨hw, hphase'⟩ := working_drainTurn hp hc tick applied budget (.drain budget)
      (.submit budget applied 0)
    refine hw.sound fun hevidence => ?_
    rcases hphase' with heq | ⟨n, heq⟩ <;> exact nomatch heq.symm.trans hevidence
  · rename_i budget applied submitted hphase
    have hstop : Sound workerCount maxQueuedJobs entries
        { h with phase := .drainAgain budget applied } :=
      Working.sound ⟨p, hp.setPhase _, hc⟩ nofun
    split
    · rename_i function hfunction
      split_ifs
      · rw [hp.image] at hfunction
        obtain ⟨hw, hphase'⟩ := working_submitTurn hp hc tick hfunction
          (.submit budget applied (submitted + 1)) (.drainAgain budget applied)
        refine hw.sound fun hevidence => ?_
        rcases hphase' with heq | heq <;> exact nomatch heq.symm.trans hevidence
      · exact hstop
    · exact hstop
  · rename_i budget applied hphase
    obtain ⟨hw, hphase'⟩ := working_drainTurn hp hc tick applied budget (.drainAgain budget)
      (.wait applied)
    refine hw.sound fun hevidence => ?_
    rcases hphase' with heq | ⟨n, heq⟩ <;> exact nomatch heq.symm.trans hevidence
  · rename_i applied hphase
    split_ifs with hwait
    · rcases Pool.takeNext_cases p with ⟨-, htake⟩ | ⟨result, -, htake⟩
      · simp only [htake, ← hp.pool]
        exact sound_leave ⟨p, hp, hc⟩
      · obtain ⟨h', happly, hp', hc'⟩ := hp.apply hc htake
        simp only [htake, happly]
        exact sound_leave ⟨_, hp', hc'⟩
    · exact sound_leave ⟨p, hp, hc⟩
  · exact hs

theorem Sound.advance (hs : Sound workerCount maxQueuedJobs entries h) (tick : Tick J) :
    Sound workerCount maxQueuedJobs entries (h.advance tick) := by
  obtain ⟨p, hp, hphase⟩ := hs.paired
  unfold Host.advance
  split
  · rename_i pool hout hpool
    obtain rfl := Option.some.inj (hp.pool.symm.trans hpool)
    by_cases hc : p.constructing = true
    · rw [if_pos hc]
      exact hs
    · rw [if_neg hc]
      exact Working.sound ⟨p, hp.setPhase (.drain _ 0), by simpa using hc⟩ nofun
  · rename_i hpool
    exact nomatch hp.pool.symm.trans hpool
  · rename_i pool hpool hout
    obtain rfl := Option.some.inj (hp.pool.symm.trans hpool)
    exact sound_poolTurn hs hp (hphase.resolve_left hout) tick
  · rename_i hpool hout
    exact nomatch hp.pool.symm.trans hpool

end Turns

/-! ## Without a pool -/

/-- The calls so far are those of the functions before `next`, each without evidence. -/
structure Direct (entries : List FuncRange) (h : Host J D) : Prop where
  pool : h.pool = none
  image : h.entries = entries
  count : h.calls.length = h.next
  bound : h.next ≤ entries.length
  calls : ∀ (i : ℕ) (call : ℕ × EmulationJobResult D), h.calls[i]? = some call → call.1 = i ∧
    (entries[i]?).map FuncRange.start = some call.2.functionStart ∧ call.2.status = .unavailable
  matched : h.mismatched = false
  complete : h.phase = .evidence → h.calls.length = entries.length

theorem Direct.setPhase {entries : List FuncRange} {h : Host J D} (hd : Direct entries h)
    (phase : Phase) (hcomplete : phase = .evidence → h.calls.length = entries.length) :
    Direct entries { h with phase := phase } :=
  ⟨hd.pool, hd.image, hd.count, hd.bound, hd.calls, hd.matched, hcomplete⟩

theorem Direct.advance [Inhabited D] {entries : List FuncRange} {h : Host J D}
    (hd : Direct entries h) (tick : Tick J) : Direct entries (h.advance tick) := by
  unfold Host.advance
  split
  · rename_i hpool
    exact nomatch hd.pool.symm.trans hpool
  · exact hd.setPhase (.direct _ 0) nofun
  · rename_i hpool _
    exact nomatch hd.pool.symm.trans hpool
  · unfold directTurn
    split
    · rename_i budget i hphase
      split
      · rename_i function hfunction
        rw [hd.image] at hfunction
        split_ifs with hmore
        · refine ⟨hd.pool, hd.image, ?_, (List.getElem?_eq_some_iff.1 hfunction).1,
            forall_getElem?_concat hd.calls ?_, hd.matched, nofun⟩
          · show (h.calls ++ [_]).length = h.next + 1
            rw [List.length_append, hd.count]
            rfl
          · rw [hd.count, hfunction]
            exact ⟨rfl, rfl, rfl⟩
        · exact hd.setPhase _ nofun
      · rename_i hnone
        rw [hd.image] at hnone
        refine hd.setPhase _ fun _ => ?_
        have hbound := hd.bound
        have hend := List.getElem?_eq_none_iff.1 hnone
        rw [hd.count]
        omega
    · exact hd

/-! ## Epochs -/

/-- The result of a call is that of the function's own job; without a pool it is empty. -/
def OwnResult (pool : Option (Pool J D)) (index : ℕ) (result : EmulationJobResult D) : Prop :=
  match pool with
  | some p => ∃ source job, .settled (index + 1) ⟨result, source⟩ ∈ p.trace ∧
      .accepted (index + 1) job ∈ p.trace ∧ result.functionStart = job.functionStart
  | none => result.status = .unavailable

theorem indices_eq_range {calls : List (ℕ × EmulationJobResult D)}
    (h : ∀ (i : ℕ) (call : ℕ × EmulationJobResult D), calls[i]? = some call → call.1 = i) :
    calls.map Prod.fst = List.range calls.length := by
  refine List.ext_getElem? fun i => ?_
  rw [List.getElem?_map]
  rcases hcall : calls[i]? with _ | call
  · rw [List.getElem?_eq_none (by simpa using hcall)]
    rfl
  · have hlt := (List.getElem?_eq_some_iff.1 hcall).1
    rw [List.getElem?_range hlt, Option.map_some, h i call hcall]

section Runs

variable [Inhabited D]

theorem Paired.own {workerCount maxQueuedJobs : ℕ} {entries : List FuncRange} {h : Host J D}
    {p : Pool J D} (hp : Paired workerCount maxQueuedJobs entries h p) {i : ℕ}
    {call : ℕ × EmulationJobResult D} (hcall : h.calls[i]? = some call) :
    (entries[i]?).map FuncRange.start = some call.2.functionStart ∧
      OwnResult (some p) i call.2 := by
  obtain ⟨-, source, hsettled⟩ := hp.calls i call hcall
  obtain ⟨-, job, haccepted, hstart⟩ :=
    (Pool.Reachable.ok hp.reach).books.answers _ _ hsettled
  have hfunction := hp.submitted _ job haccepted
  rw [Nat.add_sub_cancel] at hfunction
  rw [show call.2.functionStart = job.functionStart from hstart]
  exact ⟨hfunction, source, job, hsettled, haccepted, hstart⟩

/-- The invariant of an epoch, with and without a pool. -/
def Kept (workers : Option (ℕ × ℕ)) (entries : List FuncRange) (h : Host J D) : Prop :=
  match workers with
  | some (workerCount, maxQueuedJobs) => Sound workerCount maxQueuedJobs entries h
  | none => Direct entries h

theorem kept_begun (inlineMode : Bool) (entries : List FuncRange)
    (dynamicCache : Cxx.Map Cxx.Comparator.u64 UInt64) (workers : Option (ℕ × ℕ)) :
    Kept workers entries (begun inlineMode entries dynamicCache workers : Host J D) := by
  rcases workers with _ | ⟨workerCount, maxQueuedJobs⟩
  · exact ⟨rfl, rfl, rfl, Nat.zero_le _, by simp [begun], rfl, nofun⟩
  · exact ⟨⟨_, Paired.begun inlineMode entries dynamicCache workerCount maxQueuedJobs, Or.inl rfl⟩,
      nofun⟩

theorem Step.kept {workers : Option (ℕ × ℕ)} {entries : List FuncRange} {h h' : Host J D}
    (hstep : Step h h') (hh : Kept workers entries h) : Kept workers entries h' := by
  rcases workers with _ | ⟨workerCount, maxQueuedJobs⟩
  · have hd : Direct entries h := hh
    cases hstep with
    | worker hpool _ => exact nomatch hd.pool.symm.trans hpool
    | main tick => exact hd.advance tick
  · have hs : Sound workerCount maxQueuedJobs entries h := hh
    cases hstep with
    | worker hpool hinternal =>
      obtain ⟨p, hp, hphase⟩ := hs.paired
      obtain rfl := Option.some.inj (hp.pool.symm.trans hpool)
      have hconstructing := (hinternal.settles hp.reach.ready).constructing
      exact ⟨⟨_, hp.worker hinternal, hphase.imp_right hconstructing⟩, hs.complete⟩
    | main tick => exact hs.advance tick

/-- **The order of an epoch.** Whatever the workers do and wherever calls are cut off, functions are
processed in the order 0, 1, 2, …, each once and with the result of its own job; the evidence is
applied only after all of them, and no result fails to match its job. -/
theorem functions_processed_in_order {inlineMode : Bool} {entries : List FuncRange}
    {dynamicCache : Cxx.Map Cxx.Comparator.u64 UInt64} {workers : Option (ℕ × ℕ)} {h : Host J D}
    (hrun : Relation.ReflTransGen Step (begun inlineMode entries dynamicCache workers) h) :
    h.calls.map Prod.fst = List.range h.calls.length ∧ h.calls.length ≤ entries.length ∧
      (∀ index result, (index, result) ∈ h.calls →
        (entries[index]?).map FuncRange.start = some result.functionStart ∧
          OwnResult h.pool index result) ∧
      (h.phase = .evidence → h.calls.length = entries.length) ∧ h.mismatched = false := by
  have hkept : Kept workers entries h := by
    induction hrun with
    | refl => exact kept_begun inlineMode entries dynamicCache workers
    | tail _ hstep ih => exact hstep.kept ih
  rcases workers with _ | ⟨workerCount, maxQueuedJobs⟩
  · have hd : Direct entries h := hkept
    have hindex : ∀ (i : ℕ) (call : ℕ × EmulationJobResult D), h.calls[i]? = some call →
        call.1 = i := fun i call hcall => (hd.calls i call hcall).1
    refine ⟨indices_eq_range hindex, hd.count ▸ hd.bound, fun index result hmem => ?_,
      hd.complete, hd.matched⟩
    obtain ⟨i, hcall⟩ := List.mem_iff_getElem?.1 hmem
    obtain ⟨rfl, hstart, hstatus⟩ := hd.calls i _ hcall
    rw [hd.pool]
    exact ⟨hstart, hstatus⟩
  · have hs : Sound workerCount maxQueuedJobs entries h := hkept
    obtain ⟨p, hp, -⟩ := hs.paired
    have hindex : ∀ (i : ℕ) (call : ℕ × EmulationJobResult D), h.calls[i]? = some call →
        call.1 = i := fun i call hcall => (hp.calls i call hcall).1
    refine ⟨indices_eq_range hindex, ?_, fun index result hmem => ?_, hs.complete, hp.matched⟩
    · have hle := hp.nextDelivery_le
      have htickets := hp.tickets
      have hdeliveries := hp.deliveries
      have hbound := hp.bound
      omega
    · obtain ⟨i, hcall⟩ := List.mem_iff_getElem?.1 hmem
      obtain rfl := hindex i _ hcall
      rw [hp.pool]
      exact hp.own hcall

/-- An epoch with two functions and two workers; the second job is settled before the first. -/
theorem two_functions_processed : ∃ h : Host Unit Unit,
    Relation.ReflTransGen Step
        (begun true [⟨16, 0, 0⟩, ⟨32, 0, 0⟩] Cxx.Map.empty (some (2, 2))) h ∧
      h.pool.map (fun p => Conc.Trace.settledTickets p.trace) = some [1, 2] ∧
      h.phase = .evidence ∧
      h.calls.map (fun call => (call.1, call.2.functionStart)) = [(0, 16), (1, 32)] ∧
      h.calls.length = 2 ∧ h.mismatched = false := by
  have h₁ : Relation.ReflTransGen Step
      (begun true [⟨16, 0, 0⟩, ⟨32, 0, 0⟩] Cxx.Map.empty (some (2, 2)) : Host Unit Unit) _ :=
    .single (.worker rfl (.spawn rfl))
  have h₂ := h₁.tail (.worker rfl (.spawn rfl))
  have h₃ := h₂.tail (.worker rfl (.constructed rfl))
  have h₄ := h₃.tail (.worker rfl (.initializeWorker 0 true [] rfl))
  have h₅ := h₄.tail (.worker rfl (.initializeWorker 1 true [] rfl))
  have h₆ := h₅.tail (.main ⟨4, true, (), 7⟩)
  have h₇ := h₆.tail (.main ⟨4, true, (), 7⟩)
  have h₈ := h₇.tail (.main ⟨4, true, (), 7⟩)
  have h₉ := h₈.tail (.main ⟨4, true, (), 7⟩)
  have h₁₀ := h₉.tail (.worker rfl (.pop 0 rfl))
  have h₁₁ := h₁₀.tail (.worker rfl (.pop 1 rfl))
  have h₁₂ := h₁₁.tail (.worker rfl (.settle 1 (.returned ⟨0, 0, .completed, [], ()⟩) rfl))
  have h₁₃ := h₁₂.tail (.worker rfl (.settle 0 (.returned ⟨0, 0, .completed, [], ()⟩) rfl))
  have h₁₄ := h₁₃.tail (.main ⟨4, true, (), 7⟩)
  have h₁₅ := h₁₄.tail (.main ⟨4, true, (), 7⟩)
  have h₁₆ := h₁₅.tail (.main ⟨4, true, (), 7⟩)
  have h₁₇ := h₁₆.tail (.main ⟨4, true, (), 7⟩)
  have h₁₈ := h₁₇.tail (.main ⟨4, true, (), 7⟩)
  obtain ⟨-, -, -, hcomplete, hmatched⟩ := functions_processed_in_order h₁₈
  exact ⟨_, h₁₈, rfl, rfl, rfl, hcomplete rfl, hmatched⟩

end Runs

end Host

end Viy
