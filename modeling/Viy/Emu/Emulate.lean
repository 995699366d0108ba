import Viy.Emu.Scratch
import Viy.Emu.TraceOrder
import Viy.Runtime.FinalWrites

/-!
# Emulating a function

`emulate_from` restores the baseline, enters the function and starts the engine. A modelled call
stops the engine, and the driver starts it again where the call has returned to, as long as there
are instructions, time and starts left. Over all its starts a run keeps to one budget and leaves one
log; and nothing of it depends on what the engine has run before.
-/

namespace Viy.Emu

open Wire Fault Proc Viy.Abi Viy.Runtime
open Workers.Fingerprint (ViyConfig)

/-- Runs of the hooks follow each other. -/
theorem HookCtx.Logs.append {c : HookCtx} {initial : UInt64} {log log' log'' : Log}
    {calls calls' : List HookCall} (h : c.Logs initial log calls log')
    (h' : c.Logs initial log' calls' log'') : c.Logs initial log (calls ++ calls') log'' := by
  induction h with
  | nil => exact h'
  | cons hcall hcalls ih => exact .cons hcall (ih h')

/-! ## Provenance -/

theorem HookCtx.Logs.attributed {c : HookCtx} {initial : UInt64} {log log' : Log}
    {calls : List HookCall} (h : c.Logs initial log calls log') :
    ∀ a ∈ log'.accesses, a ∈ log.accesses ∨ ∃ source, c.Attributed source a := by
  induction h with
  | nil => exact fun a ha => Or.inl ha
  | @cons log part log' call calls hcall hcalls ih =>
    intro a ha
    refine (ih a ha).elim (fun hold => ?_) Or.inr
    rw [Log.accesses_append, List.mem_append] at hold
    refine hold.imp id fun hnew => ?_
    obtain ⟨k, hk⟩ := Log.mem_accesses.1 hnew
    have hmem := List.mem_of_getElem? hk
    generalize call.callback = callback at hcall
    cases hcall with
    | denied h => cases hmem
    | insn h hl =>
      simp only [List.mem_cons, reduceCtorEq, false_or, List.mem_map, LogEntry.access.injEq,
        exists_eq_right] at hmem
      exact ⟨_, hl a hmem⟩
    | silent => cases hmem
    | access h hkind haddr hsize hvalue =>
      obtain rfl : a = _ := by simpa using hmem
      exact ⟨_, h⟩

/-- All the events are of the run. -/
structure HookState.OfRun (h : HookState) (runId : UInt32) (seed : UInt64) : Prop where
  data : ∀ a ∈ h.data, a.runId = runId ∧ a.seed = seed
  execution : ∀ a ∈ h.execution, a.runId = runId ∧ a.seed = seed
  edges : ∀ a ∈ h.edges, a.runId = runId ∧ a.seed = seed
  states : ∀ a ∈ h.states, a.runId = runId ∧ a.seed = seed

theorem Chronicle.ofRun {c : HookCtx} {h : HookState} {log : Log} {calls : List HookCall}
    (hc : Chronicle c h log) (hlogs : c.Logs 0 [] calls log) : h.OfRun c.runId c.seed where
  data a ha := by
    rw [hc.data] at ha
    obtain hnone | ⟨source, hattributed⟩ := hlogs.attributed a ha
    · cases hnone
    · exact ⟨hattributed.runId, hattributed.seed⟩
  execution a ha := by
    rw [hc.execution] at ha
    obtain ⟨⟨i, k⟩, -, hof⟩ := List.mem_filterMap.1 (List.mem_of_mem_take ha)
    obtain ⟨-, -, rfl⟩ := pointOf_eq_some_iff.1 hof
    exact ⟨rfl, rfl⟩
  edges a ha := by
    rw [hc.edges] at ha
    obtain ⟨steps, -, hof⟩ := List.mem_filterMap.1 (List.mem_of_mem_take ha)
    exact (edgeOf_eq_some hof).2.2
  states a ha := by
    have hsite := List.mem_map_of_mem (f := StatePoint.site) ha
    rw [hc.states] at hsite
    obtain ⟨e, -, he⟩ := List.mem_map.1 hsite
    have hrun : a.site.runId = c.runId ∧ a.site.seed = c.seed := by
      rw [← he]
      exact ⟨rfl, rfl⟩
    exact hrun

/-! ## The engine -/

/-- `RAX_STOP_*`; the driver asks for three of them. -/
inductive StopReason where
  | until_ | hlt | shutdown
  | other (code : ℤ)
  deriving DecidableEq

structure RaxExit where
  reason : StopReason
  address : UInt64

/-- One call of `emu_start`: the hooks it calls, the instructions it counts, its status and how it
ends. `pcReadable` says whether the program counter can be read behind it. -/
structure Start where
  calls : List HookCall
  executed : UInt64
  ok : Bool
  guest : Guest
  exit : RaxExit
  pcReadable : Bool := true

/-- An engine with its saved baseline. A start is a function of what the engine can see, and counts
no more instructions than it may. -/
structure Rax where
  baseline : Guest
  emuStart : HookCtx → Bool → Machine → UInt64 → UInt64 → UInt64 → UInt64 → Start
  executed_le : ∀ c memHook s begin_ until_ timeout count,
    (emuStart c memHook s begin_ until_ timeout count).executed ≤ count

/-- What an engine keeps from one run to the next. -/
structure EngineState where
  guest : Guest
  icount : UInt64
  lastExit : Option RaxExit

/-! ## Starts -/

/-- A start and where it began. -/
structure StartRecord where
  begin_ : UInt64
  start : Start

/-- The loop over the starts; `starts` keeps them for reference. -/
structure Progress where
  hooks : HookState
  guest : Guest
  icount : UInt64
  lastExit : Option RaxExit
  starts : List StartRecord := []

/-- The time limit in microseconds. -/
def timeoutTotal (cfg : ViyConfig) : UInt64 :=
  if cfg.timeoutMs > ~~~0 / 1000 then ~~~0 else cfg.timeoutMs * 1000

namespace EmuDriver

variable (d : EmuDriver) (rax : Rax) (cfg : ViyConfig) (c : HookCtx) (memHook : Bool)

/-- The engine runs from `begin_` with what is left of the budget. -/
def startOnce (timeout count begin_ : UInt64) (p : Progress) : Progress :=
  let hooks := { p.hooks with summaryResume := false }
  let start := rax.emuStart c memHook ⟨hooks, p.guest⟩ begin_ d.sentinel timeout count
  { hooks := c.hooks hooks start.calls
    guest := start.guest
    icount := p.icount + start.executed
    lastExit := some start.exit
    starts := p.starts ++ [⟨begin_, start⟩] }

/-- Where the next start begins: the last one has ended well, in a modelled call. -/
def nextBegin (p : Progress) : Option UInt64 := do
  let last ← p.starts.getLast?
  if last.start.ok = false ∨ p.hooks.summaryResume = false ∨ last.start.pcReadable = false then none
  else d.params.regs.pc.map last.start.guest.regs

/-- `clock k` is the time that has passed when the start number `k` is considered. -/
def resume (clock : ℕ → UInt64) (icountStart : UInt64) : ℕ → ℕ → UInt64 → Progress → Progress
  | 0, _, _, p => p
  | turns + 1, k, begin_, p =>
    let used := p.icount - icountStart
    if used ≥ cfg.maxInsns then p
    else if clock k ≥ timeoutTotal cfg then p
    else
      let p := d.startOnce rax c memHook (timeoutTotal cfg - clock k) (cfg.maxInsns - used) begin_ p
      match d.nextBegin p with
      | none => p
      | some begin_ => resume clock icountStart turns (k + 1) begin_ p

end EmuDriver

/-! ## Outcomes -/

/-- `stopReason` is none where the source has no valid one. -/
structure EmuOutcome where
  stopReason : Option StopReason := none
  stopPc : UInt64 := 0
  instructionCount : UInt64 := 0
  returned : Bool := false
  spDelta : Option ℤ := none
  terminatedProcess : Bool := false
  summarizedCalls : UInt32 := 0

/-- The net change of the stack pointer, if it fits in an `int64_t`. -/
def spDeltaOf (spEntry spFinal : UInt64) : Option ℤ :=
  if spFinal ≥ spEntry ∧ spFinal - spEntry ≤ 0x7FFFFFFFFFFFFFFF then
    some (spFinal - spEntry).toNat
  else if spEntry > spFinal ∧ spEntry - spFinal ≤ 0x7FFFFFFFFFFFFFFF then
    some (-((spEntry - spFinal).toNat : ℤ))
  else none

/-- A call into rax that changes nothing that is modelled. -/
def rpc : RaxProc Unit := primitive fun s => ((), s)

namespace EmuDriver

variable (d : EmuDriver) (rax : Rax) (cfg : ViyConfig) (req : RunRequest)

def readSp : RaxProc (Option UInt64) :=
  match d.params.regs.sp with
  | some spReg => (regReadU64 spReg).attempt
  | none => pure none

def finalSp (returned : Bool) : RaxProc (Option UInt64) :=
  if returned then d.readSp else pure none

def outcomeOf (lastExit : Option RaxExit) (instructionCount : UInt64) : RaxProc EmuOutcome := do
  let valid ← rpc.attempt
  let exit := if valid.isSome then lastExit else none
  let h ← Proc.get fun s => s.hooks
  let returned := exit.any fun ex => ex.reason == .until_
  let spFinal ← d.finalSp returned
  pure {
    stopReason := exit.map (·.reason)
    stopPc := (exit.map (·.address)).getD 0
    instructionCount := instructionCount
    returned := returned
    spDelta := spFinal.bind (spDeltaOf d.entrySp)
    terminatedProcess := h.terminatedProcess
    summarizedCalls := h.summarizedCalls }

/-! ## The run -/

def addMemHook (c : HookCtx) : RaxProc (Option Unit) :=
  if (c.recordMemory || d.strictPerms) && d.memHooksOk then rpc.attempt else pure none

/-- From the baseline to the installed hooks; the result says whether memory is observed. -/
def launch : RaxProc Bool := do
  primitive fun s => ((), { s with guest := rax.baseline })
  d.enter (d.context cfg req) req
  let codeOk ← rpc.attempt
  let memOk ← d.addMemHook (d.context cfg req)
  let _ ← rpc.attempt
  Proc.require codeOk.isSome
  pure memOk.isSome

/-- What a run leaves behind. -/
structure RunRecord where
  hooks : HookState
  starts : List StartRecord
  outcome : EmuOutcome
  finalWrites : List MemoryBytes

/-- The outcome, and the bytes that the run has written. -/
def finish (readable : Bool) (icountStart : UInt64) (p : Progress) : RaxProc RunRecord := do
  let outcome ← d.outcomeOf p.lastExit (p.icount - icountStart)
  let out ← captureFinalWrites readable cfg.maxRuntimeBytes req.effectiveRun req.effectiveSeed 0
    { data := p.hooks.data, edges := p.hooks.edges }
  pure { hooks := p.hooks, starts := p.starts, outcome := outcome, finalWrites := out.finalWrites }

/-- The starts of a run that has been launched. -/
def emulate (clock : ℕ → UInt64) (memHook : Bool) (s : Machine) (e : EngineState) : Progress :=
  d.resume rax cfg (d.context cfg req) memHook clock e.icount 257 0 req.entry
    { hooks := s.hooks, guest := s.guest, icount := e.icount, lastExit := e.lastExit }

/-- `emulate_from` into empty events, with the engine it leaves. -/
def emulateFrom (clock : ℕ → UInt64) (readable : Bool) (script : List Outcome) (e : EngineState) :
    Option RunRecord × EngineState :=
  if d.canDiscover = false then (none, e)
  else
    match (d.launch rax cfg req).run ⟨(d.context cfg req).start, e.guest⟩ script with
    | (none, s, _) => (none, { e with guest := s.guest })
    | (some memHook, s, rest) =>
      let p := d.emulate rax cfg req clock memHook s e
      ((((d.finish cfg req readable e.icount p).run ⟨p.hooks, p.guest⟩ rest).1,
        { guest := p.guest, icount := p.icount, lastExit := p.lastExit }))

/-! ## The loop over the starts -/

section Resume

variable {d rax cfg} {c : HookCtx} {memHook : Bool} {clock : ℕ → UInt64} {icountStart : UInt64}

/-- What a turn of the loop can do: nothing is left of the budget, or the engine is started, and the
loop ends behind the start or goes on where the modelled call has returned to. -/
theorem resume_cases (turns k : ℕ) (begin_ : UInt64) (p : Progress) :
    let r := d.resume rax cfg c memHook clock icountStart (turns + 1) k begin_ p
    let p' := d.startOnce rax c memHook (timeoutTotal cfg - clock k)
      (cfg.maxInsns - (p.icount - icountStart)) begin_ p
    (cfg.maxInsns ≤ p.icount - icountStart ∨ timeoutTotal cfg ≤ clock k) ∧ r = p ∨
    p.icount - icountStart < cfg.maxInsns ∧ (r = p' ∨ ∃ next, d.nextBegin p' = some next ∧
      r = d.resume rax cfg c memHook clock icountStart turns (k + 1) next p') := by
  intro r p'
  have hr : r = d.resume rax cfg c memHook clock icountStart (turns + 1) k begin_ p := rfl
  unfold resume at hr
  dsimp only at hr
  split_ifs at hr with hused hclock
  · exact Or.inl ⟨Or.inl hused, hr⟩
  · exact Or.inl ⟨Or.inr hclock, hr⟩
  · refine Or.inr ⟨UInt64.not_le.1 hused, ?_⟩
    cases hnext : d.nextBegin p' with
    | none =>
      rw [hnext] at hr
      exact Or.inl hr
    | some next =>
      rw [hnext] at hr
      exact Or.inr ⟨next, rfl, hr⟩

/-- What every start keeps, the loop keeps. `P` speaks of the place where the next start begins. -/
theorem resume_rule {P : UInt64 → Progress → Prop} {Q : Progress → Prop}
    (hstop : ∀ begin_ p, P begin_ p → Q p)
    (hstart : ∀ begin_ p timeout, P begin_ p → p.icount - icountStart < cfg.maxInsns →
      let p' := d.startOnce rax c memHook timeout (cfg.maxInsns - (p.icount - icountStart)) begin_ p
      Q p' ∧ ∀ next, d.nextBegin p' = some next → P next p') :
    ∀ {turns k : ℕ} {begin_ : UInt64} {p : Progress}, P begin_ p →
      Q (d.resume rax cfg c memHook clock icountStart turns k begin_ p) := by
  intro turns
  induction turns with
  | zero =>
    intro k begin_ p hp
    exact hstop begin_ p hp
  | succ turns ih =>
    intro k begin_ p hp
    obtain ⟨-, hr⟩ | ⟨hused, hr | ⟨next, hnext, hr⟩⟩ := resume_cases turns k begin_ p <;> rw [hr]
    · exact hstop begin_ p hp
    · exact (hstart begin_ p _ hp hused).1
    · exact ih ((hstart begin_ p _ hp hused).2 next hnext)

/-- An invariant of the starts that does not speak of where they begin. -/
theorem resume_invariant {Q : Progress → Prop}
    (hstart : ∀ begin_ p timeout, Q p → p.icount - icountStart < cfg.maxInsns →
      Q (d.startOnce rax c memHook timeout (cfg.maxInsns - (p.icount - icountStart)) begin_ p))
    {turns k : ℕ} {begin_ : UInt64} {p : Progress} (hp : Q p) :
    Q (d.resume rax cfg c memHook clock icountStart turns k begin_ p) :=
  resume_rule (P := fun _ => Q) (fun _ _ hq => hq)
    (fun begin_ p timeout hq hused =>
      ⟨hstart begin_ p timeout hq hused, fun _ _ => hstart begin_ p timeout hq hused⟩) hp

theorem length_starts_resume : ∀ {turns k : ℕ} {begin_ : UInt64} {p : Progress},
    (d.resume rax cfg c memHook clock icountStart turns k begin_ p).starts.length ≤
      p.starts.length + turns := by
  intro turns
  induction turns with
  | zero =>
    intro k begin_ p
    exact Nat.le_refl _
  | succ turns ih =>
    intro k begin_ p
    have hone : ∀ timeout count, (d.startOnce rax c memHook timeout count begin_ p).starts.length =
        p.starts.length + 1 := fun _ _ => List.length_append
    obtain ⟨-, hr⟩ | ⟨-, hr | ⟨next, -, hr⟩⟩ := resume_cases turns k begin_ p <;> rw [hr]
    · omega
    · rw [hone]
      omega
    · refine ih.trans ?_
      rw [hone]
      omega

/-! ### Instructions -/

/-- The instructions of the starts. -/
def executed (starts : List StartRecord) : ℕ := (starts.map fun r => r.start.executed.toNat).sum

/-- The counter of the engine has moved by the instructions of the starts, within the budget. -/
structure Counted (cfg : ViyConfig) (icountStart : UInt64) (p : Progress) : Prop where
  icount : (p.icount - icountStart).toNat = executed p.starts
  budget : executed p.starts ≤ cfg.maxInsns.toNat

theorem Counted.step {p : Progress} (h : Counted cfg icountStart p) (timeout begin_ : UInt64)
    (hused : p.icount - icountStart < cfg.maxInsns) :
    Counted cfg icountStart (d.startOnce rax c memHook timeout
      (cfg.maxInsns - (p.icount - icountStart)) begin_ p) := by
  have hmax := cfg.maxInsns.toNat_lt
  have hle := rax.executed_le c memHook ⟨{ p.hooks with summaryResume := false }, p.guest⟩ begin_
    d.sentinel timeout (cfg.maxInsns - (p.icount - icountStart))
  rw [UInt64.lt_iff_toNat_lt] at hused
  rw [UInt64.le_iff_toNat_le, UInt64.toNat_sub_of_le _ _ (UInt64.le_iff_toNat_le.2 hused.le),
    h.icount] at hle
  rw [h.icount] at hused
  have hsum : executed (d.startOnce rax c memHook timeout
      (cfg.maxInsns - (p.icount - icountStart)) begin_ p).starts =
      executed p.starts + (rax.emuStart c memHook ⟨{ p.hooks with summaryResume := false }, p.guest⟩
        begin_ d.sentinel timeout (cfg.maxInsns - (p.icount - icountStart))).executed.toNat := by
    unfold executed startOnce
    dsimp only
    rw [List.map_append, List.sum_append]
    simp
  refine ⟨?_, by omega⟩
  rw [hsum]
  show (p.icount + _ - icountStart).toNat = _
  rw [add_sub_right_comm, UInt64.toNat_add, h.icount]
  exact Nat.mod_eq_of_lt (by omega)

/-! ### Places -/

/-- The first start begins at the entry, and every other one where the modelled call that ended the
start before it has returned to. -/
structure Chained (d : EmuDriver) (entry : UInt64) (starts : List StartRecord) : Prop where
  first : ∀ r, starts.head? = some r → r.begin_ = entry
  next : ∀ a b, (a, b) ∈ neighbours starts → a.start.ok = true ∧ a.start.pcReadable = true ∧
    d.params.regs.pc.map a.start.guest.regs = some b.begin_

/-- The next start fits behind the others. -/
def Follows (d : EmuDriver) (entry begin_ : UInt64) (starts : List StartRecord) : Prop :=
  match starts.getLast? with
  | none => begin_ = entry
  | some last => last.start.ok = true ∧ last.start.pcReadable = true ∧
    d.params.regs.pc.map last.start.guest.regs = some begin_

theorem Chained.concat {entry : UInt64} {starts : List StartRecord} (h : d.Chained entry starts)
    {r : StartRecord} (hr : d.Follows entry r.begin_ starts) : d.Chained entry (starts ++ [r]) := by
  unfold Follows at hr
  refine ⟨?_, ?_⟩
  · intro first hfirst
    cases starts with
    | nil =>
      obtain rfl := Option.some.inj hfirst
      exact hr
    | cons a starts => exact h.first first hfirst
  · intro a b hab
    rw [neighbours_concat, List.mem_append] at hab
    rcases hab with hab | hab
    · exact h.next a b hab
    · rw [Option.mem_toList, Option.map_eq_some_iff] at hab
      obtain ⟨last, hlast, heq⟩ := hab
      obtain ⟨rfl, rfl⟩ := Prod.mk.inj heq
      rw [hlast] at hr
      exact hr

theorem nextBegin_eq_some {p : Progress} {next : UInt64} (h : d.nextBegin p = some next) :
    ∃ last, p.starts.getLast? = some last ∧ last.start.ok = true ∧ last.start.pcReadable = true ∧
      p.hooks.summaryResume = true ∧ d.params.regs.pc.map last.start.guest.regs = some next := by
  obtain ⟨last, hlast, h⟩ := Option.bind_eq_some_iff.1 h
  rw [Option.ite_none_left_eq_some] at h
  obtain ⟨hends, h⟩ := h
  simp only [not_or, Bool.not_eq_false] at hends
  exact ⟨last, hlast, hends.1, hends.2.2, hends.2.1, h⟩

theorem chained_resume {entry : UInt64} {turns k : ℕ} {p : Progress} (hp : p.starts = []) :
    d.Chained entry (d.resume rax cfg c memHook clock icountStart turns k entry p).starts := by
  refine resume_rule (P := fun begin_ p => d.Chained entry p.starts ∧
    d.Follows entry begin_ p.starts) (Q := fun p => d.Chained entry p.starts)
    (fun _ _ h => h.1) ?_ ?_
  · rintro begin_ p timeout ⟨hchained, hfollows⟩ - p'
    have hp' : d.Chained entry p'.starts := hchained.concat hfollows
    refine ⟨hp', fun next hnext => ⟨hp', ?_⟩⟩
    obtain ⟨last, hlast, hok, hreadable, -, hpc⟩ := nextBegin_eq_some hnext
    unfold Follows
    rw [hlast]
    exact ⟨hok, hreadable, hpc⟩
  · rw [hp]
    exact ⟨⟨by simp, by simp [neighbours]⟩, rfl⟩

/-! ### The log -/

/-- All the hook calls of the starts. -/
def allCalls (starts : List StartRecord) : List HookCall := starts.flatMap fun r => r.start.calls

/-- The starts so far have one log. -/
def Logged (c : HookCtx) (p : Progress) : Prop :=
  ∃ log : Log, c.Logs 0 [] (allCalls p.starts) log ∧ Chronicle c p.hooks log ∧ Behind 0 p.hooks log

theorem Logged.step {p : Progress} (h : Logged c p) (timeout count begin_ : UInt64) :
    Logged c (d.startOnce rax c memHook timeout count begin_ p) := by
  obtain ⟨log, hlogs, hc, hb⟩ := h
  -- forgetting the flag of the last modelled call changes no record
  have hc' : Chronicle c { p.hooks with summaryResume := false } log := hc.congr rfl
  have hb' : Behind 0 { p.hooks with summaryResume := false } log :=
    ⟨hb.hasPrev, hb.prev, hb.lastPc⟩
  obtain ⟨rest, hrest, hc'', hb''⟩ := hc'.hooks _ hb'
  refine ⟨log ++ rest, ?_, hc'', hb''⟩
  unfold allCalls startOnce
  rw [List.flatMap_append, List.flatMap_singleton]
  exact hlogs.append hrest

end Resume

/-! ## What a run is -/

/-- Entering a function does not touch the records. -/
def SameHooks (s s' : Machine) : Prop := s'.hooks = s.hooks

instance : IsPreorder Machine SameHooks where
  refl _ := rfl
  trans _ _ _ hst htu := Eq.trans htu hst

section Enter

variable (c : HookCtx)

theorem keeps_writeRegisters (writes : List RegisterWrite) :
    Keeps SameHooks (writeRegisters c writes) := by
  induction writes with
  | nil => exact keeps_pure ()
  | cons w writes ih => exact Keeps.bind (keeps_primitive fun _ => rfl) fun _ => ih

theorem keeps_writeStack (writes : List StackWrite) : Keeps SameHooks (writeStack writes) := by
  induction writes with
  | nil => exact keeps_pure ()
  | cons w writes ih => exact Keeps.bind (keeps_primitive fun _ => rfl) fun _ => ih

theorem keeps_writeRole (role : Option Reg) (value : UInt64) :
    Keeps SameHooks (writeRole c role value) := by
  cases role with
  | none => exact keeps_pure ()
  | some reg => exact keeps_primitive fun _ => rfl

theorem keeps_placeReturn : Keeps SameHooks (d.placeReturn c) := by
  unfold placeReturn
  cases d.params.regs.lr with
  | none => exact keeps_primitive fun _ => rfl
  | some link => exact keeps_primitive fun _ => rfl

theorem keeps_placeInput (input : Option RunInput) : Keeps SameHooks (d.placeInput c input) := by
  cases input with
  | none => exact keeps_pure ()
  | some input =>
    exact Keeps.bind (keeps_require _) fun _ => Keeps.bind (keeps_writeRegisters c _) fun _ =>
      keeps_writeStack _

theorem keeps_enter : Keeps SameHooks (d.enter c req) := by
  have hseeds : Keeps SameHooks (d.placeSeeds c req) := by
    unfold placeSeeds
    split_ifs
    · exact keeps_writeRegisters c _
    · exact keeps_pure ()
  exact Keeps.bind (Keeps.bind (keeps_writeRole c _ _) fun _ => Keeps.bind (keeps_writeRole c _ _)
    fun _ => d.keeps_placeReturn c) fun _ => Keeps.bind hseeds fun _ => d.keeps_placeInput c _

theorem keeps_rpc : Keeps SameHooks rpc.attempt := Keeps.attempt (keeps_primitive fun _ => rfl)

theorem keeps_launch : Keeps SameHooks (d.launch rax cfg req) := by
  refine Keeps.bind (keeps_primitive fun _ => rfl) fun _ => ?_
  refine Keeps.bind (d.keeps_enter req _) fun _ => ?_
  refine Keeps.bind keeps_rpc fun _ => ?_
  refine Keeps.bind ?_ fun _ => Keeps.bind keeps_rpc fun _ =>
    Keeps.bind (keeps_require _) fun _ => keeps_pure _
  unfold addMemHook
  split_ifs
  · exact keeps_rpc
  · exact keeps_pure none

end Enter

section Finish

theorem returns_attempt {α : Type} (p : RaxProc α) : Returns p.attempt := by
  intro s script
  rw [run_attempt]
  exact Option.some_ne_none _

theorem returns_finalSp (returned : Bool) : Returns (d.finalSp returned) := by
  unfold finalSp readSp
  split_ifs
  · cases d.params.regs.sp with
    | none => exact returns_pure _
    | some spReg => exact returns_attempt _
  · exact returns_pure _

/-- The outcome is always made, with the instructions of the run. -/
theorem outcomeOf_run (lastExit : Option RaxExit) (count : UInt64) (s : Machine)
    (script : List Outcome) : ∃ outcome s' rest,
      (d.outcomeOf lastExit count).run s script = (some outcome, s', rest) ∧
        outcome.instructionCount = count := by
  have hreturns : Returns (d.outcomeOf lastExit count) := by
    refine Returns.bind (returns_attempt _) fun _ => ?_
    refine Returns.bind (fun s script => by rw [run_get]; exact Option.some_ne_none _) fun _ => ?_
    exact Returns.bind (d.returns_finalSp _) fun _ => returns_pure _
  rcases hrun : (d.outcomeOf lastExit count).run s script with ⟨_ | outcome, s', rest⟩
  · exact absurd (by rw [hrun]) (hreturns s script)
  · refine ⟨outcome, s', rest, rfl, ?_⟩
    obtain ⟨valid, t, mid, -, h⟩ := run_bind_eq_some.1 hrun
    obtain ⟨hooks, t, mid, -, h⟩ := run_bind_eq_some.1 h
    obtain ⟨spFinal, t, mid, -, h⟩ := run_bind_eq_some.1 h
    obtain ⟨rfl, -⟩ : _ = outcome ∧ _ := by simpa using h
    rfl

/-- The pieces that are read back are of the run, and within the budget. -/
theorem captureFinalWrites_run (readable : Bool) (maxRuntimeBytes : UInt64) (runId : UInt32)
    (seed : UInt64) (out : Runtime.EmuEvents) (s : Machine) (script : List Outcome) :
    ∃ l s' rest,
      (captureFinalWrites readable maxRuntimeBytes runId seed 0 out).run s script =
        (some { out with finalWrites := out.finalWrites ++ l }, s', rest) ∧
      capturedLength l ≤ maxRuntimeBytes.toNat ∧ ∀ b ∈ l, b.runId = runId ∧ b.seed = seed := by
  unfold captureFinalWrites
  split_ifs
  · exact ⟨[], s, script, by rw [List.append_nil]; rfl, Nat.zero_le _, by simp⟩
  · obtain ⟨l, s', rest, hrun, hcaptured⟩ := @captureLoop_captured runId seed
      (mergedRanges runId (out.data.drop 0)) maxRuntimeBytes s script fun r => mergedRanges_lt
    rw [run_bind_of_returned hrun]
    refine ⟨l, s', rest, rfl, hcaptured.total, fun b hb => ?_⟩
    obtain ⟨r, -, hcaptures⟩ := exists_source hcaptured.sources b hb
    exact ⟨hcaptures.runId, hcaptures.seed⟩

/-- A run that has been launched always leaves its record. -/
theorem finish_run (readable : Bool) (icountStart : UInt64) (p : Progress) (s : Machine)
    (script : List Outcome) : ∃ r s' rest,
      (d.finish cfg req readable icountStart p).run s script = (some r, s', rest) ∧
        r.hooks = p.hooks ∧ r.starts = p.starts ∧
        r.outcome.instructionCount = p.icount - icountStart ∧
        capturedLength r.finalWrites ≤ cfg.maxRuntimeBytes.toNat ∧
        ∀ b ∈ r.finalWrites, b.runId = req.effectiveRun ∧ b.seed = req.effectiveSeed := by
  obtain ⟨outcome, t, mid, houtcome, hcount⟩ :=
    d.outcomeOf_run p.lastExit (p.icount - icountStart) s script
  obtain ⟨l, s', rest, hcapture, htotal, hof⟩ := captureFinalWrites_run readable cfg.maxRuntimeBytes
    req.effectiveRun req.effectiveSeed { data := p.hooks.data, edges := p.hooks.edges } t mid
  unfold finish
  rw [run_bind_of_returned houtcome, run_bind_of_returned hcapture]
  exact ⟨_, s', rest, rfl, rfl, rfl, hcount, htotal, hof⟩

end Finish

/-- What a run leaves: at most 257 starts that follow each other through modelled calls, within one
budget of instructions, and the records of one log, all of the run and all within their caps. -/
structure Recorded (r : RunRecord) : Prop where
  starts : r.starts.length ≤ 257
  chained : d.Chained req.entry r.starts
  instructionCount : r.outcome.instructionCount.toNat = executed r.starts
  budget : executed r.starts ≤ cfg.maxInsns.toNat
  logged : ∃ log : Log, (d.context cfg req).Logs 0 [] (allCalls r.starts) log ∧
    Chronicle (d.context cfg req) r.hooks log
  finalWrites : ∀ b ∈ r.finalWrites, b.runId = req.effectiveRun ∧ b.seed = req.effectiveSeed
  runtimeBytes : capturedLength r.finalWrites ≤ cfg.maxRuntimeBytes.toNat

variable {d rax cfg req}

/-- Every list of a record is within the cap of the run. -/
theorem Recorded.capped {r : RunRecord} (h : d.Recorded cfg req r) :
    r.hooks.data.length ≤ cfg.maxInsns.toNat ∧ r.hooks.edges.length ≤ cfg.maxInsns.toNat ∧
      r.hooks.execution.length ≤ cfg.maxInsns.toNat ∧
      r.hooks.states.length ≤ min cfg.maxInsns.toNat 65536 ∧
      r.hooks.execPcs.length ≤ cfg.maxInsns.toNat := by
  obtain ⟨log, -, hc⟩ := h.logged
  refine ⟨hc.capped, ?_, ?_, ?_, ?_⟩
  · rw [hc.edges]
    exact List.length_take_le _ _
  · rw [hc.execution]
    exact List.length_take_le _ _
  · have hstates := congrArg List.length hc.states
    rw [List.length_map, List.length_map, List.length_take] at hstates
    exact hstates.le.trans (Nat.min_le_left _ _)
  · rw [← List.length_reverse, hc.execPcs]
    split_ifs
    · exact List.length_take_le _ _
    · exact Nat.zero_le _

theorem Recorded.ofRun {r : RunRecord} (h : d.Recorded cfg req r) :
    r.hooks.OfRun req.effectiveRun req.effectiveSeed := by
  obtain ⟨log, hlogs, hc⟩ := h.logged
  exact hc.ofRun hlogs

/-- The starts of a launched run keep to the budget and leave one log. -/
theorem emulate_spec (rax : Rax) (clock : ℕ → UInt64) (memHook : Bool) {s : Machine}
    (e : EngineState) (hs : s.hooks = (d.context cfg req).start) :
    let p := d.emulate rax cfg req clock memHook s e
    p.starts.length ≤ 257 ∧ d.Chained req.entry p.starts ∧ Counted cfg e.icount p ∧
      Logged (d.context cfg req) p := by
  have hcounted : Counted cfg e.icount
      { hooks := s.hooks, guest := s.guest, icount := e.icount, lastExit := e.lastExit } :=
    ⟨by rw [UInt64.sub_self]; rfl, Nat.zero_le _⟩
  have hlogged : Logged (d.context cfg req)
      { hooks := s.hooks, guest := s.guest, icount := e.icount, lastExit := e.lastExit } := by
    refine ⟨[], .nil, ?_, ?_⟩
    · show Chronicle _ s.hooks []
      rw [hs]
      exact chronicle_start _
    · show Behind 0 s.hooks []
      rw [hs]
      exact behind_start (d.context cfg req)
  refine ⟨?_, chained_resume rfl, ?_, ?_⟩
  · exact length_starts_resume.trans (Nat.zero_add _).le
  · exact resume_invariant (fun begin_ p timeout h => h.step timeout begin_) hcounted
  · exact resume_invariant (fun begin_ p timeout h _ => h.step timeout _ begin_) hlogged

/-- A run that is reported as run is recorded. -/
theorem recorded_of_emulateFrom {clock : ℕ → UInt64} {readable : Bool} {script : List Outcome}
    {e : EngineState} {r : RunRecord}
    (h : (d.emulateFrom rax cfg req clock readable script e).1 = some r) :
    d.Recorded cfg req r := by
  unfold emulateFrom at h
  by_cases hdiscover : d.canDiscover = false
  · rw [if_pos hdiscover] at h
    cases h
  rw [if_neg hdiscover] at h
  have hhooks := d.keeps_launch rax cfg req ⟨(d.context cfg req).start, e.guest⟩ script
  rcases hlaunch : (d.launch rax cfg req).run ⟨(d.context cfg req).start, e.guest⟩ script with
    ⟨_ | memHook, s, rest⟩ <;> rw [hlaunch] at h hhooks
  · cases h
  obtain ⟨hstarts, hchained, hcounted, log, hlogs, hc, -⟩ :=
    emulate_spec rax clock memHook e hhooks
  dsimp only at h
  generalize d.emulate rax cfg req clock memHook s e = p at hstarts hchained hcounted hlogs hc h
  obtain ⟨r', s', rest', hfinish, hrhooks, hrstarts, hrcount, hrbytes, hrwrites⟩ :=
    d.finish_run cfg req readable e.icount p ⟨p.hooks, p.guest⟩ rest
  rw [hfinish] at h
  obtain rfl := Option.some.inj h
  exact
    { starts := by rw [hrstarts]; exact hstarts
      chained := by rw [hrstarts]; exact hchained
      instructionCount := by rw [hrcount, hrstarts]; exact hcounted.icount
      budget := by rw [hrstarts]; exact hcounted.budget
      logged := ⟨log, by rw [hrstarts]; exact hlogs, by rw [hrhooks]; exact hc⟩
      finalWrites := hrwrites
      runtimeBytes := hrbytes }

/-- Two runs that differ in where the counter of the engine stands, and in what was left of an
earlier run as long as nothing has been started. -/
structure Alike (icountStart icountStart' : UInt64) (p p' : Progress) : Prop where
  hooks : p'.hooks = p.hooks
  guest : p'.guest = p.guest
  starts : p'.starts = p.starts
  used : p'.icount - icountStart' = p.icount - icountStart
  lastExit : p.starts ≠ [] → p'.lastExit = p.lastExit

section Alike

variable {c : HookCtx} {memHook : Bool} {clock : ℕ → UInt64} {i i' : UInt64} {p p' : Progress}

theorem Alike.step (h : Alike i i' p p') (d : EmuDriver) (rax : Rax) (c : HookCtx) (memHook : Bool)
    (timeout count begin_ : UInt64) :
    Alike i i' (d.startOnce rax c memHook timeout count begin_ p)
      (d.startOnce rax c memHook timeout count begin_ p') := by
  unfold startOnce
  dsimp only
  rw [h.hooks, h.guest, h.starts]
  exact ⟨rfl, rfl, rfl, by rw [add_sub_right_comm, add_sub_right_comm, h.used], fun _ => rfl⟩

theorem Alike.nextBegin_eq (h : Alike i i' p p') : d.nextBegin p' = d.nextBegin p := by
  unfold EmuDriver.nextBegin
  rw [h.starts, h.hooks]

theorem alike_resume : ∀ {turns k : ℕ} {begin_ : UInt64} {p p' : Progress}, Alike i i' p p' →
    Alike i i' (d.resume rax cfg c memHook clock i turns k begin_ p)
      (d.resume rax cfg c memHook clock i' turns k begin_ p') := by
  intro turns
  induction turns with
  | zero =>
    intro k begin_ p p' h
    exact h
  | succ turns ih =>
    intro k begin_ p p' h
    unfold resume
    dsimp only
    rw [h.used]
    split_ifs
    · exact h
    · exact h
    · have hstep := h.step d rax c memHook (timeoutTotal cfg - clock k)
        (cfg.maxInsns - (p.icount - i)) begin_
      rw [hstep.nextBegin_eq]
      generalize d.startOnce rax c memHook (timeoutTotal cfg - clock k)
        (cfg.maxInsns - (p.icount - i)) begin_ p = q at hstep ⊢
      generalize d.startOnce rax c memHook (timeoutTotal cfg - clock k)
        (cfg.maxInsns - (p.icount - i)) begin_ p' = q' at hstep ⊢
      cases d.nextBegin q with
      | none => exact hstep
      | some next => exact ih hstep

/-- The first start is made if there is a budget for it. -/
theorem starts_resume_ne_nil {turns k : ℕ} {begin_ : UInt64} {p : Progress}
    (hicount : p.icount = i) (hinsns : 0 < cfg.maxInsns) (hclock : clock k < timeoutTotal cfg) :
    (d.resume rax cfg c memHook clock i (turns + 1) k begin_ p).starts ≠ [] := by
  obtain ⟨hspent | hlate, -⟩ | ⟨-, hr | ⟨next, -, hr⟩⟩ := resume_cases turns k begin_ p
  · rw [hicount, UInt64.sub_self] at hspent
    exact absurd hinsns (UInt64.not_lt.2 hspent)
  · exact absurd hclock (UInt64.not_lt.2 hlate)
  · rw [hr]
    exact List.concat_ne_nil _ _
  · rw [hr]
    exact resume_invariant (Q := fun q => q.starts ≠ []) (fun _ _ _ _ _ => List.concat_ne_nil _ _)
      (List.concat_ne_nil _ _)

end Alike

/-- The baseline replaces whatever guest there was. -/
theorem launch_run_congr (h : HookState) (g g' : Guest) (script : List Outcome) :
    (d.launch rax cfg req).run ⟨h, g⟩ script = (d.launch rax cfg req).run ⟨h, g'⟩ script ∨
      ((d.launch rax cfg req).run ⟨h, g⟩ script).1 = none ∧
        ((d.launch rax cfg req).run ⟨h, g'⟩ script).1 = none := by
  rcases script with _ | ⟨_ | _, script⟩
  · exact Or.inl rfl
  · exact Or.inl rfl
  · exact Or.inr ⟨rfl, rfl⟩

/-- The record of a run that gets to a start does not depend on what the engine has run before: its
memory, its registers, its counter or how its last run has ended. -/
theorem emulateFrom_congr {clock : ℕ → UInt64} (hinsns : 0 < cfg.maxInsns)
    (hclock : clock 0 < timeoutTotal cfg) (readable : Bool) (script : List Outcome)
    (e e' : EngineState) :
    (d.emulateFrom rax cfg req clock readable script e').1 =
      (d.emulateFrom rax cfg req clock readable script e).1 := by
  by_cases hdiscover : d.canDiscover = false
  · unfold emulateFrom
    rw [if_pos hdiscover, if_pos hdiscover]
  have hnothing : ∀ e : EngineState,
      ((d.launch rax cfg req).run ⟨(d.context cfg req).start, e.guest⟩ script).1 = none →
        (d.emulateFrom rax cfg req clock readable script e).1 = none := by
    intro e hnone
    unfold emulateFrom
    rw [if_neg hdiscover]
    rcases hrun : (d.launch rax cfg req).run ⟨(d.context cfg req).start, e.guest⟩ script with
      ⟨_ | memHook, s, rest⟩
    · rfl
    · rw [hrun] at hnone
      cases hnone
  rcases launch_run_congr (d.context cfg req).start e.guest e'.guest script with
    heq | ⟨hnone, hnone'⟩
  · unfold emulateFrom
    rw [if_neg hdiscover, if_neg hdiscover, heq]
    rcases (d.launch rax cfg req).run ⟨(d.context cfg req).start, e'.guest⟩ script with
      ⟨_ | memHook, s, rest⟩
    · rfl
    dsimp only
    have halike : Alike e.icount e'.icount (d.emulate rax cfg req clock memHook s e)
        (d.emulate rax cfg req clock memHook s e') := by
      refine alike_resume ⟨rfl, rfl, rfl, ?_, fun h => absurd rfl h⟩
      rw [UInt64.sub_self, UInt64.sub_self]
    have hstarted : (d.emulate rax cfg req clock memHook s e).starts ≠ [] :=
      starts_resume_ne_nil rfl hinsns hclock
    have hexit := halike.lastExit hstarted
    obtain ⟨hhooks, hguest, hstarts, hused, -⟩ := halike
    unfold finish
    rw [hhooks, hguest, hstarts, hused, hexit]
  · rw [hnothing e hnone, hnothing e' hnone']

end EmuDriver

/-! ## A run of one instruction -/

/-- An engine that executes one instruction and is done. -/
def oneInsnRax : Rax where
  baseline := entryMachine.guest
  emuStart _ _ s begin_ until_ _ count :=
    { calls := [{ callback := .code begin_ 1, guest := s.guest }]
      executed := if count = 0 then 0 else 1
      ok := true
      guest := s.guest
      exit := ⟨.until_, until_⟩ }
  executed_le c memHook s begin_ until_ timeout count := by
    dsimp only
    split_ifs with hzero
    · exact UInt64.zero_le
    · rw [UInt64.le_iff_toNat_le]
      exact Nat.pos_of_ne_zero fun h => hzero (UInt64.toNat_inj.1 h)

/-- An engine that has been used before. -/
def usedEngine : EngineState where
  guest := memsetMachine.guest
  icount := ~~~0
  lastExit := some ⟨.hlt, 0x1234⟩

end Viy.Emu
