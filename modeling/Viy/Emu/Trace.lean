import Viy.Emu.Permissions

/-!
# The log of a run

The hooks record a run in several lists: instructions, transfers, register states, accesses. Behind
them is one chronological log, of the instructions the run has entered and the accesses that were
recorded. Every list is a part of the log up to its cap, and the sequence number of an event is its
position. So the numbers order the events of a run as they have happened, over all the lists.
-/

namespace Viy.Emu

open Wire Fault Proc

/-! ## Logs -/

/-- An instruction as the code hook is told of it. -/
structure Insn where
  addr : UInt64
  size : UInt32

inductive LogEntry where
  | insn (i : Insn)
  | access (d : DataAcc)

def LogEntry.toInsn : LogEntry × ℕ → Option (Insn × ℕ)
  | (.insn i, k) => some (i, k)
  | (.access _, _) => none

def LogEntry.toAccess : LogEntry → Option DataAcc
  | .access d => some d
  | .insn _ => none

abbrev Log := List LogEntry

namespace Log

/-- The instructions with their positions. -/
def steps (log : Log) : List (Insn × ℕ) := log.zipIdx.filterMap LogEntry.toInsn

def accesses (log : Log) : List DataAcc := log.filterMap LogEntry.toAccess

@[simp] theorem steps_nil : steps [] = [] := rfl

@[simp] theorem accesses_nil : accesses [] = [] := rfl

@[simp] theorem steps_concat_insn (log : Log) (i : Insn) :
    steps (log ++ [.insn i]) = steps log ++ [(i, log.length)] := by
  simp [steps, List.zipIdx_append, LogEntry.toInsn]

@[simp] theorem steps_concat_access (log : Log) (d : DataAcc) :
    steps (log ++ [.access d]) = steps log := by
  simp [steps, List.zipIdx_append, LogEntry.toInsn]

@[simp] theorem accesses_concat_insn (log : Log) (i : Insn) :
    accesses (log ++ [.insn i]) = accesses log := by
  simp [accesses, LogEntry.toAccess]

@[simp] theorem accesses_concat_access (log : Log) (d : DataAcc) :
    accesses (log ++ [.access d]) = accesses log ++ [d] := by
  simp [accesses, LogEntry.toAccess]

/-- The address that an access is attributed to. -/
def lastPc (log : Log) (initial : UInt64) : UInt64 :=
  (log.steps.getLast?).elim initial fun step => step.1.addr

end Log

/-- Neighbours in a list. -/
def neighbours {α : Type} (l : List α) : List (α × α) := l.zip l.tail

theorem neighbours_concat {α : Type} (l : List α) (a : α) :
    neighbours (l ++ [a]) = neighbours l ++ (l.getLast?.map fun last => (last, a)).toList := by
  induction l with
  | nil => rfl
  | cons b l ih =>
    cases l with
    | nil => rfl
    | cons b' l =>
      have hlast : (b :: b' :: l).getLast? = (b' :: l).getLast? := List.getLast?_cons_cons
      rw [hlast]
      exact congrArg (List.cons (b, b')) ih

/-- Appending to what is taken of a list, as long as there is room. -/
theorem take_concat {α : Type} (l : List α) (a : α) (n : ℕ) :
    (l ++ [a]).take n = if (l.take n).length < n then l.take n ++ [a] else l.take n := by
  rw [List.length_take]
  rcases Nat.lt_or_ge l.length n with h | h
  · rw [if_pos (by omega), List.take_of_length_le (by simp; omega),
      List.take_of_length_le (by omega)]
  · rw [if_neg (by omega), List.take_append_of_le_length h]

/-! ## What a log records -/

namespace HookCtx

variable (c : HookCtx)

/-- The execution point of a logged instruction, if it is in the image. -/
def pointOf : Insn × ℕ → Option ExecPoint
  | (i, k) =>
    if c.image.lo ≤ i.addr ∧ i.addr < c.image.hi then
      some { pc := i.addr, sequence := .ofNat k, runId := c.runId, seed := c.seed }
    else none

/-- The edge of two instructions that follow each other: it leaves the function under emulation for
a place in the image that is not the fall-through. -/
def edgeOf : (Insn × ℕ) × (Insn × ℕ) → Option ExecEdge
  | ((i, _), (j, k)) =>
    if c.image.lo ≤ j.addr ∧ j.addr < c.image.hi ∧ c.inFunction i.addr = true ∧
        c.fallthrough { prevPc := i.addr, prevSize := i.size } ≠ some j.addr then
      some { from_ := i.addr, to_ := j.addr, runId := c.runId, seed := c.seed
             kind := ((c.decodeAt i.addr).map (·.2)).getD .unknown, sequence := .ofNat k }
    else none

/-- The state point of an edge, without its registers. -/
def siteOf (e : ExecEdge) : StatePoint :=
  { source := e.from_, pc := e.to_, regs := [], runId := c.runId, seed := c.seed }

/-- The transfers of a log. -/
def transfers (log : Log) : List ExecEdge := (neighbours log.steps).filterMap c.edgeOf

/-- The executed addresses of the function, each where it comes first. -/
def visited (log : Log) : List UInt64 :=
  ((log.steps.map fun step => step.1.addr).filter fun pc => c.inFunction pc).eraseDups

end HookCtx

def StatePoint.site (p : StatePoint) : StatePoint := { p with regs := [] }

/-- The state of the hooks has recorded the log: every list is its part of it, up to the cap, and
an event has its position for a sequence number. -/
structure Chronicle (c : HookCtx) (h : HookState) (log : Log) : Prop where
  sequence : h.sequence = .ofNat log.length
  data : h.data = log.accesses
  stamped : ∀ (k : ℕ) (d : DataAcc), log[k]? = some (LogEntry.access d) → d.sequence = .ofNat k
  capped : h.data.length ≤ c.dataCap
  execution : h.execution = (log.steps.filterMap c.pointOf).take c.executionCap
  edges : h.edges = (c.transfers log).take c.edgeCap
  states : h.states.map StatePoint.site = (h.edges.take c.stateCap).map c.siteOf
  execPcs : h.execPcs.reverse = if c.recordPcs then (c.visited log).take c.edgeCap else []

/-- The state of the hooks is behind the last instruction of the log. -/
structure Behind (initial : UInt64) (h : HookState) (log : Log) : Prop where
  hasPrev : h.hasPrev = true ↔ log.steps ≠ []
  prev : ∀ i k, log.steps.getLast? = some (i, k) → h.prevPc = i.addr ∧ h.prevSize = i.size
  lastPc : h.lastPc = log.lastPc initial

/-! ## What a call adds to the log -/

namespace HookCtx

variable (c : HookCtx)

/-- Strict mode does not let the instruction run. -/
def Denies (addr : UInt64) (size : UInt32) : Prop :=
  c.strictPermissions = true ∧
    c.image.accessAllowed addr (if size = 0 then 1 else size) .exec = false

/-- An access with its source, recorded in the run. -/
structure Attributed (source : UInt64) (d : DataAcc) : Prop where
  source : d.from_ = source
  inFunction : c.inFunction d.from_ = true
  scope : c.accessScope d.addr d.size = some d.scope
  runId : d.runId = c.runId
  seed : d.seed = c.seed

/-- What one call of a hook adds. A summary is attributed to the instruction in front of it. -/
inductive Contributes (initial : UInt64) (log : Log) : Callback → Log → Prop
  | denied {addr : UInt64} {size : UInt32} (h : c.Denies addr size) :
      Contributes initial log (.code addr size) []
  | insn {addr : UInt64} {size : UInt32} {l : List DataAcc} (h : ¬ c.Denies addr size)
      (hl : ∀ d ∈ l, c.Attributed (log.lastPc addr) d) :
      Contributes initial log (.code addr size) (.insn ⟨addr, size⟩ :: l.map .access)
  | silent {kind : MemKind} {addr value : UInt64} {size : UInt32} :
      Contributes initial log (.mem kind addr size value) []
  | access {kind : MemKind} {addr value : UInt64} {size : UInt32} {d : DataAcc}
      (h : c.Attributed (log.lastPc initial) d) (hkind : d.kind = kind) (haddr : d.addr = addr)
      (hsize : d.size = size) (hvalue : d.value = value) :
      Contributes initial log (.mem kind addr size value) [.access d]

/-- A run of the hooks from one log to another. -/
inductive Logs (initial : UInt64) : Log → List HookCall → Log → Prop
  | nil {log : Log} : Logs initial log [] log
  | cons {log part log' : Log} {call : HookCall} {calls : List HookCall}
      (hcall : c.Contributes initial log call.callback part)
      (hcalls : Logs initial (log ++ part) calls log') : Logs initial log (call :: calls) log'

end HookCtx

/-! ## Recording an access -/

section Access

variable {c : HookCtx} {initial : UInt64} {h : HookState} {log : Log}

theorem Chronicle.access (hc : Chronicle c h log) {d : DataAcc}
    (hsequence : d.sequence = h.sequence) (hroom : h.data.length < c.dataCap) :
    Chronicle c { h with data := h.data ++ [d], sequence := h.sequence + 1 }
      (log ++ [.access d]) where
  sequence := by
    rw [hc.sequence, List.length_append, List.length_singleton, UInt64.ofNat_add]
    rfl
  data := by rw [Log.accesses_concat_access, hc.data]
  stamped k d' hd' := by
    rcases Nat.lt_trichotomy k log.length with hlt | rfl | hgt
    · rw [List.getElem?_append_left hlt] at hd'
      exact hc.stamped k d' hd'
    · rw [List.getElem?_append_right (Nat.le_refl _), Nat.sub_self] at hd'
      obtain rfl : d = d' := by simpa using hd'
      rw [hsequence, hc.sequence]
    · rw [List.getElem?_eq_none (by simp; omega)] at hd'
      cases hd'
  capped := by
    rw [List.length_append, List.length_singleton]
    exact hroom
  execution := by rw [Log.steps_concat_access, hc.execution]
  edges := by
    unfold HookCtx.transfers
    rw [Log.steps_concat_access]
    exact hc.edges
  states := hc.states
  execPcs := by
    unfold HookCtx.visited
    rw [Log.steps_concat_access]
    exact hc.execPcs

/-- An access is recorded at the end of the log, or not at all. -/
theorem Chronicle.recordAccess (hc : Chronicle c h log) (source : UInt64) (a : Access) :
    ∃ l : List DataAcc,
      Chronicle c (c.recordAccess source a.kind a.address a.value a.size h)
        (log ++ l.map .access) ∧ l.length ≤ 1 ∧
      ∀ d ∈ l, c.Attributed source d ∧ d.kind = a.kind ∧ d.addr = a.address ∧ d.size = a.size ∧
        d.value = a.value := by
  unfold HookCtx.recordAccess
  cases hscope : c.accessScope a.address a.size with
  | none => exact ⟨[], by simpa using hc, Nat.zero_le 1, by simp⟩
  | some scope =>
    by_cases hroom : c.inFunction source = true ∧ h.data.length < c.dataCap
    · simp only [if_pos hroom]
      refine ⟨[_], hc.access rfl hroom.2, Nat.le_refl 1, ?_⟩
      intro d hd
      obtain rfl := List.mem_singleton.1 hd
      exact ⟨⟨rfl, hroom.1, hscope, rfl, rfl⟩, rfl, rfl, rfl, rfl⟩
    · simp only [if_neg hroom]
      exact ⟨[], by simpa using hc, Nat.zero_le 1, by simp⟩

/-- The accesses of a summary follow each other. -/
theorem Chronicle.foldl_record (l : List Access) : ∀ {h : HookState} {log : Log},
    Chronicle c h log → ∃ m : List DataAcc,
      Chronicle c (l.foldl c.record h) (log ++ m.map .access) ∧
      ∀ d ∈ m, c.Attributed h.summarySource d := by
  induction l with
  | nil =>
    intro h log hc
    exact ⟨[], by simpa using hc, by simp⟩
  | cons a l ih =>
    intro h log hc
    obtain ⟨m, hm, -, hattributed⟩ := hc.recordAccess h.summarySource a
    obtain ⟨m', hm', hattributed'⟩ := ih hm
    have hsource : (c.record h a).summarySource = h.summarySource := by
      rw [HookCtx.record_eq]
    refine ⟨m ++ m', ?_, ?_⟩
    · rw [List.map_append, ← List.append_assoc]
      exact hm'
    · intro d hd
      rcases List.mem_append.1 hd with hd | hd
      · exact (hattributed d hd).1
      · exact hsource ▸ hattributed' d hd

end Access

/-! ## Summaries -/

/-- The state without what only the resumption and the scratch heap use. -/
def HookState.core (h : HookState) : HookState :=
  { h with
    heapCursor := 0, permissionViolation := false, terminatedProcess := false
    summaryResume := false, summarizedCalls := 0 }

theorem chronicle_core_iff {c : HookCtx} {h : HookState} {log : Log} :
    Chronicle c h.core log ↔ Chronicle c h log := by
  constructor <;>
    rintro ⟨hsequence, hdata, hstamped, hcapped, hexecution, hedges, hstates, hpcs⟩ <;>
    exact ⟨hsequence, hdata, hstamped, hcapped, hexecution, hedges, hstates, hpcs⟩

theorem Chronicle.congr {c : HookCtx} {h h' : HookState} {log : Log} (hc : Chronicle c h log)
    (hcore : h'.core = h.core) : Chronicle c h' log := by
  rw [← chronicle_core_iff, hcore]
  exact chronicle_core_iff.2 hc

theorem HookState.prev_of_core {h h' : HookState} (hcore : h'.core = h.core) :
    h'.hasPrev = h.hasPrev ∧ h'.prevPc = h.prevPc ∧ h'.prevSize = h.prevSize ∧
      h'.lastPc = h.lastPc := by
  have hhas : h'.core.hasPrev = h.core.hasPrev := by rw [hcore]
  have hpc : h'.core.prevPc = h.core.prevPc := by rw [hcore]
  have hsize : h'.core.prevSize = h.core.prevSize := by rw [hcore]
  have hlast : h'.core.lastPc = h.core.lastPc := by rw [hcore]
  exact ⟨hhas, hpc, hsize, hlast⟩

namespace HookCtx

variable {c : HookCtx} {s : Machine} {script : List Outcome}

/-- Whatever becomes of a summary, it has recorded some accesses. -/
theorem applySummary_core (kind : SummaryKind) :
    ∃ l : List Access, ((c.applySummary kind).run s script).2.1.hooks.core =
      (l.foldl c.record s.hooks).core := by
  rcases hrun : (c.applySummary kind).run s script with ⟨_ | u, s', rest⟩
  · obtain ⟨hkind, hfailed⟩ := applySummary_failed hrun
    rcases runSummary_failed hkind hfailed with hbody | ⟨e, mid, hmodels, -, hreturn⟩
    · obtain ⟨reads, rfl⟩ := (atomic_summaryBody kind).related hbody
      exact ⟨[], rfl⟩
    · refine ⟨e.accesses, ?_⟩
      show s'.hooks.core = _
      rw [(summaryReturn_failed hreturn).1]
      rfl
  · by_cases hkind : kind = .terminate
    · subst hkind
      obtain ⟨rfl, -⟩ : _ = s' ∧ script = rest := by
        simpa [applySummary, terminateProcess, countCall, emuStop, run_bind] using hrun
      exact ⟨[], rfl⟩
    · rw [applySummary_of_ne hkind] at hrun
      obtain ⟨value, t, mid, happlied, h⟩ := run_bind_eq_some.1 hrun
      obtain ⟨rfl, -⟩ : t = s' ∧ mid = rest := by simpa using h
      obtain ⟨result, t', mid, hbody, h⟩ := run_bind_eq_some.1 happlied
      obtain ⟨e, -, rfl, rfl⟩ := summaryBody_returned hkind hbody
      obtain ⟨_, t', mid, hreturn, h⟩ := run_bind_eq_some.1 h
      obtain ⟨-, -, -, hhooks⟩ := summaryReturn_returned hreturn
      obtain ⟨-, rfl, -⟩ : e.result = value ∧ _ = t ∧ mid = _ := by
        simpa [countCall, run_bind] using h
      refine ⟨e.accesses, ?_⟩
      show ({ t'.hooks with summarizedCalls := _ } : HookState).core = _
      rw [hhooks]
      rfl

theorem callSummary_core (addr : UInt64) (script : List Outcome) :
    ∃ l : List Access, ((c.callSummary addr).run s script).2.1.hooks.core =
      (l.foldl c.record s.hooks).core := by
  unfold callSummary
  cases c.findSummary addr with
  | none => exact ⟨[], rfl⟩
  | some summary => exact applySummary_core summary.kind

/-! ## Entering an instruction -/

/-- The edge to the next instruction, if it is recorded. -/
def edgeTo (c : HookCtx) (h : HookState) (addr eventSequence : UInt64) : Option ExecEdge :=
  if h.hasPrev = true ∧ c.image.lo ≤ addr ∧ addr < c.image.hi ∧ c.inFunction h.prevPc = true ∧
      h.edges.length < c.edgeCap ∧ c.fallthrough h ≠ some addr then
    some { from_ := h.prevPc, to_ := addr, runId := c.runId, seed := c.seed
           kind := ((c.decodeAt h.prevPc).map (·.2)).getD .unknown, sequence := eventSequence }
  else none

theorem captureValues_run (regs : List Reg) : ∀ script : List Outcome,
    ∃ values rest, (c.captureValues regs).run s script = (some values, s, rest) := by
  induction regs with
  | nil =>
    intro script
    exact ⟨[], script, rfl⟩
  | cons reg regs ih =>
    intro script
    -- a register that cannot be read is passed over
    have hkept : ((regReadU64 reg).run s script).2.1 = s := by
      rcases hrun : (regReadU64 reg).run s script with ⟨_ | v, t, mid⟩
      · exact primitive_failed hrun
      · exact (primitive_returned hrun).2.symm
    obtain ⟨values, rest, hvalues⟩ := ih ((regReadU64 reg).run s script).2.2
    rcases hrun : (regReadU64 reg).run s script with ⟨read, t, mid⟩
    rw [hrun] at hkept hvalues
    obtain rfl : t = s := hkept
    unfold captureValues
    rw [run_bind_of_returned (by rw [run_attempt, hrun]), run_bind_of_returned hvalues]
    cases read with
    | none => exact ⟨values, rest, rfl⟩
    | some v => exact ⟨_, rest, rfl⟩

theorem captureState_run (addr : UInt64) (script : List Outcome) :
    ∃ (l : List StatePoint) (rest : List Outcome), (c.captureState addr).run s script =
        (some (), { s with hooks := { s.hooks with states := s.hooks.states ++ l } }, rest) ∧
      l.map StatePoint.site = if s.hooks.states.length < c.stateCap then
        [⟨s.hooks.prevPc, addr, [], c.runId, c.seed⟩] else [] := by
  unfold captureState
  rw [run_bind_of_returned (run_get _)]
  by_cases hroom : s.hooks.states.length < c.stateCap
  · rw [if_pos hroom, if_pos hroom]
    obtain ⟨values, rest, hvalues⟩ := captureValues_run (c := c) (s := s) c.captureRegs script
    rw [run_bind_of_returned hvalues]
    exact ⟨[_], rest, rfl, rfl⟩
  · rw [if_neg hroom, if_neg hroom]
    exact ⟨[], script, by simp, rfl⟩

/-- With the edge the state is captured, while there is room. -/
theorem recordTransfer_run (addr eventSequence : UInt64) (script : List Outcome) :
    ∃ (l : List StatePoint) (rest : List Outcome),
      (c.recordTransfer addr eventSequence).run s script =
        (some (), { s with hooks := { s.hooks with
          edges := s.hooks.edges ++ (c.edgeTo s.hooks addr eventSequence).toList
          states := s.hooks.states ++ l } }, rest) ∧
      l.map StatePoint.site = ((c.edgeTo s.hooks addr eventSequence).toList.take
        (c.stateCap - s.hooks.states.length)).map c.siteOf := by
  unfold recordTransfer edgeTo
  rw [run_bind_of_returned (run_get _)]
  split_ifs with hcond
  · rw [run_bind_of_returned (run_modify _)]
    obtain ⟨l, rest, hrun, hl⟩ := captureState_run (c := c) (s :=
      { s with hooks := { s.hooks with edges := s.hooks.edges ++
        [{ from_ := s.hooks.prevPc, to_ := addr, runId := c.runId, seed := c.seed
           kind := ((c.decodeAt s.hooks.prevPc).map (·.2)).getD .unknown
           sequence := eventSequence }] } }) addr script
    refine ⟨l, rest, hrun, hl.trans ?_⟩
    by_cases hroom : s.hooks.states.length < c.stateCap
    · rw [if_pos hroom, List.take_of_length_le]
      · rfl
      · rw [Option.toList_some, List.length_singleton]
        omega
    · rw [if_neg hroom, show c.stateCap - s.hooks.states.length = 0 by omega]
      rfl
  · exact ⟨[], script, by simp, by simp⟩

/-- The state of the hooks when the instruction is noted. -/
def noted (c : HookCtx) (addr : UInt64) (l : List StatePoint) (h : HookState) : HookState :=
  { c.recordExecution addr h.sequence { h with
      sequence := h.sequence + 1
      edges := h.edges ++ (c.edgeTo h addr h.sequence).toList
      states := h.states ++ l } with
    summarySource := if h.hasPrev then h.prevPc else addr }

theorem noted_eq (addr : UInt64) (l : List StatePoint) (h : HookState) : c.noted addr l h =
    { h with
      sequence := h.sequence + 1
      edges := h.edges ++ (c.edgeTo h addr h.sequence).toList
      states := h.states ++ l
      execution :=
        if c.image.lo ≤ addr ∧ addr < c.image.hi ∧ h.execution.length < c.executionCap then
          h.execution ++ [{ pc := addr, sequence := h.sequence, runId := c.runId, seed := c.seed }]
        else h.execution
      execPcs :=
        if c.recordPcs = true ∧ c.inFunction addr = true ∧ h.execPcs.length < c.edgeCap then
          h.execPcs.insert addr
        else h.execPcs
      summarySource := if h.hasPrev then h.prevPc else addr } := by
  unfold noted recordExecution
  dsimp only
  split_ifs <;> rfl

theorem noteInstruction_run (addr : UInt64) (script : List Outcome) :
    ∃ (l : List StatePoint) (rest : List Outcome), (c.noteInstruction addr).run s script =
        (some (), { s with hooks := c.noted addr l s.hooks }, rest) ∧
      l.map StatePoint.site = ((c.edgeTo s.hooks addr s.hooks.sequence).toList.take
        (c.stateCap - s.hooks.states.length)).map c.siteOf := by
  obtain ⟨l, rest, hrun, hl⟩ := recordTransfer_run (c := c)
    (s := { s with hooks := { s.hooks with sequence := s.hooks.sequence + 1 } }) addr
    s.hooks.sequence script
  refine ⟨l, rest, ?_, hl⟩
  unfold noteInstruction
  rw [run_bind_of_returned (run_get _), run_bind_of_returned (run_modify _),
    run_bind_of_returned hrun, run_bind_of_returned (run_modify _), run_modify]
  unfold noted recordExecution
  dsimp only
  split_ifs <;> rfl

end HookCtx

section Insn

variable {c : HookCtx} {initial addr : UInt64} {h : HookState} {log : Log}

theorem Behind.hasPrev_eq (hb : Behind initial h log) : h.hasPrev = log.steps.getLast?.isSome := by
  rw [Bool.eq_iff_iff, hb.hasPrev, Option.isSome_iff_ne_none, ne_eq, ne_eq,
    List.getLast?_eq_none_iff]

theorem Behind.fallthrough_eq (hb : Behind initial h log) {i : Insn} {k : ℕ}
    (hlast : log.steps.getLast? = some (i, k)) :
    c.fallthrough h = c.fallthrough { prevPc := i.addr, prevSize := i.size } := by
  obtain ⟨hpc, hsize⟩ := hb.prev i k hlast
  unfold HookCtx.fallthrough
  rw [hpc, hsize]

/-- The edge is that of the last two instructions of the log. -/
theorem Chronicle.edgeTo_toList (hc : Chronicle c h log) (hb : Behind initial h log)
    (size : UInt32) :
    h.edges ++ (c.edgeTo h addr h.sequence).toList =
      (c.transfers (log ++ [.insn ⟨addr, size⟩])).take c.edgeCap := by
  unfold HookCtx.transfers
  rw [Log.steps_concat_insn, neighbours_concat, List.filterMap_append, ← HookCtx.transfers]
  cases hlast : log.steps.getLast? with
  | none =>
    have hnot : h.hasPrev = false := by rw [hb.hasPrev_eq, hlast]; rfl
    rw [HookCtx.edgeTo, if_neg fun hcond => Bool.noConfusion (hnot.symm.trans hcond.1)]
    simpa using hc.edges
  | some last =>
    obtain ⟨i, k⟩ := last
    have hprev : h.hasPrev = true := by rw [hb.hasPrev_eq, hlast]; rfl
    have hedge : ∀ hroom : h.edges.length < c.edgeCap, c.edgeTo h addr h.sequence =
        c.edgeOf ((i, k), (⟨addr, size⟩, log.length)) := by
      intro hroom
      unfold HookCtx.edgeTo HookCtx.edgeOf
      rw [hb.fallthrough_eq hlast, (hb.prev i k hlast).1, hc.sequence]
      simp [hprev, hroom]
    simp only [Option.map_some, Option.toList_some]
    rw [hc.edges] at hedge ⊢
    cases hof : c.edgeOf ((i, k), (⟨addr, size⟩, log.length)) with
    | none =>
      have hnone : c.edgeTo h addr h.sequence = none := by
        by_cases hroom : ((c.transfers log).take c.edgeCap).length < c.edgeCap
        · rw [hedge hroom, hof]
        · rw [← hc.edges] at hroom
          exact if_neg fun hcond => hroom hcond.2.2.2.2.1
      rw [hnone, List.filterMap_cons_none hof]
      simp
    | some e =>
      rw [List.filterMap_cons_some hof, List.filterMap_nil, take_concat]
      split_ifs with hroom
      · rw [hedge hroom, hof]
        rfl
      · rw [← hc.edges] at hroom ⊢
        rw [HookCtx.edgeTo, if_neg fun hcond => hroom hcond.2.2.2.2.1]
        simp

/-- States are captured at the first edges. -/
theorem Chronicle.states_concat (hc : Chronicle c h log) {o : Option ExecEdge}
    {l : List StatePoint}
    (hl : l.map StatePoint.site = (o.toList.take (c.stateCap - h.states.length)).map c.siteOf) :
    (h.states ++ l).map StatePoint.site = ((h.edges ++ o.toList).take c.stateCap).map c.siteOf := by
  have hlength : h.states.length = min c.stateCap h.edges.length := by
    have hmaps := congrArg List.length hc.states
    rwa [List.length_map, List.length_map, List.length_take] at hmaps
  rw [List.map_append, hc.states, hl, ← List.map_append, List.take_append]
  congr 2
  rcases Nat.le_total c.stateCap h.edges.length with hle | hle
  · rw [hlength, Nat.min_eq_left hle, Nat.sub_self, Nat.sub_eq_zero_of_le hle]
  · rw [hlength, Nat.min_eq_right hle]

theorem Chronicle.execution_concat (hc : Chronicle c h log) (size : UInt32) :
    (((log ++ [.insn ⟨addr, size⟩] : Log)).steps.filterMap c.pointOf).take c.executionCap =
      if c.image.lo ≤ addr ∧ addr < c.image.hi ∧ h.execution.length < c.executionCap then
        h.execution ++ [{ pc := addr, sequence := h.sequence, runId := c.runId, seed := c.seed }]
      else h.execution := by
  rw [Log.steps_concat_insn, List.filterMap_append, hc.execution, hc.sequence]
  by_cases hin : c.image.lo ≤ addr ∧ addr < c.image.hi
  · have hpoint : c.pointOf (⟨addr, size⟩, log.length) = some _ := if_pos hin
    rw [List.filterMap_cons_some hpoint, List.filterMap_nil, take_concat]
    simp [hin]
  · have hpoint : c.pointOf (⟨addr, size⟩, log.length) = none := if_neg hin
    rw [List.filterMap_cons_none hpoint, List.filterMap_nil, List.append_nil,
      if_neg fun hcond => hin ⟨hcond.1, hcond.2.1⟩]

theorem visited_concat (size : UInt32) : c.visited (log ++ [.insn ⟨addr, size⟩]) =
    if c.inFunction addr = true ∧ addr ∉ c.visited log then c.visited log ++ [addr]
    else c.visited log := by
  unfold HookCtx.visited
  rw [Log.steps_concat_insn, List.map_append, List.filter_append, List.eraseDups_append]
  by_cases hin : c.inFunction addr = true
  · by_cases hmem : addr ∈ (log.steps.map fun step => step.1.addr).filter fun pc => c.inFunction pc
    · simp [hin, hmem, List.removeAll]
    · simp [hin, hmem, List.removeAll, List.eraseDups_cons]
  · simp [hin]

theorem Chronicle.execPcs_concat (hc : Chronicle c h log) (size : UInt32) :
    (if c.recordPcs = true ∧ c.inFunction addr = true ∧ h.execPcs.length < c.edgeCap then
        h.execPcs.insert addr else h.execPcs).reverse =
      if c.recordPcs then (c.visited (log ++ [.insn ⟨addr, size⟩])).take c.edgeCap else [] := by
  have hpcs := hc.execPcs
  cases hrecord : c.recordPcs with
  | false =>
    rw [hrecord] at hpcs
    rw [if_neg fun hcond => Bool.noConfusion hcond.1]
    exact hpcs
  | true =>
    rw [hrecord] at hpcs
    simp only [if_true] at hpcs
    have hlength : h.execPcs.length = min c.edgeCap (c.visited log).length := by
      rw [← List.length_reverse, hpcs, List.length_take]
    rw [if_pos rfl, visited_concat]
    by_cases hroom : h.execPcs.length < c.edgeCap
    · -- everything visited so far is there
      have hall : h.execPcs.reverse = c.visited log := by
        rw [hpcs, List.take_of_length_le (by omega)]
      have hmem : addr ∈ c.visited log ↔ addr ∈ h.execPcs := by rw [← hall, List.mem_reverse]
      by_cases hin : c.inFunction addr = true
      · rw [if_pos ⟨rfl, hin, hroom⟩]
        by_cases hold : addr ∈ h.execPcs
        · rw [List.insert_of_mem hold, if_neg fun hcond => hcond.2 (hmem.2 hold), hpcs]
        · rw [List.insert_of_not_mem hold, if_pos ⟨hin, fun hcond => hold (hmem.1 hcond)⟩,
            List.reverse_cons, hall, List.take_of_length_le]
          rw [← hall]
          simpa using hroom
      · rw [if_neg fun hcond => hin hcond.2.1, if_neg fun hcond => hin hcond.1, hpcs]
    · rw [if_neg fun hcond => hroom hcond.2.2, hpcs]
      split_ifs
      · rw [List.take_append_of_le_length (by omega)]
      · rfl

theorem Chronicle.noted (hc : Chronicle c h log) (hb : Behind initial h log) (size : UInt32)
    {l : List StatePoint} (hl : l.map StatePoint.site =
      ((c.edgeTo h addr h.sequence).toList.take (c.stateCap - h.states.length)).map c.siteOf) :
    Chronicle c (c.noted addr l h) (log ++ [.insn ⟨addr, size⟩]) := by
  rw [HookCtx.noted_eq]
  refine ⟨?_, ?_, ?_, ?_, ?_, ?_, ?_, ?_⟩
  · rw [hc.sequence, List.length_append, List.length_singleton, UInt64.ofNat_add]
    rfl
  · rw [Log.accesses_concat_insn, hc.data]
  · intro k d hd
    rcases Nat.lt_or_ge k log.length with hlt | hge
    · rw [List.getElem?_append_left hlt] at hd
      exact hc.stamped k d hd
    · rw [List.getElem?_append_right hge] at hd
      have hentry := List.mem_of_getElem? hd
      simp at hentry
  · exact hc.capped
  · rw [hc.execution_concat]
  · rw [hc.edgeTo_toList hb]
  · rw [hc.states_concat hl]
  · rw [← hc.execPcs_concat]

theorem Chronicle.moved (hc : Chronicle c h log) (size : UInt32) :
    Chronicle c { h with prevPc := addr, prevSize := size, hasPrev := true, lastPc := addr }
      log := by
  obtain ⟨hsequence, hdata, hstamped, hcapped, hexecution, hedges, hstates, hpcs⟩ := hc
  exact ⟨hsequence, hdata, hstamped, hcapped, hexecution, hedges, hstates, hpcs⟩

theorem steps_map_access (log : Log) (l : List DataAcc) :
    Log.steps (log ++ l.map .access) = log.steps := by
  induction l generalizing log with
  | nil => simp
  | cons d l ih =>
    rw [List.map_cons, List.append_cons, ih, Log.steps_concat_access]

/-- Accesses do not move the state. -/
theorem Behind.accesses (hb : Behind initial h log) (l : List DataAcc) {h' : HookState}
    (hprev : h'.hasPrev = h.hasPrev ∧ h'.prevPc = h.prevPc ∧ h'.prevSize = h.prevSize ∧
      h'.lastPc = h.lastPc) : Behind initial h' (log ++ l.map .access) := by
  obtain ⟨hhas, hpc, hsize, hlast⟩ := hprev
  refine ⟨?_, ?_, ?_⟩
  · rw [steps_map_access, hhas]
    exact hb.hasPrev
  · rw [steps_map_access, hpc, hsize]
    exact hb.prev
  · rw [hlast, hb.lastPc]
    unfold Log.lastPc
    rw [steps_map_access]

theorem behind_insn {size : UInt32} (l : List DataAcc) {h' : HookState} (hhas : h'.hasPrev = true)
    (hpc : h'.prevPc = addr) (hsize : h'.prevSize = size) (hlast : h'.lastPc = addr) :
    Behind initial h' (log ++ .insn ⟨addr, size⟩ :: l.map .access) := by
  have hsteps : Log.steps (log ++ .insn ⟨addr, size⟩ :: l.map .access) =
      log.steps ++ [(⟨addr, size⟩, log.length)] := by
    rw [List.append_cons, steps_map_access, Log.steps_concat_insn]
  refine ⟨iff_of_true hhas (by rw [hsteps]; simp), ?_, ?_⟩
  · intro i k hi
    rw [hsteps, List.getLast?_concat] at hi
    obtain ⟨rfl, -⟩ : (⟨addr, size⟩ : Insn) = i ∧ log.length = k := by simpa using hi
    exact ⟨hpc, hsize⟩
  · unfold Log.lastPc
    rw [hsteps, List.getLast?_concat, hlast]
    rfl

end Insn

/-! ## Calls of the hooks -/

/-- What strict mode does to stop a run is not recorded. -/
def SameCore (s s' : Machine) : Prop := s'.hooks.core = s.hooks.core

instance : IsPreorder Machine SameCore where
  refl _ := rfl
  trans _ _ _ hst htu := Eq.trans htu hst

namespace HookCtx

variable {c : HookCtx} {s : Machine} {script : List Outcome}

theorem keeps_violate_core : Keeps SameCore violate :=
  Keeps.bind (keeps_modify fun _ => rfl) fun _ => keeps_modify fun _ => rfl

theorem keeps_restoreSnapshotBytes_core (address : UInt64) (size : UInt32) :
    Keeps SameCore (c.restoreSnapshotBytes address size) := by
  unfold restoreSnapshotBytes
  split_ifs
  · exact keeps_pure ()
  cases c.snapshotBytes address size with
  | none => exact keeps_pure ()
  | some bytes =>
    refine Keeps.bind (Keeps.attempt ?_) fun _ => keeps_pure ()
    exact keeps_primitive fun s => rfl

theorem callSummary_returns (addr : UInt64) : Returns (c.callSummary addr) := by
  unfold callSummary
  cases c.findSummary addr with
  | none => exact returns_pure ()
  | some summary =>
    intro s script
    rw [run_bind_of_returned run_attempt]
    nofun

/-- The code hook: the instruction is noted, a summary at it records accesses, and the state moves
behind the instruction. -/
theorem codeTr_core {addr : UInt64} {size : UInt32} (h : ¬ c.Denies addr size)
    (script : List Outcome) :
    ∃ (l : List StatePoint) (m : List Access), ((c.codeTr addr size).run s script).2.1.hooks.core =
        ({ m.foldl c.record (c.noted addr l s.hooks) with
          prevPc := addr, prevSize := size, hasPrev := true, lastPc := addr } : HookState).core ∧
      l.map StatePoint.site = ((c.edgeTo s.hooks addr s.hooks.sequence).toList.take
        (c.stateCap - s.hooks.states.length)).map c.siteOf := by
  obtain ⟨l, mid, hnote, hl⟩ := noteInstruction_run (c := c) (s := s) addr script
  obtain ⟨m, hcore⟩ := callSummary_core (c := c)
    (s := { s with hooks := c.noted addr l s.hooks }) addr mid
  refine ⟨l, m, ?_, hl⟩
  have hcode : c.codeTr addr size = c.noteInstruction addr >>= fun _ => c.callSummary addr >>=
      fun _ => Proc.modify fun s => { s with hooks := { s.hooks with
        prevPc := addr, prevSize := size, hasPrev := true, lastPc := addr } } := if_neg h
  rw [hcode, run_bind_of_returned hnote]
  rcases hsummary : (c.callSummary addr).run { s with hooks := c.noted addr l s.hooks } mid with
    ⟨_ | u, t, rest⟩
  · exact absurd (by rw [hsummary]) (callSummary_returns (c := c) addr _ mid)
  · rw [hsummary] at hcore
    rw [run_bind_of_returned hsummary, run_modify]
    show ({ t.hooks.core with
      prevPc := addr, prevSize := size, hasPrev := true, lastPc := addr } : HookState) = _
    rw [hcore]
    rfl

end HookCtx

section Hooks

variable {c : HookCtx} {initial : UInt64} {h : HookState} {log : Log}

/-- **A call of the code hook.** -/
theorem Chronicle.codeTr (hc : Chronicle c h log) (hb : Behind initial h log) (addr : UInt64)
    (size : UInt32) (guest : Guest) (script : List Outcome) :
    ∃ part : Log, c.Contributes initial log (.code addr size) part ∧
      Chronicle c ((c.codeTr addr size).run ⟨h, guest⟩ script).2.1.hooks (log ++ part) ∧
      Behind initial ((c.codeTr addr size).run ⟨h, guest⟩ script).2.1.hooks (log ++ part) := by
  by_cases hdenied : c.Denies addr size
  · have hcode : c.codeTr addr size = HookCtx.violate := if_pos hdenied
    rw [hcode]
    refine ⟨[], .denied hdenied, ?_, hb.accesses [] ⟨rfl, rfl, rfl, rfl⟩⟩
    rw [List.append_nil]
    exact hc.congr rfl
  · obtain ⟨l, m, hcore, hl⟩ := HookCtx.codeTr_core (s := ⟨h, guest⟩) hdenied script
    obtain ⟨accesses, hrecorded, hattributed⟩ := (hc.noted hb size hl).foldl_record m
    have hsource : (c.noted addr l h).summarySource = log.lastPc addr := by
      show (if h.hasPrev then h.prevPc else addr) = _
      unfold Log.lastPc
      rw [hb.hasPrev_eq]
      cases hlast : log.steps.getLast? with
      | none => rfl
      | some last => exact (hb.prev _ _ hlast).1
    refine ⟨.insn ⟨addr, size⟩ :: accesses.map .access, .insn hdenied ?_, ?_, ?_⟩
    · exact hsource ▸ hattributed
    · rw [List.append_cons]
      exact (hrecorded.moved size).congr hcore
    · obtain ⟨hhas, hpc, hsize, hlast⟩ := HookState.prev_of_core hcore
      exact behind_insn accesses hhas hpc hsize hlast

/-- **A call of the memory hook.** -/
theorem Chronicle.memTr (hc : Chronicle c h log) (hb : Behind initial h log) (kind : MemKind)
    (addr : UInt64) (size : UInt32) (value : UInt64) (guest : Guest) (script : List Outcome) :
    ∃ part : Log, c.Contributes initial log (.mem kind addr size value) part ∧
      Chronicle c ((c.memTr kind addr size value).run ⟨h, guest⟩ script).2.1.hooks (log ++ part) ∧
      Behind initial ((c.memTr kind addr size value).run ⟨h, guest⟩ script).2.1.hooks
        (log ++ part) := by
  -- nothing is recorded where the core stays
  have hsilent : ∀ h' : HookState, h'.core = h.core → ∃ part : Log,
      c.Contributes initial log (.mem kind addr size value) part ∧
        Chronicle c h' (log ++ part) ∧ Behind initial h' (log ++ part) := by
    intro h' hcore
    refine ⟨[], .silent, ?_, hb.accesses [] (HookState.prev_of_core hcore)⟩
    rw [List.append_nil]
    exact hc.congr hcore
  unfold HookCtx.memTr
  by_cases hfetch : kind = .fetch
  · rw [if_pos hfetch]
    exact hsilent _ rfl
  rw [if_neg hfetch]
  by_cases hdenied : c.strictPermissions = true ∧
      c.image.accessAllowed addr size kind.required = false
  · rw [if_pos hdenied]
    refine hsilent _ ?_
    have hrolled : Keeps SameCore (do
        if kind = .write then c.restoreSnapshotBytes addr size
        HookCtx.violate) := by
      split_ifs
      · exact Keeps.bind (HookCtx.keeps_restoreSnapshotBytes_core addr size) fun _ =>
          HookCtx.keeps_violate_core
      · exact HookCtx.keeps_violate_core
    exact hrolled ⟨h, guest⟩ script
  rw [if_neg hdenied]
  by_cases hrecord : c.recordMemory = true
  · rw [if_pos hrecord]
    obtain ⟨l, hrecorded, hlength, hl⟩ := hc.recordAccess h.lastPc ⟨kind, addr, value, size⟩
    have hprev : ∀ a : Access, (c.recordAccess h.lastPc a.kind a.address a.value a.size h).hasPrev =
        h.hasPrev ∧ (c.recordAccess h.lastPc a.kind a.address a.value a.size h).prevPc = h.prevPc ∧
        (c.recordAccess h.lastPc a.kind a.address a.value a.size h).prevSize = h.prevSize ∧
        (c.recordAccess h.lastPc a.kind a.address a.value a.size h).lastPc = h.lastPc := by
      intro a
      unfold HookCtx.recordAccess
      cases c.accessScope a.address a.size with
      | none => exact ⟨rfl, rfl, rfl, rfl⟩
      | some scope =>
        dsimp only
        split_ifs <;> exact ⟨rfl, rfl, rfl, rfl⟩
    refine ⟨l.map .access, ?_, hrecorded, hb.accesses l (hprev ⟨kind, addr, value, size⟩)⟩
    cases l with
    | nil => exact .silent
    | cons d l =>
      obtain rfl : l = [] := List.length_eq_zero_iff.1 (by simpa using hlength)
      obtain ⟨hattributed, hkind, haddr, hsize, hvalue⟩ := hl d List.mem_cons_self
      exact .access (hb.lastPc ▸ hattributed) hkind haddr hsize hvalue
  · rw [if_neg hrecord]
    exact hsilent _ rfl

theorem Chronicle.hook (hc : Chronicle c h log) (hb : Behind initial h log) (call : HookCall) :
    ∃ part : Log, c.Contributes initial log call.callback part ∧
      Chronicle c (c.hook h call) (log ++ part) ∧ Behind initial (c.hook h call) (log ++ part) := by
  obtain ⟨callback, guest, script⟩ := call
  cases callback with
  | code addr size => exact hc.codeTr hb addr size guest script
  | mem kind addr size value => exact hc.memTr hb kind addr size value guest script

/-- A run extends the log. -/
theorem Chronicle.hooks (calls : List HookCall) : ∀ {h : HookState} {log : Log},
    Chronicle c h log → Behind initial h log → ∃ rest : Log,
      c.Logs initial log calls (log ++ rest) ∧ Chronicle c (c.hooks h calls) (log ++ rest) ∧
        Behind initial (c.hooks h calls) (log ++ rest) := by
  induction calls with
  | nil =>
    intro h log hc hb
    rw [← List.append_nil log] at hc hb
    exact ⟨[], by rw [List.append_nil]; exact .nil, hc, hb⟩
  | cons call calls ih =>
    intro h log hc hb
    obtain ⟨part, hpart, hc', hb'⟩ := hc.hook hb call
    obtain ⟨rest, hrest, hc'', hb''⟩ := ih hc' hb'
    rw [List.append_assoc] at hrest hc'' hb''
    exact ⟨part ++ rest, .cons hpart hrest, hc'', hb''⟩

end Hooks

/-- The state of the hooks when a run starts. -/
def HookCtx.start (c : HookCtx) : HookState := { heapCursor := c.heapLo }

theorem chronicle_start (c : HookCtx) : Chronicle c c.start [] where
  sequence := rfl
  data := rfl
  stamped k d hd := by simp at hd
  capped := Nat.zero_le _
  execution := by simp [HookCtx.start]
  edges := by simp [HookCtx.start, HookCtx.transfers, neighbours]
  states := by simp [HookCtx.start]
  execPcs := by simp [HookCtx.start, HookCtx.visited]

theorem behind_start (c : HookCtx) : Behind 0 c.start [] where
  hasPrev := by simp [HookCtx.start]
  prev i k h := by simp at h
  lastPc := rfl

/-- **The log of a run.** Whatever the guest does and whichever primitives fail, the hooks leave the
records of one chronological log: every accepted instruction is in it once, followed by the accesses
that the hooks have recorded for it; transfers, states, execution points, visited addresses and
accesses are read off it, each up to its cap; and an event has its position for a sequence
number. -/
theorem run_is_logged (c : HookCtx) (calls : List HookCall) :
    ∃ log : Log, c.Logs 0 [] calls log ∧ Chronicle c (c.hooks c.start calls) log := by
  obtain ⟨log, hlogs, hc, -⟩ := (chronicle_start c).hooks calls (behind_start c)
  exact ⟨log, hlogs, hc⟩

end Viy.Emu
