import Viy.Runtime.Patches
import Viy.Workers.MergedRuns

/-!
# Written and executed

`write_then_execute_runs` looks through the merged events of a job for runs that have written into a
range and have executed an instruction of it afterwards. It compares sequence numbers of two lists
that were merged and sorted on their own. What it finds is what the runs have done: the log of such
a run has the write, and the instruction behind it.
-/

namespace Viy.Runtime

open Wire Cxx Emu Workers

/-! ## The search -/

/-- With the instructions of the runs. -/
structure RunEvents extends EmuEvents where
  execution : List ExecPoint := []
  execPcs : Finset UInt64 := ∅

namespace Core

def rangesOverlap (left : UInt64) (leftSize : ℕ) (right : UInt64) (rightSize : ℕ) : Bool :=
  leftSize != 0 && rightSize != 0 && (checkedEnd left leftSize).any fun leftEnd =>
    (checkedEnd right rightSize).any fun rightEnd =>
      decide (left < rightEnd) && decide (right < leftEnd)

/-- The write reaches into the range. -/
def writesInto (addr : UInt64) (size : ℕ) (scope : DataScope) (access : DataAcc) : Bool :=
  access.kind == .write && access.scope == scope && access.size != 0 &&
    rangesOverlap addr size access.addr access.size.toNat

/-- The instruction of the run comes behind the access and is in the range. -/
def executedBehind (addr end_ : UInt64) (access : DataAcc) (point : ExecPoint) : Bool :=
  point.runId == access.runId && point.seed == access.seed &&
    decide (access.sequence < point.sequence) && decide (addr ≤ point.pc) &&
    decide (point.pc < end_)

def writeThenExecuteRuns (accesses : List DataAcc) (execution : List ExecPoint) (addr : UInt64)
    (size : ℕ) (scope : DataScope) : Map runKeyOrder Unit :=
  if size = 0 then Map.empty
  else
    (checkedEnd addr size).elim Map.empty fun end_ =>
      accesses.foldl (fun result access =>
        if writesInto addr size scope access && execution.any (executedBehind addr end_ access) then
          result.set ⟨access.runId, access.seed⟩ ()
        else result) Map.empty

end Core

/-! ## What it finds -/

deriving instance DecidableEq for RunKey

section Search

variable {addr : UInt64} {size : ℕ} {scope : DataScope}

theorem rangesOverlap_iff {left right : UInt64} {leftSize rightSize : ℕ} :
    Core.rangesOverlap left leftSize right rightSize = true ↔
      leftSize ≠ 0 ∧ rightSize ≠ 0 ∧ left.toNat + leftSize < 2 ^ 64 ∧
        right.toNat + rightSize < 2 ^ 64 ∧ left.toNat < right.toNat + rightSize ∧
        right.toNat < left.toNat + leftSize := by
  unfold Core.rangesOverlap
  rw [Bool.and_eq_true, Bool.and_eq_true, bne_iff_ne, bne_iff_ne, and_assoc]
  refine and_congr_right fun _ => and_congr_right fun _ => ?_
  rcases hleft : checkedEnd left leftSize with _ | leftEnd
  · have hwraps := checkedEnd_eq_none_iff.1 hleft
    exact iff_of_false (by simp) fun h => by omega
  rcases hright : checkedEnd right rightSize with _ | rightEnd
  · have hwraps := checkedEnd_eq_none_iff.1 hright
    exact iff_of_false (by simp) fun h => by omega
  · have hleftEnd := checkedEnd_eq_some_iff.1 hleft
    have hrightEnd := checkedEnd_eq_some_iff.1 hright
    have hlt := leftEnd.toNat_lt
    have hlt' := rightEnd.toNat_lt
    simp only [Option.any_some, Bool.and_eq_true, decide_eq_true_iff, UInt64.lt_iff_toNat_lt]
    omega

/-- The access is a write that reaches into the range. -/
structure WritesInto (addr : UInt64) (size : ℕ) (scope : DataScope) (d : DataAcc) : Prop where
  kind : d.kind = .write
  scope : d.scope = scope
  nonempty : d.size.toNat ≠ 0
  fits : d.addr.toNat + d.size.toNat < 2 ^ 64
  starts : d.addr.toNat < addr.toNat + size
  ends : addr.toNat < d.addr.toNat + d.size.toNat

theorem writesInto_iff (hsize : size ≠ 0) (hfits : addr.toNat + size < 2 ^ 64) {d : DataAcc} :
    Core.writesInto addr size scope d = true ↔ WritesInto addr size scope d := by
  unfold Core.writesInto
  have hzero : d.size ≠ 0 ↔ d.size.toNat ≠ 0 := not_congr UInt32.toNat_inj.symm
  simp only [Bool.and_eq_true, beq_iff_eq, bne_iff_ne, rangesOverlap_iff, hzero]
  constructor
  · rintro ⟨⟨⟨hkind, hscope⟩, hpos⟩, -, -, -, hend, hbefore, hbehind⟩
    exact ⟨hkind, hscope, hpos, hend, hbehind, hbefore⟩
  · rintro ⟨hkind, hscope, hpos, hend, hbehind, hbefore⟩
    exact ⟨⟨⟨hkind, hscope⟩, hpos⟩, hsize, hpos, hfits, hend, hbefore, hbehind⟩

theorem mem_writeThenExecuteRuns {accesses : List DataAcc} {execution : List ExecPoint}
    {k : RunKey} :
    k ∈ (Core.writeThenExecuteRuns accesses execution addr size scope).keys ↔
      size ≠ 0 ∧ addr.toNat + size < 2 ^ 64 ∧
        ∃ d ∈ accesses, WritesInto addr size scope d ∧ k = ⟨d.runId, d.seed⟩ ∧
          ∃ p ∈ execution, p.runId = d.runId ∧ p.seed = d.seed ∧ d.sequence < p.sequence ∧
            addr.toNat ≤ p.pc.toNat ∧ p.pc.toNat < addr.toNat + size := by
  have hempty : k ∉ (Map.empty : Map runKeyOrder Unit).keys := List.not_mem_nil
  unfold Core.writeThenExecuteRuns
  by_cases hsize : size = 0
  · rw [if_pos hsize]
    exact iff_of_false hempty fun h => h.1 hsize
  rw [if_neg hsize]
  rcases hend : checkedEnd addr size with _ | end_
  · have hwraps := checkedEnd_eq_none_iff.1 hend
    exact iff_of_false hempty fun h => by omega
  have hfits := checkedEnd_eq_some_iff.1 hend
  have hlt := end_.toNat_lt
  rw [Option.elim_some, and_iff_right hsize, and_iff_right (by omega)]
  rw [Map.mem_keys_foldl (P := fun d => k = ⟨d.runId, d.seed⟩ ∧
    Core.writesInto addr size scope d = true ∧
      execution.any (Core.executedBehind addr end_ d) = true)]
  · rw [or_iff_right hempty]
    refine exists_congr fun d => and_congr_right fun _ => ?_
    rw [writesInto_iff hsize (by omega), and_left_comm]
    refine and_congr_right fun _ => and_congr_right fun _ => ?_
    simp only [List.any_eq_true, Core.executedBehind, Bool.and_eq_true, beq_iff_eq,
      decide_eq_true_iff, UInt64.le_iff_toNat_le, UInt64.lt_iff_toNat_lt (b := end_), ← hfits,
      and_assoc]
  · intro m d
    by_cases hfound : (Core.writesInto addr size scope d &&
        execution.any (Core.executedBehind addr end_ d)) = true
    · rw [if_pos hfound, Map.set, Map.mem_keys_upsert, or_comm]
      rw [Bool.and_eq_true] at hfound
      rw [and_iff_left hfound]
    · rw [if_neg hfound]
      rw [Bool.and_eq_true] at hfound
      rw [or_iff_left fun h => hfound h.2]

end Search

/-! ## What the runs have done -/

/-- The log has a write into the range and, behind it, an instruction of the range. -/
def WrittenThenExecuted (c : HookCtx) (log : Log) (addr : UInt64) (size : ℕ) (scope : DataScope) :
    Prop :=
  ∃ (i j : ℕ) (d : DataAcc) (insn : Insn), i < j ∧ log[i]? = some (LogEntry.access d) ∧
    WritesInto addr size scope d ∧ log[j]? = some (LogEntry.insn insn) ∧
    c.image.lo ≤ insn.addr ∧ insn.addr < c.image.hi ∧ addr.toNat ≤ insn.addr.toNat ∧
    insn.addr.toNat < addr.toNat + size

section Logs

variable {c : HookCtx} {h : HookState} {log : Log} {addr : UInt64} {size : ℕ} {scope : DataScope}

theorem writtenThenExecuted_of_events (hc : Chronicle c h log) (hlength : log.length < 2 ^ 64)
    {d : DataAcc} {p : ExecPoint} (hd : d ∈ h.data) (hp : p ∈ h.execution)
    (hwrites : WritesInto addr size scope d) (hbehind : d.sequence < p.sequence)
    (hlo : addr.toNat ≤ p.pc.toNat) (hhi : p.pc.toNat < addr.toNat + size) :
    WrittenThenExecuted c log addr size scope := by
  obtain ⟨i, hi, hat, hstamp⟩ := hc.data_position hd
  rw [hc.execution] at hp
  obtain ⟨⟨insn, j⟩, hstep, hof⟩ := List.mem_filterMap.1 (List.mem_of_mem_take hp)
  obtain ⟨himageLo, himageHi, rfl⟩ := pointOf_eq_some_iff.1 hof
  have hj := Log.mem_steps.1 hstep
  have hjlt := (List.getElem?_eq_some_iff.1 hj).1
  refine ⟨i, j, d, insn, ?_, hat, hwrites, hj, himageLo, himageHi, hlo, hhi⟩
  rw [hstamp, UInt64.lt_iff_toNat_lt, toNat_ofNat_u64 (by omega), toNat_ofNat_u64 (by omega)]
    at hbehind
  exact hbehind

theorem events_of_writtenThenExecuted (hc : Chronicle c h log) (hlength : log.length < 2 ^ 64)
    (hcap : h.execution.length < c.executionCap)
    (hfound : WrittenThenExecuted c log addr size scope) :
    ∃ d ∈ h.data, ∃ p ∈ h.execution, WritesInto addr size scope d ∧ d.sequence < p.sequence ∧
      addr.toNat ≤ p.pc.toNat ∧ p.pc.toNat < addr.toNat + size := by
  obtain ⟨i, j, d, insn, hij, hi, hwrites, hj, himageLo, himageHi, hlo, hhi⟩ := hfound
  have hjlt := (List.getElem?_eq_some_iff.1 hj).1
  refine ⟨d, ?_, ⟨insn.addr, .ofNat j, c.runId, c.seed⟩, ?_, hwrites, ?_, hlo, hhi⟩
  · rw [hc.data, Log.mem_accesses]
    exact ⟨i, hi⟩
  · have hall : h.execution = log.steps.filterMap c.pointOf := by
      rw [hc.execution]
      rw [hc.execution, List.length_take] at hcap
      exact List.take_of_length_le (by omega)
    rw [hall]
    exact List.mem_filterMap.2 ⟨(insn, j), Log.mem_steps.2 hj,
      pointOf_eq_some_iff.2 ⟨himageLo, himageHi, rfl⟩⟩
  · rw [hc.stamped i d hi]
    exact ofNat_lt_ofNat hij (by omega)

end Logs

end Viy.Runtime

/-! ## Merged events -/

namespace Viy.Workers

open Wire Cxx Emu Viy.Runtime

namespace RaxIds

variable (ids : RaxIds)

def dataOf (a : Events.DataAcc) : DataAcc :=
  { from_ := a.from_, addr := a.addr, value := a.value, size := a.size, kind := ids.kindOf a.kind
    scope := a.scope, sequence := a.sequence, runId := a.runId, seed := a.seed }

/-- Merged events as enrichment reads them. -/
def view (e : Events.EmuEvents) : RunEvents where
  data := e.data.map ids.dataOf
  edges := e.edges
  finalWrites := e.finalWrites
  execution := e.execution
  execPcs := e.execPcs

theorem dataOf_dataAcc (d : DataAcc) : ids.dataOf (ids.dataAcc d) = d := by
  unfold dataOf dataAcc
  rw [ids.kindOf_kind]

end RaxIds

namespace RaxExecutor

variable {I A : Type} {job : ExecJob I} {w : Circumstances}

/-- The log of a run in a result. -/
structure RunLog (x : RaxExecutor I A) (job : ExecJob I) (record : EmuDriver.RunRecord)
    (c : HookCtx) (log : Log) : Prop where
  context : ∃ driver req, x.driver = some driver ∧ c = driver.context job.config req
  logs : c.Logs 0 [] (EmuDriver.allCalls record.starts) log
  chronicle : Chronicle c record.hooks log

theorem RunLog.length_lt {x : RaxExecutor I A} {record : EmuDriver.RunRecord} {c : HookCtx}
    {log : Log} (h : x.RunLog job record c log)
    (hroom : (EmuDriver.allCalls record.starts).length + job.config.maxInsns.toNat < 2 ^ 64) :
    log.length < 2 ^ 64 := by
  obtain ⟨driver, req, -, rfl⟩ := h.context
  exact log_fits h.logs h.chronicle hroom

end RaxExecutor

/-- An engine for a function that overwrites the instruction it executes next. -/
def patchingRax : Rax where
  baseline := Abi.entryMachine.guest
  emuStart _ _ s begin_ until_ _ count :=
    { calls := [{ callback := .code begin_ 4, guest := s.guest },
        { callback := .mem .write (begin_ + 4) 1 0x90, guest := s.guest },
        { callback := .code (begin_ + 4) 1, guest := s.guest }]
      executed := if count < 2 then 0 else 2
      ok := true
      guest := s.guest
      exit := ⟨.until_, until_⟩ }
  executed_le c memHook s begin_ until_ timeout count := by
    dsimp only
    split_ifs with hless
    · exact UInt64.zero_le
    · exact UInt64.not_lt.1 hless

def patchingExecutor : RaxExecutor Unit Unit :=
  { oneInsnExecutor with
    driver := some { sysvDriver with strictPerms := false }
    rax := patchingRax }

end Viy.Workers
