import Viy.Emu.Machine

/-!
# The hooks of the emulation driver

A code hook runs before every instruction, a memory hook after every access. At the entry of a
function with a known summary the code hook does the function's work itself and returns to the
caller. Driver code that returns `false` stops where it is, with what it has done up to there.
-/

namespace Viy.Emu

open Wire Fault ProgramImage

/-- The permission an access needs. -/
def MemKind.required (kind : MemKind) : SegPerm := if kind = .write then .write else .read

namespace HookCtx

variable (c : HookCtx)

def inFunction (ea : UInt64) : Bool :=
  match c.func with
  | some f => f.contains ea
  | none => decide (c.flo ≤ ea) && decide (ea < c.fhi)

/-! ## Recording accesses -/

end HookCtx

def containsRange (lo hi address size : UInt64) : Bool :=
  decide (size ≠ 0) && decide (lo ≤ hi) && decide (lo ≤ address) &&
    (checkedAdd address size).any fun end_ => decide (end_ ≤ hi)

namespace HookCtx

variable (c : HookCtx)

/-- The scope of an access, `none` if it is not to be recorded. -/
def accessScope (address : UInt64) (size : UInt32) : Option DataScope :=
  if containsRange c.image.lo c.image.hi address size.toUInt64 then some .image
  else if containsRange c.heapLo c.heapHi address size.toUInt64 then some .heap
  else if containsRange c.stackLo c.stackHi address size.toUInt64 then some .stack
  else none

/-- The event of an access by the instruction at `source`. -/
def dataAcc (source : UInt64) (kind : MemKind) (address value : UInt64) (size : UInt32)
    (scope : DataScope) (sequence : UInt64) : DataAcc :=
  { from_ := source, addr := address, value := value, size := size, kind := kind, scope := scope
    sequence := sequence, runId := c.runId, seed := c.seed }

/-- Both hooks record an access that has a scope and a source in the function, up to the cap. -/
def recordAccess (source : UInt64) (kind : MemKind) (address value : UInt64) (size : UInt32)
    (s : HookState) : HookState :=
  match c.accessScope address size with
  | some scope =>
    if c.inFunction source = true ∧ s.data.length < c.dataCap then
      { s with
        data := s.data ++ [c.dataAcc source kind address value size scope s.sequence]
        sequence := s.sequence + 1 }
    else s
  | none => s

def recordSummaryAccess (kind : MemKind) (address value : UInt64) (size : UInt32) :
    RaxProc Unit :=
  Proc.modify fun s =>
    { s with hooks := c.recordAccess s.hooks.summarySource kind address value size s.hooks }

/-! ## Reading the guest -/

def findSummary (address : UInt64) : Option EmuCallSummary :=
  let first := Cxx.bisect (fun i => c.summaries[i]?.any fun s => decide (s.address < address))
    c.summaries.length 0 c.summaries.length
  c.summaries[first]?.filter fun s => s.address == address

def readScalar (address : UInt64) (size : ℕ) : RaxProc UInt64 := do
  Proc.require (decide (size ≠ 0) && decide (size ≤ 8))
  let bytes ← memRead address size
  pure (gather c.bigEndian bytes)

/-- The arguments on the stack are behind the return slot and the home area. -/
def argumentArea (sp : UInt64) : Option UInt64 := do
  let returnSlot : UInt64 := if c.regs.lr = none then .ofNat c.ptr else 0
  let address ← checkedAdd sp returnSlot
  checkedAdd address c.stackArgumentOffset.toUInt64

def stackArgAddress (sp : UInt64) (stackIndex : ℕ) : Option UInt64 :=
  if stackIndex > (2 ^ 64 - 1) / c.ptr then none
  else (c.argumentArea sp).bind fun address => checkedAdd address (.ofNat (stackIndex * c.ptr))

def summaryArg (index : ℕ) : RaxProc UInt64 :=
  match c.argRegs[index]? with
  | some reg => regReadU64 reg
  | none => do
    let spReg ← Proc.lift c.regs.sp
    let sp ← regReadU64 spReg
    let address ← Proc.lift (c.stackArgAddress sp (index - c.argRegs.length))
    c.readScalar address c.ptr

def scalarFromMemory (bytes : Bytes) : UInt64 := gather c.bigEndian (bytes.take 8)

end HookCtx

/-- The byte at an index of a string. -/
def readByteAt (address : UInt64) (i : ℕ) : RaxProc UInt8 := do
  let current ← Proc.lift (checkedAdd address (.ofNat i))
  let ch ← memRead current 1
  pure (ch.headD 0)

/-- One turn of a loop over a string: the next byte is appended, and a NUL ends it. -/
def readTurn (address : UInt64) (out : Bytes) : RaxProc (Bytes ⊕ Bytes) := do
  let ch ← readByteAt address out.length
  pure (if ch = 0 then .inr (out ++ [ch]) else .inl (out ++ [ch]))

/-- `read_c_string`: the string with its NUL. -/
def readCString (address : UInt64) : RaxProc Bytes :=
  Proc.loop (readTurn address) (fun _ => Proc.stop) 65536 []

/-- The loop of `STRNCPY`: bytes up to a NUL, or `n` of them. -/
def readUpTo (address : UInt64) (n : ℕ) : RaxProc Bytes :=
  Proc.loop (readTurn address) pure n []

namespace HookCtx

variable (c : HookCtx)

/-! ## Call summaries -/

/-- The address behind the call, from the link register or popped off the stack. -/
def returnTarget : RaxProc UInt64 :=
  match c.regs.lr with
  | some link => regReadU64 link
  | none => do
    let spReg ← Proc.lift c.regs.sp
    let sp ← regReadU64 spReg
    let target ← c.readScalar sp c.ptr
    let nextSp ← Proc.lift (checkedAdd sp (.ofNat c.ptr))
    regWriteU64 c spReg nextSp
    pure target

def writeRet (value : UInt64) : RaxProc Unit :=
  match c.regs.ret with
  | some ret => regWriteU64 c ret value
  | none => pure ()

def summaryReturn (value : UInt64) : RaxProc Unit := do
  c.writeRet value
  let target ← c.returnTarget
  let pcReg ← Proc.lift c.regs.pc
  regWriteU64 c pcReg target
  Proc.modify fun s => { s with hooks := { s.hooks with summaryResume := true } }
  emuStop

def maxModelBytes : UInt64 := (1 : UInt64) <<< 20

/-- `int cmp` of two strings with their NULs. -/
def compareStrings (lhs rhs : Bytes) : Int32 :=
  let n := min lhs.length rhs.length
  let cmp := c.memcmp.run (lhs.take n) (rhs.take n)
  if cmp = 0 then
    if lhs.length < rhs.length then -1 else if lhs.length > rhs.length then 1 else 0
  else cmp

/-- `MEMCPY` and `MEMMOVE` -/
def memmoveSummary : RaxProc UInt64 := do
  let a0 ← c.summaryArg 0
  let a1 ← c.summaryArg 1
  let a2 ← c.summaryArg 2
  Proc.require (decide (a2 ≤ maxModelBytes))
  if a2 ≠ 0 then do
    let bytes ← memRead a1 a2.toNat
    memWrite a0 bytes
    c.recordSummaryAccess .read a1 (c.scalarFromMemory bytes) a2.toUInt32
    c.recordSummaryAccess .write a0 (c.scalarFromMemory bytes) a2.toUInt32
  pure a0

def memsetSummary : RaxProc UInt64 := do
  let a0 ← c.summaryArg 0
  let a1 ← c.summaryArg 1
  let a2 ← c.summaryArg 2
  Proc.require (decide (a2 ≤ maxModelBytes))
  if a2 ≠ 0 then do
    let bytes := List.replicate a2.toNat a1.toUInt8
    memWrite a0 bytes
    c.recordSummaryAccess .write a0 (c.scalarFromMemory bytes) a2.toUInt32
  pure a0

def strcpySummary : RaxProc UInt64 := do
  let a0 ← c.summaryArg 0
  let a1 ← c.summaryArg 1
  let bytes ← readCString a1
  memWrite a0 bytes
  c.recordSummaryAccess .read a1 (c.scalarFromMemory bytes) (.ofNat bytes.length)
  c.recordSummaryAccess .write a0 (c.scalarFromMemory bytes) (.ofNat bytes.length)
  pure a0

/-- Bytes up to the first NUL are read, the rest of the `n` bytes stays zero. -/
def strncpySummary : RaxProc UInt64 := do
  let a0 ← c.summaryArg 0
  let a1 ← c.summaryArg 1
  let a2 ← c.summaryArg 2
  Proc.require (decide (a2 ≤ maxModelBytes))
  let copied ← readUpTo a1 a2.toNat
  let bytes := copied ++ List.replicate (a2.toNat - copied.length) 0
  if a2 ≠ 0 then memWrite a0 bytes
  if copied.length ≠ 0 then
    c.recordSummaryAccess .read a1 (c.scalarFromMemory copied) (.ofNat copied.length)
  if a2 ≠ 0 then c.recordSummaryAccess .write a0 (c.scalarFromMemory bytes) a2.toUInt32
  pure a0

def strlenSummary : RaxProc UInt64 := do
  let a0 ← c.summaryArg 0
  let bytes ← readCString a0
  c.recordSummaryAccess .read a0 (c.scalarFromMemory bytes) (.ofNat bytes.length)
  pure (.ofNat (bytes.length - 1))

def strcmpSummary : RaxProc UInt64 := do
  let a0 ← c.summaryArg 0
  let a1 ← c.summaryArg 1
  let bytes ← readCString a0
  let rhs ← readCString a1
  c.recordSummaryAccess .read a0 (c.scalarFromMemory bytes) (.ofNat bytes.length)
  c.recordSummaryAccess .read a1 (c.scalarFromMemory rhs) (.ofNat rhs.length)
  pure (c.compareStrings bytes rhs).toInt64.toUInt64

/-- The size of an allocation; one that overflows or is too large counts as none. -/
def requestedBytes (clear : Bool) (a0 a1 : UInt64) : UInt64 :=
  let n := if clear then if a0 ≠ 0 ∧ a1 > ~~~0 / a0 then 0 else a0 * a1 else a0
  if n > maxModelBytes then 0 else n

def aligned (n : UInt64) : UInt64 := (n + 15) &&& ~~~15

/-- The next block of the scratch heap, or null if it has no room. -/
def allocateBlock (clear : Bool) (n : UInt64) : RaxProc UInt64 := do
  let cursor ← Proc.get fun s => s.hooks.heapCursor
  if n ≠ 0 ∧ cursor ≤ c.heapHi ∧ aligned n ≤ c.heapHi - cursor then do
    if clear then do
      memWrite cursor (List.replicate n.toNat 0)
      c.recordSummaryAccess .write cursor 0 n.toUInt32
    Proc.modify fun s =>
      { s with hooks := { s.hooks with heapCursor := s.hooks.heapCursor + aligned n } }
    pure cursor
  else pure 0

/-- `ALLOCATE`, and with `clear` `CALLOCATE` -/
def allocateSummary (clear : Bool) : RaxProc UInt64 := do
  let a0 ← c.summaryArg 0
  let a1 ← if clear then c.summaryArg 1 else pure 0
  c.allocateBlock clear (requestedBytes clear a0 a1)

def deallocateSummary : RaxProc UInt64 := do
  let _ ← c.summaryArg 0
  pure 0

/-- The work of a summary, up to its result. -/
def summaryBody : SummaryKind → RaxProc UInt64
  | .memcpy | .memmove => c.memmoveSummary
  | .memset => c.memsetSummary
  | .strcpy => c.strcpySummary
  | .strncpy => c.strncpySummary
  | .strlen => c.strlenSummary
  | .strcmp => c.strcmpSummary
  | .allocate => c.allocateSummary false
  | .callocate => c.allocateSummary true
  | .deallocate => c.deallocateSummary
  | .terminate => pure 0

def countCall : RaxProc Unit :=
  Proc.modify fun s =>
    { s with hooks := { s.hooks with summarizedCalls := s.hooks.summarizedCalls + 1 } }

def terminateProcess : RaxProc Unit := do
  Proc.modify fun s => { s with hooks := { s.hooks with terminatedProcess := true } }
  countCall
  emuStop

/-- The work, the return and the count, with the value that the guest gets. -/
def runSummary (kind : SummaryKind) : RaxProc UInt64 := do
  let result ← c.summaryBody kind
  c.summaryReturn result
  countCall
  pure result

def applySummary (kind : SummaryKind) : RaxProc Unit :=
  if kind = .terminate then terminateProcess
  else do
    let _ ← c.runSummary kind
    pure ()

/-! ## The hooks -/

/-- The byte of the snapshot at an address of a segment, zero if it was not loaded. -/
def snapshotByte (segment : SegImage) (ea : UInt64) : UInt8 :=
  let offset := (ea - segment.start).toNat
  if offset ≥ segment.bytes.length then 0
  else if offset / 8 < segment.mask.length ∧
      segment.mask.getD (offset / 8) 0 &&& ((1 : UInt8) <<< UInt8.ofNat (offset % 8)) ≠ 0 then
    segment.bytes.getD offset 0
  else 0

/-- The snapshot of a range; there is none if a byte of it is in no segment. -/
def snapshotBytes (address : UInt64) (size : UInt32) : Option Bytes :=
  (List.range size.toNat).mapM fun index => do
    let current ← checkedAdd address (.ofNat index)
    let segment ← c.image.segmentAt current
    some (snapshotByte segment current)

def restoreSnapshotBytes (address : UInt64) (size : UInt32) : RaxProc Unit :=
  if size = 0 ∨ size > (1 : UInt32) <<< 20 then pure ()
  else
    match c.snapshotBytes address size with
    | none => pure ()
    | some bytes => do
      -- the status of `mem_write` is not looked at
      let _ ← (memWrite address bytes).attempt
      pure ()

def violate : RaxProc Unit := do
  Proc.modify fun s => { s with hooks := { s.hooks with permissionViolation := true } }
  emuStop

/-- The registers that can be read. -/
def captureValues : List Reg → RaxProc (List RegisterValue)
  | [] => pure []
  | reg :: regs => do
    let value ← (regReadU64 reg).attempt
    let values ← captureValues regs
    match value with
    | some v => pure ({ reg := reg, value := v, width := if c.is64 then 8 else 4 } :: values)
    | none => pure values

def captureState (addr : UInt64) : RaxProc Unit := do
  let states ← Proc.get fun s => s.hooks.states
  if states.length < c.stateCap then do
    let regs ← c.captureValues c.captureRegs
    Proc.modify fun s =>
      { s with hooks := { s.hooks with states := s.hooks.states ++
        [{ source := s.hooks.prevPc, pc := addr, regs := regs, runId := c.runId
           seed := c.seed }] } }

/-- The address behind the previous instruction, if its size is known or can be decoded. -/
def fallthrough (s : HookState) : Option UInt64 := do
  let size := if s.prevSize ≠ 0 then s.prevSize else ((c.decodeAt s.prevPc).map (·.1)).getD 0
  if size = 0 then none
  checkedAdd s.prevPc size.toUInt64

/-- A transfer that is not the fall-through of the previous instruction. -/
def recordTransfer (addr eventSequence : UInt64) : RaxProc Unit := do
  let s ← Proc.get fun s => s.hooks
  if s.hasPrev = true ∧ c.image.lo ≤ addr ∧ addr < c.image.hi ∧ c.inFunction s.prevPc = true ∧
      s.edges.length < c.edgeCap ∧ c.fallthrough s ≠ some addr then do
    Proc.modify fun s =>
      { s with hooks := { s.hooks with edges := s.hooks.edges ++
        [{ from_ := s.hooks.prevPc, to_ := addr, runId := c.runId, seed := c.seed
           kind := ((c.decodeAt s.hooks.prevPc).map (·.2)).getD .unknown
           sequence := eventSequence }] } }
    c.captureState addr

/-- The bounded lists of executed addresses. -/
def recordExecution (addr eventSequence : UInt64) (s : HookState) : HookState :=
  let s := if c.image.lo ≤ addr ∧ addr < c.image.hi ∧ s.execution.length < c.executionCap then
      { s with execution := s.execution ++
        [{ pc := addr, sequence := eventSequence, runId := c.runId, seed := c.seed }] }
    else s
  if c.recordPcs = true ∧ c.inFunction addr = true ∧ s.execPcs.length < c.edgeCap then
    { s with execPcs := s.execPcs.insert addr }
  else s

/-- The records of an instruction, and the call site of a summary at it. -/
def noteInstruction (addr : UInt64) : RaxProc Unit := do
  let eventSequence ← Proc.get fun s => s.hooks.sequence
  Proc.modify fun s => { s with hooks := { s.hooks with sequence := s.hooks.sequence + 1 } }
  c.recordTransfer addr eventSequence
  Proc.modify fun s => { s with hooks := c.recordExecution addr eventSequence s.hooks }
  Proc.modify fun s => { s with hooks := { s.hooks with
    summarySource := if s.hooks.hasPrev then s.hooks.prevPc else addr } }

def callSummary (addr : UInt64) : RaxProc Unit :=
  match c.findSummary addr with
  | some summary => do
    -- whether the summary was applied is not looked at
    let _ ← (c.applySummary summary.kind).attempt
    pure ()
  | none => pure ()

def codeTr (addr : UInt64) (size : UInt32) : RaxProc Unit :=
  if c.strictPermissions = true ∧
      c.image.accessAllowed addr (if size = 0 then 1 else size) .exec = false then
    violate
  else do
    c.noteInstruction addr
    c.callSummary addr
    Proc.modify fun s => { s with hooks := { s.hooks with
      prevPc := addr, prevSize := size, hasPrev := true, lastPc := addr } }

def memTr (kind : MemKind) (addr : UInt64) (size : UInt32) (value : UInt64) : RaxProc Unit :=
  if kind = .fetch then pure ()
  else if c.strictPermissions = true ∧
      c.image.accessAllowed addr size kind.required = false then do
    if kind = .write then c.restoreSnapshotBytes addr size
    violate
  else if c.recordMemory = true then
    Proc.modify fun s =>
      { s with hooks := c.recordAccess s.hooks.lastPc kind addr value size s.hooks }
  else pure ()

end HookCtx

end Viy.Emu
