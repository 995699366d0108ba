import Viy.Fault.Proc
import Viy.Wire.Memory
import Viy.Emu.Image

/-!
# The guest machine and the state of the hooks

The emulation driver reaches the guest through the primitives of rax: memory and register reads and
writes. Any of them may fail at any call, and then has no effect; a script says which ones do.
Registers are cells of the guest's pointer size. The ranges that `mem_read` has served are kept, so
that what a call has looked at can be stated.
-/

namespace Viy.Emu

open Wire Fault

/-! ## Registers -/

/-- The register ids of rax that the driver names; general-purpose registers by number. -/
inductive Reg where
  | x86Gpr32 (n : ℕ) | x86Eip
  | x86Gpr64 (n : ℕ) | x86Rip
  | arm64X (n : ℕ) | arm64Sp | arm64Pc
  | armR (n : ℕ) | armSp | armPc
  | riscvX (n : ℕ) | riscvPc
  | cmR (n : ℕ) | cmLr | cmPc
  | hexR (n : ℕ) | hexPc
  | sp | lr
  deriving DecidableEq

inductive ViyArch where
  | unsupported | x86_16 | x86_32 | x86_64 | arm64 | arm32 | riscv64 | cortexM | hexagon
  deriving DecidableEq

/-- The registers a run works with, `none` for an id of `-1`; no register has two roles. -/
structure RunRegs where
  sp : Option Reg := none
  lr : Option Reg := none
  pc : Option Reg := none
  ret : Option Reg := none
  distinct : ([sp, lr, pc, ret].filterMap id).Nodup := by decide

structure ArchParams where
  regs : RunRegs
  fpReg : Option Reg := none
  is64 : Bool

def x64Regs : RunRegs where
  sp := some (.x86Gpr64 4)
  pc := some .x86Rip
  ret := some (.x86Gpr64 0)

/-- `arch_params`, without the ids that open the engine. -/
def archParams : ViyArch → Option ArchParams
  | .x86_32 => some {
      regs := { sp := some (.x86Gpr32 4), pc := some .x86Eip, ret := some (.x86Gpr32 0) }
      fpReg := some (.x86Gpr32 5), is64 := false }
  | .x86_64 => some { regs := x64Regs, fpReg := some (.x86Gpr64 5), is64 := true }
  | .arm64 => some {
      regs := { sp := some .arm64Sp, lr := some (.arm64X 30), pc := some .arm64Pc
                ret := some (.arm64X 0) }
      is64 := true }
  | .arm32 => some {
      regs := { sp := some .armSp, lr := some .lr, pc := some .armPc, ret := some (.armR 0) }
      is64 := false }
  | .riscv64 => some {
      regs := { sp := some (.riscvX 2), lr := some (.riscvX 1), pc := some .riscvPc
                ret := some (.riscvX 10) }
      fpReg := some (.riscvX 8), is64 := true }
  | .cortexM => some {
      regs := { sp := some .sp, lr := some .cmLr, pc := some .cmPc, ret := some (.cmR 0) }
      is64 := false }
  | .hexagon => some {
      regs := { sp := some (.hexR 29), lr := some (.hexR 31), pc := some .hexPc
                ret := some (.hexR 0) }
      fpReg := some (.hexR 30), is64 := false }
  | .unsupported | .x86_16 => none

/-! ## Events -/

inductive MemKind where
  | read | write | fetch
  deriving DecidableEq

inductive DataScope where
  | image | stack | heap | other
  deriving DecidableEq

structure DataAcc where
  from_ : UInt64
  addr : UInt64
  value : UInt64
  size : UInt32
  kind : MemKind
  scope : DataScope
  sequence : UInt64
  runId : UInt32
  seed : UInt64
  deriving DecidableEq

inductive EdgeKind where
  | unknown | call | jump | return_
  deriving DecidableEq

structure ExecEdge where
  from_ : UInt64
  to_ : UInt64
  runId : UInt32
  seed : UInt64
  kind : EdgeKind
  sequence : UInt64
  deriving DecidableEq

structure ExecPoint where
  pc : UInt64
  sequence : UInt64
  runId : UInt32
  seed : UInt64
  deriving DecidableEq

structure RegisterValue where
  reg : Reg
  value : UInt64
  width : UInt8
  deriving DecidableEq

structure StatePoint where
  source : UInt64
  pc : UInt64
  regs : List RegisterValue
  runId : UInt32
  seed : UInt64
  deriving DecidableEq

inductive SummaryKind where
  | memcpy | memmove | memset | strcpy | strncpy | strlen | strcmp | allocate | callocate
  | deallocate | terminate
  deriving DecidableEq

structure EmuCallSummary where
  address : UInt64
  kind : SummaryKind

structure FuncChunk where
  start : UInt64
  end_ : UInt64

def FuncChunk.size (chunk : FuncChunk) : UInt64 :=
  if chunk.start < chunk.end_ then chunk.end_ - chunk.start else 0

structure FuncRange where
  start : UInt64
  end_ : UInt64
  chunks : List FuncChunk := []

def FuncRange.contains (f : FuncRange) (ea : UInt64) : Bool :=
  if f.chunks.isEmpty then decide (f.start ≤ ea) && decide (ea < f.end_)
  else f.chunks.any fun chunk => decide (chunk.start ≤ ea) && decide (ea < chunk.end_)

/-- `std::memcmp`: the sign of the result is specified, on buffers of one length. -/
structure Memcmp where
  run : Bytes → Bytes → Int32
  neg_iff : ∀ a b, a.length = b.length → (run a b < 0 ↔ a < b)
  pos_iff : ∀ a b, a.length = b.length → (0 < run a b ↔ b < a)

/-! ## The hook context -/

/-- The part of `HookCtx` that a run does not change. `decodeAt` is the decoder's answer for the
loaded bytes at an address. -/
structure HookCtx where
  image : ProgramImage
  func : Option FuncRange := none
  flo : UInt64 := 0
  fhi : UInt64 := 0
  stackLo : UInt64 := 0
  stackHi : UInt64 := 0
  heapLo : UInt64 := 0
  heapHi : UInt64 := 0
  runId : UInt32 := 0
  seed : UInt64 := 0
  summaries : List EmuCallSummary := []
  captureRegs : List Reg := []
  regs : RunRegs
  argRegs : List Reg := []
  is64 : Bool
  bigEndian : Bool := false
  stackArgumentOffset : UInt32 := 0
  strictPermissions : Bool := true
  recordMemory : Bool := true
  recordPcs : Bool := false
  edgeCap : ℕ := 0
  executionCap : ℕ := 0
  dataCap : ℕ := 0
  stateCap : ℕ := 0
  decodeAt : UInt64 → Option (UInt32 × EdgeKind) := fun _ => none
  memcmp : Memcmp

/-- The part of it that the hooks change, with the events they have recorded. -/
structure HookState where
  data : List DataAcc := []
  edges : List ExecEdge := []
  execution : List ExecPoint := []
  states : List StatePoint := []
  execPcs : List UInt64 := []
  heapCursor : UInt64 := 0
  prevPc : UInt64 := 0
  lastPc : UInt64 := 0
  summarySource : UInt64 := 0
  prevSize : UInt32 := 0
  sequence : UInt64 := 0
  permissionViolation : Bool := false
  terminatedProcess : Bool := false
  summaryResume : Bool := false
  summarizedCalls : UInt32 := 0
  hasPrev : Bool := false

structure Guest where
  mem : Memory
  regs : Reg → UInt64
  reads : List (UInt64 × ℕ) := []
  stopped : Bool := false

structure Machine where
  hooks : HookState
  guest : Guest

namespace Machine

variable (s : Machine)

def noteReads (l : List (UInt64 × ℕ)) : Machine :=
  { s with guest := { s.guest with reads := s.guest.reads ++ l } }

def writeMem (a : UInt64) (bytes : Bytes) : Machine :=
  { s with guest := { s.guest with mem := store s.guest.mem a bytes } }

def withRegs (regs : Reg → UInt64) : Machine :=
  { s with guest := { s.guest with regs := regs } }

def setReg (r : Reg) (v : UInt64) : Machine := s.withRegs (Function.update s.guest.regs r v)

@[simp] theorem noteReads_nil : s.noteReads [] = s := by
  simp [noteReads]

@[simp] theorem noteReads_noteReads (l m : List (UInt64 × ℕ)) :
    (s.noteReads l).noteReads m = s.noteReads (l ++ m) := by
  simp [noteReads]

@[simp] theorem hooks_noteReads (l : List (UInt64 × ℕ)) : (s.noteReads l).hooks = s.hooks := rfl

@[simp] theorem mem_noteReads (l : List (UInt64 × ℕ)) :
    (s.noteReads l).guest.mem = s.guest.mem := rfl

@[simp] theorem regs_noteReads (l : List (UInt64 × ℕ)) :
    (s.noteReads l).guest.regs = s.guest.regs := rfl

end Machine

/-! ## Primitives -/

inductive Outcome where
  | ok | fails
  deriving DecidableEq

/-- Driver code: it stops where the source returns `false`. -/
abbrev RaxProc := Proc Machine Outcome

/-- A call into rax: it succeeds, or fails without effect. -/
def primitive {α : Type} (f : Machine → α × Machine) : RaxProc α :=
  Proc.prim f fun outcome s => match outcome with
    | .ok => (some (f s).1, (f s).2)
    | .fails => (none, s)

def memRead (a : UInt64) (n : ℕ) : RaxProc Bytes :=
  primitive fun s => (load s.guest.mem a n, s.noteReads [(a, n)])

def memWrite (a : UInt64) (bytes : Bytes) : RaxProc Unit :=
  primitive fun s => ((), s.writeMem a bytes)

def regReadU64 (r : Reg) : RaxProc UInt64 := primitive fun s => (s.guest.regs r, s)

/-- The size of a pointer. -/
def HookCtx.ptr (c : HookCtx) : ℕ := if c.is64 then 8 else 4

/-- What a register keeps of a value. -/
def HookCtx.cell (c : HookCtx) (v : UInt64) : UInt64 := if c.is64 then v else v.toUInt32.toUInt64

def regWriteU64 (c : HookCtx) (r : Reg) (v : UInt64) : RaxProc Unit :=
  primitive fun s => ((), s.setReg r (c.cell v))

def emuStop : RaxProc Unit :=
  Proc.modify fun s => { s with guest := { s.guest with stopped := true } }

section Primitive

variable {α : Type} {f : Machine → α × Machine} {s s' : Machine} {script rest : List Outcome}

theorem primitive_returned {a : α} (h : (primitive f).run s script = (some a, s', rest)) :
    (f s).1 = a ∧ (f s).2 = s' := by
  unfold primitive Proc.prim at h
  cases script with
  | nil =>
    obtain ⟨rfl, rfl, -⟩ : (f s).1 = a ∧ (f s).2 = s' ∧ [] = rest := by simpa using h
    exact ⟨rfl, rfl⟩
  | cons outcome script =>
    cases outcome with
    | ok =>
      obtain ⟨rfl, rfl, -⟩ : (f s).1 = a ∧ (f s).2 = s' ∧ script = rest := by simpa using h
      exact ⟨rfl, rfl⟩
    | fails => simp at h

theorem primitive_failed (h : (primitive f).run s script = (none, s', rest)) : s' = s := by
  unfold primitive Proc.prim at h
  cases script with
  | nil => simp at h
  | cons outcome script =>
    cases outcome with
    | ok => simp at h
    | fails =>
      obtain ⟨rfl, -⟩ : s = s' ∧ script = rest := by simpa using h
      rfl

end Primitive

end Viy.Emu
