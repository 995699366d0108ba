import Viy.Abi.Input
import Viy.Emu.Permissions
import Viy.Runtime.Pointers
import Viy.Workers.Fingerprint

/-!
# The call that a run makes

A run enters a function as if it were called. The driver owns a scratch region outside the image:
near its start is the address a return goes to, then the arena of the modelled allocators, and in
the upper half the stack. Before every run the registers are set for a call with the stack pointer
near the end of the region, the sentinel as the return address, and seeded or explicit arguments.
-/

namespace Viy

open Wire Emu Fault ProgramImage Proc

/-! ## Seed values -/

namespace Abi

inductive SeedKind where
  | zero | one | u16Max | i16Max | i16Min | imagePointer | stackPointer | mixed
  deriving DecidableEq

structure SeedValue where
  value : UInt64
  kind : SeedKind

def mix (mixed : UInt64) : UInt64 :=
  let mixed := (mixed ^^^ (mixed >>> 33)) * 0xFF51AFD7ED558CCD
  mixed ^^^ (mixed >>> 33)

/-- The middle and the end of the stack, if it is mapped. -/
def seedStack (stackBase stackSize : UInt64) : Option (UInt64 × UInt64) := do
  if stackSize = 0 then none
  let stackEnd ← checkedAdd stackBase stackSize
  let stackMiddle ← checkedAdd stackBase (stackSize / 2)
  if stackMiddle < stackEnd then some (stackMiddle, stackEnd) else none

/-- The places of pointers in the upper half of the stack, `0x100` apart. -/
def seedSlots (stackMiddle stackEnd : UInt64) : UInt64 :=
  1 + (stackEnd - stackMiddle - 1) / 0x100

/-- The place of a pointer in a mapped stack. -/
def seedSlot (stackMiddle stackEnd index : UInt64) : Option UInt64 :=
  (checkedAdd stackMiddle (index % seedSlots stackMiddle stackEnd * 0x100)).filter
    fun pointer => decide (pointer < stackEnd)

def seedPointer (stack : Option (UInt64 × UInt64)) (index mixed : UInt64) : SeedValue :=
  (stack.bind fun s => seedSlot s.1 s.2 index).elim ⟨mixed, .mixed⟩
    fun pointer => ⟨pointer, .stackPointer⟩

def seedItem (seed imageLo : UInt64) (stack : Option (UInt64 × UInt64)) (index mixed : UInt64) :
    SeedValue :=
  match ((seed + index) % 8).toNat with
  | 0 => ⟨0, .zero⟩
  | 1 => ⟨1, .one⟩
  | 2 => ⟨0xFFFF, .u16Max⟩
  | 3 => ⟨0x7FFF, .i16Max⟩
  | 4 => ⟨0xFFFFFFFFFFFF8000, .i16Min⟩
  | 5 => ⟨imageLo, .imagePointer⟩
  | 6 => seedPointer stack index mixed
  | _ => ⟨mixed, .mixed⟩

def seedItems (seed imageLo : UInt64) (stack : Option (UInt64 × UInt64)) :
    ℕ → UInt64 → UInt64 → List SeedValue
  | 0, _, _ => []
  | count + 1, index, mixed =>
    seedItem seed imageLo stack index (mix mixed) ::
      seedItems seed imageLo stack count (index + 1) (mix mixed)

def viySeedArgumentCorpus (seed : UInt64) (count : ℕ) (imageLo stackBase stackSize : UInt64) :
    List SeedValue :=
  seedItems seed imageLo (seedStack stackBase stackSize) count 0
    (seed * 0x9E3779B97F4A7C15 + 0x1234567)

end Abi

/-! ## The driver -/

namespace Emu

open Viy.Abi Viy.Runtime

def scratchStackSize : UInt64 := 0x100000

def scratchCandidates : Bool → List UInt64
  | true => [0x00007ffd00000000, 0x0000600000000000, 0x0000000120000000]
  | false => [0x70000000, 0x50000000, 0x10000000]

/-- Zero if none of the regions is clear of the image. -/
def viyScratchStackBase (is64 : Bool) (imageLo imageHi : UInt64) : UInt64 :=
  ((scratchCandidates is64).find? fun base => !(decide (imageHi > imageLo) &&
    decide (base < imageHi) && decide (imageLo < base + scratchStackSize))).getD 0

/-- `std::tie(address, kind)` -/
def summaryOrder : Cxx.Comparator EmuCallSummary :=
  (Cxx.Comparator.tie .u64 .u8).comap
    (fun s => (s.address, Workers.Fingerprint.summaryNumber s.kind)) fun a b h => by
      obtain ⟨address, kind⟩ := a
      obtain ⟨address', kind'⟩ := b
      obtain ⟨rfl, hkind⟩ := Prod.mk.inj h
      congr
      cases kind <;> cases kind' <;> first | rfl | cases hkind

/-- A driver whose constructor has got as far as the engine: the architecture is supported, and a
scratch region is clear of the image. `calls` are the summaries it was given. -/
structure EmuDriver where
  image : RuntimeImage
  arch : ViyArch
  params : ArchParams
  supported : archParams arch = some params
  windowsX64 : Bool := false
  strictPerms : Bool := true
  memHooksOk : Bool := true
  canDiscover : Bool := true
  calls : List EmuCallSummary := []
  clear : viyScratchStackBase params.is64 image.lo image.hi ≠ 0
  decodeAt : UInt64 → Option (UInt32 × EdgeKind) := fun _ => none
  memcmp : Memcmp

/-- The arguments of `emulate_from`. -/
structure RunInput extends Abi.EmuInput where
  seed : UInt64
  runId : UInt32

structure RunRequest where
  entry : UInt64
  funcEnd : UInt64
  recordPcs : Bool := true
  seed : UInt64 := 0
  runId : UInt32 := 0
  input : Option RunInput := none

namespace RunRequest

variable (req : RunRequest)

def effectiveSeed : UInt64 := req.input.elim req.seed (·.seed)

def effectiveRun : UInt32 := req.input.elim req.runId (·.runId)

end RunRequest

namespace EmuDriver

variable (d : EmuDriver)

def layout : ViyAbiLayout := viyAbiLayout (viyAbiForArch d.arch d.windowsX64)

def stackBase : UInt64 := viyScratchStackBase d.params.is64 d.image.lo d.image.hi

/-- The address at which a run ends: a return from the function goes there. -/
def sentinel : UInt64 := d.stackBase + 0x1000

/-- Sorted, with the first kind for each address. -/
def summaries : List EmuCallSummary :=
  Cxx.unique (fun a b => a.address == b.address) (Cxx.sort summaryOrder.less d.calls)

/-- The argument registers and those with a role, each one once. -/
def captureRegs : List Reg :=
  ([d.params.regs.sp, d.params.fpReg, d.params.regs.lr, d.params.regs.pc,
    d.params.regs.ret].filterMap id).foldl (fun l reg => if reg ∈ l then l else l ++ [reg])
      d.layout.argumentRegisters

/-- The stack pointer at the entry; a call on x86-64 has pushed eight bytes. -/
def entrySp : UInt64 :=
  let align : UInt64 := if d.params.is64 then 0xF else 0x3
  let sp := (d.stackBase + scratchStackSize - 0x400) &&& ~~~align
  if d.arch = .x86_64 then sp ||| 8 else sp

/-- The hook context of a run. The events start empty, so the caps are the allowances. -/
def context (cfg : Workers.Fingerprint.ViyConfig) (req : RunRequest) : HookCtx where
  image := d.image.toProgramImage
  func := (d.image.functionAt req.entry).filter fun f => f.start == req.entry
  flo := req.entry
  fhi := if req.funcEnd > req.entry then req.funcEnd else d.image.hi
  stackLo := d.stackBase
  stackHi := d.stackBase + scratchStackSize
  heapLo := d.stackBase + 0x10000
  heapHi := d.stackBase + scratchStackSize / 2
  runId := req.effectiveRun
  seed := req.effectiveSeed
  summaries := d.summaries
  captureRegs := d.captureRegs
  regs := d.params.regs
  argRegs := d.layout.argumentRegisters
  is64 := d.params.is64
  bigEndian := d.image.bigEndian
  stackArgumentOffset := d.layout.stackArgumentOffset
  strictPermissions := d.strictPerms
  recordMemory := cfg.wantDrefs || cfg.wantRuntimeStrings || cfg.wantSmcEvidence
  recordPcs := req.recordPcs
  edgeCap := cfg.maxInsns.toNat
  executionCap := cfg.maxInsns.toNat
  dataCap := cfg.maxInsns.toNat
  stateCap := min cfg.maxInsns.toNat 65536
  decodeAt := d.decodeAt
  memcmp := d.memcmp

/-! ## Entering the function -/

variable (c : HookCtx)

def writeRole : Option Reg → UInt64 → RaxProc Unit
  | some reg, value => regWriteU64 c reg value
  | none, _ => pure ()

/-- In the link register, or in the lowest slot of the stack with the low byte first. -/
def placeReturn : RaxProc Unit :=
  match d.params.regs.lr with
  | some link => regWriteU64 c link d.sentinel
  | none => memWrite d.entrySp (scatter false d.sentinel (if d.params.is64 then 8 else 4))

def seedWrites (seed : UInt64) : List RegisterWrite :=
  List.zipWith RegisterWrite.mk d.layout.argumentRegisters
    ((viySeedArgumentCorpus seed d.layout.argumentRegisters.length d.image.lo d.stackBase
      scratchStackSize).map (·.value))

def seedArgRegs (seed : UInt64) : RaxProc Unit := writeRegisters c (d.seedWrites seed)

def placeSeeds (req : RunRequest) : RaxProc Unit :=
  if req.effectiveSeed ≠ 0 then d.seedArgRegs c req.effectiveSeed else pure ()

def placeInput : Option RunInput → RaxProc Unit
  | some input => applyInput c d.layout input.toEmuInput d.entrySp d.stackBase scratchStackSize
  | none => pure ()

def placeFrame : RaxProc Unit := do
  writeRole c d.params.regs.sp d.entrySp
  writeRole c d.params.fpReg d.entrySp
  d.placeReturn c

/-- What is written between the baseline and the start. An explicit input is written over seeded
arguments. -/
def enter (req : RunRequest) : RaxProc Unit := do
  d.placeFrame c
  d.placeSeeds c req
  d.placeInput c req.input

end EmuDriver

/-- A driver for the System V convention over the read-only segment. -/
def sysvDriver : EmuDriver where
  image := { readOnlyImage with }
  arch := .x86_64
  params := { regs := x64Regs, fpReg := some (.x86Gpr64 5), is64 := true }
  supported := rfl
  clear := by decide
  memcmp := byteMemcmp

/-- The settings of `viy_config.hpp`. -/
def defaultConfig : Workers.Fingerprint.ViyConfig where
  enabled := true
  maxInsns := 200000
  timeoutMs := 1000
  maxFuncs := 0
  funcsPerTick := 2
  tickMs := 15
  maxEpochs := 3
  exploreRuns := 4
  makeCode := true
  wantDrefs := true
  wantStatic := true
  wantNative := true
  strictPerms := true
  wantImportSummaries := true
  wantRuntimeStrings := true
  wantUnicodeStrings := true
  wantTables := true
  wantSmcEvidence := true
  applyRuntimeBytes := false
  maxRuntimeBytes := 0x100000
  wantSwitch := false
  wantPurge := true
  wantNoret := true
  setNoret := false
  wantArgregs := true
  wantOpaque := false
  opaqueRuns := 3

/-- Seven arguments: the last one is on the stack. -/
def sevenArgs : RunRequest where
  entry := 0x2000
  funcEnd := 0x2010
  input := some { args := [1, 2, 3, 4, 5, 6, 7], seed := 3, runId := 1 }

end Emu

end Viy
