import Viy.Native.MemoryValues
import Viy.Runtime.SelfModifying
import Viy.Store.State

/-!
# Recording emulation evidence

`viy_record_emulation_evidence` turns the events and outcomes of a function into facts and adds them
to the ledger: control transfers inside the image, accesses to it, registers at the targets of
transfers, the bytes that are left behind, and how the runs have ended. A fact carries the run and
the seed that it has been seen in.
-/

namespace Viy.Bridge

open Wire Analysis
open Viy.Emu (ViyArch Reg ExecEdge EdgeKind EmuOutcome StopReason)
open Viy.Runtime (RuntimeImage MemoryBytes scalarBytes)

/-! ## What the bridge reads -/

/-- The numbers of `rax.h` that the bridge compares with. -/
structure BridgeIds extends Workers.RaxIds where
  armLr : ℤ
  stopTimeout : ℤ
  stopCount : ℤ
  stopException : ℤ
  /-- The reason with number zero, which an outcome has without a valid exit. -/
  noExit : StopReason

structure BridgeImage extends RuntimeImage where
  arch : ViyArch

structure FunctionRange extends Emu.FuncRange where
  generation : UInt64 := 0

structure ObservedOutcome where
  outcome : EmuOutcome
  runId : UInt32 := 0
  seed : UInt64 := 0

/-- The end of the last chunk. -/
def FunctionRange.scopeEnd (function : FunctionRange) : UInt64 :=
  function.chunks.foldl (fun e chunk => max e chunk.end_) function.end_

def makeEvidence (function : FunctionRange) (runId : UInt32) (seed : UInt64) (method : String)
    (support : List Address) : Evidence where
  producer := text "viy.rax.emulator"
  method := text method
  proof := .observed
  confidence := 8500
  scope :=
    { runId := some (.ofNat runId.toNat)
      seed := some seed
      functionStart := some function.start
      functionEnd := some function.scopeEnd
      generation := function.generation }
  supportAddresses := support

/-! ## Names of registers -/

/-- `std::to_string` -/
def decimal (n : ℤ) : Bytes :=
  (if n < 0 then text "-" else []) ++
    (Nat.toDigits 10 n.natAbs).map fun digit => digit.toNat.toUInt8

def x86_64Names : List String :=
  ["rax", "rcx", "rdx", "rbx", "rsp", "rbp", "rsi", "rdi",
    "r8", "r9", "r10", "r11", "r12", "r13", "r14", "r15"]

def x86_32Names : List String := ["eax", "ecx", "edx", "ebx", "esp", "ebp", "esi", "edi"]

def archNumber : ViyArch → ℤ
  | .unsupported => 0 | .x86_16 => 1 | .x86_32 => 2 | .x86_64 => 3 | .arm64 => 4
  | .arm32 => 5 | .riscv64 => 6 | .cortexM => 7 | .hexagon => 8

section Registers

variable (ids : BridgeIds) (reg : ℤ)

/-- A register of a file that is numbered without gaps. -/
def fromFile (first last : Reg) (name : ℕ → Bytes) : Option Bytes :=
  if ids.reg first ≤ reg ∧ reg ≤ ids.reg last then some (name (reg - ids.reg first).toNat)
  else none

def single (id : ℤ) (name : String) : Option Bytes := if reg = id then some (text name) else none

def numbered (file : String) (n : ℕ) : Bytes := text file ++ decimal n

def knownRegister : ViyArch → Option Bytes
  | .x86_64 => fromFile ids reg (.x86Gpr64 0) (.x86Gpr64 15)
      (fun n => text "x86:" ++ text (x86_64Names.getD n "")) <|>
    single reg (ids.reg .x86Rip) "x86:rip"
  | .x86_32 => fromFile ids reg (.x86Gpr32 0) (.x86Gpr32 7)
      (fun n => text "x86:" ++ text (x86_32Names.getD n "")) <|>
    single reg (ids.reg .x86Eip) "x86:eip"
  | .arm64 => fromFile ids reg (.arm64X 0) (.arm64X 30) (numbered "arm64:x") <|>
    single reg (ids.reg .arm64Sp) "arm64:sp" <|> single reg (ids.reg .arm64Pc) "arm64:pc"
  | .arm32 => fromFile ids reg (.armR 0) (.armR 12) (numbered "arm:r") <|>
    single reg (ids.reg .armSp) "arm:sp" <|> single reg ids.armLr "arm:lr" <|>
    single reg (ids.reg .armPc) "arm:pc"
  | .cortexM => fromFile ids reg (.cmR 0) (.cmR 12) (numbered "cortexm:r") <|>
    single reg (ids.reg .sp) "cortexm:sp" <|> single reg (ids.reg .cmLr) "cortexm:lr" <|>
    single reg (ids.reg .cmPc) "cortexm:pc"
  | .riscv64 => fromFile ids reg (.riscvX 0) (.riscvX 31) (numbered "riscv:x") <|>
    single reg (ids.reg .riscvPc) "riscv:pc"
  | .hexagon => fromFile ids reg (.hexR 0) (.hexR 31) (numbered "hexagon:r") <|>
    single reg (ids.reg .hexPc) "hexagon:pc"
  | .unsupported | .x86_16 => none

def registerName (arch : ViyArch) : Bytes :=
  (knownRegister ids reg arch).getD
    (text "rax:" ++ decimal (archNumber arch) ++ text ":" ++ decimal reg)

end Registers

/-! ## Facts -/

def targetKind : EdgeKind → CodeTargetKind
  | .call => .call | .jump => .jump | .return_ => .return | .unknown => .unknown

/-- A jump is recorded as indirect: it has been observed, not decoded. -/
def cfgKind : EdgeKind → CfgEdgeKind
  | .call => .call | .return_ => .return | .jump => .indirect | .unknown => .unknown

section Facts

variable (ids : BridgeIds) (img : BridgeImage) (function : FunctionRange)

def edgeFacts (edge : ExecEdge) : List AnalysisFact :=
  -- a sentinel return and a fault escape are no locations of the image
  if edge.kind = .unknown ∨ img.segmentAt edge.from_ = none ∨ img.segmentAt edge.to_ = none then []
  else
    let evidence (method : String) :=
      makeEvidence function edge.runId edge.seed method [edge.from_, edge.to_]
    [⟨.codeTarget ⟨edge.from_, edge.to_, targetKind edge.kind, false⟩,
        evidence "executed-control-transfer"⟩,
      ⟨.branchReachability ⟨edge.from_, edge.to_, .reached⟩, evidence "executed-successor"⟩,
      ⟨.cfgCandidate ⟨edge.from_, edge.to_, cfgKind edge.kind, .reached⟩,
        evidence "executed-cfg-edge"⟩] ++
    if edge.kind = .call then
      [⟨.callObservation ⟨edge.from_, some edge.to_, .call, .unknown, [], []⟩,
        evidence "executed-call"⟩]
    else []

/-- The method of the two facts of an access. -/
def accessMethod : FactPayload → String
  | .memoryAccess _ => "memory-access"
  | _ => "memory-value"

def accessFacts (access : Events.DataAcc) : List AnalysisFact :=
  if access.kind ≠ ids.kind .read ∧ access.kind ≠ ids.kind .write then []
  else (Native.recordAccess img.toRuntimeImage (ids.dataOf access)).map fun payload =>
    ⟨payload, makeEvidence function access.runId access.seed (accessMethod payload)
      [access.from_, access.addr]⟩

def registerFact (point : Events.StatePoint) (reg : Events.RegisterValue) : AnalysisFact :=
  ⟨.registerValue ⟨point.pc, .beforeInstruction, registerName ids reg.reg img.arch,
      scalarBytes reg.value (.ofNat reg.width.toNat) false⟩,
    makeEvidence function point.runId point.seed "transfer-target-register-state"
      [point.source, point.pc]⟩

def stateFacts (point : Events.StatePoint) : List AnalysisFact :=
  (point.regs.filter fun reg => !(reg.width == 0 || decide (reg.width > 8))).map
    (registerFact ids img function point)

/-- The instruction that has written last, as far as the search has come. -/
structure Writer where
  instruction : UInt64
  bestSequence : UInt64 := 0
  found : Bool := false

/-- A write of the run of `memory`. -/
def isWriteOf (memory : MemoryBytes) (access : Events.DataAcc) : Bool :=
  access.runId == memory.runId && access.seed == memory.seed &&
    access.kind == ids.kind .write && access.scope == .image && access.size != 0

def touches (memory : MemoryBytes) (access : Events.DataAcc) : Bool :=
  let memorySize : UInt64 := .ofNat memory.bytes.length
  let accessSize : UInt64 := .ofNat access.size.toNat
  if memorySize > ~~~0 - memory.addr ∨ accessSize > ~~~0 - access.addr then false
  else decide (access.addr < memory.addr + memorySize) &&
    decide (memory.addr < access.addr + accessSize)

def noteWriter (memory : MemoryBytes) (best : Writer) (access : Events.DataAcc) : Writer :=
  if isWriteOf ids memory access && touches memory access &&
      (!best.found || decide (best.bestSequence ≤ access.sequence)) then
    { instruction := access.from_, bestSequence := access.sequence, found := true }
  else best

def lastWriter (data : List Events.DataAcc) (memory : MemoryBytes) : UInt64 :=
  (data.foldl (noteWriter ids memory) { instruction := function.start }).instruction

def finalWriteFacts (data : List Events.DataAcc) (memory : MemoryBytes) : List AnalysisFact :=
  if memory.scope ≠ .image ∨ memory.bytes = [] ∨
      Native.validImageRange img.segs memory.addr memory.bytes.length = false then []
  else
    let instruction := lastWriter ids function data memory
    [⟨.memoryValue ⟨instruction, memory.addr, .write, memory.bytes⟩,
      makeEvidence function memory.runId memory.seed "final-written-bytes"
        [instruction, memory.addr]⟩]

def stopKind (outcome : EmuOutcome) : FunctionStopKind :=
  if outcome.returned then .returned
  else if outcome.terminatedProcess then .terminatedProcess
  else
    match outcome.stopReason.getD ids.noExit with
    | .hlt | .shutdown => .halted
    | .until_ => .unknown
    | .other code =>
      if code = ids.stopTimeout then .timedOut
      else if code = ids.stopCount then .budgetExhausted
      else if code = ids.stopException then .faulted
      else .unknown

def outcomeFact (observed : ObservedOutcome) : AnalysisFact :=
  ⟨.functionOutcome
      { function := function.start
        stop := stopKind ids observed.outcome
        stopPc := observed.outcome.stopReason.map fun _ => observed.outcome.stopPc
        stackDelta := observed.outcome.spDelta.map Int64.ofInt
        instructionCount := some observed.outcome.instructionCount },
    makeEvidence function observed.runId observed.seed "function-outcome" [function.start]⟩

/-- All facts, in the order in which they are added. -/
def bridgeFacts (events : Events.EmuEvents) (outcomes : List ObservedOutcome) :
    List AnalysisFact :=
  events.edges.flatMap (edgeFacts img function) ++
  events.data.flatMap (accessFacts ids img function) ++
  events.states.flatMap (stateFacts ids img function) ++
  events.finalWrites.flatMap (finalWriteFacts ids img function events.data) ++
  outcomes.map (outcomeFact ids function)

end Facts

/-! ## Recording -/

structure EvidenceBridgeStats where
  insertedRecords : ℕ := 0
  addedObservations : ℕ := 0
  duplicates : ℕ := 0
  rejected : ℕ := 0
  deriving DecidableEq

def account (stats : EvidenceBridgeStats) : AddDisposition → EvidenceBridgeStats
  | .insertedRecord => { stats with insertedRecords := stats.insertedRecords + 1 }
  | .addedObservation => { stats with addedObservations := stats.addedObservations + 1 }
  | .duplicateObservation => { stats with duplicates := stats.duplicates + 1 }
  | .rejectedInvalid => { stats with rejected := stats.rejected + 1 }

section Recording

variable (sha : Bytes → FactDigest)

def recordFact (state : EvidenceStore × EvidenceBridgeStats) (fact : AnalysisFact) :
    EvidenceStore × EvidenceBridgeStats :=
  let (store, result) := state.1.add sha fact
  (store, account state.2 result.disposition)

def viyRecordEmulationEvidence (ids : BridgeIds) (store : EvidenceStore) (img : BridgeImage)
    (function : FunctionRange) (events : Events.EmuEvents) (outcomes : List ObservedOutcome) :
    EvidenceStore × EvidenceBridgeStats :=
  (bridgeFacts ids img function events outcomes).foldl (recordFact sha) (store, {})

end Recording

end Viy.Bridge
