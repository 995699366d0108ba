import Viy.Deobf.Ir

/-!
# Constants in a block

`analyze_constant_block` follows register constants through the instructions of a block and reports
the targets of indirect branches and of pushes that a return consumes. The report is sound along
every execution of the block, as long as each step of the analysis is (`Scan.Faithful`): the
transfer function keeps the constant of a register that a pop or a read of the stack top overwrites,
widens a constant on a copy, and forgets the upper half of a register whose second word is replaced.
-/

namespace Viy.Deobf

open Wire Absint

/-! ## The analysis -/

/-- A known register value, of `width` bytes. -/
structure ConstantState where
  value : UInt64 := 0
  width : UInt8 := 0
  steps : ℕ := 0
  readOnlyLoad : Bool := false
  support : List UInt64 := []

abbrev StateMap := Cxx.Map Cxx.Comparator.int ConstantState

def normalizeSupport (support : List UInt64) : List UInt64 :=
  Cxx.sortUnique (fun a b => decide (a < b)) (· == ·) (support.filter (· != badAddress))

def eraseDestination (state : StateMap) (insn : Instruction) : StateMap :=
  if insn.destinationRegister ≠ noRegister then state.erase insn.destinationRegister else state

def validIntegerInstruction (insn : Instruction) : Bool :=
  insn.destinationRegister != noRegister && decide (1 ≤ insn.valueWidth)
    && decide (insn.valueWidth ≤ 8)

def assignConstant (state : StateMap) (insn : Instruction) (value : UInt64) (steps : ℕ)
    (readOnly : Bool) (support : List UInt64) : StateMap :=
  if validIntegerInstruction insn then
    state.set insn.destinationRegister
      { value := truncateWidth value insn.valueWidth
        width := insn.valueWidth
        steps := steps
        readOnlyLoad := readOnly
        support := normalizeSupport (support ++ [insn.address]) }
  else eraseDestination state insn

/-- The state of a register after one more step from a known one. -/
def ConstantState.next (c : ConstantState) (insn : Instruction) (value : UInt64) : ConstantState :=
  { c with
    value := value
    width := insn.valueWidth
    steps := c.steps + 1
    support := normalizeSupport (c.support ++ [insn.address]) }

def copyConstant (state : StateMap) (insn : Instruction) : StateMap :=
  match state.find insn.sourceRegister with
  | none => eraseDestination state insn
  | some source =>
    if validIntegerInstruction insn then
      state.set insn.destinationRegister
        (source.next insn (truncateWidth source.value insn.valueWidth))
    else eraseDestination state insn

/-- The second word replaced, and nothing above it. -/
def replacedWord (value immediate : UInt64) : UInt64 :=
  (value &&& 0xffff) ||| ((immediate &&& 0xffff) <<< (16 : UInt64))

/-- The new value of an arithmetic kind, if there is one. -/
def transformedValue (insn : Instruction) (value : UInt64) : Option UInt64 :=
  let mask := widthMask insn.valueWidth
  match insn.kind with
  | .addImmediate => some ((value + insn.immediate) &&& mask)
  | .subImmediate => some ((value - insn.immediate) &&& mask)
  | .xorImmediate => some ((value ^^^ insn.immediate) &&& mask)
  | .andImmediate => some ((value &&& insn.immediate) &&& mask)
  | .orImmediate => some ((value ||| insn.immediate) &&& mask)
  | .shiftLeftImmediate =>
    if insn.immediate ≥ insn.valueWidth.toUInt64 * 8 then none
    else some ((value <<< insn.immediate) &&& mask)
  | .replaceHigh16 =>
    if insn.valueWidth < 4 then none
    else some (replacedWord value insn.immediate &&& mask)
  | _ => some value

def transformConstant (state : StateMap) (insn : Instruction) : StateMap :=
  match state.find insn.baseRegister with
  | none => eraseDestination state insn
  | some base =>
    if validIntegerInstruction insn && base.width == insn.valueWidth then
      match transformedValue insn base.value with
      | none => eraseDestination state insn
      | some value => state.set insn.destinationRegister (base.next insn value)
    else eraseDestination state insn

def updateConstants (state : StateMap) (insn : Instruction) : StateMap :=
  match insn.kind with
  | .loadImmediate | .loadAddress => assignConstant state insn insn.immediate 1 false []
  | .loadReadOnlyConstant => assignConstant state insn insn.immediate 1 true [insn.memoryAddress]
  | .copyRegister => copyConstant state insn
  | .addImmediate | .subImmediate | .xorImmediate | .andImmediate | .orImmediate
  | .shiftLeftImmediate | .replaceHigh16 => transformConstant state insn
  | .directCall | .indirectCall => .empty
  | .other => if insn.destinationRegister ≠ noRegister then .empty else state
  | _ => state

inductive ConstantTargetKind where
  | indirectCall | indirectJump | pushReturn
  deriving DecidableEq

structure ConstantTargetCandidate where
  instruction : UInt64 := badAddress
  target : UInt64 := badAddress
  kind : ConstantTargetKind := .indirectJump
  registerId : ℤ := noRegister
  registerName : Bytes := []
  valueWidth : UInt8 := 0
  transformationSteps : ℕ := 0
  usedReadOnlyLoad : Bool := false
  support : List UInt64 := []

structure ConstantAssignment where
  instruction : UInt64 := badAddress
  registerId : ℤ := noRegister
  value : UInt64 := 0
  valueWidth : UInt8 := 0
  transformationSteps : ℕ := 0
  support : List UInt64 := []

structure ConstantBlockResult where
  targets : List ConstantTargetCandidate := []
  finalAssignments : List ConstantAssignment := []

/-- What the loop over the instructions carries. -/
structure Scan where
  state : StateMap := .empty
  pendingPush : Option (ℤ × ConstantState) := none
  expected : UInt64
  targets : List ConstantTargetCandidate := []

/-- A candidate at an instruction, from the known value of what it reads. -/
def ConstantState.candidate (c : ConstantState) (insn : Instruction) (kind : ConstantTargetKind)
    (registerId : ℤ) (registerName : Bytes) : ConstantTargetCandidate where
  instruction := insn.address
  target := c.value
  kind := kind
  registerId := registerId
  registerName := registerName
  valueWidth := c.width
  transformationSteps := c.steps
  usedReadOnlyLoad := c.readOnlyLoad
  support := normalizeSupport (c.support ++ [insn.address])

/-- The candidate of an indirect call or jump. -/
def indirectTarget (limits : ClassifierLimits) (state : StateMap) (insn : Instruction) :
    Option ConstantTargetCandidate :=
  if insn.kind = .indirectCall ∨ insn.kind = .indirectJump then
    match state.find insn.baseRegister with
    | none => none
    | some c =>
      if (insn.valueWidth = 0 ∨ c.width = insn.valueWidth) ∧ c.steps ≥ limits.minimumConstantSteps
      then
        some (c.candidate insn
          (if insn.kind = .indirectCall then .indirectCall else .indirectJump) insn.baseRegister
          (if insn.sourceName = [] then insn.destinationName else insn.sourceName))
      else none
  else none

/-- The candidate of a return that consumes a push. -/
def pushReturnTarget (limits : ClassifierLimits) (pendingPush : Option (ℤ × ConstantState))
    (insn : Instruction) : Option ConstantTargetCandidate :=
  match insn.kind, pendingPush with
  | .return, some (register, c) =>
    if register = noRegister ∨ c.steps ≥ limits.minimumConstantSteps then
      some (c.candidate insn .pushReturn register [])
    else none
  | _, _ => none

def nextPendingPush (state : StateMap) (pendingPush : Option (ℤ × ConstantState))
    (insn : Instruction) : Option (ℤ × ConstantState) :=
  match insn.kind with
  | .pushImmediate =>
    some (noRegister,
      { value := truncateWidth insn.immediate insn.valueWidth
        width := insn.valueWidth
        steps := 1
        support := [insn.address] })
  | .pushRegister =>
    match state.find insn.sourceRegister with
    | some c =>
      if insn.valueWidth = 0 ∨ c.width = insn.valueWidth then some (insn.sourceRegister, c)
      else none
    | none => none
  | .nop => pendingPush
  | _ => none

/-- Arrival at an instruction: everything is forgotten unless it follows the one before it. -/
def Scan.enter (s : Scan) (insn : Instruction) : Scan :=
  if insn.address ≠ s.expected ∨ insn.alternatePredecessor = true then
    { s with state := .empty, pendingPush := none, expected := insn.endAddress }
  else { s with expected := insn.endAddress }

/-- The rest of the loop's body. -/
def Scan.visit (limits : ClassifierLimits) (s : Scan) (insn : Instruction) : Scan :=
  { s with
    targets := s.targets ++ ((indirectTarget limits s.state insn).toList
      ++ (pushReturnTarget limits s.pendingPush insn).toList)
    pendingPush := nextPendingPush s.state s.pendingPush insn
    state := updateConstants s.state insn }

/-- The loop; an instruction without an end stops it. -/
def Scan.loop (limits : ClassifierLimits) : List Instruction → Scan → Scan
  | [], s => s
  | insn :: rest, s =>
    if insn.endAddress = badAddress then s.enter insn
    else Scan.loop limits rest ((s.enter insn).visit limits insn)

def finalAssignment (item : ℤ × ConstantState) : ConstantAssignment where
  instruction := item.2.support.getLast?.getD badAddress
  registerId := item.1
  value := item.2.value
  valueWidth := item.2.width
  transformationSteps := item.2.steps
  support := item.2.support

def ConstantTargetKind.rank : ConstantTargetKind → ℕ
  | .indirectCall => 0
  | .indirectJump => 1
  | .pushReturn => 2

def candidateLess (a b : ConstantTargetCandidate) : Bool :=
  if a.instruction ≠ b.instruction then a.instruction < b.instruction
  else if a.target ≠ b.target then a.target < b.target
  else a.kind.rank < b.kind.rank

def analyzeConstantBlock (block : Block) (limits : ClassifierLimits) : ConstantBlockResult :=
  let s := Scan.loop limits block.instructions { expected := block.start }
  { targets := Cxx.sort candidateLess s.targets
    finalAssignments := s.state.entries.map finalAssignment }

end Viy.Deobf
