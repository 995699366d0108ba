import Viy.Deobf.Constants

/-!
# Gadgets that read the program counter

`classify_get_pc_gadget` looks at the target of a call that takes its own return address from the
stack, changes it and goes on from there. It follows one register and the return slot through the
gadget, with the distance from the return address as a signed number, up to the return.
-/

namespace Viy.Deobf

open Wire

/-! ## Signed distances -/

/-- `static_cast<int64_t>` -/
def toSigned (v : UInt64) : ℤ := v.toBitVec.toInt

def addSignedAddress (base : UInt64) (delta : ℤ) : Option UInt64 :=
  if 0 ≤ delta then
    let add := UInt64.ofNat delta.toNat
    if base > ~~~0 - add then none else some (base + add)
  else
    let sub := UInt64.ofNat (-(delta + 1)).toNat + 1
    if base < sub then none else some (base - sub)

def addDelta (value delta : ℤ) : Option ℤ :=
  if 0 < delta ∧ value > 2 ^ 63 - 1 - delta then none
  else if delta < 0 ∧ value < -2 ^ 63 - delta then none
  else some (value + delta)

/-! ## The classifier -/

inductive GetPcMode where
  | popReturnAddress | readReturnAddress | adjustReturnAddress | discardReturnAddress
deriving DecidableEq

structure GetPcCandidate where
  call : UInt64 := badAddress
  gadget : UInt64 := badAddress
  pushedReturn : UInt64 := badAddress
  returnInstruction : UInt64 := badAddress
  resumedAt : Option UInt64 := none
  pcRegister : ℤ := noRegister
  pcRegisterName : Bytes := []
  registerValueAtReturn : Option UInt64 := none
  delta : ℤ := 0
  mode : GetPcMode := .popReturnAddress
  support : List UInt64 := []
deriving DecidableEq

/-- The local variables of the classifier. -/
structure GadgetScan where
  result : GetPcCandidate
  stackTargetAdjusted : Bool := false
  pushedTrackedRegister : Bool := false
  pushedRegisterDelta : ℤ := 0
  registerKnown : Bool := false
  pcRegisterWidth : UInt8 := 0
  expected : UInt64

/-- The entry takes the return address into a register. -/
def trackRegister (result : GetPcCandidate) (entry : Instruction) (mode : GetPcMode) :
    Option GadgetScan :=
  if entry.destinationRegister = noRegister then none
  else
    some
      { result :=
          { result with
            mode := mode
            pcRegister := entry.destinationRegister
            pcRegisterName := entry.destinationName }
        pcRegisterWidth := entry.valueWidth
        registerKnown := true
        expected := entry.endAddress }

def scanEntry (result : GetPcCandidate) (entry : Instruction) : Option GadgetScan :=
  match entry.kind with
  | .popRegister => trackRegister result entry .popReturnAddress
  | .readStackTop => trackRegister result entry .readReturnAddress
  | .addStackTopImmediate =>
    some
      { result := { result with mode := .adjustReturnAddress, delta := toSigned entry.immediate }
        stackTargetAdjusted := true
        expected := entry.endAddress }
  | .adjustStackPointerImmediate =>
    if toSigned entry.immediate ≤ 0 then none
    else
      some
        { result := { result with mode := .discardReturnAddress }
          expected := entry.endAddress }
  | _ => none

/-- The address that the return pops, if the slot has been followed. -/
def reportResumed (s : GadgetScan) (result : GetPcCandidate) : Option GetPcCandidate :=
  if s.stackTargetAdjusted || s.pushedTrackedRegister then
    let returnDelta := if s.pushedTrackedRegister then s.pushedRegisterDelta else result.delta
    (addSignedAddress result.pushedReturn returnDelta).map fun resumed =>
      { result with resumedAt := some resumed }
  else some result

def reportRegister (s : GadgetScan) (result : GetPcCandidate) : Option GetPcCandidate :=
  if s.registerKnown then
    (addSignedAddress result.pushedReturn result.delta).map fun value =>
      { result with registerValueAtReturn := some value }
  else some result

/-- The return: the values are reported, unless one is no address. -/
def finishAtReturn (s : GadgetScan) (insn : Instruction) : Option GetPcCandidate :=
  (reportResumed s { s.result with returnInstruction := insn.address }).bind fun result =>
    (reportRegister s result).bind fun result =>
      if result.mode = .readReturnAddress ∧ s.pushedTrackedRegister = false then none
      else some { result with support := normalizeSupport result.support }

def isControlFlow (insn : Instruction) : Bool :=
  insn.kind = .directCall || insn.kind = .indirectCall || insn.kind = .directJump ||
    insn.kind = .indirectJump || insn.kind = .conditionalBranch

/-- Changes of the top of the stack that are not followed. -/
def changesStackTop (insn : Instruction) : Bool :=
  insn.kind = .pushImmediate || insn.kind = .popRegister || insn.kind = .addStackTopImmediate ||
    insn.kind = .adjustStackPointerImmediate

/-- Widths that are both known and differ. -/
def widthsDiffer (a b : UInt8) : Bool := a != 0 && b != 0 && b != a

def adjustRegister (s : GadgetScan) (insn : Instruction) : Option GadgetScan :=
  if s.registerKnown && decide (insn.destinationRegister = s.result.pcRegister) then
    let registerKnown := !widthsDiffer s.pcRegisterWidth insn.valueWidth
    if registerKnown && decide (insn.kind = .addImmediate) then
      (addDelta s.result.delta (toSigned insn.immediate)).map fun delta =>
        { s with result := { s.result with delta := delta } }
    else if registerKnown && decide (insn.kind = .subImmediate) then
      let value := toSigned insn.immediate
      if value = -2 ^ 63 then none
      else
        (addDelta s.result.delta (-value)).map fun delta =>
          { s with result := { s.result with delta := delta } }
    else some { s with registerKnown := false }
  else some s

def pushTracked (s : GadgetScan) (insn : Instruction) : Option GadgetScan :=
  if insn.kind = .pushRegister then
    if s.registerKnown && decide (insn.sourceRegister = s.result.pcRegister) &&
        !widthsDiffer s.pcRegisterWidth insn.valueWidth then
      some { s with pushedTrackedRegister := true, pushedRegisterDelta := s.result.delta }
    else none
  else some s

/-- The checks at the head of the loop. -/
def advance (s : GadgetScan) (insn : Instruction) : Option GadgetScan :=
  if insn.address ≠ s.expected ∨ insn.alternatePredecessor = true then none
  else if insn.endAddress = badAddress then none
  else
    some
      { s with
        expected := insn.endAddress
        result := { s.result with support := s.result.support ++ [insn.address] } }

/-- The rest of the loop, for an instruction that is not the return. -/
def scanInstruction (s : GadgetScan) (insn : Instruction) : Option GadgetScan :=
  if isControlFlow insn then none
  else if changesStackTop insn then none
  else (adjustRegister s insn).bind fun s => pushTracked s insn

def scanGadget : List Instruction → GadgetScan → Option GetPcCandidate
  | [], s =>
    if s.result.mode = .discardReturnAddress then
      some { s.result with support := normalizeSupport s.result.support }
    else none
  | insn :: rest, s =>
    (advance s insn).bind fun s =>
      if insn.kind = .return then finishAtReturn s insn
      else (scanInstruction s insn).bind (scanGadget rest)

def classifyGetPcGadget (call : Instruction) (gadget : List Instruction) (otherCallers : Bool)
    (limits : ClassifierLimits) : Option GetPcCandidate :=
  match gadget with
  | [] => none
  | entry :: rest =>
    if call.kind ≠ .directCall ∨ call.size = 0 ∨ call.target = badAddress ∨ otherCallers = true ∨
        entry.address ≠ call.target ∨ limits.gadgetDepth = 0 then none
    else
      let pushedReturn := call.endAddress
      if pushedReturn = badAddress ∨ call.target = pushedReturn then none
      else if call.target > pushedReturn ∧ call.target - pushedReturn > limits.maximumGap then none
      else
        (scanEntry
            { call := call.address
              gadget := call.target
              pushedReturn := pushedReturn
              support := [call.address, call.target] } entry).bind fun s =>
          if s.expected = badAddress then none
          else
            let count := min gadget.length (limits.gadgetDepth + 1).toNat
            scanGadget (rest.take (count - 1)) s

end Viy.Deobf
