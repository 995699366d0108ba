import Viy.Facts.Order

/-!
# Conflicts between payloads

`comparePayloads` lists the conflicts of two payloads: variations of observed values, ambiguities
between candidates, and contradictions, which cannot both be true. Conflicts are totally ordered by
`conflictOrder`, the order of their fields.
-/

namespace Viy.Analysis

open Wire

inductive ConflictSeverity where
  | variation | ambiguity | contradiction
  deriving DecidableEq

instance : Code ConflictSeverity where
  code
    | .variation => 1 | .ambiguity => 2 | .contradiction => 3
  values := [.variation, .ambiguity, .contradiction]
  mem_values a := by cases a <;> decide
  code_inj := by decide

inductive ConflictType where
  | reachableAndUnreachable | divergentMemoryValue | divergentStringCandidate
  | divergentFunctionCandidate | divergentFunctionTrait | returnBehaviorContradiction
  | incompatibleCodeRegion | divergentDispatchCase | divergentCfgReachability
  | divergentFunctionOutcome | conflictingUniqueCodeTarget | divergentRegisterValue
  | divergentCallObservation
  deriving DecidableEq

instance : Code ConflictType where
  code
    | .reachableAndUnreachable => 1 | .divergentMemoryValue => 2 | .divergentStringCandidate => 3
    | .divergentFunctionCandidate => 4 | .divergentFunctionTrait => 5
    | .returnBehaviorContradiction => 6 | .incompatibleCodeRegion => 7
    | .divergentDispatchCase => 8 | .divergentCfgReachability => 9
    | .divergentFunctionOutcome => 10 | .conflictingUniqueCodeTarget => 11
    | .divergentRegisterValue => 12 | .divergentCallObservation => 13
  values := [.reachableAndUnreachable, .divergentMemoryValue, .divergentStringCandidate,
    .divergentFunctionCandidate, .divergentFunctionTrait, .returnBehaviorContradiction,
    .incompatibleCodeRegion, .divergentDispatchCase, .divergentCfgReachability,
    .divergentFunctionOutcome, .conflictingUniqueCodeTarget, .divergentRegisterValue,
    .divergentCallObservation]
  mem_values a := by cases a <;> decide
  code_inj := by decide

structure EvidenceConflict where
  type : ConflictType
  severity : ConflictSeverity
  left : FactDigest
  right : FactDigest
  subject : Address
  secondarySubject : Option Address
  explanation : Bytes
  deriving DecidableEq

/-! ## The order of conflicts -/

/-- Enumerators compare by their codes. -/
def codeOrder (α : Type) [Code α] : Cxx.Comparator α := Cxx.Comparator.u8.comap code code_injective

/-- The fields that `conflict_less` ties together. -/
def conflictKey (c : EvidenceConflict) : ConflictType × ConflictSeverity × Address ×
    Option Address × FactDigest × FactDigest × Bytes :=
  (c.type, c.severity, c.subject, c.secondarySubject, c.left, c.right, c.explanation)

theorem conflictKey_injective : Function.Injective conflictKey := by
  rintro ⟨⟩ ⟨⟩ h
  simp only [conflictKey, Prod.mk.injEq] at h
  obtain ⟨rfl, rfl, rfl, rfl, rfl, rfl, rfl⟩ := h
  rfl

def conflictOrder : Cxx.Comparator EvidenceConflict :=
  ((codeOrder ConflictType).tie <| (codeOrder ConflictSeverity).tie <| Cxx.Comparator.u64.tie <|
    (Cxx.Comparator.option Cxx.Comparator.u64).tie <| digestOrder.tie <| digestOrder.tie
    bytesOrder).comap conflictKey conflictKey_injective

def conflictLess (lhs rhs : EvidenceConflict) : Bool := conflictOrder.less lhs rhs

def conflictsEqual (lhs rhs : EvidenceConflict) : Bool :=
  !conflictLess lhs rhs && !conflictLess rhs lhs

theorem conflictsEqual_iff (a b : EvidenceConflict) : conflictsEqual a b = true ↔ a = b := by
  rw [conflictsEqual, Bool.and_eq_true, Bool.not_eq_true', Bool.not_eq_true']
  exact conflictOrder.incomparable_iff

/-! ## Comparing payloads -/

def hexAddress (address : Address) : Bytes :=
  text "0x" ++ (Nat.toDigits 16 address.toNat).map fun digit => digit.toNat.toUInt8

def oppositeReachability (lhs rhs : Reachability) : Bool :=
  (lhs == .reached && rhs == .provenUnreachable) || (rhs == .reached && lhs == .provenUnreachable)

def regionKindsIncompatible (lhs rhs : CodeRegionKind) : Bool :=
  if lhs == rhs || lhs == .unknown || rhs == .unknown || lhs == .mixed || rhs == .mixed then false
  else
    let leftNoncode := lhs == .data || lhs == .padding
    let rightNoncode := rhs == .data || rhs == .padding
    (lhs == .code && rightNoncode) || (rhs == .code && leftNoncode)

def isReturnTrait (trait : FunctionTraitKind) : Bool := trait == .returns || trait == .noReturn

/-- The arguments of one call of `add_conflict`, the two payloads apart. -/
structure Finding where
  type : ConflictType
  severity : ConflictSeverity
  subject : Address
  secondary : Option Address
  explanation : Bytes

/-- The elements of the `std::set` in ascending order. -/
def dispatchTargets (fact : DispatchMapFact) : List Address :=
  Cxx.sortUnique Cxx.Comparator.u64.less addressEqual
    (fact.cases.map DispatchCase.target ++ fact.defaultTarget.toList)

/-- The first case of the right map with the selector of a left case, when its target differs. -/
def competingCase (right : DispatchMapFact) (leftCase : DispatchCase) : Option DispatchCase :=
  if leftCase.selector.isNone then none
  else (right.cases.find? fun rightCase => rightCase.selector == leftCase.selector).filter
    fun rightCase => rightCase.target != leftCase.target

def competingDefaults (left right : DispatchMapFact) : Bool :=
  left.defaultTarget.isSome && right.defaultTarget.isSome &&
    left.defaultTarget != right.defaultTarget

def dispatchMapsContradict (left right : DispatchMapFact) : Bool :=
  if left.site ≠ right.site then false
  else
    let leftTargets := dispatchTargets left
    let rightTargets := dispatchTargets right
    (left.cases.any fun leftCase =>
        (competingCase right leftCase).isSome && (left.complete || right.complete)) ||
      (competingDefaults left right && (left.complete || right.complete)) ||
      (left.complete && rightTargets.any fun target => !leftTargets.contains target) ||
      (right.complete && leftTargets.any fun target => !rightTargets.contains target)

def compareDispatchMaps (left right : DispatchMapFact) : List Finding :=
  if left.site ≠ right.site then []
  else
    let severity : ConflictSeverity :=
      if left.complete || right.complete then .contradiction else .ambiguity
    let absent (target : Address) : Finding :=
      ⟨.divergentDispatchCase, .contradiction, left.site, some target,
        text "observed dispatch target is absent from a complete map at " ++
          hexAddress left.site⟩
    let leftTargets := dispatchTargets left
    let rightTargets := dispatchTargets right
    (left.cases.filter fun leftCase => (competingCase right leftCase).isSome).map (fun leftCase =>
      ⟨.divergentDispatchCase, severity, left.site, leftCase.selector,
        text "dispatch selector maps to competing targets at " ++ hexAddress left.site⟩) ++
    (if competingDefaults left right then
      [⟨.divergentDispatchCase, severity, left.site, none,
        text "dispatch maps have competing default targets at " ++ hexAddress left.site⟩]
    else []) ++
    (if left.complete then
      (rightTargets.filter fun target => !leftTargets.contains target).map absent
    else []) ++
    (if right.complete then
      (leftTargets.filter fun target => !rightTargets.contains target).map absent
    else [])

/-- The value at an ordinal and location, by `std::lower_bound`. -/
def findCallValue (values : List CallValue) (ordinal : UInt32) (location : Bytes) :
    Option CallValue :=
  let found := Cxx.lowerBound
    (fun value key =>
      (Cxx.Comparator.u32.tie bytesOrder).less (value.ordinal, value.location) key)
    values (ordinal, location)
  found.2.head?.filter fun value => value.ordinal == ordinal && value.location == location

def overlappingCallValuesDiffer (left right : List CallValue) : Bool :=
  left.any fun value =>
    (findCallValue right value.ordinal value.location).any fun other => other.bytes != value.bytes

def compareTraits (left right : FunctionTraitFact) : List Finding :=
  if left.function ≠ right.function then []
  else if isReturnTrait left.trait && isReturnTrait right.trait && left.trait != right.trait then
    [⟨.returnBehaviorContradiction, .contradiction, left.function, none,
      text "function is asserted both returning and no-return at " ++ hexAddress left.function⟩]
  else if left.trait == right.trait then
    -- argument registers and producer-defined traits are set-valued
    if left.trait == .argumentRegister || left.trait == .other then []
    else
      let severity : ConflictSeverity :=
        if left.trait == .stackDelta || left.trait == .returnConstant then .variation
        else .ambiguity
      [⟨.divergentFunctionTrait, severity, left.function, none,
        text "function trait has competing values at " ++ hexAddress left.function⟩]
  else []

def compareCalls (left right : CallObservationFact) : List Finding :=
  if left.source ≠ right.source then []
  else
    let targetDiffers := left.target.isSome && right.target.isSome && left.target != right.target
    let kindDiffers := left.kind != .unknown && right.kind != .unknown && left.kind != right.kind
    let resultDiffers :=
      left.result != .unknown && right.result != .unknown && left.result != right.result
    let argumentDiffers := overlappingCallValuesDiffer left.arguments right.arguments
    let returnDiffers := overlappingCallValuesDiffer left.returns right.returns
    if targetDiffers || kindDiffers || resultDiffers || argumentDiffers || returnDiffers then
      [⟨.divergentCallObservation, if kindDiffers then .ambiguity else .variation, left.source,
        none, text "call target, ABI values, or outcome varies at " ++ hexAddress left.source⟩]
    else []

/-- What `compare_payloads` reports, in order; pairs of kinds that are not listed never
conflict. -/
def findings : FactPayload → FactPayload → List Finding
  | .codeTarget left, .codeTarget right =>
    if left.fromAddr == right.fromAddr && left.kind == right.kind &&
        left.target != right.target && (left.unique || right.unique) then
      [⟨.conflictingUniqueCodeTarget, .contradiction, left.fromAddr, none,
        text "sole-target assertions disagree at " ++ hexAddress left.fromAddr⟩]
    else []
  | .branchReachability left, .branchReachability right =>
    if left.branch == right.branch && left.successor == right.successor &&
        oppositeReachability left.state right.state then
      [⟨.reachableAndUnreachable, .contradiction, left.branch, some left.successor,
        text "the same branch edge is both reached and proven unreachable"⟩]
    else []
  | .branchReachability left, .cfgCandidate right =>
    if left.branch == right.fromAddr && left.successor == right.toAddr &&
        oppositeReachability left.state right.state then
      [⟨.reachableAndUnreachable, .contradiction, left.branch, some left.successor,
        text "branch and CFG evidence disagree on edge reachability"⟩]
    else []
  | .cfgCandidate left, .branchReachability right =>
    if left.fromAddr == right.branch && left.toAddr == right.successor &&
        oppositeReachability left.state right.state then
      [⟨.reachableAndUnreachable, .contradiction, left.fromAddr, some left.toAddr,
        text "CFG and branch evidence disagree on edge reachability"⟩]
    else []
  | .cfgCandidate left, .cfgCandidate right =>
    if left.fromAddr == right.fromAddr && left.toAddr == right.toAddr &&
        oppositeReachability left.state right.state then
      [⟨.divergentCfgReachability, .contradiction, left.fromAddr, some left.toAddr,
        text "the same CFG edge is both reached and proven unreachable"⟩]
    else []
  | .memoryValue left, .memoryValue right =>
    if left.instruction == right.instruction && left.address == right.address &&
        left.kind == right.kind && left.bytes != right.bytes then
      [⟨.divergentMemoryValue, .variation, left.address, some left.instruction,
        text "memory value varies at " ++ hexAddress left.address⟩]
    else []
  | .stringCandidate left, .stringCandidate right =>
    if left.address == right.address &&
        (left.encoding != right.encoding || left.bytes != right.bytes ||
          left.decoded != right.decoded || left.nullTerminated != right.nullTerminated) then
      [⟨.divergentStringCandidate, .ambiguity, left.address, none,
        text "competing string interpretations begin at " ++ hexAddress left.address⟩]
    else []
  | .functionCandidate left, .functionCandidate right =>
    if left.entry == right.entry && left.endAddr.isSome && right.endAddr.isSome &&
        left.endAddr != right.endAddr then
      [⟨.divergentFunctionCandidate, .ambiguity, left.entry, none,
        text "function candidates disagree on the end of " ++ hexAddress left.entry⟩]
    else []
  | .functionTrait left, .functionTrait right => compareTraits left right
  | .functionTrait left, .functionOutcome right =>
    if left.function == right.function && left.trait == .noReturn && right.stop == .returned then
      [⟨.returnBehaviorContradiction, .contradiction, left.function, none,
        text "a concrete return contradicts a no-return trait at " ++ hexAddress left.function⟩]
    else []
  | .functionOutcome left, .functionTrait right =>
    if left.function == right.function && left.stop == .returned && right.trait == .noReturn then
      [⟨.returnBehaviorContradiction, .contradiction, left.function, none,
        text "a concrete return contradicts a no-return trait at " ++ hexAddress left.function⟩]
    else []
  | .functionOutcome left, .functionOutcome right =>
    if left.function == right.function &&
        (left.stop != right.stop || left.stopPc != right.stopPc ||
          left.stackDelta != right.stackDelta ||
          left.instructionCount != right.instructionCount) then
      [⟨.divergentFunctionOutcome, .variation, left.function, none,
        text "function outcomes vary across observations at " ++ hexAddress left.function⟩]
    else []
  | .registerValue left, .registerValue right =>
    if left.instruction == right.instruction && left.point == right.point &&
        left.registerId == right.registerId && left.bytes != right.bytes then
      [⟨.divergentRegisterValue, .variation, left.instruction, none,
        text "register value varies at " ++ hexAddress left.instruction ++ text " for " ++
          left.registerId⟩]
    else []
  | .callObservation left, .callObservation right => compareCalls left right
  | .codeRegion left, .codeRegion right =>
    let overlapStart := max left.start right.start
    let overlapEnd := min left.endAddr right.endAddr
    if overlapStart < overlapEnd && regionKindsIncompatible left.kind right.kind then
      [⟨.incompatibleCodeRegion, .contradiction, overlapStart, some overlapEnd,
        text "overlapping regions classify bytes as both code and non-code"⟩]
    else []
  | .dispatchMap left, .dispatchMap right => compareDispatchMaps left right
  | _, _ => []

/-! ## Reporting conflicts -/

/-- A payload with the digest the accumulator holds for it. -/
structure Operand where
  payload : FactPayload
  digest : FactDigest

/-- The conflict of a finding, with the smaller digest on the left. -/
def Finding.conflict (left right : Operand) (finding : Finding) : EvidenceConflict :=
  let swapped := digestOrder.less right.digest left.digest
  { type := finding.type
    severity := finding.severity
    left := if swapped then right.digest else left.digest
    right := if swapped then left.digest else right.digest
    subject := finding.subject
    secondarySubject := finding.secondary
    explanation := finding.explanation }

/-- `add_conflict`: only contradictions are kept when nothing else is collected. -/
def addConflict (contradictionsOnly : Bool) (left right : Operand) (finding : Finding) :
    List EvidenceConflict :=
  if contradictionsOnly && finding.severity != .contradiction then []
  else [finding.conflict left right]

def comparePayloads (contradictionsOnly : Bool) (left right : Operand) : List EvidenceConflict :=
  (findings left.payload right.payload).flatMap (addConflict contradictionsOnly left right)

end Viy.Analysis
