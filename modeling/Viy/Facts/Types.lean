import Viy.Cxx.Comparator
import Viy.Wire.Reader

/-!
# Analysis facts

The data model of `analysis_facts.hpp`: the thirteen kinds of semantic payload a producer can
report, and the evidence that one observation attaches to a payload. A `std::string` is its bytes.
An enumeration is an inductive type, so an out-of-range enumerator exists only as a raw byte in an
encoded fact, where the decoder rejects it.
-/

namespace Viy.Analysis

open Wire

abbrev Address := UInt64

/-- Confidence is a score in basis points. -/
def kMaxConfidence : UInt16 := 10000

/-! ## Enumerations -/

inductive FactKind where
  | codeTarget | branchReachability | memoryAccess | memoryValue | stringCandidate
  | functionCandidate | functionTrait | codeRegion | dispatchMap | cfgCandidate
  | functionOutcome | registerValue | callObservation
  deriving DecidableEq

instance : Code FactKind where
  code
    | .codeTarget => 1 | .branchReachability => 2 | .memoryAccess => 3 | .memoryValue => 4
    | .stringCandidate => 5 | .functionCandidate => 6 | .functionTrait => 7 | .codeRegion => 8
    | .dispatchMap => 9 | .cfgCandidate => 10 | .functionOutcome => 11 | .registerValue => 12
    | .callObservation => 13
  values := [.codeTarget, .branchReachability, .memoryAccess, .memoryValue, .stringCandidate,
    .functionCandidate, .functionTrait, .codeRegion, .dispatchMap, .cfgCandidate,
    .functionOutcome, .registerValue, .callObservation]
  mem_values a := by cases a <;> decide
  code_inj := by decide

inductive ProofKind where
  | unknown | observed | staticProof | symbolicProof | crossRunCorroboration | heuristic
  | imported | userAsserted
  deriving DecidableEq

instance : Code ProofKind where
  code
    | .unknown => 0 | .observed => 1 | .staticProof => 2 | .symbolicProof => 3
    | .crossRunCorroboration => 4 | .heuristic => 5 | .imported => 6 | .userAsserted => 7
  values := [.unknown, .observed, .staticProof, .symbolicProof, .crossRunCorroboration,
    .heuristic, .imported, .userAsserted]
  mem_values a := by cases a <;> decide
  code_inj := by decide

inductive CodeTargetKind where
  | unknown | call | jump | fallthrough | return | tableEntry | exception
  deriving DecidableEq

instance : Code CodeTargetKind where
  code
    | .unknown => 0 | .call => 1 | .jump => 2 | .fallthrough => 3 | .return => 4
    | .tableEntry => 5 | .exception => 6
  values := [.unknown, .call, .jump, .fallthrough, .return, .tableEntry, .exception]
  mem_values a := by cases a <;> decide
  code_inj := by decide

/-- `notObserved` is absence only and never conflicts with reachability; `provenUnreachable`
requires a proof. -/
inductive Reachability where
  | notObserved | reached | provenUnreachable
  deriving DecidableEq

instance : Code Reachability where
  code
    | .notObserved => 0 | .reached => 1 | .provenUnreachable => 2
  values := [.notObserved, .reached, .provenUnreachable]
  mem_values a := by cases a <;> decide
  code_inj := by decide

inductive MemoryAccessKind where
  | read | write | execute | readWrite
  deriving DecidableEq

instance : Code MemoryAccessKind where
  code
    | .read => 1 | .write => 2 | .execute => 3 | .readWrite => 4
  values := [.read, .write, .execute, .readWrite]
  mem_values a := by cases a <;> decide
  code_inj := by decide

inductive StringEncoding where
  | bytes | ascii | utf8 | utf16LE | utf16BE | utf32LE | utf32BE
  deriving DecidableEq

instance : Code StringEncoding where
  code
    | .bytes => 0 | .ascii => 1 | .utf8 => 2 | .utf16LE => 3 | .utf16BE => 4 | .utf32LE => 5
    | .utf32BE => 6
  values := [.bytes, .ascii, .utf8, .utf16LE, .utf16BE, .utf32LE, .utf32BE]
  mem_values a := by cases a <;> decide
  code_inj := by decide

inductive FunctionCandidateKind where
  | other | entryPoint | callTarget | prologue | orphanChunk | exceptionHandler | «export»
  | userAsserted
  deriving DecidableEq

instance : Code FunctionCandidateKind where
  code
    | .other => 0 | .entryPoint => 1 | .callTarget => 2 | .prologue => 3 | .orphanChunk => 4
    | .exceptionHandler => 5 | .export => 6 | .userAsserted => 7
  values := [.other, .entryPoint, .callTarget, .prologue, .orphanChunk, .exceptionHandler,
    .export, .userAsserted]
  mem_values a := by cases a <;> decide
  code_inj := by decide

inductive FunctionTraitKind where
  | other | returns | noReturn | stackDelta | argumentRegister | returnConstant | wrapperTarget
  | leaf | thunk | callingConvention
  deriving DecidableEq

instance : Code FunctionTraitKind where
  code
    | .other => 0 | .returns => 1 | .noReturn => 2 | .stackDelta => 3 | .argumentRegister => 4
    | .returnConstant => 5 | .wrapperTarget => 6 | .leaf => 7 | .thunk => 8
    | .callingConvention => 9
  values := [.other, .returns, .noReturn, .stackDelta, .argumentRegister, .returnConstant,
    .wrapperTarget, .leaf, .thunk, .callingConvention]
  mem_values a := by cases a <;> decide
  code_inj := by decide

inductive TraitValueKind where
  | none | signed | unsigned | boolean | text
  deriving DecidableEq

instance : Code TraitValueKind where
  code
    | .none => 0 | .signed => 1 | .unsigned => 2 | .boolean => 3 | .text => 4
  values := [.none, .signed, .unsigned, .boolean, .text]
  mem_values a := by cases a <;> decide
  code_inj := by decide

inductive CodeRegionKind where
  | unknown | code | data | mixed | padding
  deriving DecidableEq

instance : Code CodeRegionKind where
  code
    | .unknown => 0 | .code => 1 | .data => 2 | .mixed => 3 | .padding => 4
  values := [.unknown, .code, .data, .mixed, .padding]
  mem_values a := by cases a <;> decide
  code_inj := by decide

inductive CfgEdgeKind where
  | unknown | fallthrough | trueBranch | falseBranch | call | return | exception | indirect
  deriving DecidableEq

instance : Code CfgEdgeKind where
  code
    | .unknown => 0 | .fallthrough => 1 | .trueBranch => 2 | .falseBranch => 3 | .call => 4
    | .return => 5 | .exception => 6 | .indirect => 7
  values := [.unknown, .fallthrough, .trueBranch, .falseBranch, .call, .return, .exception,
    .indirect]
  mem_values a := by cases a <;> decide
  code_inj := by decide

inductive FunctionStopKind where
  | unknown | returned | halted | faulted | timedOut | budgetExhausted | escapedFunction
  | terminatedProcess
  deriving DecidableEq

instance : Code FunctionStopKind where
  code
    | .unknown => 0 | .returned => 1 | .halted => 2 | .faulted => 3 | .timedOut => 4
    | .budgetExhausted => 5 | .escapedFunction => 6 | .terminatedProcess => 7
  values := [.unknown, .returned, .halted, .faulted, .timedOut, .budgetExhausted,
    .escapedFunction, .terminatedProcess]
  mem_values a := by cases a <;> decide
  code_inj := by decide

inductive RegisterStatePoint where
  | beforeInstruction | afterInstruction | functionEntry | functionExit | callEntry | callReturn
  deriving DecidableEq

instance : Code RegisterStatePoint where
  code
    | .beforeInstruction => 1 | .afterInstruction => 2 | .functionEntry => 3 | .functionExit => 4
    | .callEntry => 5 | .callReturn => 6
  values := [.beforeInstruction, .afterInstruction, .functionEntry, .functionExit, .callEntry,
    .callReturn]
  mem_values a := by cases a <;> decide
  code_inj := by decide

inductive CallKind where
  | unknown | call | tailCall | systemCall | importedCall
  deriving DecidableEq

instance : Code CallKind where
  code
    | .unknown => 0 | .call => 1 | .tailCall => 2 | .systemCall => 3 | .importedCall => 4
  values := [.unknown, .call, .tailCall, .systemCall, .importedCall]
  mem_values a := by cases a <;> decide
  code_inj := by decide

inductive CallResult where
  | unknown | returned | noReturn | faulted | timedOut
  deriving DecidableEq

instance : Code CallResult where
  code
    | .unknown => 0 | .returned => 1 | .noReturn => 2 | .faulted => 3 | .timedOut => 4
  values := [.unknown, .returned, .noReturn, .faulted, .timedOut]
  mem_values a := by cases a <;> decide
  code_inj := by decide

/-! ## Evidence -/

/-- The scope fields are independently optional; `functionEnd` is exclusive. -/
structure EvidenceScope where
  runId : Option UInt64 := none
  seed : Option UInt64 := none
  functionStart : Option Address := none
  functionEnd : Option Address := none
  generation : UInt64 := 0
  deriving DecidableEq

structure Evidence where
  producer : Bytes := []
  method : Bytes := []
  proof : ProofKind := .unknown
  confidence : UInt16 := 0
  scope : EvidenceScope := {}
  supportAddresses : List Address := []
  detail : Bytes := []
  deriving DecidableEq

/-! ## Payloads -/

/-- `unique` asserts that `target` is the sole target of `(fromAddr, kind)`. -/
structure CodeTargetFact where
  fromAddr : Address
  target : Address
  kind : CodeTargetKind
  unique : Bool
  deriving DecidableEq

structure BranchReachabilityFact where
  branch : Address
  successor : Address
  state : Reachability
  deriving DecidableEq

structure MemoryAccessFact where
  instruction : Address
  address : Address
  size : UInt32
  kind : MemoryAccessKind
  deriving DecidableEq

structure MemoryValueFact where
  instruction : Address
  address : Address
  kind : MemoryAccessKind
  bytes : Bytes
  deriving DecidableEq

structure StringCandidateFact where
  address : Address
  encoding : StringEncoding
  bytes : Bytes
  decoded : Bytes
  nullTerminated : Bool
  deriving DecidableEq

structure FunctionCandidateFact where
  entry : Address
  endAddr : Option Address
  kind : FunctionCandidateKind
  deriving DecidableEq

/-- One member is active, as `kind` says; the others are cleared by normalization. -/
structure TraitValue where
  kind : TraitValueKind := .none
  signedValue : Int64 := 0
  unsignedValue : UInt64 := 0
  booleanValue : Bool := false
  textValue : Bytes := []
  deriving DecidableEq

structure FunctionTraitFact where
  function : Address
  trait : FunctionTraitKind
  value : TraitValue
  deriving DecidableEq

structure CodeRegionFact where
  start : Address
  endAddr : Address
  kind : CodeRegionKind
  deriving DecidableEq

/-- A missing selector is an observed target whose case value is unknown. -/
structure DispatchCase where
  selector : Option UInt64
  target : Address
  deriving DecidableEq

/-- `complete` asserts that all destinations are in the cases or the default target. -/
structure DispatchMapFact where
  site : Address
  cases : List DispatchCase
  defaultTarget : Option Address
  complete : Bool
  deriving DecidableEq

structure CfgCandidateFact where
  fromAddr : Address
  toAddr : Address
  kind : CfgEdgeKind
  state : Reachability
  deriving DecidableEq

structure FunctionOutcomeFact where
  function : Address
  stop : FunctionStopKind
  stopPc : Option Address
  stackDelta : Option Int64
  instructionCount : Option UInt64
  deriving DecidableEq

structure RegisterValueFact where
  instruction : Address
  point : RegisterStatePoint
  registerId : Bytes
  bytes : Bytes
  deriving DecidableEq

/-- A known argument or return component: its ordinal, its ABI carrier and its bytes. -/
structure CallValue where
  ordinal : UInt32
  location : Bytes
  bytes : Bytes
  deriving DecidableEq

structure CallObservationFact where
  source : Address
  target : Option Address
  kind : CallKind
  result : CallResult
  arguments : List CallValue
  returns : List CallValue
  deriving DecidableEq

inductive FactPayload where
  | codeTarget (fact : CodeTargetFact)
  | branchReachability (fact : BranchReachabilityFact)
  | memoryAccess (fact : MemoryAccessFact)
  | memoryValue (fact : MemoryValueFact)
  | stringCandidate (fact : StringCandidateFact)
  | functionCandidate (fact : FunctionCandidateFact)
  | functionTrait (fact : FunctionTraitFact)
  | codeRegion (fact : CodeRegionFact)
  | dispatchMap (fact : DispatchMapFact)
  | cfgCandidate (fact : CfgCandidateFact)
  | functionOutcome (fact : FunctionOutcomeFact)
  | registerValue (fact : RegisterValueFact)
  | callObservation (fact : CallObservationFact)
  deriving DecidableEq

structure AnalysisFact where
  payload : FactPayload
  evidence : Evidence
  deriving DecidableEq

def factKind : FactPayload → FactKind
  | .codeTarget _ => .codeTarget
  | .branchReachability _ => .branchReachability
  | .memoryAccess _ => .memoryAccess
  | .memoryValue _ => .memoryValue
  | .stringCandidate _ => .stringCandidate
  | .functionCandidate _ => .functionCandidate
  | .functionTrait _ => .functionTrait
  | .codeRegion _ => .codeRegion
  | .dispatchMap _ => .dispatchMap
  | .cfgCandidate _ => .cfgCandidate
  | .functionOutcome _ => .functionOutcome
  | .registerValue _ => .registerValue
  | .callObservation _ => .callObservation

/-! ## Digests and limits -/

/-- A 32-byte identity. -/
structure FactDigest where
  bytes : Bytes
  size : bytes.length = 32
  deriving DecidableEq

/-- The digest a default-constructed variable holds. -/
def FactDigest.zero : FactDigest := ⟨List.replicate 32 0, List.length_replicate⟩

theorem FactDigest.bytes_injective : Function.Injective FactDigest.bytes := by
  rintro ⟨a, _⟩ ⟨b, _⟩ rfl
  rfl

/-- Byte sequences in `std::vector` order. -/
def bytesOrder : Cxx.Comparator Bytes := Cxx.Comparator.lex Cxx.Comparator.u8

/-- `operator<` of digests. -/
def digestOrder : Cxx.Comparator FactDigest := bytesOrder.comap _ FactDigest.bytes_injective

structure FactCodecLimits where
  maxFactBytes : ℕ := 4 * 1024 * 1024
  maxStringBytes : ℕ := 1 * 1024 * 1024
  maxVectorItems : ℕ := 1 * 1024 * 1024

end Viy.Analysis
