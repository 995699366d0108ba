import Viy.Cxx.Algorithm
import Viy.Facts.Utf

/-!
# Normalization and validation

`normalizePayload`, `normalizeEvidence` and `normalizeFact` bring the set-like vectors of a fact
into sorted form without repetitions, clear the inactive members of a trait value, and then
validate. Each is idempotent: an accepted value is its own normal form.
-/

namespace Viy.Analysis

open Wire

/-- The largest 32-bit length. -/
def u32Max : ℕ := 4294967295

/-- The largest address. -/
def u64Max : ℕ := 18446744073709551615

/-! ## Errors -/

def fail {α : Type} (message : String) : Except Bytes α := .error (text message)

/-- Reject with a message unless a condition holds. -/
def require (p : Prop) [Decidable p] (message : String) : Except Bytes Unit :=
  if p then .ok () else fail message

theorem require_bind_eq_ok {α : Type} {p : Prop} [Decidable p] {m : String}
    {k : Unit → Except Bytes α} {a : α} :
    (require p m >>= k) = .ok a ↔ p ∧ k () = .ok a := by
  unfold require
  split_ifs with h
  · exact (and_iff_right h).symm
  · exact iff_of_false (by rintro ⟨⟩) fun h' => h h'.1

theorem require_eq_ok {p : Prop} [Decidable p] {m : String} :
    require p m = .ok () ↔ p := by
  unfold require
  split_ifs with h
  · exact iff_of_true rfl h
  · exact iff_of_false (by rintro ⟨⟩) h

theorem bind_eq_ok {ε α β : Type} {x : Except ε α} {k : α → Except ε β} {b : β} :
    (x >>= k) = .ok b ↔ ∃ a, x = .ok a ∧ k a = .ok b := by
  cases x with
  | error e => exact iff_of_false (by rintro ⟨⟩) (by rintro ⟨_, ⟨⟩, _⟩)
  | ok a =>
    constructor
    · exact fun h => ⟨a, rfl, h⟩
    · rintro ⟨_, ⟨rfl⟩, h⟩
      exact h

theorem pure_eq_ok {ε α : Type} {a b : α} : (pure a : Except ε α) = .ok b ↔ a = b :=
  ⟨fun h => Except.ok.inj h, fun h => h ▸ rfl⟩

/-! ## Orders of the set-like vectors -/

/-- Known selectors precede unknown ones. -/
def dispatchCaseLess (lhs rhs : DispatchCase) : Bool :=
  if lhs.selector.isSome != rhs.selector.isSome then lhs.selector.isSome
  else if lhs.selector ≠ rhs.selector then
    (Cxx.Comparator.option Cxx.Comparator.u64).less lhs.selector rhs.selector
  else lhs.target < rhs.target

def dispatchCaseEqual (lhs rhs : DispatchCase) : Bool :=
  lhs.selector == rhs.selector && lhs.target == rhs.target

theorem dispatchCaseEqual_iff (a b : DispatchCase) : dispatchCaseEqual a b = true ↔ a = b := by
  rcases a with ⟨s, t⟩
  rcases b with ⟨s', t'⟩
  simp [dispatchCaseEqual]

/-- The key under which `dispatchCaseLess` is a lexicographic order. -/
def dispatchCaseKey (d : DispatchCase) : Bool × Option UInt64 × Address :=
  (d.selector.isNone, d.selector, d.target)

theorem dispatchCaseKey_injective : Function.Injective dispatchCaseKey := by
  rintro ⟨s, t⟩ ⟨s', t'⟩ h
  simp only [dispatchCaseKey, Prod.mk.injEq] at h
  rw [h.2.1, h.2.2]

/-- `false` before `true`. -/
def boolOrder : Cxx.Comparator Bool :=
  ⟨fun a b => !a && b, by decide, by decide, by decide⟩

def dispatchCaseKeyOrder : Cxx.Comparator (Bool × Option UInt64 × Address) :=
  boolOrder.tie ((Cxx.Comparator.option Cxx.Comparator.u64).tie Cxx.Comparator.u64)

theorem dispatchCaseLess_eq (a b : DispatchCase) :
    dispatchCaseLess a b = dispatchCaseKeyOrder.less (dispatchCaseKey a) (dispatchCaseKey b) := by
  rw [dispatchCaseKeyOrder, Cxx.Comparator.tie_less_eq_ite, Cxx.Comparator.tie_less_eq_ite]
  rcases a with ⟨_ | s, t⟩ <;> rcases b with ⟨_ | s', t'⟩
  · rfl
  · rfl
  · rfl
  · by_cases h : s = s'
    · simp [dispatchCaseLess, dispatchCaseKey, h, Cxx.Comparator.u64, Cxx.Comparator.ofToNat]
    · simp [dispatchCaseLess, dispatchCaseKey, h]

def dispatchCaseOrder : Cxx.Comparator DispatchCase where
  less := dispatchCaseLess
  irrefl a := by rw [dispatchCaseLess_eq, dispatchCaseKeyOrder.irrefl]
  trans {a b d} := by
    rw [dispatchCaseLess_eq, dispatchCaseLess_eq, dispatchCaseLess_eq a d]
    exact dispatchCaseKeyOrder.trans
  total {a b} := by
    rw [dispatchCaseLess_eq, dispatchCaseLess_eq]
    exact fun h h' => dispatchCaseKey_injective (dispatchCaseKeyOrder.total h h')

def callValueOrder : Cxx.Comparator CallValue :=
  (Cxx.Comparator.u32.tie (bytesOrder.tie bytesOrder)).comap
    (fun value => (value.ordinal, value.location, value.bytes)) (by
      rintro ⟨o, l, b⟩ ⟨o', l', b'⟩ h
      simpa using h)

def callValueLess (lhs rhs : CallValue) : Bool := callValueOrder.less lhs rhs

def callValueEqual (lhs rhs : CallValue) : Bool :=
  lhs.ordinal == rhs.ordinal && lhs.location == rhs.location && lhs.bytes == rhs.bytes

theorem callValueEqual_iff (a b : CallValue) : callValueEqual a b = true ↔ a = b := by
  rcases a with ⟨o, l, d⟩
  rcases b with ⟨o', l', d'⟩
  simp [callValueEqual, and_assoc]

def addressEqual (lhs rhs : Address) : Bool := lhs == rhs

theorem addressEqual_iff (a b : Address) : addressEqual a b = true ↔ a = b := beq_iff_eq

/-! ## Validation -/

def rangeValid (start endAddr : Address) : Bool := start < endAddr

/-- The last byte of the range is an address; the exclusive end need not be. -/
def sizedRangeValid (start : Address) (size : ℕ) : Bool :=
  size != 0 && size - 1 ≤ u64Max - start.toNat

def validateTraitValue (value : TraitValue) : Except Bytes Unit := do
  require (value.kind = .text ∨ value.textValue = [])
    "inactive function-trait text field is non-empty"
  require (value.kind = .signed ∨ value.signedValue = 0)
    "inactive function-trait signed field is non-zero"
  require (value.kind = .unsigned ∨ value.unsignedValue = 0)
    "inactive function-trait unsigned field is non-zero"
  require (value.kind = .boolean ∨ value.booleanValue = false)
    "inactive function-trait boolean field is non-zero"

def validateTraitValueForKind (trait : FunctionTraitKind) (value : TraitValue) :
    Except Bytes Unit :=
  match trait with
  | .returns | .noReturn | .leaf | .thunk =>
    require (value.kind = .none) "function trait requires no value"
  | .stackDelta => require (value.kind = .signed) "function trait requires a signed stack delta"
  | .argumentRegister =>
    require (value.kind = .unsigned ∨ value.kind = .text)
      "function trait requires an unsigned register id or register name"
  | .returnConstant =>
    require (value.kind = .signed ∨ value.kind = .unsigned)
      "function trait requires a signed or unsigned return constant"
  | .wrapperTarget =>
    require (value.kind = .unsigned) "function trait requires an unsigned wrapper target address"
  | .callingConvention =>
    require (value.kind = .text) "function trait requires a calling-convention name"
  | .other => .ok ()

/-- The loop of `validate_call_values`, with the value before the current one. -/
def validateCallValuesFrom (role : String) : Option CallValue → List CallValue → Except Bytes Unit
  | _, [] => .ok ()
  | previous, value :: rest => do
    require (value.location ≠ []) ("call " ++ role ++ " location is empty")
    require (value.bytes ≠ []) ("call " ++ role ++ " value is empty")
    require (value.location.length ≤ u32Max ∧ value.bytes.length ≤ u32Max)
      ("call " ++ role ++ " value exceeds a canonical length limit")
    require (¬ previous.any fun p => p.ordinal == value.ordinal && p.location == value.location)
      ("call " ++ role ++ " assigns one ABI location multiple values")
    validateCallValuesFrom role (some value) rest

def validateCallValues (values : List CallValue) (role : String) : Except Bytes Unit := do
  require (values.length ≤ u32Max) ("call " ++ role ++ " vector exceeds the canonical item limit")
  require (Cxx.isSorted callValueLess values)
    ("call " ++ role ++ " values are not canonically sorted")
  validateCallValuesFrom role none values

/-- No selector is followed by itself with another target. -/
def selectorsFunctional : List DispatchCase → Bool
  | previous :: current :: rest =>
    !(previous.selector.isSome && current.selector == previous.selector &&
        current.target != previous.target) &&
      selectorsFunctional (current :: rest)
  | _ => true

/-- The range checks on enumerators hold by typing and are not repeated here. -/
def validatePayload : FactPayload → Except Bytes Unit
  | .codeTarget _ | .branchReachability _ | .cfgCandidate _ | .functionOutcome _ => .ok ()
  | .memoryAccess fact =>
    require (sizedRangeValid fact.address fact.size.toNat)
      "memory-access fact has an empty or overflowing address range"
  | .memoryValue fact => do
    require (sizedRangeValid fact.address fact.bytes.length)
      "memory-value fact has an empty or overflowing byte range"
    require (fact.bytes.length ≤ u32Max) "memory-value fact exceeds the canonical byte limit"
  | .stringCandidate fact => do
    require (fact.bytes ≠ [] ∨ fact.nullTerminated)
      "empty string candidate must include a terminator observation"
    require (fact.bytes.length ≤ u32Max ∧ fact.decoded.length ≤ u32Max)
      "string-candidate fact exceeds a canonical length limit"
    require (stringBytesMatchEncoding fact)
      "string-candidate bytes are invalid for the declared encoding"
    require (fact.decoded = [] ∨ validUtf8 fact.decoded)
      "string-candidate display text is not valid UTF-8"
    let terminatorSize := if fact.nullTerminated then stringCodeUnitSize fact.encoding else 0
    require (fact.bytes.length ≤ u64Max - terminatorSize ∧
        sizedRangeValid fact.address (fact.bytes.length + terminatorSize))
      "string-candidate fact has an overflowing address range"
  | .functionCandidate fact =>
    require (fact.endAddr.all fun endAddr => rangeValid fact.entry endAddr)
      "function-candidate fact has an invalid range"
  | .functionTrait fact => do
    validateTraitValue fact.value
    validateTraitValueForKind fact.trait fact.value
  | .codeRegion fact =>
    require (rangeValid fact.start fact.endAddr)
      "code-region fact has an empty or inverted range"
  | .dispatchMap fact => do
    require (fact.cases ≠ [] ∨ fact.defaultTarget.isSome) "dispatch-map fact has no destinations"
    require (fact.cases.length ≤ u32Max) "dispatch-map fact exceeds the canonical item limit"
    require (Cxx.sort dispatchCaseLess fact.cases = fact.cases)
      "dispatch-map cases are not canonically sorted"
    require (¬ Cxx.adjacentFind dispatchCaseEqual fact.cases)
      "dispatch-map cases contain an exact duplicate"
    require (selectorsFunctional fact.cases)
      "one dispatch map assigns a selector to multiple targets"
  | .registerValue fact => do
    require (fact.registerId ≠ []) "register-value fact has an empty register id"
    require (fact.bytes ≠ []) "register-value fact has an empty value"
    require (fact.registerId.length ≤ u32Max ∧ fact.bytes.length ≤ u32Max)
      "register-value fact exceeds a canonical length limit"
  | .callObservation fact => do
    validateCallValues fact.arguments "argument"
    validateCallValues fact.returns "return"
    require (fact.returns = [] ∨ fact.result = .returned)
      "call return values require a Returned result"

/-- `validate_evidence`; `proofValid` is the range check of a proof kind read from a byte. -/
def validateEvidenceWith (proofValid : Bool) (evidence : Evidence) : Except Bytes Unit := do
  require (evidence.producer ≠ []) "evidence producer id is empty"
  require (evidence.method ≠ []) "evidence method id is empty"
  require proofValid "evidence has an invalid proof kind"
  require (evidence.confidence ≤ kMaxConfidence) "evidence confidence exceeds 10000 basis points"
  require (evidence.scope.functionEnd = none ∨ evidence.scope.functionStart.isSome)
    "evidence function_end is present without function_start"
  require (evidence.scope.functionStart.all fun start =>
      evidence.scope.functionEnd.all fun endAddr => rangeValid start endAddr)
    "evidence has an invalid function scope"
  require (Cxx.isSorted Cxx.Comparator.u64.less evidence.supportAddresses)
    "evidence support addresses are not sorted"
  require (¬ Cxx.adjacentFind addressEqual evidence.supportAddresses)
    "evidence support addresses contain duplicates"
  require (evidence.supportAddresses.length ≤ u32Max ∧ evidence.producer.length ≤ u32Max ∧
      evidence.method.length ≤ u32Max ∧ evidence.detail.length ≤ u32Max)
    "evidence exceeds a canonical length limit"

def validateEvidence (evidence : Evidence) : Except Bytes Unit := validateEvidenceWith true evidence

def proofCanEstablishUnreachable (proof : ProofKind) : Bool :=
  proof == .staticProof || proof == .symbolicProof || proof == .imported || proof == .userAsserted

/-- The reachability state a payload asserts, if it is about reachability. -/
def reachabilityState : FactPayload → Option Reachability
  | .branchReachability branch => some branch.state
  | .cfgCandidate edge => some edge.state
  | _ => none

def validateFact (fact : AnalysisFact) : Except Bytes Unit := do
  validatePayload fact.payload
  validateEvidence fact.evidence
  require (reachabilityState fact.payload = some .provenUnreachable →
      proofCanEstablishUnreachable fact.evidence.proof)
    ("proven-unreachable evidence requires a static, symbolic, imported, or user proof")

/-! ## Normalization -/

def normalizeTraitValue (value : TraitValue) : TraitValue where
  kind := value.kind
  signedValue := if value.kind = .signed then value.signedValue else 0
  unsignedValue := if value.kind = .unsigned then value.unsignedValue else 0
  booleanValue := if value.kind = .boolean then value.booleanValue else false
  textValue := if value.kind = .text then value.textValue else []

def normalizeCallValues (values : List CallValue) : List CallValue :=
  Cxx.sortUnique callValueLess callValueEqual values

/-- The rewriting part of `normalize_payload`. -/
def normalForm : FactPayload → FactPayload
  | .functionTrait fact => .functionTrait { fact with value := normalizeTraitValue fact.value }
  | .dispatchMap fact =>
    .dispatchMap { fact with cases := Cxx.sortUnique dispatchCaseLess dispatchCaseEqual fact.cases }
  | .callObservation fact =>
    .callObservation { fact with
      arguments := normalizeCallValues fact.arguments
      returns := normalizeCallValues fact.returns }
  | payload => payload

def normalizePayload (payload : FactPayload) : Except Bytes FactPayload := do
  validatePayload (normalForm payload)
  return normalForm payload

/-- The rewriting part of `normalize_evidence`. -/
def normalEvidence (evidence : Evidence) : Evidence :=
  { evidence with supportAddresses :=
      Cxx.sortUnique Cxx.Comparator.u64.less addressEqual evidence.supportAddresses }

def normalizeEvidence (evidence : Evidence) : Except Bytes Evidence := do
  validateEvidence (normalEvidence evidence)
  return normalEvidence evidence

def normalizeFact (fact : AnalysisFact) : Except Bytes AnalysisFact := do
  let payload ← normalizePayload fact.payload
  let evidence ← normalizeEvidence fact.evidence
  validateFact { payload, evidence }
  return { payload, evidence }

/-! ## A valid value is its own normal form -/

theorem normalizeTraitValue_of_valid {value : TraitValue}
    (h : validateTraitValue value = .ok ()) : normalizeTraitValue value = value := by
  obtain ⟨kind, s, u, b, t⟩ := value
  simp only [validateTraitValue, require_bind_eq_ok, require_eq_ok] at h
  obtain ⟨ht, hs, hu, hb⟩ := h
  simp only [normalizeTraitValue, TraitValue.mk.injEq, true_and]
  refine ⟨?_, ?_, ?_, ?_⟩
  · exact ite_eq_left_iff.2 fun hk => (hs.resolve_left hk).symm
  · exact ite_eq_left_iff.2 fun hk => (hu.resolve_left hk).symm
  · exact ite_eq_left_iff.2 fun hk => (hb.resolve_left hk).symm
  · exact ite_eq_left_iff.2 fun hk => (ht.resolve_left hk).symm

/-- The loop of `validate_call_values` finds no value equal to its predecessor. -/
theorem isChain_of_validateCallValuesFrom {role : String} : ∀ {l : List CallValue}
    {previous : CallValue}, validateCallValuesFrom role (some previous) l = .ok () →
      (previous :: l).IsChain fun a b => callValueEqual a b = false
  | [], _, _ => List.isChain_singleton _
  | value :: l, previous, h => by
    rw [validateCallValuesFrom] at h
    simp only [require_bind_eq_ok, Option.any_some] at h
    obtain ⟨-, -, -, hne, hrest⟩ := h
    refine List.isChain_cons_cons.2 ⟨?_, isChain_of_validateCallValuesFrom hrest⟩
    by_contra heq
    obtain rfl := (callValueEqual_iff previous value).1 (by simpa using heq)
    simp at hne

theorem normalizeCallValues_of_valid {values : List CallValue} {role : String}
    (h : validateCallValues values role = .ok ()) : normalizeCallValues values = values := by
  simp only [validateCallValues, require_bind_eq_ok] at h
  obtain ⟨-, hsorted, hloop⟩ := h
  have hchain : values.IsChain fun a b => callValueEqual a b = false := by
    cases values with
    | nil => exact List.isChain_nil
    | cons value rest =>
      rw [validateCallValuesFrom] at hloop
      simp only [require_bind_eq_ok] at hloop
      exact isChain_of_validateCallValuesFrom hloop.2.2.2.2
  have hstrict := Cxx.sorted_of_isChain callValueEqual_iff
    ((Cxx.isSorted_iff callValueOrder _).1 hsorted) hchain
  exact Cxx.sortUnique_eq_self callValueEqual_iff hstrict

theorem dispatchCases_of_valid {cases : List DispatchCase}
    (hsort : Cxx.sort dispatchCaseLess cases = cases)
    (hadj : ¬ Cxx.adjacentFind dispatchCaseEqual cases = true) :
    Cxx.sortUnique dispatchCaseLess dispatchCaseEqual cases = cases := by
  have hsorted : cases.Pairwise fun a b => dispatchCaseOrder.less b a = false :=
    hsort ▸ Cxx.sort_pairwise dispatchCaseOrder cases
  have hchain := Cxx.adjacentFind_eq_false_iff.1 (by simpa using hadj)
  exact Cxx.sortUnique_eq_self dispatchCaseEqual_iff
    (Cxx.sorted_of_isChain dispatchCaseEqual_iff hsorted hchain)

theorem normalForm_of_valid {payload : FactPayload} (h : validatePayload payload = .ok ()) :
    normalForm payload = payload := by
  cases payload with
  | functionTrait fact =>
    obtain ⟨⟨⟩, hvalue, -⟩ := bind_eq_ok.1 h
    rw [normalForm, normalizeTraitValue_of_valid hvalue]
  | dispatchMap fact =>
    simp only [validatePayload, require_bind_eq_ok] at h
    obtain ⟨-, -, hsort, hadj, -⟩ := h
    rw [normalForm, dispatchCases_of_valid hsort hadj]
  | callObservation fact =>
    obtain ⟨⟨⟩, harguments, h⟩ := bind_eq_ok.1 h
    obtain ⟨⟨⟩, hreturns, -⟩ := bind_eq_ok.1 h
    rw [normalForm, normalizeCallValues_of_valid harguments, normalizeCallValues_of_valid hreturns]
  | _ => rfl

theorem validateEvidenceWith_eq_ok {proofValid : Bool} {evidence : Evidence} :
    validateEvidenceWith proofValid evidence = .ok () ↔
      proofValid = true ∧ validateEvidence evidence = .ok () := by
  cases proofValid with
  | true => exact (and_iff_right rfl).symm
  | false => simp [validateEvidenceWith, require_bind_eq_ok]

theorem normalEvidence_of_valid {evidence : Evidence} (h : validateEvidence evidence = .ok ()) :
    normalEvidence evidence = evidence := by
  simp only [validateEvidence, validateEvidenceWith, require_bind_eq_ok, require_eq_ok] at h
  obtain ⟨-, -, -, -, -, -, hsorted, hadj, -⟩ := h
  have hchain := Cxx.adjacentFind_eq_false_iff.1 (by simpa using hadj)
  have hstrict := Cxx.sorted_of_isChain addressEqual_iff ((Cxx.isSorted_iff _ _).1 hsorted) hchain
  rw [normalEvidence, Cxx.sortUnique_eq_self addressEqual_iff hstrict]

theorem normalizePayload_eq_ok {payload result : FactPayload} :
    normalizePayload payload = .ok result ↔
      validatePayload result = .ok () ∧ normalForm payload = result := by
  rw [normalizePayload, bind_eq_ok]
  constructor
  · rintro ⟨⟨⟩, h, ⟨rfl⟩⟩
    exact ⟨h, rfl⟩
  · rintro ⟨h, rfl⟩
    exact ⟨(), h, rfl⟩

theorem normalizeEvidence_eq_ok {evidence result : Evidence} :
    normalizeEvidence evidence = .ok result ↔
      validateEvidence result = .ok () ∧ normalEvidence evidence = result := by
  rw [normalizeEvidence, bind_eq_ok]
  constructor
  · rintro ⟨⟨⟩, h, ⟨rfl⟩⟩
    exact ⟨h, rfl⟩
  · rintro ⟨h, rfl⟩
    exact ⟨(), h, rfl⟩

theorem validateFact_eq_ok {fact : AnalysisFact} :
    validateFact fact = .ok () ↔
      validatePayload fact.payload = .ok () ∧ validateEvidence fact.evidence = .ok () ∧
        (reachabilityState fact.payload = some .provenUnreachable →
          proofCanEstablishUnreachable fact.evidence.proof = true) := by
  rw [validateFact, bind_eq_ok]
  constructor
  · rintro ⟨⟨⟩, hp, h⟩
    obtain ⟨⟨⟩, he, h⟩ := bind_eq_ok.1 h
    exact ⟨hp, he, require_eq_ok.1 h⟩
  · rintro ⟨hp, he, h⟩
    exact ⟨(), hp, bind_eq_ok.2 ⟨(), he, require_eq_ok.2 h⟩⟩

/-- Normalization succeeds exactly with the valid normal form. -/
theorem normalizeFact_eq_ok {fact result : AnalysisFact} :
    normalizeFact fact = .ok result ↔ validateFact result = .ok () ∧
      normalForm fact.payload = result.payload ∧
        normalEvidence fact.evidence = result.evidence := by
  rw [normalizeFact, bind_eq_ok]
  constructor
  · rintro ⟨payload, hp, h⟩
    obtain ⟨evidence, he, h⟩ := bind_eq_ok.1 h
    obtain ⟨⟨⟩, hf, ⟨rfl⟩⟩ := bind_eq_ok.1 h
    exact ⟨hf, (normalizePayload_eq_ok.1 hp).2, (normalizeEvidence_eq_ok.1 he).2⟩
  · obtain ⟨payload, evidence⟩ := result
    rintro ⟨hf, hp, he⟩
    obtain ⟨hvp, hve, -⟩ := validateFact_eq_ok.1 hf
    exact ⟨payload, normalizePayload_eq_ok.2 ⟨hvp, hp⟩,
      bind_eq_ok.2 ⟨evidence, normalizeEvidence_eq_ok.2 ⟨hve, he⟩, bind_eq_ok.2 ⟨(), hf, rfl⟩⟩⟩

/-- **Normal facts.** A fact is accepted unchanged exactly when it is valid. -/
theorem normalizeFact_self_iff {fact : AnalysisFact} :
    normalizeFact fact = .ok fact ↔ validateFact fact = .ok () := by
  rw [normalizeFact_eq_ok]
  refine ⟨fun h => h.1, fun h => ⟨h, ?_, ?_⟩⟩
  · exact normalForm_of_valid (validateFact_eq_ok.1 h).1
  · exact normalEvidence_of_valid (validateFact_eq_ok.1 h).2.1

end Viy.Analysis
