import Viy.Deobf.ConstantsSound
import Viy.Deobf.Flags

/-!
# Branches of an entry block

`classify_entry_predicate` looks at the first conditional branch of a function's entry block, and
decides it if the flags come from a comparison with a known register. The decision rests on the
constants of the block: it is right in every execution in which the instructions before the branch
are faithful.
-/

namespace Viy.Deobf

open Absint

/-! ## The classifier -/

inductive PredicateKnowledge where
  | unknown | entryFlagsUnspecified | constantOutcome
  deriving DecidableEq

structure EntryPredicateCandidate where
  branch : UInt64 := badAddress
  target : UInt64 := badAddress
  fallthrough : UInt64 := badAddress
  knowledge : PredicateKnowledge := .unknown
  taken : Option Bool := none
  support : List UInt64 := []

/-- What the loop over the entry block knows. -/
structure PredicateScan where
  constants : StateMap := .empty
  knownFlags : Option ArithmeticFlags := none
  sawFlagWriter : Bool := false
  flagSupport : List UInt64 := []

/-- The flags of a comparison or test of a register with a known value. -/
def flagsOf (insn : Instruction) (value : UInt64) : Option ArithmeticFlags :=
  if insn.flagEffect = .knownTest then testFlags value insn.immediate insn.valueWidth
  else if insn.registerIsLeftOperand = true then
    compareFlags value insn.immediate insn.valueWidth
  else compareFlags insn.immediate value insn.valueWidth

def PredicateScan.compare (s : PredicateScan) (insn : Instruction) : PredicateScan :=
  match s.constants.find insn.destinationRegister with
  | none => { s with sawFlagWriter := true, knownFlags := none }
  | some c =>
    if c.width = insn.valueWidth then
      match flagsOf insn c.value with
      | none => { s with sawFlagWriter := true, knownFlags := none }
      | some flags =>
        { s with
          sawFlagWriter := true
          knownFlags := some flags
          flagSupport := c.support ++ [insn.address] }
    else { s with sawFlagWriter := true, knownFlags := none }

/-- The flags after an instruction that is not the branch. -/
def PredicateScan.writeFlags (s : PredicateScan) (insn : Instruction) : PredicateScan :=
  if insn.isCall = true then { s with sawFlagWriter := true, knownFlags := none, flagSupport := [] }
  else
    match insn.flagEffect with
    | .knownCompare | .knownTest => s.compare insn
    | .unknownWrite => { s with sawFlagWriter := true, knownFlags := none, flagSupport := [] }
    | .preserve => s

def PredicateScan.visit (s : PredicateScan) (insn : Instruction) : PredicateScan :=
  { s.writeFlags insn with constants := updateConstants s.constants insn }

/-- The answer at the branch. -/
def PredicateScan.decide (s : PredicateScan) (functionEntry : UInt64) (insn : Instruction) :
    Option EntryPredicateCandidate :=
  let result : EntryPredicateCandidate :=
    { branch := insn.address, target := insn.target, fallthrough := insn.endAddress }
  match s.knownFlags with
  | some flags =>
    match evaluateCondition insn.condition flags with
    | none => none
    | some taken =>
      some { result with
        knowledge := .constantOutcome
        taken := some taken
        support := normalizeSupport (s.flagSupport ++ [insn.address]) }
  | none =>
    if s.sawFlagWriter = false then
      some { result with
        knowledge := .entryFlagsUnspecified
        support := normalizeSupport [functionEntry, insn.address] }
    else none

def Instruction.isFlagBranch (insn : Instruction) : Bool :=
  insn.kind == .conditionalBranch && insn.condition != .unknown && insn.target != badAddress

/-- The loop; `previousEnd` is missing at the first instruction. -/
def classifyFrom (functionEntry : UInt64) (limits : ClassifierLimits) :
    Option UInt64 → PredicateScan → List Instruction → Option EntryPredicateCandidate
  | _, _, [] => none
  | previousEnd, s, insn :: rest =>
    if insn.address < functionEntry ∨
        insn.address - functionEntry > limits.entryPredicateWindow then none
    else if previousEnd.any (fun e => insn.address != e || insn.alternatePredecessor) then none
    else if insn.endAddress = badAddress then none
    else if insn.isFlagBranch then s.decide functionEntry insn
    else classifyFrom functionEntry limits (some insn.endAddress) (s.visit insn) rest

def classifyEntryPredicate (functionEntry : UInt64) (entryBlock : List Instruction)
    (limits : ClassifierLimits) : Option EntryPredicateCandidate :=
  if functionEntry = badAddress then none
  else classifyFrom functionEntry limits none {} entryBlock

/-! ## Executions with flags -/

/-- The flags after an instruction; calls and unknown writers leave them open. -/
def Instruction.SetsFlags (insn : Instruction) (m : Machine) (flags' : ArithmeticFlags) : Prop :=
  let register := low insn.valueWidth (m.regs insn.destinationRegister)
  let immediate := low insn.valueWidth insn.immediate
  insn.isCall = true ∨
    match insn.flagEffect with
    | .preserve => flags' = m.flags
    | .knownCompare =>
      flags' = if insn.registerIsLeftOperand = true then subtractionFlags register immediate
        else subtractionFlags immediate register
    | .knownTest => flags' = logicFlags (register &&& immediate)
    | .unknownWrite => True

def Instruction.ExecutesFlags (insn : Instruction) (m m' : Machine) : Prop :=
  insn.Executes m m' ∧ insn.SetsFlags m m'.flags

/-! ## Soundness -/

structure PredicateScan.Describes (s : PredicateScan) (m : Machine) : Prop where
  regs : Holds s.constants m.regs
  flags : ∀ f, s.knownFlags = some f → m.flags = f

section Visit

variable {s : PredicateScan} {insn : Instruction} {m m' : Machine}

theorem flagsOf_sound {v : UInt64} {f flags' : ArithmeticFlags} (hf : flagsOf insn v = some f)
    (hv : low insn.valueWidth v = low insn.valueWidth (m.regs insn.destinationRegister))
    (hcall : insn.isCall = false) (hsets : insn.SetsFlags m flags')
    (heffect : insn.flagEffect = .knownCompare ∨ insn.flagEffect = .knownTest) : flags' = f := by
  rcases hsets with hsets | hsets
  · rw [hcall] at hsets
    cases hsets
  unfold flagsOf at hf
  rcases heffect with heffect | heffect
  · have hne : insn.flagEffect ≠ .knownTest := by
      rw [heffect]
      decide
    rw [if_neg hne] at hf
    simp only [heffect] at hsets
    by_cases hleft : insn.registerIsLeftOperand = true
    · rw [if_pos hleft] at hf hsets
      rw [hsets, compareFlags_eq hf, hv]
    · rw [if_neg hleft] at hf hsets
      rw [hsets, compareFlags_eq hf, hv]
  · rw [if_pos heffect] at hf
    simp only [heffect] at hsets
    rw [hsets, testFlags_eq hf, hv]

theorem flags_compare (h : s.Describes m) (hcall : insn.isCall = false)
    (hsets : insn.SetsFlags m m'.flags)
    (heffect : insn.flagEffect = .knownCompare ∨ insn.flagEffect = .knownTest)
    {f : ArithmeticFlags} (hf : (s.compare insn).knownFlags = some f) : m'.flags = f := by
  unfold PredicateScan.compare at hf
  cases hc : s.constants.find insn.destinationRegister with
  | none =>
    rw [hc] at hf
    cases hf
  | some c =>
    simp only [hc] at hf
    by_cases hwidth : c.width = insn.valueWidth
    · rw [if_pos hwidth] at hf
      cases hflags : flagsOf insn c.value with
      | none =>
        rw [hflags] at hf
        cases hf
      | some g =>
        rw [hflags] at hf
        obtain rfl := Option.some.inj hf
        apply flagsOf_sound hflags _ hcall hsets heffect
        rw [← h.regs _ c hc, hwidth, low_lowBytes]
    · rw [if_neg hwidth] at hf
      cases hf

theorem PredicateScan.Describes.visit (h : s.Describes m)
    (hfaithful : Faithful s.constants insn) (hstep : insn.ExecutesFlags m m') :
    (s.visit insn).Describes m' where
  regs := h.regs.update hfaithful hstep.1.1
  flags := by
    intro f hf
    change (s.writeFlags insn).knownFlags = some f at hf
    unfold PredicateScan.writeFlags at hf
    by_cases hcall : insn.isCall = true
    · rw [if_pos hcall] at hf
      cases hf
    rw [if_neg hcall] at hf
    have hcall' : insn.isCall = false := by simpa using hcall
    cases heffect : insn.flagEffect <;> simp only [heffect] at hf
    case preserve =>
      have hsets := hstep.2.resolve_left hcall
      simp only [heffect] at hsets
      rw [hsets]
      exact h.flags f hf
    case knownCompare => exact flags_compare h hcall' hstep.2 (Or.inl heffect) hf
    case knownTest => exact flags_compare h hcall' hstep.2 (Or.inr heffect) hf
    case unknownWrite => cases hf

end Visit

/-! ## The reported branch -/

theorem PredicateScan.constants_foldl (l : List Instruction) : ∀ s : PredicateScan,
    (l.foldl PredicateScan.visit s).constants = l.foldl updateConstants s.constants := by
  induction l with
  | nil =>
    intro s
    rfl
  | cons insn l ih =>
    intro s
    exact ih (s.visit insn)

/-- Where a constant outcome comes from. -/
theorem classifyFrom_constantOutcome {functionEntry : UInt64} {limits : ClassifierLimits}
    {p : EntryPredicateCandidate} (hk : p.knowledge = .constantOutcome) (l : List Instruction) :
    ∀ {previousEnd : Option UInt64} {s : PredicateScan},
      classifyFrom functionEntry limits previousEnd s l = some p →
        ∃ before branch after flags taken, l = before ++ branch :: after ∧
          branch.isFlagBranch = true ∧ p.branch = branch.address ∧ p.taken = some taken ∧
          (before.foldl PredicateScan.visit s).knownFlags = some flags ∧
          evaluateCondition branch.condition flags = some taken := by
  induction l with
  | nil =>
    intro previousEnd s h
    cases h
  | cons insn l ih =>
    intro previousEnd s h
    unfold classifyFrom at h
    split_ifs at h with _ _ _ hbranch
    · refine ⟨[], insn, l, ?_⟩
      unfold PredicateScan.decide at h
      cases hflags : s.knownFlags with
      | none =>
        simp only [hflags] at h
        split_ifs at h
        rw [← Option.some.inj h] at hk
        cases hk
      | some flags =>
        simp only [hflags] at h
        cases htaken : evaluateCondition insn.condition flags with
        | none =>
          simp only [htaken] at h
          cases h
        | some taken =>
          simp only [htaken] at h
          obtain rfl := Option.some.inj h
          exact ⟨flags, taken, rfl, hbranch, rfl, rfl, hflags, htaken⟩
    · obtain ⟨before, branch, after, flags, taken, rfl, hrest⟩ := ih h
      exact ⟨insn :: before, branch, after, flags, taken, rfl, hrest⟩

/-- Every instruction is faithful to the constants that the ones before it leave. -/
def FaithfulPath (before : List Instruction) : Prop :=
  ∀ front insn back, before = front ++ insn :: back →
    Faithful (front.foldl updateConstants .empty) insn

theorem foldl_wellFormed (l : List Instruction) : ∀ {state : StateMap}, WellFormed state →
    WellFormed (l.foldl updateConstants state) := by
  induction l with
  | nil =>
    intro state h
    exact h
  | cons insn l ih =>
    intro state h
    exact ih (h.update insn)

theorem FaithfulPath.describes {before : List Instruction} (h : FaithfulPath before)
    {m m' : Machine} (hrun : Run Instruction.ExecutesFlags before m m') :
    (before.foldl PredicateScan.visit {}).Describes m' := by
  have hsound : SoundAlong Instruction.ExecutesFlags PredicateScan.Describes PredicateScan.visit {}
      before := by
    apply soundAlong_of_positions
    intro front insn back heq u u' hu hstep
    apply hu.visit _ hstep
    rw [PredicateScan.constants_foldl]
    exact h front insn back heq
  refine hsound.run ⟨holds_empty m.regs, ?_⟩ hrun
  intro f hf
  cases hf

/-- **Constant outcomes.** The transfer function follows an instruction exactly if it is faithful.
If the instructions before the reported branch are, then every execution that reaches the branch
satisfies its condition exactly when the report says taken. -/
theorem constantOutcome_right_where_faithful {functionEntry : UInt64}
    {entryBlock : List Instruction} {limits : ClassifierLimits} {p : EntryPredicateCandidate}
    (h : classifyEntryPredicate functionEntry entryBlock limits = some p)
    (hk : p.knowledge = .constantOutcome) :
    (∀ (front : List Instruction) (insn : Instruction),
      SoundAt Instruction.Writes Holds updateConstants (front.foldl updateConstants .empty) insn ↔
        Faithful (front.foldl updateConstants .empty) insn) ∧
    ∃ before branch after taken, entryBlock = before ++ branch :: after ∧
      branch.kind = .conditionalBranch ∧ p.branch = branch.address ∧ p.taken = some taken ∧
      (FaithfulPath before → ∀ m m', Run Instruction.ExecutesFlags before m m' →
        (branch.condition.Satisfied m'.flags ↔ taken = true)) := by
  refine ⟨fun front insn => sound_iff_faithful (foldl_wellFormed front wellFormed_empty) insn, ?_⟩
  unfold classifyEntryPredicate at h
  split_ifs at h
  obtain ⟨before, branch, after, flags, taken, heq, hbranch, haddress, htaken, hflags, hevaluate⟩ :=
    classifyFrom_constantOutcome hk entryBlock h
  have hkind : branch.kind = .conditionalBranch := by
    unfold Instruction.isFlagBranch at hbranch
    rw [Bool.and_eq_true, Bool.and_eq_true, beq_iff_eq] at hbranch
    exact hbranch.1.1
  refine ⟨before, branch, after, taken, heq, hkind, haddress, htaken, ?_⟩
  intro hfaithful m m' hrun
  rw [(hfaithful.describes hrun).flags flags hflags]
  exact satisfied_iff_of_evaluateCondition hevaluate

/-- `mov r1, 5; cmp r1, 5; jz` -/
def constantBranch : List Instruction :=
  [{ address := 0x100, size := 5, kind := .loadImmediate, destinationRegister := 1
     valueWidth := 8, immediate := 5, flagEffect := .preserve },
   { address := 0x105, size := 4, kind := .compareImmediate, destinationRegister := 1
     valueWidth := 8, immediate := 5, flagEffect := .knownCompare },
   { address := 0x109, size := 2, kind := .conditionalBranch, condition := .zero
     target := 0x200, flagEffect := .preserve }]

/-- `mov r1, 5; pop r1; cmp r1, 5; jz` -/
def stalePopBranch : List Instruction :=
  [{ address := 0x100, size := 5, kind := .loadImmediate, destinationRegister := 1
     valueWidth := 8, immediate := 5, flagEffect := .preserve },
   { address := 0x105, size := 1, kind := .popRegister, destinationRegister := 1
     valueWidth := 8, flagEffect := .preserve },
   { address := 0x106, size := 4, kind := .compareImmediate, destinationRegister := 1
     valueWidth := 8, immediate := 5, flagEffect := .knownCompare },
   { address := 0x10a, size := 2, kind := .conditionalBranch, condition := .zero
     target := 0x200, flagEffect := .preserve }]

theorem constantBranch_taken :
    ∃ p, classifyEntryPredicate 0x100 constantBranch {} = some p ∧ p.taken = some true ∧
      ∀ m m', Run Instruction.ExecutesFlags (constantBranch.take 2) m m' →
        X86Condition.zero.Satisfied m'.flags := by
  have hp : classifyEntryPredicate 0x100 constantBranch {} = some
      { branch := 0x109, target := 0x200, fallthrough := 0x10b, knowledge := .constantOutcome
        taken := some true, support := [0x100, 0x105, 0x109] } := rfl
  refine ⟨_, hp, rfl, ?_⟩
  obtain ⟨-, before, branch, after, taken, heq, hkind, -, htaken, hright⟩ :=
    constantOutcome_right_where_faithful hp rfl
  obtain rfl := Option.some.inj htaken
  rcases before with _ | ⟨i, _ | ⟨j, _ | ⟨k, before⟩⟩⟩ <;>
    simp only [constantBranch, List.nil_append, List.cons_append, List.cons.injEq] at heq
  · rw [← heq.1] at hkind
    cases hkind
  · rw [← heq.2.1] at hkind
    cases hkind
  · obtain ⟨rfl, rfl, rfl, -⟩ := heq
    intro m m' hrun
    refine (hright ?_ m m' hrun).2 rfl
    intro front insn back hfront
    have hmem : insn ∈ front ++ insn :: back := by simp
    rw [← hfront, List.mem_cons, List.mem_singleton] at hmem
    rcases hmem with rfl | rfl <;> exact trivial
  · have hnil := heq.2.2.2
    simp at hnil

/-- A pop leaves the constant of its register in place, and the branch is reported as taken. -/
theorem stalePop_outcome_wrong :
    ∃ p, classifyEntryPredicate 0x100 stalePopBranch {} = some p ∧
      p.knowledge = .constantOutcome ∧ p.branch = 0x10a ∧ p.taken = some true ∧
      ∃ m m', Run Instruction.ExecutesFlags (stalePopBranch.take 3) m m' ∧
        ¬ X86Condition.zero.Satisfied m'.flags := by
  -- in this execution the pop leaves 7
  have hrun : Run Instruction.ExecutesFlags (stalePopBranch.take 3) ⟨fun _ => 0, {}, fun _ => 0⟩
      ⟨Function.update (Function.update (fun _ => 0) 1 5) 1 7,
        subtractionFlags (low 8 7) (low 8 5), fun _ => 0⟩ :=
    ⟨⟨_, {}, fun _ => 0⟩, ⟨⟨writes_update (Or.inr rfl), trivial⟩, Or.inr rfl⟩,
      ⟨_, {}, fun _ => 0⟩, ⟨⟨writes_update (Or.inl rfl), trivial⟩, Or.inr rfl⟩,
      _, ⟨⟨Or.inr rfl, trivial⟩, Or.inr rfl⟩, rfl⟩
  refine ⟨_, rfl, rfl, rfl, rfl, _, _, hrun, ?_⟩
  show ¬ (subtractionFlags (low 8 7) (low 8 5)).zero = true
  decide

end Viy.Deobf
