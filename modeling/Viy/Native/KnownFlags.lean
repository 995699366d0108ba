import Viy.Native.FlagScan

/-!
# The scan for known flags against a run

The scan goes backwards over instructions that leave a flag alone or flip it, and counts the flips.
A run goes forwards. Both agree on the flag at the branch, whatever the flags were at first and
whatever the operands are.
-/

namespace Viy.Native

/-! ## Back and forth -/

/-- The database has the instructions one behind the other, from the start of the chunk up to an
address. -/
inductive Laid (db : FlagDatabase) (chunkStart : UInt64) : List FlagInsn → UInt64 → Prop
  | nil (h : db.prevHead chunkStart chunkStart = badaddr ∨
      db.prevHead chunkStart chunkStart < chunkStart) : Laid db chunkStart [] chunkStart
  | snoc {code : List FlagInsn} {insn : FlagInsn} (front : Laid db chunkStart code insn.ea)
      (hprev : db.prevHead insn.fallthrough chunkStart = insn.ea)
      (hdecode : db.decodeInsn insn.ea = some insn) :
      Laid db chunkStart (code ++ [insn]) insn.fallthrough

/-- The last instruction is the last to run. -/
theorem runs_concat {code : List FlagInsn} {insn : FlagInsn} {f f' : FlagPair} :
    Runs (code ++ [insn]) f f' ↔ ∃ g, Runs code f g ∧ Acts insn g f' := by
  induction code generalizing f with
  | nil =>
    constructor
    · rintro (_ | ⟨hstep, ⟨⟩⟩)
      exact ⟨f, .nil, hstep⟩
    · rintro ⟨g, ⟨⟩, hstep⟩
      exact .cons hstep .nil
  | cons first code ih =>
    constructor
    · rintro (_ | ⟨hfirst, hrest⟩)
      obtain ⟨g, hcode, hstep⟩ := ih.1 hrest
      exact ⟨g, .cons hfirst hcode, hstep⟩
    · rintro ⟨g, _ | ⟨hfirst, hcode⟩, hstep⟩
      exact .cons hfirst (ih.2 ⟨g, hcode, hstep⟩)

/-! ## The scan -/

section Scan

variable {db : FlagDatabase} {chunkStart scan : UInt64} {flag : NativeTrackedFlag}
  {code : List FlagInsn}

/-- The step back is to the last instruction of the code in front of the address. -/
theorem Laid.stepBack_eq_some {insn : FlagInsn} (h : Laid db chunkStart code scan)
    (hstep : stepBack db chunkStart scan = some insn) :
    ∃ front, code = front ++ [insn] ∧ Laid db chunkStart front insn.ea ∧
      db.prevHead scan chunkStart = insn.ea := by
  rw [stepBack] at hstep
  cases h with
  | nil hstart =>
    have hnone : db.prevHead chunkStart chunkStart = badaddr ∨
        db.prevHead chunkStart chunkStart < chunkStart ∨
          db.isCode (db.prevHead chunkStart chunkStart) = false :=
      hstart.imp_right Or.inl
    rw [if_pos hnone] at hstep
    cases hstep
  | @snoc front last hfront hprev hdecode =>
    rw [hprev, hdecode] at hstep
    dsimp only at hstep
    split_ifs at hstep
    cases hstep
    exact ⟨front, rfl, hfront, hprev⟩

/-- The loop finds the flag of every run, or its negation after an odd number of flips. -/
theorem scanLoop_right (depth : ℕ) : ∀ {scan : UInt64} {code : List FlagInsn} {flipped : Bool}
    {scanned : ℕ} {f f' : FlagPair}, Laid db chunkStart code scan → Runs code f f' →
      (scanLoop db chunkStart flag depth scan flipped scanned).known = true →
        (scanLoop db chunkStart flag depth scan flipped scanned).value =
          (flipped ^^ f'.get flag) := by
  induction depth with
  | zero =>
    intro scan code flipped scanned f f' _ _ hknown
    cases hknown
  | succ depth ih =>
    intro scan code flipped scanned f f' hlaid hrun hknown
    rw [scanLoop] at hknown ⊢
    cases hstep : stepBack db chunkStart scan with
    | none =>
      rw [hstep] at hknown
      cases hknown
    | some insn =>
      obtain ⟨front, rfl, hfront, hprev⟩ := hlaid.stepBack_eq_some hstep
      obtain ⟨g, hcode, hacts⟩ := runs_concat.1 hrun
      have hallows := flagEffect_sound hacts flag
      rw [hstep, hprev] at hknown
      rw [hprev]
      dsimp only at hknown ⊢
      cases heffect : flagEffect insn flag <;> rw [heffect] at hallows hknown
      case unknown => cases hknown
      case set =>
        rw [show f'.get flag = true from hallows, Bool.xor_true]
      case clear =>
        rw [show f'.get flag = false from hallows, Bool.xor_false]
      case preserve =>
        rw [show f'.get flag = g.get flag from hallows]
        exact ih hfront hcode hknown
      case flip =>
        rw [show f'.get flag = !g.get flag from hallows, ← Bool.not_xor_not, Bool.not_not]
        exact ih hfront hcode hknown

end Scan

/-! ## Outcomes -/

/-- The branch behaves as the outcome says, whatever the other flags are. -/
theorem flagBranchOutcome_sound {branch : Insn} {flag : NativeTrackedFlag} {set : Bool}
    {outcome : NativeBranchOutcome}
    (h : flagBranchOutcome (x86Condition branch.itype) flag set = some outcome) {m : Machine}
    {f : FlagPair} (hcarry : m.flags.carry = f.carry) (hzero : m.flags.zero = f.zero)
    (hset : f.get flag = set) : branch.taken m = decide (outcome = .alwaysTaken) := by
  have hvalid : x86Condition branch.itype ≠ .invalid := by
    intro hinvalid
    rw [hinvalid] at h
    cases flag <;> cases h
  rw [taken_eq_holds hvalid]
  cases flag <;> cases hcondition : x86Condition branch.itype <;> rw [hcondition] at h <;>
    cases set <;> cases h <;> simp_all [X86Condition.holds, FlagPair.get]

theorem flagBranchOutcome_agree {condition : X86Condition} {v w : Bool}
    {outcome outcome' : NativeBranchOutcome}
    (h : flagBranchOutcome condition .carry v = some outcome)
    (h' : flagBranchOutcome condition .zero w = some outcome') : outcome = outcome' := by
  cases condition <;> cases v <;> cases w <;> cases h <;> cases h' <;> rfl

/-- The two facts of one branch do not disagree. -/
theorem inspectKnownFlagBranch_agree {db : FlagDatabase} {usable : UInt64 → Bool}
    {arch : NativeArchitecture} {chunkStart : UInt64} {branch : Insn} {depth : ℕ}
    {a b : NativeKnownFlagBranchFact}
    (ha : a ∈ inspectKnownFlagBranch db usable arch chunkStart branch depth)
    (hb : b ∈ inspectKnownFlagBranch db usable arch chunkStart branch depth) :
    a.outcome = b.outcome := by
  have hfact : ∀ {fact : NativeKnownFlagBranchFact},
      fact ∈ inspectKnownFlagBranch db usable arch chunkStart branch depth →
        flagBranchOutcome (x86Condition branch.itype) fact.flag
          (scanKnownFlag db chunkStart fact.flag branch.ea depth).value = some fact.outcome := by
    intro fact hmem
    cases arch
    case x86 =>
      rw [inspectKnownFlagBranch] at hmem
      split_ifs at hmem
      · cases hmem
      · obtain ⟨flag, -, hsome⟩ := List.mem_filterMap.1 hmem
        dsimp only at hsome
        split_ifs at hsome
        obtain ⟨outcome, houtcome, rfl⟩ := Option.map_eq_some_iff.1 hsome
        exact houtcome
    all_goals cases hmem
  have hfa := hfact ha
  have hfb := hfact hb
  cases hflag : a.flag <;> cases hflag' : b.flag <;> rw [hflag] at hfa <;> rw [hflag'] at hfb
  · exact Option.some.inj (hfa.symm.trans hfb)
  · exact flagBranchOutcome_agree hfa hfb
  · exact (flagBranchOutcome_agree hfb hfa).symm
  · exact Option.some.inj (hfa.symm.trans hfb)

/-- The scan in front of a branch is right: a value that it knows is the value of the flag after
every run, and an outcome that follows from it is how the branch behaves then. -/
def ScanRight (db : FlagDatabase) (chunkStart : UInt64) (code : List FlagInsn) (branch : Insn)
    (depth : ℕ) (flag : NativeTrackedFlag) : Prop :=
  let r := scanKnownFlag db chunkStart flag branch.ea depth
  r.known = true → ∀ f f', Runs code f f' → f'.get flag = r.value ∧
    ∀ outcome, flagBranchOutcome (x86Condition branch.itype) flag r.value = some outcome →
      ∀ m : Machine, m.flags.carry = f'.carry → m.flags.zero = f'.zero →
        branch.taken m = decide (outcome = .alwaysTaken)

/-- **Known flags.** A value that the scan knows is the value of the flag in every run, and the
branch then behaves as the outcome that follows from it says. The facts for the two flags of one
branch never disagree. -/
theorem known_flag_right {db : FlagDatabase} {chunkStart : UInt64} {code : List FlagInsn}
    {branch : Insn} (hlaid : Laid db chunkStart code branch.ea) (depth : ℕ) :
    (∀ flag, ScanRight db chunkStart code branch depth flag) ∧
    ∀ usable arch, ∀ a ∈ inspectKnownFlagBranch db usable arch chunkStart branch depth,
      ∀ b ∈ inspectKnownFlagBranch db usable arch chunkStart branch depth,
        a.outcome = b.outcome := by
  refine ⟨?_, fun usable arch a ha b hb => inspectKnownFlagBranch_agree ha hb⟩
  intro flag hknown f f' hrun
  have hvalue := scanLoop_right depth hlaid hrun hknown
  rw [Bool.false_xor] at hvalue
  refine ⟨hvalue.symm, fun outcome houtcome m hcarry hzero => ?_⟩
  exact flagBranchOutcome_sound houtcome hcarry hzero hvalue.symm

/-- A database with these instructions only. -/
def straight (code : List FlagInsn) : FlagDatabase where
  prevHead ea _ := ((code.find? fun insn => insn.fallthrough == ea).map (·.ea)).getD badaddr
  isCode _ := true
  decodeInsn ea := code.find? fun insn => insn.ea == ea
  xrefsTo _ := []

/-- `xor eax, eax`, `mov rcx, rax` and `cmc` at `0x1000`; `jbe` at `0x1006` -/
def flagCode : List FlagInsn :=
  [⟨0x1000, 2, .xor, ⟨.reg, 0, 0⟩, ⟨.reg, 0, 0⟩⟩, ⟨0x1002, 3, .mov, ⟨.reg, 1, 0⟩, ⟨.reg, 0, 0⟩⟩,
    { ea := 0x1005, size := 1, itype := .cmc }]

def flagBranch : Insn := { ea := 0x1006, size := 2, itype := .jbe, ops := [] }

theorem laid_flagCode : Laid (straight flagCode) 0x1000 flagCode 0x1006 := by
  have hfirst := @Laid.snoc (straight flagCode) 0x1000 [] flagCode[0] (.nil (Or.inl rfl)) rfl rfl
  have hsecond := @Laid.snoc _ _ _ flagCode[1] hfirst rfl rfl
  exact @Laid.snoc _ _ _ flagCode[2] hsecond rfl rfl

/-- The carry flag is cleared and flipped, the zero flag is set: both say that the branch is taken.
-/
theorem flagCode_known :
    (∀ flag, (scanKnownFlag (straight flagCode) 0x1000 flag 0x1006 8).known = true ∧
      (scanKnownFlag (straight flagCode) 0x1000 flag 0x1006 8).value = true) ∧
    (inspectKnownFlagBranch (straight flagCode) (fun _ => true) .x86 0x1000 flagBranch 8).map
      (fun fact => (fact.flag, fact.outcome)) =
        [(.carry, .alwaysTaken), (.zero, .alwaysTaken)] ∧
    ∀ flag, ScanRight (straight flagCode) 0x1000 flagCode flagBranch 8 flag := by
  refine ⟨?_, by decide, (@known_flag_right _ _ _ flagBranch laid_flagCode 8).1⟩
  intro flag
  cases flag <;> decide

end Viy.Native
