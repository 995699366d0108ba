import Viy.Native.OppositePairs

/-!
# Known flags in front of a branch

`scan_known_flag` goes back from a conditional branch to an instruction that sets or clears the
carry or the zero flag whatever its operands are, over instructions that leave the flag alone or
flip it. From the value the outcome of the branch may follow, and is published as a proof.

The table of effects that the scan uses is compared with the effects that the manual of the
processor gives.
-/

namespace Viy.Native

open Deobf (ArithmeticFlags)

/-! ## Instructions -/

/-- The types of instructions that the scan tells apart; the conditional jumps are among those of
`Itype`. A move to or from a control, debug or test register, after which the flags are undefined,
is not a `mov`: it has a type of its own, `NN_movsp`, which is one of the others. -/
inductive FlagItype where
  | jump (itype : Itype)
  | mov | movsx | movzx | movsxd | lea | nop | not | push | pop | pusha | popa | pushf | pushfd
  | pushfq | xchg | bswap | leave | jmp | jmpni | jmpfi | jcxz | jecxz | jrcxz
  | stc | clc | cmc | and | or | test | xor | sub | cmp | inc | dec
  | other (code : UInt16)
deriving DecidableEq

inductive FlagOpType where
  | void | reg | imm | other
deriving DecidableEq

structure FlagOp where
  type : FlagOpType := .void
  reg : UInt16 := 0
  value : UInt64 := 0

structure FlagInsn where
  ea : UInt64
  size : UInt16
  itype : FlagItype
  op1 : FlagOp := {}
  op2 : FlagOp := {}

def FlagInsn.fallthrough (insn : FlagInsn) : UInt64 := insn.ea + insn.size.toUInt64

/-- What the disassembler answers. -/
structure FlagDatabase where
  prevHead : UInt64 → UInt64 → UInt64
  isCode : UInt64 → Bool
  decodeInsn : UInt64 → Option FlagInsn
  xrefsTo : UInt64 → List Xref

/-! ## The scan -/

inductive NativeTrackedFlag where
  | carry | zero
deriving DecidableEq

inductive FlagEffect where
  | unknown | preserve | clear | set | flip
deriving DecidableEq

/-- `x86_condition` -/
def FlagItype.condition : FlagItype → X86Condition
  | .jump itype => x86Condition itype
  | _ => .invalid

def sameRegisterOperands (insn : FlagInsn) : Bool :=
  insn.op1.type == .reg && insn.op2.type == .reg && insn.op1.reg == insn.op2.reg

def preservesCommonX86Flags (itype : FlagItype) : Bool :=
  if itype.condition ≠ .invalid then true
  else
    match itype with
    | .mov | .movsx | .movzx | .movsxd | .lea | .nop | .not | .push | .pop | .pusha | .popa | .pushf
    | .pushfd | .pushfq | .xchg | .bswap | .leave | .jmp | .jmpni | .jmpfi | .jcxz | .jecxz
    | .jrcxz => true
    | _ => false

def commonEffect (insn : FlagInsn) : FlagEffect :=
  if preservesCommonX86Flags insn.itype then .preserve else .unknown

def carryEffect (insn : FlagInsn) : FlagEffect :=
  match insn.itype with
  | .stc => .set
  | .clc => .clear
  | .cmc => .flip
  | .and | .or | .test | .xor => .clear
  | .sub | .cmp => if sameRegisterOperands insn then .clear else commonEffect insn
  | .inc | .dec => .preserve
  | _ => commonEffect insn

def isZeroImmediate (op : FlagOp) : Bool := op.type == .imm && op.value == 0

def zeroEffect (insn : FlagInsn) : FlagEffect :=
  match insn.itype with
  | .xor | .sub | .cmp => if sameRegisterOperands insn then .set else commonEffect insn
  | .and => if isZeroImmediate insn.op2 then .set else commonEffect insn
  | .test =>
    if isZeroImmediate insn.op1 || isZeroImmediate insn.op2 then .set else commonEffect insn
  | .stc | .clc | .cmc => .preserve
  | _ => commonEffect insn

def flagEffect (insn : FlagInsn) : NativeTrackedFlag → FlagEffect
  | .carry => carryEffect insn
  | .zero => zeroEffect insn

/-- The value is `true` for a flag that is set. -/
structure FlagScanResult where
  known : Bool := false
  value : Bool := false
  definitionEa : UInt64 := badaddr
  scanned : ℕ := 0

section Scan

variable (db : FlagDatabase) (chunkStart : UInt64) (flag : NativeTrackedFlag)

/-- The instruction in front of `scan`, if nothing speaks against going over to it. -/
def stepBack (scan : UInt64) : Option FlagInsn :=
  let prev := db.prevHead scan chunkStart
  if prev = badaddr ∨ prev < chunkStart ∨ db.isCode prev = false then none
  else
    match db.decodeInsn prev with
    | none => none
    | some insn =>
      if prev + insn.size.toUInt64 ≠ scan then none
      else if hasAlternatePredecessor prev (db.xrefsTo scan) then none
      else some insn

/-- The loop over `depth` instructions. -/
def scanLoop : ℕ → UInt64 → Bool → ℕ → FlagScanResult
  | 0, _, _, scanned => { scanned := scanned }
  | depth + 1, scan, flipped, scanned =>
    match stepBack db chunkStart scan with
    | none => { scanned := scanned }
    | some insn =>
      let prev := db.prevHead scan chunkStart
      match flagEffect insn flag with
      | .flip => scanLoop depth prev (!flipped) (scanned + 1)
      | .set => ⟨true, !flipped, prev, scanned + 1⟩
      | .clear => ⟨true, flipped, prev, scanned + 1⟩
      | .unknown => { scanned := scanned + 1 }
      | .preserve => scanLoop depth prev flipped (scanned + 1)

def scanKnownFlag (branchEa : UInt64) (depth : ℕ) : FlagScanResult :=
  scanLoop db chunkStart flag depth branchEa false 0

end Scan

/-! ## The branch -/

inductive NativeBranchOutcome where
  | alwaysTaken | neverTaken
deriving DecidableEq

def flagBranchOutcome (condition : X86Condition) (flag : NativeTrackedFlag) (set : Bool) :
    Option NativeBranchOutcome :=
  match flag, condition with
  | .carry, .carry | .zero, .zero => some (if set then .alwaysTaken else .neverTaken)
  | .carry, .notCarry | .zero, .notZero => some (if set then .neverTaken else .alwaysTaken)
  | .carry, .belowOrEqual | .zero, .belowOrEqual | .zero, .lessOrEqual =>
    if set then some .alwaysTaken else none
  | .carry, .above | .zero, .above | .zero, .greater => if set then some .neverTaken else none
  | _, _ => none

structure NativeKnownFlagBranchFact where
  instructionEa : UInt64
  targetEa : UInt64
  fallthroughEa : UInt64
  definingInstructionEa : UInt64
  flag : NativeTrackedFlag
  value : Bool
  outcome : NativeBranchOutcome
  instructionsScanned : ℕ

/-- `inspect_known_flag_branch`, with the facts that it emits; `usable` is the test of the target -/
def inspectKnownFlagBranch (db : FlagDatabase) (usable : UInt64 → Bool) (arch : NativeArchitecture)
    (chunkStart : UInt64) (branch : Insn) (depth : ℕ) : List NativeKnownFlagBranchFact :=
  match arch with
  | .x86 =>
    let condition := x86Condition branch.itype
    let target := branchTarget branch
    if depth = 0 ∨ condition = .invalid ∨ usable target = false then []
    else
      [NativeTrackedFlag.carry, .zero].filterMap fun flag =>
        let scan := scanKnownFlag db chunkStart flag branch.ea depth
        if scan.known then
          (flagBranchOutcome condition flag scan.value).map fun outcome =>
            { instructionEa := branch.ea
              targetEa := target
              fallthroughEa := branch.fallthrough
              definingInstructionEa := scan.definitionEa
              flag := flag
              value := scan.value
              outcome := outcome
              instructionsScanned := scan.scanned }
        else none
  | _ => []

/-! ## The effects of the instructions -/

structure FlagPair where
  carry : Bool
  zero : Bool

def FlagPair.get (f : FlagPair) : NativeTrackedFlag → Bool
  | .carry => f.carry
  | .zero => f.zero

/-- The values of the operands, as numbers of `width` bits. -/
structure Operands where
  width : ℕ
  left : ℕ
  right : ℕ

/-- Values that the operands of the instruction can have. -/
structure Operands.Of (o : Operands) (insn : FlagInsn) : Prop where
  width : o.width = 8 ∨ o.width = 16 ∨ o.width = 32 ∨ o.width = 64
  left_lt : o.left < 2 ^ o.width
  right_lt : o.right < 2 ^ o.width
  same : sameRegisterOperands insn = true → o.left = o.right
  left_imm : insn.op1.type = .imm → o.left = insn.op1.value.toNat % 2 ^ o.width
  right_imm : insn.op2.type = .imm → o.right = insn.op2.value.toNat % 2 ^ o.width

/-- The carry and the zero flag after an instruction, as the manual has it; an undefined flag may
have any value. -/
def Effect (insn : FlagInsn) (o : Operands) (f f' : FlagPair) : Prop :=
  match insn.itype with
  | .stc => f' = ⟨true, f.zero⟩
  | .clc => f' = ⟨false, f.zero⟩
  | .cmc => f' = ⟨!f.carry, f.zero⟩
  | .and | .test => f' = ⟨false, decide (o.left &&& o.right = 0)⟩
  | .or => f' = ⟨false, decide (o.left ||| o.right = 0)⟩
  | .xor => f' = ⟨false, decide (o.left ^^^ o.right = 0)⟩
  | .sub | .cmp => f' = ⟨decide (o.left < o.right), decide (o.left = o.right)⟩
  | .inc => f' = ⟨f.carry, decide ((o.left + 1) % 2 ^ o.width = 0)⟩
  | .dec => f' = ⟨f.carry, decide (o.left = 1)⟩
  | .jump itype => x86Condition itype ≠ .invalid → f' = f
  | .other _ => True
  | .mov | .movsx | .movzx | .movsxd | .lea | .nop | .not | .push | .pop | .pusha | .popa | .pushf
  | .pushfd | .pushfq | .xchg | .bswap | .leave | .jmp | .jmpni | .jmpfi | .jcxz | .jecxz
  | .jrcxz => f' = f

/-- One step, with some values of the operands. -/
def Acts (insn : FlagInsn) (f f' : FlagPair) : Prop := ∃ o, Operands.Of o insn ∧ Effect insn o f f'

/-- The instructions one after the other. -/
inductive Runs : List FlagInsn → FlagPair → FlagPair → Prop
  | nil {f : FlagPair} : Runs [] f f
  | cons {insn : FlagInsn} {code : List FlagInsn} {f g f' : FlagPair} (step : Acts insn f g)
      (rest : Runs code g f') : Runs (insn :: code) f f'

/-! ## The table against the effects -/

/-- What an entry of the table says of the flag before and after an instruction. -/
def FlagEffect.Allows : FlagEffect → Bool → Bool → Prop
  | .unknown, _, _ => True
  | .preserve, b, b' => b' = b
  | .clear, _, b' => b' = false
  | .set, _, b' => b' = true
  | .flip, b, b' => b' = !b

section Table

variable {insn : FlagInsn} {o : Operands} {f f' : FlagPair}

theorem commonEffect_sound (heffect : Effect insn o f f') :
    (commonEffect insn).Allows f.carry f'.carry ∧ (commonEffect insn).Allows f.zero f'.zero := by
  have hkept : f' = f → (commonEffect insn).Allows f.carry f'.carry ∧
      (commonEffect insn).Allows f.zero f'.zero := by
    rintro rfl
    rw [commonEffect]
    split_ifs
    · exact ⟨rfl, rfl⟩
    · exact ⟨trivial, trivial⟩
  have hunknown : preservesCommonX86Flags insn.itype = false →
      (commonEffect insn).Allows f.carry f'.carry ∧ (commonEffect insn).Allows f.zero f'.zero := by
    intro h
    rw [commonEffect, h]
    exact ⟨trivial, trivial⟩
  rw [Effect] at heffect
  cases hitype : insn.itype <;> rw [hitype] at heffect hunknown
  case jump itype =>
    by_cases hinvalid : x86Condition itype = .invalid
    · exact hunknown (if_neg (not_not.2 hinvalid))
    · exact hkept (heffect hinvalid)
  all_goals first
    | exact hkept heffect
    | exact hunknown rfl

theorem carryEffect_sound (ho : o.Of insn) (heffect : Effect insn o f f') :
    (carryEffect insn).Allows f.carry f'.carry := by
  have hcommon := (commonEffect_sound heffect).1
  have hsame : sameRegisterOperands insn = true → decide (o.left < o.right) = false := by
    intro h
    rw [ho.same h]
    exact decide_eq_false (Nat.lt_irrefl _)
  rw [Effect] at heffect
  rw [carryEffect]
  cases hitype : insn.itype <;> rw [hitype] at heffect
  case sub | cmp =>
    dsimp only
    split_ifs with h
    · rw [heffect]
      exact hsame h
    · exact hcommon
  all_goals first
    | exact hcommon
    | (rewrite [heffect]; rfl)

theorem zeroEffect_sound (ho : o.Of insn) (heffect : Effect insn o f f') :
    (zeroEffect insn).Allows f.zero f'.zero := by
  have hcommon := (commonEffect_sound heffect).2
  have himm : ∀ {op : FlagOp} {value : ℕ}, isZeroImmediate op = true →
      (op.type = .imm → value = op.value.toNat % 2 ^ o.width) → value = 0 := by
    intro op value hop hvalue
    rw [isZeroImmediate, Bool.and_eq_true, beq_iff_eq, beq_iff_eq] at hop
    rw [hvalue hop.1, hop.2]
    exact Nat.zero_mod _
  rw [Effect] at heffect
  rw [zeroEffect]
  cases hitype : insn.itype <;> rw [hitype] at heffect
  case xor =>
    dsimp only
    split_ifs with h
    · rw [heffect, ho.same h]
      exact decide_eq_true (Nat.xor_self _)
    · exact hcommon
  case sub | cmp =>
    dsimp only
    split_ifs with h
    · rw [heffect]
      exact decide_eq_true (ho.same h)
    · exact hcommon
  case and =>
    dsimp only
    split_ifs with h
    · rw [heffect, himm h ho.right_imm]
      exact decide_eq_true (Nat.and_zero _)
    · exact hcommon
  case test =>
    dsimp only
    split_ifs with h
    · rw [heffect]
      rcases Bool.or_eq_true_iff.1 h with hleft | hright
      · rw [himm hleft ho.left_imm]
        exact decide_eq_true (Nat.zero_and _)
      · rw [himm hright ho.right_imm]
        exact decide_eq_true (Nat.and_zero _)
    · exact hcommon
  all_goals first
    | exact hcommon
    | (rewrite [heffect]; rfl)

/-- The table is right about every instruction. -/
theorem flagEffect_sound (hacts : Acts insn f f') (flag : NativeTrackedFlag) :
    (flagEffect insn flag).Allows (f.get flag) (f'.get flag) := by
  obtain ⟨o, ho, heffect⟩ := hacts
  cases flag with
  | carry => exact carryEffect_sound ho heffect
  | zero => exact zeroEffect_sound ho heffect

end Table

end Viy.Native
