import Viy.Absint.Run
import Viy.Cxx.Map
import Viy.Wire.Words

/-!
# The deobfuscation IR and its meaning

The IDA adapter translates decoded instructions into a small IR, on which the classifiers work. The
first part of this module is that IR. The second part says what its instructions do to a machine of
64-bit register cells, arithmetic flags and a stack: `Instruction.Executes` relates the state before
an instruction to the states after it, with every value the IR leaves open.
-/

namespace Viy.Deobf

open Wire

/-! ## The IR -/

def badAddress : UInt64 := ~~~0

/-- `kNoRegister` -/
def noRegister : ℤ := -1

inductive InstructionKind where
  | other | nop | directCall | indirectCall | directJump | indirectJump | conditionalBranch
  | return | popRegister | pushRegister | pushImmediate | readStackTop | addStackTopImmediate
  | adjustStackPointerImmediate | loadImmediate | loadAddress | loadReadOnlyConstant
  | copyRegister | addImmediate | subImmediate | xorImmediate | andImmediate | orImmediate
  | shiftLeftImmediate | replaceHigh16 | compareImmediate | testImmediate
  deriving DecidableEq

inductive X86Condition where
  | overflow | notOverflow | carry | notCarry | zero | notZero | belowOrEqual | above
  | sign | notSign | parity | notParity | less | greaterOrEqual | lessOrEqual | greater
  | unknown
  deriving DecidableEq

inductive FlagEffect where
  | preserve | knownCompare | knownTest | unknownWrite
  deriving DecidableEq

structure Instruction where
  address : UInt64 := badAddress
  size : UInt16 := 0
  kind : InstructionKind := .other
  destinationRegister : ℤ := noRegister
  sourceRegister : ℤ := noRegister
  destinationName : Bytes := []
  sourceName : Bytes := []
  /-- In bytes. -/
  valueWidth : UInt8 := 0
  immediate : UInt64 := 0
  target : UInt64 := badAddress
  memoryAddress : UInt64 := badAddress
  condition : X86Condition := .unknown
  flagEffect : FlagEffect := .unknownWrite
  registerIsLeftOperand : Bool := true
  alternatePredecessor : Bool := false

structure Block where
  start : UInt64 := badAddress
  successors : List UInt64 := []
  instructions : List Instruction := []

structure ClassifierLimits where
  gadgetDepth : UInt64 := 12
  maximumGap : UInt64 := 0x100
  entryPredicateWindow : UInt64 := 0x40
  minimumConstantSteps : ℕ := 2
  minimumDispatchCases : ℕ := 3
  maximumDispatchCases : ℕ := 256

/-- `Instruction::end` -/
def Instruction.endAddress (insn : Instruction) : UInt64 :=
  if insn.address = badAddress ∨ insn.address > ~~~0 - insn.size.toUInt64 then badAddress
  else insn.address + insn.size.toUInt64

/-- The register that arithmetic starts from and that an indirect branch reads. -/
def Instruction.baseRegister (insn : Instruction) : ℤ :=
  if insn.sourceRegister ≠ noRegister then insn.sourceRegister else insn.destinationRegister

def Instruction.isCall (insn : Instruction) : Bool :=
  insn.kind = .directCall || insn.kind = .indirectCall

def widthMask (width : UInt8) : UInt64 :=
  if width = 0 ∨ width > 8 then 0
  else if width = 8 then ~~~0
  else (1 <<< (width.toUInt64 * 8)) - 1

def truncateWidth (value : UInt64) (width : UInt8) : UInt64 := value &&& widthMask width

/-! ## Low bytes of a cell -/

/-- The low `width` bytes. -/
def low (width : UInt8) (v : UInt64) : BitVec (8 * width.toNat) := v.toBitVec.setWidth _

/-- The low `width` bytes as a value. -/
def lowBytes (width : UInt8) (v : UInt64) : UInt64 := ⟨(low width v).setWidth 64⟩

theorem toNat_widthMask {width : UInt8} (h : width.toNat ≤ 8) :
    (widthMask width).toNat = 2 ^ (8 * width.toNat) - 1 := by
  have hall : ∀ n : Fin 9, (widthMask (UInt8.ofNat n)).toNat = 2 ^ (8 * (n : ℕ)) - 1 := by decide
  have hwidth := hall ⟨width.toNat, Nat.lt_succ_of_le h⟩
  rwa [UInt8.ofNat_toNat] at hwidth

theorem toNat_lowBytes (width : UInt8) (v : UInt64) :
    (lowBytes width v).toNat = v.toNat % 2 ^ (8 * width.toNat) := by
  have hlt : v.toNat % 2 ^ (8 * width.toNat) < 2 ^ 64 :=
    Nat.lt_of_le_of_lt (Nat.mod_le _ _) v.toNat_lt
  show ((v.toBitVec.setWidth (8 * width.toNat)).setWidth 64).toNat = _
  rw [BitVec.toNat_setWidth, BitVec.toNat_setWidth]
  exact Nat.mod_eq_of_lt hlt

/-- For the widths of modeled integers, truncation takes the low bytes. -/
theorem truncateWidth_eq (v : UInt64) {width : UInt8} (h : width.toNat ≤ 8) :
    truncateWidth v width = lowBytes width v := by
  rw [← UInt64.toNat_inj, toNat_lowBytes, truncateWidth, UInt64.toNat_and, toNat_widthMask h,
    Nat.and_two_pow_sub_one_eq_mod]

theorem low_lowBytes (width : UInt8) (v : UInt64) : low width (lowBytes width v) = low width v := by
  apply BitVec.eq_of_toNat_eq
  unfold low
  rw [BitVec.toNat_setWidth, BitVec.toNat_setWidth, UInt64.toNat_toBitVec, toNat_lowBytes,
    Nat.mod_mod, UInt64.toNat_toBitVec]

theorem lowBytes_inj {width : UInt8} {v w : UInt64} :
    lowBytes width v = lowBytes width w ↔ low width v = low width w := by
  constructor
  · intro h
    rw [← low_lowBytes, h, low_lowBytes]
  · intro h
    unfold lowBytes
    rw [h]

theorem lowBytes_of_lt {width : UInt8} {v : UInt64} (h : v.toNat < 2 ^ (8 * width.toNat)) :
    lowBytes width v = v := by
  rw [← UInt64.toNat_inj, toNat_lowBytes, Nat.mod_eq_of_lt h]

theorem lowBytes_lowBytes {width width' : UInt8} (h : width ≤ width') (v : UInt64) :
    lowBytes width (lowBytes width' v) = lowBytes width v := by
  rw [← UInt64.toNat_inj, toNat_lowBytes, toNat_lowBytes, toNat_lowBytes]
  exact Nat.mod_mod_of_dvd _ (Nat.pow_dvd_pow 2 (Nat.mul_le_mul_left 8 h))

/-! ### Arithmetic on low bytes -/

section Arithmetic

variable {width : UInt8} (h : width.toNat ≤ 8) (v w : UInt64)

include h in
theorem low_add : low width (v + w) = low width v + low width w := by
  unfold low
  rw [UInt64.toBitVec_add, BitVec.setWidth_add _ _ (by omega)]

include h in
theorem low_sub : low width (v - w) = low width v - low width w := by
  unfold low
  rw [UInt64.toBitVec_sub, BitVec.sub_eq_add_neg, BitVec.setWidth_add _ _ (by omega),
    BitVec.setWidth_neg_of_le (by omega), ← BitVec.sub_eq_add_neg]

theorem low_xor : low width (v ^^^ w) = low width v ^^^ low width w := by
  unfold low
  rw [UInt64.toBitVec_xor, BitVec.setWidth_xor]

theorem low_and : low width (v &&& w) = low width v &&& low width w := by
  unfold low
  rw [UInt64.toBitVec_and, BitVec.setWidth_and]

theorem low_or : low width (v ||| w) = low width v ||| low width w := by
  unfold low
  rw [UInt64.toBitVec_or, BitVec.setWidth_or]

include h in
theorem low_shiftLeft (n : ℕ) : low width ⟨v.toBitVec <<< n⟩ = low width v <<< n :=
  BitVec.setWidth_shiftLeft_of_le (by omega)

end Arithmetic

theorem lowBytes_add_one_ne {width : UInt8} (hpos : 1 ≤ width.toNat) (hwidth : width.toNat ≤ 8)
    (v : UInt64) : lowBytes width (v + 1) ≠ lowBytes width v := by
  intro h
  have hlow := lowBytes_inj.1 h
  rw [low_add hwidth, BitVec.add_right_eq_self] at hlow
  have hone := congrArg BitVec.toNat hlow
  have hlt : 1 < 2 ^ (8 * width.toNat) := Nat.one_lt_two_pow (by omega)
  unfold low at hone
  rw [BitVec.toNat_setWidth, BitVec.toNat_zero] at hone
  change 1 % 2 ^ (8 * width.toNat) = 0 at hone
  rw [Nat.mod_eq_of_lt hlt] at hone
  cases hone

/-- Below the width of a cell, shifts by a cell are shifts by its value. -/
theorem shiftLeft_eq (v : UInt64) {n : UInt64} (h : n.toNat < 64) :
    v <<< n = ⟨v.toBitVec <<< n.toNat⟩ := by
  apply UInt64.toBitVec_inj.1
  rw [UInt64.toBitVec_shiftLeft, BitVec.shiftLeft_eq']
  show v.toBitVec <<< (n.toBitVec % 64).toNat = v.toBitVec <<< n.toNat
  congr 1
  simp
  omega

/-! ## What instructions do -/

structure ArithmeticFlags where
  carry : Bool := false
  zero : Bool := false
  sign : Bool := false
  overflow : Bool := false
  parity : Bool := false
  deriving DecidableEq

abbrev Registers := ℤ → UInt64

/-- The top of the stack is its element 0. -/
structure Machine where
  regs : Registers
  flags : ArithmeticFlags
  stack : ℕ → UInt64

/-- What an instruction leaves in its destination. -/
inductive Written where
  /-- It writes no register. -/
  | nothing
  | anything
  /-- The low bytes of a value; what is above is open. -/
  | value (v : UInt64)

/-- The value with its bits 16 to 31 replaced by the low bits of another. -/
def replaceHigh16 (v immediate : UInt64) : UInt64 :=
  .ofNat (2 ^ 32 * (v.toNat / 2 ^ 32) + 2 ^ 16 * (immediate.toNat % 2 ^ 16) + v.toNat % 2 ^ 16)

def Instruction.written (insn : Instruction) (regs : Registers) : Written :=
  if insn.destinationRegister = noRegister then .nothing
  else
    let base := regs insn.baseRegister
    match insn.kind with
    | .loadImmediate | .loadAddress | .loadReadOnlyConstant => .value insn.immediate
    | .copyRegister => .value (regs insn.sourceRegister)
    | .addImmediate => .value (base + insn.immediate)
    | .subImmediate => .value (base - insn.immediate)
    | .xorImmediate => .value (base ^^^ insn.immediate)
    | .andImmediate => .value (base &&& insn.immediate)
    | .orImmediate => .value (base ||| insn.immediate)
    | .shiftLeftImmediate => .value ⟨base.toBitVec <<< insn.immediate.toNat⟩
    | .replaceHigh16 => .value (replaceHigh16 base insn.immediate)
    | .popRegister | .readStackTop | .other => .anything
    | _ => .nothing

/-- The registers after an instruction; a call leaves them open. -/
def Instruction.Writes (insn : Instruction) (regs regs' : Registers) : Prop :=
  insn.isCall = true ∨
    match insn.written regs with
    | .nothing => regs' = regs
    | .anything => ∀ r ≠ insn.destinationRegister, regs' r = regs r
    | .value v => (∀ r ≠ insn.destinationRegister, regs' r = regs r) ∧
        low insn.valueWidth (regs' insn.destinationRegister) = low insn.valueWidth v

def push (v : UInt64) (stack : ℕ → UInt64) : ℕ → UInt64
  | 0 => v
  | n + 1 => stack n

/-- The stack after an instruction; only pushes, returns and nops are pinned down. -/
def Instruction.Stacks (insn : Instruction) (m : Machine) (stack' : ℕ → UInt64) : Prop :=
  match insn.kind with
  | .pushImmediate => stack' = push insn.immediate m.stack
  | .pushRegister => stack' = push (m.regs insn.sourceRegister) m.stack
  | .return => stack' = fun n => m.stack (n + 1)
  | .nop => stack' = m.stack
  | _ => True

/-- One step of the machine, whatever happens to the flags. -/
def Instruction.Executes (insn : Instruction) (m m' : Machine) : Prop :=
  insn.Writes m.regs m'.regs ∧ insn.Stacks m m'.stack

namespace Instruction

variable {insn : Instruction} {regs regs' : Registers}

/-- Only the destination changes, and nothing if there is none. -/
theorem Writes.keeps (h : insn.Writes regs regs') (hcall : insn.isCall = false) {r : ℤ}
    (hr : insn.destinationRegister ≠ noRegister → r ≠ insn.destinationRegister) :
    regs' r = regs r := by
  rcases h with h | h
  · rw [hcall] at h
    cases h
  by_cases hd : insn.destinationRegister = noRegister
  · have hw : insn.written regs = .nothing := if_pos hd
    rw [hw] at h
    exact congrFun h r
  · cases hw : insn.written regs with
    | nothing =>
      rw [hw] at h
      exact congrFun h r
    | anything =>
      rw [hw] at h
      exact h r (hr hd)
    | value v =>
      rw [hw] at h
      exact h.1 r (hr hd)

theorem Writes.writes (h : insn.Writes regs regs') (hcall : insn.isCall = false) {v : UInt64}
    (hw : insn.written regs = .value v) :
    low insn.valueWidth (regs' insn.destinationRegister) = low insn.valueWidth v := by
  rcases h with h | h
  · rw [hcall] at h
    cases h
  · rw [hw] at h
    exact h.2

end Instruction

/-! ### Replacing a word -/

theorem toNat_replaceHigh16 (v immediate : UInt64) : (replaceHigh16 v immediate).toNat =
    2 ^ 32 * (v.toNat / 2 ^ 32) + 2 ^ 16 * (immediate.toNat % 2 ^ 16) + v.toNat % 2 ^ 16 := by
  have hv := v.toNat_lt
  unfold replaceHigh16
  rw [UInt64.toNat_ofNat']
  apply Nat.mod_eq_of_lt
  omega

section ReplaceHigh16

variable {width : UInt8} (h : 4 ≤ width.toNat) (immediate : UInt64)

include h in
theorem two_pow_width : 2 ^ (8 * width.toNat) = 2 ^ 32 * 2 ^ (8 * width.toNat - 32) := by
  rw [← Nat.pow_add]
  congr 1
  omega

include h in
theorem low_replaceHigh16_congr {v w : UInt64} (hvw : low width v = low width w) :
    low width (replaceHigh16 v immediate) = low width (replaceHigh16 w immediate) := by
  have hmod : v.toNat % 2 ^ (8 * width.toNat) = w.toNat % 2 ^ (8 * width.toNat) := by
    rw [← toNat_lowBytes, ← toNat_lowBytes, lowBytes_inj.2 hvw]
  have hreplaced : ∀ u : UInt64,
      (replaceHigh16 u immediate).toNat % 2 ^ (8 * width.toNat) =
        2 ^ 16 * (immediate.toNat % 2 ^ 16) + u.toNat % 2 ^ (8 * width.toNat) % 2 ^ 16 +
          2 ^ 32 * (u.toNat % 2 ^ (8 * width.toNat) / 2 ^ 32) := by
    intro u
    have hlow : u.toNat % 2 ^ 32 % 2 ^ 16 = u.toNat % 2 ^ 16 :=
      Nat.mod_mod_of_dvd _ (by decide)
    rw [toNat_replaceHigh16, two_pow_width h, Nat.mod_mul, Nat.mod_mul]
    generalize 2 ^ (8 * width.toNat - 32) = k
    have hdiv : (2 ^ 32 * (u.toNat / 2 ^ 32) + 2 ^ 16 * (immediate.toNat % 2 ^ 16) +
        u.toNat % 2 ^ 16) / 2 ^ 32 = u.toNat / 2 ^ 32 := by omega
    rw [hdiv]
    omega
  rw [← lowBytes_inj, ← UInt64.toNat_inj, toNat_lowBytes, toNat_lowBytes, hreplaced, hreplaced,
    hmod]

end ReplaceHigh16

end Viy.Deobf
