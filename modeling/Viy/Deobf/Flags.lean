import Viy.Deobf.Ir

/-!
# Arithmetic flags

The core computes the flags of a comparison and of a test with masks on 64-bit words. They are the
flags of the subtraction and of the conjunction of the low bytes (`compareFlags_eq`,
`testFlags_eq`), as the processor defines them.
-/

namespace Viy.Deobf

/-! ## The core's flags -/

def evenParity (value : UInt8) : Bool :=
  let ones := (List.range 8).foldl (fun ones i => ones + ((value >>> i.toUInt8) &&& 1).toNat) 0
  ones &&& 1 == 0

def signBit (width : UInt8) : UInt64 := 1 <<< (width.toUInt64 * 8 - 1)

def compareFlags (lhs rhs : UInt64) (width : UInt8) : Option ArithmeticFlags :=
  let mask := widthMask width
  if mask = 0 then none
  else
    let lhs := lhs &&& mask
    let rhs := rhs &&& mask
    let result := (lhs - rhs) &&& mask
    some
      { carry := lhs < rhs
        zero := result == 0
        sign := (result &&& signBit width) != 0
        overflow := ((lhs ^^^ rhs) &&& (lhs ^^^ result) &&& signBit width) != 0
        parity := evenParity result.toUInt8 }

def testFlags (lhs rhs : UInt64) (width : UInt8) : Option ArithmeticFlags :=
  let mask := widthMask width
  if mask = 0 then none
  else
    let result := (lhs &&& rhs) &&& mask
    some
      { carry := false
        zero := result == 0
        sign := (result &&& signBit width) != 0
        overflow := false
        parity := evenParity result.toUInt8 }

def evaluateCondition (condition : X86Condition) (f : ArithmeticFlags) : Option Bool :=
  match condition with
  | .overflow => some f.overflow
  | .notOverflow => some !f.overflow
  | .carry => some f.carry
  | .notCarry => some !f.carry
  | .zero => some f.zero
  | .notZero => some !f.zero
  | .belowOrEqual => some (f.carry || f.zero)
  | .above => some (!f.carry && !f.zero)
  | .sign => some f.sign
  | .notSign => some !f.sign
  | .parity => some f.parity
  | .notParity => some !f.parity
  | .less => some (f.sign != f.overflow)
  | .greaterOrEqual => some (f.sign == f.overflow)
  | .lessOrEqual => some (f.zero || f.sign != f.overflow)
  | .greater => some (!f.zero && f.sign == f.overflow)
  | .unknown => none

/-! ## The processor's flags -/

/-- An even number of bits is set. -/
def parityFlag (b : BitVec 8) : Bool := ((List.range 8).filter b.getLsbD).length % 2 == 0

def subtractionFlags {n : ℕ} (x y : BitVec n) : ArithmeticFlags where
  carry := x.usubOverflow y
  zero := x - y == 0
  sign := (x - y).msb
  overflow := x.ssubOverflow y
  parity := parityFlag ((x - y).setWidth 8)

def logicFlags {n : ℕ} (x : BitVec n) : ArithmeticFlags where
  carry := false
  zero := x == 0
  sign := x.msb
  overflow := false
  parity := parityFlag (x.setWidth 8)

/-- The branch conditions of the processor. -/
def X86Condition.Satisfied (f : ArithmeticFlags) : X86Condition → Prop
  | .overflow => f.overflow = true
  | .notOverflow => f.overflow = false
  | .carry => f.carry = true
  | .notCarry => f.carry = false
  | .zero => f.zero = true
  | .notZero => f.zero = false
  | .belowOrEqual => f.carry = true ∨ f.zero = true
  | .above => f.carry = false ∧ f.zero = false
  | .sign => f.sign = true
  | .notSign => f.sign = false
  | .parity => f.parity = true
  | .notParity => f.parity = false
  | .less => f.sign ≠ f.overflow
  | .greaterOrEqual => f.sign = f.overflow
  | .lessOrEqual => f.zero = true ∨ f.sign ≠ f.overflow
  | .greater => f.zero = false ∧ f.sign = f.overflow
  | .unknown => False

theorem satisfied_iff_of_evaluateCondition {condition : X86Condition} {f : ArithmeticFlags}
    {taken : Bool} (h : evaluateCondition condition f = some taken) :
    condition.Satisfied f ↔ taken = true := by
  cases condition <;> simp only [evaluateCondition, Option.some.injEq, reduceCtorEq] at h <;>
    subst h <;> simp [X86Condition.Satisfied]

/-! ## Agreement -/

theorem evenParity_eq (b : UInt8) : evenParity b = parityFlag b.toBitVec := by
  have hall : ∀ v : BitVec 8, evenParity ⟨v⟩ = parityFlag v := by decide +kernel
  exact hall b.toBitVec

theorem width_of_widthMask_ne_zero {width : UInt8} (h : widthMask width ≠ 0) :
    1 ≤ width.toNat ∧ width.toNat ≤ 8 := by
  unfold widthMask at h
  by_cases hwidth : width = 0 ∨ width > 8
  · rw [if_pos hwidth] at h
    exact absurd rfl h
  · obtain ⟨hzero, hgt⟩ := not_or.1 hwidth
    have hne : width.toNat ≠ 0 := fun heq => hzero (UInt8.toNat_inj.1 heq)
    exact ⟨Nat.one_le_iff_ne_zero.2 hne, UInt8.not_lt.1 hgt⟩

theorem widthMask_ne_zero {width : UInt8} (hpos : 1 ≤ width) (hwidth : width ≤ 8) :
    widthMask width ≠ 0 := by
  have hpos' : 1 ≤ width.toNat := UInt8.le_iff_toNat_le.1 hpos
  have hmask := toNat_widthMask (UInt8.le_iff_toNat_le.1 hwidth)
  have hpow : 2 ^ 1 < 2 ^ (8 * width.toNat) := Nat.pow_lt_pow_right (by decide) (by omega)
  intro hzero
  rw [hzero] at hmask
  have hnat : 0 = 2 ^ (8 * width.toNat) - 1 := hmask
  omega

theorem lowBytes_eq_zero_iff {width : UInt8} {v : UInt64} :
    lowBytes width v = 0 ↔ low width v = 0 := by
  have hzero : low width 0 = 0 := BitVec.setWidth_zero _ _
  have hbytes : lowBytes width 0 = 0 := lowBytes_of_lt (Nat.two_pow_pos _)
  rw [← hbytes, lowBytes_inj, hzero]

/-- The byte of the parity flag. -/
theorem toUInt8_lowBytes (width : UInt8) (v : UInt64) :
    (lowBytes width v).toUInt8.toBitVec = (low width v).setWidth 8 := by
  show ((low width v).setWidth 64).setWidth 8 = _
  exact BitVec.setWidth_setWidth_of_le _ (by decide)

/-- The sign bit selects the top bit of the low bytes. -/
theorem and_signBit {width : UInt8} (hpos : 1 ≤ width.toNat) (hwidth : width.toNat ≤ 8)
    (v : UInt64) : ((v &&& signBit width) != 0) = (low width v).msb := by
  have hn : (width.toUInt64 * 8 - 1).toNat = 8 * width.toNat - 1 := by
    rw [UInt64.toNat_sub, UInt64.toNat_mul, UInt8.toNat_toUInt64]
    change (2 ^ 64 - 1 + width.toNat * 8 % 2 ^ 64) % 2 ^ 64 = _
    omega
  have hbit : (signBit width).toBitVec = BitVec.twoPow 64 (8 * width.toNat - 1) := by
    unfold signBit
    rw [shiftLeft_eq 1 (by omega), hn]
    rfl
  have hand : (v &&& signBit width).toBitVec =
      if v.toBitVec.getLsbD (8 * width.toNat - 1) = true
      then BitVec.twoPow 64 (8 * width.toNat - 1) else 0#64 := by
    rw [UInt64.toBitVec_and, hbit, BitVec.and_twoPow]
  have hmsb : (low width v).msb = v.toBitVec.getLsbD (8 * width.toNat - 1) := by
    unfold low
    rw [BitVec.msb_setWidth, decide_eq_true (by omega), Bool.true_and]
  have hone : BitVec.twoPow 64 (8 * width.toNat - 1) ≠ 0#64 := by
    intro hzero
    have hnat := congrArg BitVec.toNat hzero
    rw [BitVec.toNat_twoPow, Nat.mod_eq_of_lt (Nat.pow_lt_pow_right (by decide) (by omega))] at hnat
    exact absurd hnat (Nat.two_pow_pos _).ne'
  rw [hmsb, Bool.eq_iff_iff, bne_iff_ne, ne_eq, ← UInt64.toBitVec_inj, hand]
  by_cases hb : v.toBitVec.getLsbD (8 * width.toNat - 1) = true
  · rw [if_pos hb]
    exact iff_of_true hone hb
  · rw [if_neg hb]
    exact iff_of_false (not_not.2 rfl) hb

/-- The flags of a comparison are those of the subtraction of the low bytes. -/
theorem compareFlags_eq {lhs rhs : UInt64} {width : UInt8} {f : ArithmeticFlags}
    (h : compareFlags lhs rhs width = some f) :
    f = subtractionFlags (low width lhs) (low width rhs) := by
  unfold compareFlags at h
  by_cases hmask : widthMask width = 0
  · simp only [if_pos hmask] at h
    cases h
  obtain ⟨hpos, hwidth⟩ := width_of_widthMask_ne_zero hmask
  have hand : ∀ v : UInt64, v &&& widthMask width = lowBytes width v :=
    fun v => truncateWidth_eq v hwidth
  have hresult : low width (lowBytes width lhs - lowBytes width rhs) =
      low width lhs - low width rhs := by
    rw [low_sub hwidth, low_lowBytes, low_lowBytes]
  simp only [if_neg hmask, hand] at h
  rw [← Option.some.inj h]
  unfold subtractionFlags
  congr 1
  · unfold BitVec.usubOverflow low
    rw [decide_eq_decide, UInt64.lt_iff_toNat_lt, toNat_lowBytes, toNat_lowBytes,
      BitVec.toNat_setWidth, BitVec.toNat_setWidth, UInt64.toNat_toBitVec, UInt64.toNat_toBitVec]
  · rw [Bool.eq_iff_iff, beq_iff_eq, beq_iff_eq, lowBytes_eq_zero_iff, hresult]
  · rw [and_signBit hpos hwidth, low_lowBytes, hresult]
  · rw [and_signBit hpos hwidth, BitVec.ssubOverflow_eq, low_and, low_xor, low_xor, low_lowBytes,
      low_lowBytes, low_lowBytes, hresult, BitVec.msb_and, BitVec.msb_xor, BitVec.msb_xor]
    cases (low width lhs).msb <;> cases (low width rhs).msb <;>
      cases (low width lhs - low width rhs).msb <;> rfl
  · rw [evenParity_eq, toUInt8_lowBytes, hresult]

/-- The flags of a test are those of the conjunction of the low bytes. -/
theorem testFlags_eq {lhs rhs : UInt64} {width : UInt8} {f : ArithmeticFlags}
    (h : testFlags lhs rhs width = some f) :
    f = logicFlags (low width lhs &&& low width rhs) := by
  unfold testFlags at h
  by_cases hmask : widthMask width = 0
  · simp only [if_pos hmask] at h
    cases h
  obtain ⟨hpos, hwidth⟩ := width_of_widthMask_ne_zero hmask
  have hand : ∀ v : UInt64, v &&& widthMask width = lowBytes width v :=
    fun v => truncateWidth_eq v hwidth
  simp only [if_neg hmask, hand] at h
  rw [← Option.some.inj h, ← low_and]
  unfold logicFlags
  congr 1
  · rw [Bool.eq_iff_iff, beq_iff_eq, beq_iff_eq, lowBytes_eq_zero_iff]
  · rw [and_signBit hpos hwidth, low_lowBytes]
  · rw [evenParity_eq, toUInt8_lowBytes]

/-! ## The orders that the conditions decide -/

/-- The values of the enumeration; the partner of a condition is one bit away. -/
def X86Condition.code : X86Condition → UInt8
  | .overflow => 0
  | .notOverflow => 1
  | .carry => 2
  | .notCarry => 3
  | .zero => 4
  | .notZero => 5
  | .belowOrEqual => 6
  | .above => 7
  | .sign => 8
  | .notSign => 9
  | .parity => 10
  | .notParity => 11
  | .less => 12
  | .greaterOrEqual => 13
  | .lessOrEqual => 14
  | .greater => 15
  | .unknown => 0xff

/-- The condition one bit away from `c`. -/
def X86Condition.partner : X86Condition → X86Condition
  | .overflow => .notOverflow
  | .notOverflow => .overflow
  | .carry => .notCarry
  | .notCarry => .carry
  | .zero => .notZero
  | .notZero => .zero
  | .belowOrEqual => .above
  | .above => .belowOrEqual
  | .sign => .notSign
  | .notSign => .sign
  | .parity => .notParity
  | .notParity => .parity
  | .less => .greaterOrEqual
  | .greaterOrEqual => .less
  | .lessOrEqual => .greater
  | .greater => .lessOrEqual
  | .unknown => .unknown

theorem code_partner {c : X86Condition} (hknown : c ≠ .unknown) :
    c.partner.code = c.code ^^^ 1 := by
  cases c with
  | unknown => exact absurd rfl hknown
  | _ => rfl

theorem evaluateCondition_partner (c : X86Condition) (f : ArithmeticFlags) :
    evaluateCondition c.partner f = (evaluateCondition c f).map not := by
  cases c <;> simp [evaluateCondition, X86Condition.partner, Bool.not_or, bne]

theorem exists_evaluateCondition {c : X86Condition} (hknown : c ≠ .unknown) (f : ArithmeticFlags) :
    ∃ taken, evaluateCondition c f = some taken := by
  cases c with
  | unknown => exact absurd rfl hknown
  | _ => exact ⟨_, rfl⟩

/-- With the flags `f`, the conditions decide how `x` compares to `y`, unsigned and signed. -/
structure Compares {n : ℕ} (x y : BitVec n) (f : ArithmeticFlags) : Prop where
  carry : evaluateCondition .carry f = some (decide (x.toNat < y.toNat))
  belowOrEqual : evaluateCondition .belowOrEqual f = some (decide (x.toNat ≤ y.toNat))
  zero : evaluateCondition .zero f = some (decide (x = y))
  less : evaluateCondition .less f = some (decide (x.toInt < y.toInt))
  lessOrEqual : evaluateCondition .lessOrEqual f = some (decide (x.toInt ≤ y.toInt))
  /-- The difference is not a signed value of the width. -/
  overflow : evaluateCondition .overflow f =
    some (decide (2 ^ (n - 1) ≤ x.toInt - y.toInt ∨ x.toInt - y.toInt < -2 ^ (n - 1)))
  sign : evaluateCondition .sign f = some (decide ((x - y).toInt < 0))
  complementary : ∀ c ≠ .unknown, ∃ d : X86Condition, ∃ taken, d.code = c.code ^^^ 1 ∧
    evaluateCondition c f = some taken ∧ evaluateCondition d f = some !taken

section Orders

variable {n : ℕ} {x y : BitVec n}

theorem sub_beq_zero (x y : BitVec n) : (x - y == 0) = decide (x = y) := by
  rw [Bool.eq_iff_iff, beq_iff_eq, decide_eq_true_eq, BitVec.sub_eq_iff_eq_add]
  exact Eq.congr_right (BitVec.zero_add y)

theorem ssubOverflow_eq_decide (x y : BitVec n) : x.ssubOverflow y =
    decide (2 ^ (n - 1) ≤ x.toInt - y.toInt ∨ x.toInt - y.toInt < -2 ^ (n - 1)) :=
  (Bool.decide_or _ _).symm

/-- The sign of the difference is wrong exactly when it overflows. -/
theorem msb_sub_bne_ssubOverflow (x y : BitVec n) :
    ((x - y).msb != x.ssubOverflow y) = decide (x.toInt < y.toInt) := by
  cases hoverflow : x.ssubOverflow y with
  | false =>
    have hdiff : (x - y).toInt = x.toInt - y.toInt :=
      BitVec.toInt_sub_of_not_ssubOverflow (Bool.not_eq_true _ ▸ hoverflow)
    rw [Bool.bne_false, BitVec.msb_eq_toInt, hdiff, decide_eq_decide]
    exact sub_neg
  | true =>
    -- the operands have opposite signs, and the difference has that of the right one
    simp only [BitVec.ssubOverflow_eq, Bool.or_eq_true, Bool.and_eq_true, Bool.not_eq_true',
      BitVec.msb_eq_toInt, decide_eq_true_eq, decide_eq_false_iff_not] at hoverflow
    rw [Bool.bne_true, BitVec.msb_eq_toInt, ← decide_not, decide_eq_decide]
    omega

/-- A test compares the conjunction to zero. -/
theorem logicFlags_eq (x : BitVec n) : logicFlags x = subtractionFlags x 0 := by
  have hsub : x - 0 = x := BitVec.sub_zero x
  have hborrow : x.usubOverflow 0 = false := by simp [BitVec.usubOverflow]
  have hoverflow : x.ssubOverflow 0 = false := by
    rw [BitVec.ssubOverflow_eq, hsub]
    simp
  rw [logicFlags, subtractionFlags, hsub, hborrow, hoverflow]

theorem compares_subtractionFlags (x y : BitVec n) : Compares x y (subtractionFlags x y) where
  carry := rfl
  belowOrEqual := by
    show some (decide (x.toNat < y.toNat) || (x - y == 0)) = _
    rw [sub_beq_zero, ← Bool.decide_or, decide_eq_decide.2]
    rw [← BitVec.toNat_inj, Nat.le_iff_lt_or_eq]
  zero := congrArg some (sub_beq_zero x y)
  less := congrArg some (msb_sub_bne_ssubOverflow x y)
  lessOrEqual := by
    show some ((x - y == 0) || ((x - y).msb != x.ssubOverflow y)) = _
    rw [sub_beq_zero, msb_sub_bne_ssubOverflow, ← Bool.decide_or, decide_eq_decide.2]
    rw [← BitVec.toInt_inj, le_iff_eq_or_lt]
  overflow := congrArg some (ssubOverflow_eq_decide x y)
  sign := congrArg some BitVec.msb_eq_toInt
  complementary := by
    intro c hknown
    obtain ⟨taken, htaken⟩ := exists_evaluateCondition hknown (subtractionFlags x y)
    refine ⟨c.partner, taken, code_partner hknown, htaken, ?_⟩
    rw [evaluateCondition_partner, htaken]
    rfl

end Orders

/-- **Orders.** After a comparison the conditions decide how the low bytes of the operands compare,
after a test how their conjunction compares to zero. -/
theorem compares_of_flags {width : UInt8} (hpos : 1 ≤ width) (hwidth : width ≤ 8) (a b : UInt64) :
    (∃ f, compareFlags a b width = some f ∧ Compares (low width a) (low width b) f) ∧
      ∃ f, testFlags a b width = some f ∧ Compares (low width a &&& low width b) 0 f := by
  have hmask : widthMask width ≠ 0 := widthMask_ne_zero hpos hwidth
  constructor
  · obtain ⟨f, hf⟩ : ∃ f, compareFlags a b width = some f := ⟨_, if_neg hmask⟩
    rw [compareFlags_eq hf] at hf
    exact ⟨_, hf, compares_subtractionFlags _ _⟩
  · obtain ⟨f, hf⟩ : ∃ f, testFlags a b width = some f := ⟨_, if_neg hmask⟩
    rw [testFlags_eq hf, logicFlags_eq] at hf
    exact ⟨_, hf, compares_subtractionFlags _ _⟩

/-- Three bytes, the least value against one. -/
theorem compares_of_flags_three : (1 : UInt8) ≤ 3 ∧ (3 : UInt8) ≤ 8 ∧
    (∃ f, compareFlags 0x800000 1 3 = some f ∧ Compares (low 3 0x800000) (low 3 1) f) ∧
      ∃ f, testFlags 0x800000 1 3 = some f ∧ Compares (low 3 0x800000 &&& low 3 1) 0 f :=
  ⟨by decide, by decide, compares_of_flags (by decide) (by decide) _ _⟩

end Viy.Deobf
