import Viy.Deobf.Flags

/-!
# ARM conditions on x86 flags

The ARM adapter maps condition codes to the conditions of the core, whose carry flag is the borrow
of a subtraction. `arm_condition` therefore reads the carry inverted, which is right after a
comparison. After a test the core's carry is clear as well, where the architecture clears C: the
codes that read C then see it set.
-/

namespace Viy.Deobf

/-- `arm_condition` -/
def armCondition (encoded : UInt16) : X86Condition :=
  match (encoded &&& 0x0f).toNat with
  | 0 => .zero
  | 1 => .notZero
  | 2 => .notCarry
  | 3 => .carry
  | 4 => .sign
  | 5 => .notSign
  | 6 => .overflow
  | 7 => .notOverflow
  | 8 => .above
  | 9 => .belowOrEqual
  | 10 => .greaterOrEqual
  | 11 => .less
  | 12 => .greater
  | 13 => .lessOrEqual
  | _ => .unknown

/-! ## The architecture -/

/-- The condition flags of AArch64. -/
structure Nzcv where
  n : Bool
  z : Bool
  c : Bool
  v : Bool

/-- `CMP`: C is set where the subtraction does not borrow. -/
def cmpFlags {w : ℕ} (x y : BitVec w) : Nzcv where
  n := (x - y).msb
  z := x - y == 0
  c := !x.usubOverflow y
  v := x.ssubOverflow y

/-- `TST` -/
def tstFlags {w : ℕ} (x y : BitVec w) : Nzcv where
  n := (x &&& y).msb
  z := x &&& y == 0
  c := false
  v := false

/-- Bits 3 to 1 of a code select the flags, bit 0 negates. -/
def conditionHolds (cond : UInt16) (f : Nzcv) : Bool :=
  let result :=
    match (cond >>> 1 &&& 7).toNat with
    | 0 => f.z
    | 1 => f.c
    | 2 => f.n
    | 3 => f.v
    | 4 => f.c && !f.z
    | 5 => f.n == f.v
    | 6 => f.n == f.v && !f.z
    | _ => true
  if cond &&& 1 = 1 ∧ cond ≠ 15 then !result else result

/-! ## The mapping -/

/-- The core's flags as the mapping reads them. -/
def ArithmeticFlags.nzcv (f : ArithmeticFlags) : Nzcv where
  n := f.sign
  z := f.zero
  c := !f.carry
  v := f.overflow

theorem exists_code {cc : UInt16} (hcc : cc < 14) : ∃ n < 14, cc = UInt16.ofNat n :=
  ⟨cc.toNat, UInt16.lt_iff_toNat_lt.1 hcc, UInt16.ofNat_toNat.symm⟩

theorem evaluateCondition_armCondition {cc : UInt16} (hcc : cc < 14) (f : ArithmeticFlags) :
    evaluateCondition (armCondition cc) f = some (conditionHolds cc f.nzcv) := by
  obtain ⟨n, hn, rfl⟩ := exists_code hcc
  obtain ⟨carry, zero, sign, overflow, parity⟩ := f
  interval_cases n <;> cases carry <;> cases zero <;> cases sign <;> cases overflow <;> rfl

/-- The codes that read C. -/
theorem conditionHolds_carry_iff {cc : UInt16} (hcc : cc < 14) (n z v : Bool) :
    conditionHolds cc ⟨n, z, true, v⟩ = conditionHolds cc ⟨n, z, false, v⟩ ↔
      cc ≠ 2 ∧ cc ≠ 3 ∧ (cc = 8 ∨ cc = 9 → z = true) := by
  obtain ⟨k, hk, rfl⟩ := exists_code hcc
  interval_cases k <;> cases n <;> cases z <;> cases v <;> decide

/-! ## Comparisons and tests -/

section Outcomes

variable {width : UInt8} {a b : UInt64} {cc : UInt16}

theorem compareFlags_isSome (hwidth : width = 4 ∨ width = 8) :
    ∃ f, compareFlags a b width = some f := by
  rcases hwidth with rfl | rfl <;> exact ⟨_, rfl⟩

theorem testFlags_isSome (hwidth : width = 4 ∨ width = 8) : ∃ f, testFlags a b width = some f := by
  rcases hwidth with rfl | rfl <;> exact ⟨_, rfl⟩

/-- After a comparison every code is evaluated as the architecture has it. -/
theorem evaluate_compare (hwidth : width = 4 ∨ width = 8) (hcc : cc < 14) :
    (compareFlags a b width).bind (evaluateCondition (armCondition cc)) =
      some (conditionHolds cc (cmpFlags (low width a) (low width b))) := by
  obtain ⟨f, hf⟩ := compareFlags_isSome (a := a) (b := b) hwidth
  rw [hf, Option.bind_some, evaluateCondition_armCondition hcc, compareFlags_eq hf]
  rfl

theorem evaluate_test (hwidth : width = 4 ∨ width = 8) (hcc : cc < 14) :
    (testFlags a b width).bind (evaluateCondition (armCondition cc)) =
      some (conditionHolds cc { tstFlags (low width a) (low width b) with c := true }) := by
  obtain ⟨f, hf⟩ := testFlags_isSome (a := a) (b := b) hwidth
  rw [hf, Option.bind_some, evaluateCondition_armCondition hcc, testFlags_eq hf]
  rfl

/-- **ARM conditions.** A code has the architecture's outcome after `CMP` and after `TST` exactly if
it does not read C, or reads it behind a zero result only. -/
theorem arm_outcomes_iff (hwidth : width = 4 ∨ width = 8) (hcc : cc < 14) :
    ((compareFlags a b width).bind (evaluateCondition (armCondition cc)) =
        some (conditionHolds cc (cmpFlags (low width a) (low width b))) ∧
      (testFlags a b width).bind (evaluateCondition (armCondition cc)) =
        some (conditionHolds cc (tstFlags (low width a) (low width b)))) ↔
      cc ≠ 2 ∧ cc ≠ 3 ∧ (cc = 8 ∨ cc = 9 → low width a &&& low width b = 0) := by
  rw [and_iff_right (evaluate_compare hwidth hcc), evaluate_test hwidth hcc, Option.some.injEq]
  have hcarry := conditionHolds_carry_iff hcc (low width a &&& low width b).msb
    (low width a &&& low width b == 0) false
  rw [beq_iff_eq] at hcarry
  exact hcarry

end Outcomes

theorem equal_after_test : (testFlags 6 1 8).bind (evaluateCondition (armCondition 0)) =
    some (conditionHolds 0 (tstFlags (low 8 6) (low 8 1))) :=
  ((arm_outcomes_iff (Or.inr rfl) (by decide)).2 ⟨by decide, by decide, by decide⟩).2

/-- `TST W0, #1` clears C, so `B.HS` is not taken; the core says that it is. -/
theorem higher_or_same_after_test :
    (testFlags 1 1 4).bind (evaluateCondition (armCondition 2)) = some true ∧
      conditionHolds 2 (tstFlags (low 4 1) (low 4 1)) = false := by
  decide

end Viy.Deobf
