import Viy.Deobf.ArmConditions

/-!
# Pairs of opposite branches

`inspect_opposite_pair` looks for two branches, one behind the other, that go to one target under
opposite conditions. One of them is taken, so the code behind the second is not reached, and the
analysis publishes this as a proof. Here the rule is compared with what the branches test: flags, a
bit of a register, or a register that is compared with zero in its own operand size.
-/

namespace Viy.Native

/-! ## Instructions and the database -/

inductive NativeArchitecture where
  | unsupported | x86 | arm32 | arm64

/-- The types of instructions that the rule tells apart. -/
inductive Itype where
  | jo | jno | jb | jc | jnae | jnb | jnc | jae | jz | je | jnz | jne | jbe | jna | ja | jnbe | js
  | jns | jp | jpe | jnp | jpo | jl | jnge | jnl | jge | jle | jng | jnle | jg
  | armB | armCbz | armCbnz | armTbz | armTbnz
  | other (code : UInt16)
deriving DecidableEq

inductive OpType where
  | void | reg | imm | near | far | other
deriving DecidableEq

/-- The sizes of the registers that `CBZ` and `CBNZ` test. -/
inductive Dtype where
  | dword | qword
deriving DecidableEq

structure Op where
  type : OpType := .void
  dtype : Dtype := .qword
  reg : UInt16 := 0
  value : UInt64 := 0
  addr : UInt64 := 0

structure Insn where
  ea : UInt64
  size : UInt16
  itype : Itype
  segpref : UInt8 := 0
  ops : List Op

def Insn.op1 (insn : Insn) : Op := insn.ops.getD 0 {}

def Insn.op2 (insn : Insn) : Op := insn.ops.getD 1 {}

structure Xref where
  origin : UInt64
  iscode : Bool

/-- What the disassembler answers. -/
structure Database where
  decodeInsn : UInt64 → Option Insn
  isCode : UInt64 → Bool
  isMapped : UInt64 → Bool
  isLoaded : UInt64 → Bool
  /-- whether the segment at an address, if there is one, may be executed -/
  segmentExec : UInt64 → Option Bool
  /-- the cross references to an address, in the order of the enumeration -/
  xrefsTo : UInt64 → List Xref
  itypeCode : Itype → UInt16

def badaddr : UInt64 := 0xffffffffffffffff

/-! ## The rule -/

def operandTarget : List Op → UInt64
  | [] => badaddr
  | op :: ops =>
    if op.type = .near ∨ op.type = .far then op.addr
    else if op.type = .void then badaddr
    else operandTarget ops

def branchTarget (insn : Insn) : UInt64 := operandTarget insn.ops

/-- `has_alternate_predecessor`, on the references to the address -/
def hasAlternatePredecessor (linearPredecessor : UInt64) : List Xref → Bool
  | [] => false
  | xb :: rest =>
    if xb.iscode = false then false
    else if xb.origin ≠ linearPredecessor then true
    else hasAlternatePredecessor linearPredecessor rest

def mappedLoaded (db : Database) (ea : UInt64) : Bool :=
  ea != badaddr && db.isMapped ea && db.isLoaded ea

def executableAddress (db : Database) (ea : UInt64) (allowExistingCode : Bool) : Bool :=
  if mappedLoaded db ea = false then false
  else
    match db.segmentExec ea with
    | none => false
    | some exec => if exec then true else allowExistingCode && db.isCode ea

def alignedControlTarget (arch : NativeArchitecture) (target : UInt64) : Bool :=
  match arch with
  | .arm64 => target &&& 3 == 0
  | .arm32 => target &&& 1 == 0
  | _ => true

def usableControlTarget (db : Database) (arch : NativeArchitecture) (target : UInt64) : Bool :=
  alignedControlTarget arch target && executableAddress db target true

inductive X86Condition where
  | overflow | notOverflow | carry | notCarry | zero | notZero | belowOrEqual | above | sign
  | notSign | parity | notParity | less | greaterOrEqual | lessOrEqual | greater | invalid
deriving DecidableEq

/-- The number of an enumerator. -/
def X86Condition.value : X86Condition → UInt16
  | .overflow => 0
  | .notOverflow => 1
  | .carry => 2
  | .notCarry => 3
  | .zero => 4
  | .notZero => 5
  | .belowOrEqual => 6
  | .above => 7
  | .sign => 8
  | .notSign => 9
  | .parity => 10
  | .notParity => 11
  | .less => 12
  | .greaterOrEqual => 13
  | .lessOrEqual => 14
  | .greater => 15
  | .invalid => 0xffff

def x86Condition : Itype → X86Condition
  | .jo => .overflow
  | .jno => .notOverflow
  | .jb | .jc | .jnae => .carry
  | .jnb | .jnc | .jae => .notCarry
  | .jz | .je => .zero
  | .jnz | .jne => .notZero
  | .jbe | .jna => .belowOrEqual
  | .ja | .jnbe => .above
  | .js => .sign
  | .jns => .notSign
  | .jp | .jpe => .parity
  | .jnp | .jpo => .notParity
  | .jl | .jnge => .less
  | .jnl | .jge => .greaterOrEqual
  | .jle | .jng => .lessOrEqual
  | .jnle | .jg => .greater
  | _ => .invalid

def oppositeX86Conditions (a b : X86Condition) : Bool :=
  if a = .invalid ∨ b = .invalid then false else a.value ^^^ 1 == b.value

def armCondition (insn : Insn) : UInt16 := (insn.segpref &&& 0x0f).toUInt16

inductive NativeOppositeBranchFamily where
  | x86Jcc | armCondition | armCompareZero | armTestBit
deriving DecidableEq

/-- The family of a pair and its two conditions. -/
structure Family where
  family : NativeOppositeBranchFamily
  firstCondition : UInt16
  secondCondition : UInt16

/-- One of the instructions is of each type. -/
def TypesAre (a b : Insn) (s t : Itype) : Prop :=
  (a.itype = s ∧ b.itype = t) ∨ (a.itype = t ∧ b.itype = s)

instance (a b : Insn) (s t : Itype) : Decidable (TypesAre a b s t) :=
  inferInstanceAs (Decidable (_ ∨ _))

/-- Both first operands are one register. -/
def SameRegister (a b : Insn) : Prop :=
  a.op1.type = .reg ∧ b.op1.type = .reg ∧ a.op1.reg = b.op1.reg

instance (a b : Insn) : Decidable (SameRegister a b) := inferInstanceAs (Decidable (_ ∧ _))

/-- Both second operands are one immediate. -/
def SameImmediate (a b : Insn) : Prop :=
  a.op2.type = .imm ∧ b.op2.type = .imm ∧ a.op2.value = b.op2.value

instance (a b : Insn) : Decidable (SameImmediate a b) := inferInstanceAs (Decidable (_ ∧ _))

def armBranchFamily (db : Database) (a b : Insn) : Option Family :=
  if a.itype = .armB ∧ b.itype = .armB then
    let ca := armCondition a
    let cb := armCondition b
    if ca ≥ 14 ∨ cb ≥ 14 ∨ ca ^^^ 1 ≠ cb then none else some ⟨.armCondition, ca, cb⟩
  else if TypesAre a b .armCbz .armCbnz ∧ SameRegister a b then
    some ⟨.armCompareZero, db.itypeCode a.itype, db.itypeCode b.itype⟩
  else if TypesAre a b .armTbz .armTbnz ∧ SameRegister a b ∧ SameImmediate a b then
    some ⟨.armTestBit, db.itypeCode a.itype, db.itypeCode b.itype⟩
  else none

/-- The family that each architecture looks for. -/
def branchFamily (db : Database) (arch : NativeArchitecture) (first second : Insn) :
    Option Family :=
  match arch with
  | .x86 =>
    let a := x86Condition first.itype
    let b := x86Condition second.itype
    if oppositeX86Conditions a b = false then none else some ⟨.x86Jcc, a.value, b.value⟩
  | .arm32 | .arm64 => armBranchFamily db first second
  | .unsupported => none

structure NativeOppositeBranchPairFact where
  firstEa : UInt64
  secondEa : UInt64
  guaranteedTargetEa : UInt64
  unreachableFallthroughEa : UInt64
  family : NativeOppositeBranchFamily
  firstCondition : UInt16
  secondCondition : UInt16

/-- The address behind an instruction. -/
def Insn.fallthrough (insn : Insn) : UInt64 := insn.ea + insn.size.toUInt64

/-- `inspect_opposite_pair`, with the fact that it emits -/
def inspectOppositePair (db : Database) (arch : NativeArchitecture) (chunkEnd : UInt64)
    (first : Insn) : Option NativeOppositeBranchPairFact :=
  let target := branchTarget first
  if target = badaddr ∨ usableControlTarget db arch target = false then none
  else
    let secondEa := first.fallthrough
    if secondEa ≥ chunkEnd ∨ db.isCode secondEa = false then none
    else
      match db.decodeInsn secondEa with
      | none => none
      | some second =>
        if branchTarget second ≠ target then none
        else
          let after := second.fallthrough
          if target = first.ea ∨ target = second.ea ∨ after = target then none
          else if hasAlternatePredecessor first.ea (db.xrefsTo second.ea) then none
          else
            (branchFamily db arch first second).map fun f =>
              { firstEa := first.ea
                secondEa := second.ea
                guaranteedTargetEa := target
                unreachableFallthroughEa := after
                family := f.family
                firstCondition := f.firstCondition
                secondCondition := f.secondCondition }

/-! ## The branches -/

/-- The flags of both processors, and the registers. -/
structure Machine where
  flags : Deobf.ArithmeticFlags
  nzcv : Deobf.Nzcv
  regs : UInt16 → UInt64

/-- The jumps of the x86, by mnemonic. -/
def Itype.jumps (f : Deobf.ArithmeticFlags) : Itype → Bool
  | .jo => f.overflow
  | .jno => !f.overflow
  | .jb | .jc | .jnae => f.carry
  | .jnb | .jnc | .jae => !f.carry
  | .jz | .je => f.zero
  | .jnz | .jne => !f.zero
  | .jbe | .jna => f.carry || f.zero
  | .ja | .jnbe => !(f.carry || f.zero)
  | .js => f.sign
  | .jns => !f.sign
  | .jp | .jpe => f.parity
  | .jnp | .jpo => !f.parity
  | .jl | .jnge => f.sign != f.overflow
  | .jnl | .jge => f.sign == f.overflow
  | .jle | .jng => f.zero || f.sign != f.overflow
  | .jnle | .jg => !f.zero && f.sign == f.overflow
  | _ => false

/-- The bits of a register that an operand names. -/
def Op.read (op : Op) (regs : UInt16 → UInt64) : UInt64 :=
  match op.dtype with
  | .dword => regs op.reg &&& 0xffffffff
  | .qword => regs op.reg

/-- The branch is taken. -/
def Insn.taken (insn : Insn) (m : Machine) : Bool :=
  match insn.itype with
  | .armB => Deobf.conditionHolds (armCondition insn) m.nzcv
  | .armCbz => insn.op1.read m.regs == 0
  | .armCbnz => insn.op1.read m.regs != 0
  | .armTbz => !(m.regs insn.op1.reg).toNat.testBit insn.op2.value.toNat
  | .armTbnz => (m.regs insn.op1.reg).toNat.testBit insn.op2.value.toNat
  | itype => itype.jumps m.flags

/-- Where a branch leads. -/
def Insn.next (insn : Insn) (m : Machine) : UInt64 :=
  if insn.taken m then branchTarget insn else insn.fallthrough

/-- Where two branches lead, the second behind the first. -/
def pairExit (first second : Insn) (m : Machine) : UInt64 :=
  if first.taken m then first.next m else second.next m

/-! ## Opposite conditions -/

/-- What the enumerators stand for. -/
def X86Condition.holds (f : Deobf.ArithmeticFlags) : X86Condition → Bool
  | .overflow => f.overflow
  | .notOverflow => !f.overflow
  | .carry => f.carry
  | .notCarry => !f.carry
  | .zero => f.zero
  | .notZero => !f.zero
  | .belowOrEqual => f.carry || f.zero
  | .above => !(f.carry || f.zero)
  | .sign => f.sign
  | .notSign => !f.sign
  | .parity => f.parity
  | .notParity => !f.parity
  | .less => f.sign != f.overflow
  | .greaterOrEqual => !(f.sign != f.overflow)
  | .lessOrEqual => f.zero || f.sign != f.overflow
  | .greater => !(f.zero || f.sign != f.overflow)
  | .invalid => false

theorem taken_eq_holds {insn : Insn} (h : x86Condition insn.itype ≠ .invalid)
    (m : Machine) : insn.taken m = (x86Condition insn.itype).holds m.flags := by
  unfold Insn.taken
  cases hitype : insn.itype <;> rw [hitype] at h <;>
    first
    | exact absurd rfl h
    | rfl
    | simp [Itype.jumps, x86Condition, X86Condition.holds, bne]

theorem opposite_cases {a b : X86Condition} (h : oppositeX86Conditions a b = true) :
    a ≠ .invalid ∧ b ≠ .invalid ∧ a.value ^^^ 1 = b.value := by
  unfold oppositeX86Conditions at h
  split_ifs at h with hinvalid
  push Not at hinvalid
  exact ⟨hinvalid.1, hinvalid.2, beq_iff_eq.1 h⟩

theorem holds_or_holds {a b : X86Condition} (h : oppositeX86Conditions a b = true)
    (f : Deobf.ArithmeticFlags) : a.holds f = true ∨ b.holds f = true := by
  obtain ⟨ha, hb, hvalue⟩ := opposite_cases h
  have hnot : b.holds f = !a.holds f := by
    cases a <;> cases b <;> first
      | exact absurd hvalue (by decide)
      | exact absurd rfl ha
      | rfl
      | exact (Bool.not_not _).symm
  rw [hnot, Bool.not_eq_true']
  exact (Bool.eq_false_or_eq_true _)

theorem conditionHolds_xor_one {c : UInt16} (hc : c < 14) (f : Deobf.Nzcv) :
    Deobf.conditionHolds (c ^^^ 1) f = !Deobf.conditionHolds c f := by
  obtain ⟨n, hn, rfl⟩ := Deobf.exists_code hc
  obtain ⟨n', z, c', v⟩ := f
  interval_cases n <;> cases n' <;> cases z <;> cases c' <;> cases v <;> rfl

/-! ## Pairs -/

/-- The pairs that the rule accepts. -/
inductive Accepted (first second : Insn) : Prop
  | x86 (h : oppositeX86Conditions (x86Condition first.itype) (x86Condition second.itype) = true)
  | condition (hfirst : first.itype = .armB) (hsecond : second.itype = .armB)
      (hlt : armCondition first < 14) (heq : armCondition first ^^^ 1 = armCondition second)
  | compareZero (htypes : TypesAre first second .armCbz .armCbnz) (hreg : SameRegister first second)
  | testBit (htypes : TypesAre first second .armTbz .armTbnz) (hreg : SameRegister first second)
      (himm : SameImmediate first second)

theorem accepted_of_armBranchFamily {db : Database} {first second : Insn} {f : Family}
    (h : armBranchFamily db first second = some f) : Accepted first second := by
  unfold armBranchFamily at h
  dsimp only at h
  split_ifs at h with hb hcondition hcompare htest
  · push Not at hcondition
    exact .condition hb.1 hb.2 (UInt16.not_le.1 hcondition.1) hcondition.2.2
  · exact .compareZero hcompare.1 hcompare.2
  · exact .testBit htest.1 htest.2.1 htest.2.2

theorem accepted_of_branchFamily {db : Database} {arch : NativeArchitecture} {first second : Insn}
    {f : Family} (h : branchFamily db arch first second = some f) : Accepted first second := by
  cases arch with
  | unsupported => cases h
  | x86 =>
    unfold branchFamily at h
    dsimp only at h
    split_ifs at h with hopposite
    exact .x86 (Bool.not_eq_false _ ▸ hopposite)
  | arm32 => exact accepted_of_armBranchFamily h
  | arm64 => exact accepted_of_armBranchFamily h

/-- What an emitted fact says. -/
theorem inspectOppositePair_spec {db : Database} {arch : NativeArchitecture} {chunkEnd : UInt64}
    {first : Insn} {fact : NativeOppositeBranchPairFact}
    (h : inspectOppositePair db arch chunkEnd first = some fact) :
    ∃ second, db.decodeInsn first.fallthrough = some second ∧ Accepted first second ∧
      branchTarget first = fact.guaranteedTargetEa ∧
      branchTarget second = fact.guaranteedTargetEa ∧
      second.fallthrough = fact.unreachableFallthroughEa ∧
      fact.unreachableFallthroughEa ≠ fact.guaranteedTargetEa := by
  unfold inspectOppositePair at h
  dsimp only at h
  split_ifs at h with htarget hsecond
  cases hdecode : db.decodeInsn first.fallthrough with
  | none =>
    rw [hdecode] at h
    cases h
  | some second =>
    simp only [hdecode] at h
    split_ifs at h with hsame hhidden hother
    obtain ⟨f, hfamily, rfl⟩ := Option.map_eq_some_iff.1 h
    push Not at hsame hhidden
    exact ⟨second, rfl, accepted_of_branchFamily hfamily, rfl, hsame, rfl, hhidden.2.2⟩

/-- A `CBZ` of a whole register and a `CBNZ` of its low half, where only the high half is set. -/
def HighHalfOnly (cbz cbnz : Insn) (m : Machine) : Prop :=
  cbz.itype = .armCbz ∧ cbz.op1.dtype = .qword ∧ cbnz.itype = .armCbnz ∧ cbnz.op1.dtype = .dword ∧
    m.regs cbz.op1.reg ≠ 0 ∧ m.regs cbz.op1.reg &&& 0xffffffff = 0

theorem compareZero_taken_iff {cbz cbnz : Insn} (hz : cbz.itype = .armCbz)
    (hnz : cbnz.itype = .armCbnz) (hreg : cbz.op1.reg = cbnz.op1.reg) (m : Machine) :
    (cbz.taken m = true ∨ cbnz.taken m = true) ↔ ¬ HighHalfOnly cbz cbnz m := by
  unfold Insn.taken HighHalfOnly Op.read
  rw [hz, hnz, ← hreg]
  cases cbz.op1.dtype <;> cases cbnz.op1.dtype <;> simp
  · exact em _
  · by_cases hzero : m.regs cbz.op1.reg = 0
    · exact Or.inl (by rw [hzero]; rfl)
    · exact Or.inr hzero
  · tauto
  · exact em _

theorem Accepted.taken_iff {first second : Insn} (h : Accepted first second) (m : Machine) :
    (first.taken m = true ∨ second.taken m = true) ↔
      ¬ HighHalfOnly first second m ∧ ¬ HighHalfOnly second first m := by
  cases h with
  | x86 h =>
    obtain ⟨ha, hb, -⟩ := opposite_cases h
    have hcbz : ∀ {i : Insn}, x86Condition i.itype ≠ .invalid → i.itype ≠ .armCbz := by
      intro i hi heq
      rw [heq] at hi
      exact hi rfl
    refine iff_of_true ?_ ⟨fun hhigh => hcbz ha hhigh.1, fun hhigh => hcbz hb hhigh.1⟩
    rw [taken_eq_holds ha, taken_eq_holds hb]
    exact holds_or_holds h m.flags
  | condition hfirst hsecond hlt heq =>
    refine iff_of_true ?_ ⟨fun hhigh => ?_, fun hhigh => ?_⟩
    · unfold Insn.taken
      rw [hfirst, hsecond]
      dsimp only
      rw [← heq, conditionHolds_xor_one hlt, Bool.not_eq_true']
      exact Bool.eq_false_or_eq_true _
    · exact absurd (hfirst.symm.trans hhigh.1) (by decide)
    · exact absurd (hsecond.symm.trans hhigh.1) (by decide)
  | compareZero htypes hreg =>
    rcases htypes with ⟨hz, hnz⟩ | ⟨hnz, hz⟩
    · have hother : ¬ HighHalfOnly second first m := fun hhigh =>
        absurd (hnz.symm.trans hhigh.1) (by decide)
      rw [compareZero_taken_iff hz hnz hreg.2.2, and_iff_left hother]
    · have hother : ¬ HighHalfOnly first second m := fun hhigh =>
        absurd (hnz.symm.trans hhigh.1) (by decide)
      rw [or_comm, compareZero_taken_iff hz hnz hreg.2.2.symm, and_iff_right hother]
  | testBit htypes hreg himm =>
    have htaken : first.taken m = true ∨ second.taken m = true := by
      unfold Insn.taken
      rcases htypes with ⟨hz, hnz⟩ | ⟨hnz, hz⟩
      · rw [hz, hnz, hreg.2.2, himm.2.2]
        cases (m.regs second.op1.reg).toNat.testBit second.op2.value.toNat
        · exact Or.inl rfl
        · exact Or.inr rfl
      · rw [hz, hnz, hreg.2.2, himm.2.2]
        cases (m.regs second.op1.reg).toNat.testBit second.op2.value.toNat
        · exact Or.inr rfl
        · exact Or.inl rfl
    have hneither : first.itype ≠ .armCbz ∧ second.itype ≠ .armCbz := by
      rcases htypes with ⟨hz, hnz⟩ | ⟨hnz, hz⟩
      · rw [hz, hnz]
        decide
      · rw [hz, hnz]
        decide
    exact iff_of_true htaken
      ⟨fun hhigh => hneither.1 hhigh.1, fun hhigh => hneither.2 hhigh.1⟩

theorem pairExit_ne_iff {first second : Insn} (htarget : branchTarget first = branchTarget second)
    (hafter : second.fallthrough ≠ branchTarget first) (m : Machine) :
    pairExit first second m ≠ second.fallthrough ↔
      first.taken m = true ∨ second.taken m = true := by
  unfold pairExit Insn.next
  cases first.taken m with
  | true => exact iff_of_true hafter.symm (Or.inl rfl)
  | false =>
    cases second.taken m with
    | true => exact iff_of_true (htarget ▸ hafter.symm) (Or.inr rfl)
    | false => simp

/-- **Opposite branches.** Where a fact is emitted, one of the two branches is taken and the code
behind the second is not reached, exactly unless a `CBZ` of a whole register is paired with a `CBNZ`
of its low half and only the high half is set. -/
theorem opposite_pair_iff {db : Database} {arch : NativeArchitecture} {chunkEnd : UInt64}
    {first : Insn} {fact : NativeOppositeBranchPairFact}
    (h : inspectOppositePair db arch chunkEnd first = some fact) (m : Machine) :
    ∃ second, db.decodeInsn first.fallthrough = some second ∧
      (((first.taken m = true ∨ second.taken m = true) ∧
          pairExit first second m ≠ fact.unreachableFallthroughEa) ↔
        ¬ HighHalfOnly first second m ∧ ¬ HighHalfOnly second first m) := by
  obtain ⟨second, hdecode, haccepted, hfirst, hsecond, hafter, hne⟩ := inspectOppositePair_spec h
  refine ⟨second, hdecode, ?_⟩
  rw [← hafter, ← hfirst] at hne
  rw [← hafter, pairExit_ne_iff (hfirst.trans hsecond.symm) hne, and_self_iff,
    haccepted.taken_iff]

/-- A 4-byte branch on a register, of the given type and size. -/
def compareBranch (ea : UInt64) (itype : Itype) (dtype : Dtype) : Insn where
  ea := ea
  size := 4
  itype := itype
  ops := [{ type := .reg, dtype := dtype, reg := 0 }, { type := .near, addr := 0x2000 }]

/-- A program of two branches, at `0x1000`. -/
def twoBranches (first second : Insn) : Database where
  decodeInsn ea := if ea = 0x1000 then some first else if ea = 0x1004 then some second else none
  isCode _ := true
  isMapped _ := true
  isLoaded _ := true
  segmentExec _ := some true
  xrefsTo ea := if ea = 0x1004 then [⟨0x1000, true⟩] else []
  itypeCode _ := 0

/-- Register 0 holds 2^32. -/
def highHalf : Machine := ⟨{}, ⟨false, false, false, false⟩, fun _ => 0x100000000⟩

/-- `CBZ W0` and `CBNZ W0` -/
def lowHalves : Database :=
  twoBranches (compareBranch 0x1000 .armCbz .dword) (compareBranch 0x1004 .armCbnz .dword)

theorem lowHalves_leave : ∃ second, lowHalves.decodeInsn 0x1004 = some second ∧
    pairExit (compareBranch 0x1000 .armCbz .dword) second highHalf ≠ 0x1008 := by
  obtain ⟨second, hsecond, hiff⟩ := @opposite_pair_iff lowHalves .arm64 0x3000
    (compareBranch 0x1000 .armCbz .dword) _ rfl highHalf
  obtain rfl := Option.some.inj hsecond
  exact ⟨_, rfl, (hiff.2 ⟨fun h => absurd h.2.1 (by decide), fun h => absurd h.1 (by decide)⟩).2⟩

/-- `CBNZ W0` and `CBZ X0` -/
def mixedSizes : Database :=
  twoBranches (compareBranch 0x1000 .armCbnz .dword) (compareBranch 0x1004 .armCbz .qword)

/-- Both branches fall through to the address that is reported as unreachable. -/
theorem mixedSizes_fall_through :
    (inspectOppositePair mixedSizes .arm64 0x3000 (compareBranch 0x1000 .armCbnz .dword)).map
        (·.unreachableFallthroughEa) = some 0x1008 ∧
      pairExit (compareBranch 0x1000 .armCbnz .dword) (compareBranch 0x1004 .armCbz .qword)
        highHalf = 0x1008 := by
  decide

end Viy.Native
