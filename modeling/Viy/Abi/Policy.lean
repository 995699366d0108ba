import Viy.Emu.Machine
import Viy.Wire.Endian

/-!
# Calling conventions and the placement of inputs

A layout says where a calling convention has its integer arguments. The plan for an explicit input
is a list of register writes and a list of stack writes, or an error with no stack writes at all.
-/

namespace Viy.Abi

open Wire Emu ProgramImage

inductive ViyAbi where
  | unknown | x86_32 | x86_64Sysv | x86_64Win64 | aapcs32 | aapcs64 | riscv64 | cortexM | hexagon
  deriving DecidableEq

structure ViyAbiLayout where
  abi : ViyAbi := .unknown
  pointerSize : ℕ := 0
  returnAddressOnStack : Bool := false
  stackArgumentOffset : UInt32 := 0
  argumentRegisters : List Reg := []

def ViyAbiLayout.supported (layout : ViyAbiLayout) : Bool := decide (layout.abi ≠ .unknown)

def viyAbiForArch (arch : ViyArch) (windowsX64 : Bool) : ViyAbi :=
  match arch with
  | .x86_32 => .x86_32
  | .x86_64 => if windowsX64 then .x86_64Win64 else .x86_64Sysv
  | .arm32 => .aapcs32
  | .arm64 => .aapcs64
  | .riscv64 => .riscv64
  | .cortexM => .cortexM
  | .hexagon => .hexagon
  | .unsupported | .x86_16 => .unknown

def viyAbiLayout : ViyAbi → ViyAbiLayout
  | .x86_32 => { abi := .x86_32, pointerSize := 4, returnAddressOnStack := true }
  | .x86_64Sysv => {
      abi := .x86_64Sysv, pointerSize := 8, returnAddressOnStack := true
      -- rdi, rsi, rdx, rcx, r8, r9
      argumentRegisters := [.x86Gpr64 7, .x86Gpr64 6, .x86Gpr64 2, .x86Gpr64 1, .x86Gpr64 8,
        .x86Gpr64 9] }
  | .x86_64Win64 => {
      abi := .x86_64Win64, pointerSize := 8, returnAddressOnStack := true
      stackArgumentOffset := 32
      -- rcx, rdx, r8, r9
      argumentRegisters := [.x86Gpr64 1, .x86Gpr64 2, .x86Gpr64 8, .x86Gpr64 9] }
  | .aapcs32 => {
      abi := .aapcs32, pointerSize := 4
      argumentRegisters := [.armR 0, .armR 1, .armR 2, .armR 3] }
  | .aapcs64 => {
      abi := .aapcs64, pointerSize := 8
      argumentRegisters := [.arm64X 0, .arm64X 1, .arm64X 2, .arm64X 3, .arm64X 4, .arm64X 5,
        .arm64X 6, .arm64X 7] }
  | .riscv64 => {
      abi := .riscv64, pointerSize := 8
      argumentRegisters := [.riscvX 10, .riscvX 11, .riscvX 12, .riscvX 13, .riscvX 14, .riscvX 15,
        .riscvX 16, .riscvX 17] }
  | .cortexM => {
      abi := .cortexM, pointerSize := 4
      argumentRegisters := [.cmR 0, .cmR 1, .cmR 2, .cmR 3] }
  | .hexagon => {
      abi := .hexagon, pointerSize := 4
      argumentRegisters := [.hexR 0, .hexR 1, .hexR 2, .hexR 3, .hexR 4, .hexR 5] }
  | .unknown => {}

/-! ## Inputs -/

structure ArgOverride where
  index : UInt32
  value : UInt64

/-- A register id below zero is `none`. -/
structure RegisterOverride where
  reg : Option Reg
  value : UInt64

/-- The part of `EmuInput` that is placed. -/
structure EmuInput where
  args : List UInt64 := []
  argOverrides : List ArgOverride := []
  registerOverrides : List RegisterOverride := []
  stackArgs : List UInt64 := []
  stackArgOffset : UInt32 := 0

structure RegisterWrite where
  reg : Reg
  value : UInt64

structure StackWrite where
  address : UInt64
  bytes : Bytes

inductive PlanError where
  | none | unsupportedAbi | invalidRegister | stackOffsetMismatch | addressOverflow
  | stackOutOfRange
  deriving DecidableEq

structure ViyAbiInputPlan where
  error : PlanError := .none
  registers : List RegisterWrite := []
  stack : List StackWrite := []

def ViyAbiInputPlan.valid (plan : ViyAbiInputPlan) : Bool := decide (plan.error = .none)

/-- A loop that carries a state from element to element and may give up. -/
def walk {σ α β : Type} (step : σ → α → Option (σ × β)) : σ → List α → Option (List β)
  | _, [] => some []
  | s, a :: l =>
    match step s a with
    | none => none
    | some (s', b) => (walk step s' l).map (b :: ·)

namespace ViyAbiLayout

variable (layout : ViyAbiLayout)

/-- The register writes, up to the first invalid register. -/
def registerWrites (input : EmuInput) : List RegisterWrite :=
  List.zipWith RegisterWrite.mk layout.argumentRegisters input.args ++
    input.argOverrides.filterMap (fun argument =>
      layout.argumentRegisters[argument.index.toNat]?.map (RegisterWrite.mk · argument.value)) ++
    (input.registerOverrides.takeWhile fun o => o.reg.isSome).filterMap fun o =>
      o.reg.map (RegisterWrite.mk · o.value)

/-- The values that do not fit in registers, and the explicit ones. -/
def stackValues (input : EmuInput) : List UInt64 :=
  input.args.drop layout.argumentRegisters.length ++ input.stackArgs

/-- The slot of a value, and where the next one is; none if the slot is outside the stack. -/
def stackWrite (stackBase stackEnd : UInt64) (bigEndian : Bool) (destination value : UInt64) :
    Option (UInt64 × StackWrite) := do
  let next ← checkedAdd destination (.ofNat layout.pointerSize)
  if destination < stackBase ∨ next > stackEnd then none
  else some (next, ⟨destination, scatter bigEndian value layout.pointerSize⟩)

/-- One slot for each value. -/
def stackWrites (stackBase stackEnd : UInt64) (bigEndian : Bool) (destination : UInt64)
    (values : List UInt64) : Option (List StackWrite) :=
  walk (layout.stackWrite stackBase stackEnd bigEndian) destination values

/-- The first slot of an argument on the stack. -/
def firstSlot (entrySp : UInt64) : Option UInt64 := do
  let returnSlot : UInt64 := if layout.returnAddressOnStack then .ofNat layout.pointerSize else 0
  let destination ← checkedAdd entrySp returnSlot
  checkedAdd destination layout.stackArgumentOffset.toUInt64

def viyPlanAbiInput (input : EmuInput) (entrySp stackBase stackSize : UInt64) (bigEndian : Bool) :
    ViyAbiInputPlan :=
  if layout.supported = false ∨ layout.pointerSize ≠ 4 ∧ layout.pointerSize ≠ 8 then
    { error := .unsupportedAbi }
  else if input.stackArgOffset ≠ 0 ∧ input.stackArgOffset ≠ layout.stackArgumentOffset then
    { error := .stackOffsetMismatch }
  else if input.registerOverrides.any (fun o => o.reg.isNone) then
    { error := .invalidRegister, registers := layout.registerWrites input }
  else
    match checkedAdd stackBase stackSize, layout.firstSlot entrySp with
    | some stackEnd, some destination =>
      match layout.stackWrites stackBase stackEnd bigEndian destination
          (layout.stackValues input) with
      | some stack => { registers := layout.registerWrites input, stack := stack }
      | none => { error := .stackOutOfRange }
    | _, _ => { error := .addressOverflow, registers := layout.registerWrites input }

variable {layout}

theorem stackWrites_cons {stackBase stackEnd destination value : UInt64} {bigEndian : Bool}
    {values : List UInt64} {writes : List StackWrite} (hsize : layout.pointerSize ≤ 8)
    (h : layout.stackWrites stackBase stackEnd bigEndian destination (value :: values) =
      some writes) :
    destination.toNat + layout.pointerSize < 2 ^ 64 ∧
      ∃ rest, writes = ⟨destination, scatter bigEndian value layout.pointerSize⟩ :: rest ∧
        layout.stackWrites stackBase stackEnd bigEndian
          (destination + .ofNat layout.pointerSize) values = some rest := by
  unfold stackWrites at h ⊢
  rw [walk] at h
  cases hstep : layout.stackWrite stackBase stackEnd bigEndian destination value with
  | none =>
    rw [hstep] at h
    cases h
  | some placed =>
    obtain ⟨next, write⟩ := placed
    rw [hstep] at h
    obtain ⟨rest, hrest, rfl⟩ := Option.map_eq_some_iff.1 h
    unfold stackWrite at hstep
    obtain ⟨sum, hsum, hstep⟩ := Option.bind_eq_some_iff.1 hstep
    obtain ⟨rfl, hfits⟩ := (checkedAdd_ofNat_iff (by omega)).1 hsum
    split_ifs at hstep
    obtain ⟨rfl, rfl⟩ : _ = next ∧ _ = write := by simpa using hstep
    exact ⟨hfits, rest, rfl, hrest⟩

/-- A valid plan: every value has its slot. -/
theorem viyPlanAbiInput_valid {input : EmuInput} {entrySp stackBase stackSize : UInt64}
    {bigEndian : Bool}
    (h : (layout.viyPlanAbiInput input entrySp stackBase stackSize bigEndian).valid = true) :
    (layout.pointerSize = 4 ∨ layout.pointerSize = 8) ∧
      ∃ stackEnd destination stack, checkedAdd stackBase stackSize = some stackEnd ∧
        layout.firstSlot entrySp = some destination ∧
        layout.stackWrites stackBase stackEnd bigEndian destination (layout.stackValues input) =
          some stack ∧
        layout.viyPlanAbiInput input entrySp stackBase stackSize bigEndian =
          { registers := layout.registerWrites input, stack := stack } := by
  unfold viyPlanAbiInput at h ⊢
  by_cases hsupported : layout.supported = false ∨ layout.pointerSize ≠ 4 ∧ layout.pointerSize ≠ 8
  · rw [if_pos hsupported] at h
    cases h
  rw [if_neg hsupported] at h ⊢
  refine ⟨by tauto, ?_⟩
  by_cases hoffset : input.stackArgOffset ≠ 0 ∧ input.stackArgOffset ≠ layout.stackArgumentOffset
  · rw [if_pos hoffset] at h
    cases h
  rw [if_neg hoffset] at h ⊢
  by_cases hregister : input.registerOverrides.any (fun o => o.reg.isNone) = true
  · rw [if_pos hregister] at h
    cases h
  rw [if_neg hregister] at h ⊢
  cases hend : checkedAdd stackBase stackSize with
  | none =>
    rw [hend] at h
    cases h
  | some stackEnd =>
    cases hslot : layout.firstSlot entrySp with
    | none =>
      rw [hend, hslot] at h
      cases h
    | some destination =>
      cases hstack : layout.stackWrites stackBase stackEnd bigEndian destination
          (layout.stackValues input) with
      | none =>
        rw [hend, hslot] at h
        dsimp only at h
        rw [hstack] at h
        cases h
      | some stack =>
        refine ⟨stackEnd, destination, stack, rfl, rfl, hstack, ?_⟩
        dsimp only
        rw [hstack]

end ViyAbiLayout

end Viy.Abi
