import Viy.Abi.Policy
import Viy.Emu.FailedCalls

/-!
# Inputs and arguments

`apply_input` writes an input where the plan puts it; a summary fetches its arguments by the run's
own registers and offsets. The two agree: at the entry of a function every positional argument of
the input is the argument that a summary sees.
-/

namespace Viy.Abi

open Wire Emu Fault ProgramImage Proc

/-! ## Performing a plan -/

def writeRegisters (c : HookCtx) : List RegisterWrite → RaxProc Unit
  | [] => pure ()
  | write :: writes => do
    regWriteU64 c write.reg write.value
    writeRegisters c writes

def writeStack : List StackWrite → RaxProc Unit
  | [] => pure ()
  | write :: writes => do
    memWrite write.address write.bytes
    writeStack writes

def applyInput (c : HookCtx) (layout : ViyAbiLayout) (input : EmuInput)
    (sp stackBase stackSize : UInt64) : RaxProc Unit := do
  let plan := layout.viyPlanAbiInput input sp stackBase stackSize c.bigEndian
  Proc.require plan.valid
  writeRegisters c plan.registers
  writeStack plan.stack

/-- The registers and the memory after a list of writes. -/
def registersAfter (c : HookCtx) (regs : Reg → UInt64) (writes : List RegisterWrite) :
    Reg → UInt64 :=
  writes.foldl (fun regs w => Function.update regs w.reg (c.cell w.value)) regs

def memoryAfter (mem : Memory) (writes : List StackWrite) : Memory :=
  writes.foldl (fun mem w => store mem w.address w.bytes) mem

theorem run_writeRegisters (c : HookCtx) (writes : List RegisterWrite) : ∀ s : Machine,
    (writeRegisters c writes).run s [] =
      (some (), s.withRegs (registersAfter c s.guest.regs writes), []) := by
  induction writes with
  | nil =>
    intro s
    rfl
  | cons w writes ih =>
    intro s
    exact ih (s.setReg w.reg (c.cell w.value))

theorem run_writeStack (writes : List StackWrite) : ∀ s : Machine,
    (writeStack writes).run s [] =
      (some (), { s with guest := { s.guest with mem := memoryAfter s.guest.mem writes } },
        []) := by
  induction writes with
  | nil =>
    intro s
    rfl
  | cons w writes ih =>
    intro s
    exact ih (s.writeMem w.address w.bytes)

/-- A valid plan is performed as a whole. -/
theorem run_applyInput {c : HookCtx} {layout : ViyAbiLayout} {input : EmuInput}
    {sp stackBase stackSize : UInt64} {s : Machine} {plan : ViyAbiInputPlan}
    (hplan : layout.viyPlanAbiInput input sp stackBase stackSize c.bigEndian = plan)
    (hvalid : plan.valid = true) :
    (applyInput c layout input sp stackBase stackSize).run s [] =
      (some (), { s with guest := { s.guest with
        regs := registersAfter c s.guest.regs plan.registers
        mem := memoryAfter s.guest.mem plan.stack } }, []) := by
  unfold applyInput
  rw [hplan]
  have hrequire : (Proc.require plan.valid : RaxProc Unit).run s [] = (some (), s, []) :=
    run_require_eq_some.2 ⟨hvalid, rfl, rfl⟩
  rw [run_bind_of_returned hrequire, run_bind_of_returned (run_writeRegisters c _ s)]
  exact run_writeStack _ _

/-! ## Registers -/

section Registers

variable {c : HookCtx}

theorem registersAfter_of_notMem {r : Reg} {l : List Reg} {args : List UInt64} (hr : r ∉ l) :
    ∀ {regs : Reg → UInt64},
      registersAfter c regs (List.zipWith RegisterWrite.mk l args) r = regs r := by
  induction l generalizing args with
  | nil =>
    intro regs
    rfl
  | cons reg l ih =>
    intro regs
    cases args with
    | nil => rfl
    | cons value args =>
      rw [List.mem_cons, not_or] at hr
      refine (ih hr.2).trans ?_
      exact Function.update_of_ne hr.1 _ _

/-- Every register of a list without repetitions has the value at its place. -/
theorem registersAfter_getElem {l : List Reg} (hl : l.Nodup) : ∀ {args : List UInt64} {i : ℕ}
    {regs : Reg → UInt64} (hi : i < l.length) (hi' : i < args.length),
      registersAfter c regs (List.zipWith RegisterWrite.mk l args) l[i] = c.cell args[i] := by
  induction l with
  | nil =>
    intro args i regs hi
    exact absurd hi (Nat.not_lt_zero i)
  | cons reg l ih =>
    intro args i regs hi hi'
    obtain ⟨hreg, hl⟩ := List.nodup_cons.1 hl
    cases args with
    | nil => exact absurd hi' (Nat.not_lt_zero i)
    | cons value args =>
      cases i with
      | zero => exact (registersAfter_of_notMem hreg).trans (Function.update_self _ _ _)
      | succ i => exact ih hl (Nat.lt_of_succ_lt_succ hi) (Nat.lt_of_succ_lt_succ hi')

end Registers

/-! ## Stack slots -/

section Slots

variable {layout : ViyAbiLayout} {stackBase stackEnd : UInt64} {bigEndian : Bool}

/-- What lies in front of a frame that is kept. -/
theorem load_of_kept_behind {mem mem' : Memory} {a : UInt64} {p n : ℕ}
    (hfits : a.toNat + p + n < 2 ^ 64)
    (hframe : ∀ x, n ≤ (x - (a + .ofNat p)).toNat → mem' x = mem x) :
    load mem' a p = load mem a p := by
  refine load_congr ?_
  intro i hi
  have hsub := toNat_add_ofNat_sub a (by omega : i < 2 ^ 64)
  have hbefore := toNat_sub_add_of_lt (by omega : p < 2 ^ 64) (hsub.trans_lt hi)
  exact hframe _ (by omega)

theorem load_store_scatter (mem : Memory) (a value : UInt64) {p : ℕ} (hp : p ≤ 8) :
    load (store mem a (scatter bigEndian value p)) a p = scatter bigEndian value p := by
  have hlength : (scatter bigEndian value p).length ≤ 2 ^ 64 := by
    rw [length_scatter]
    omega
  have hstored := @load_store mem a _ hlength
  rwa [length_scatter] at hstored

/-- The slots follow each other, and each one keeps its value. -/
theorem memoryAfter_stackWrites (hsize : layout.pointerSize ≤ 8) : ∀ {values : List UInt64}
    {destination : UInt64} {writes : List StackWrite} {mem : Memory},
      layout.stackWrites stackBase stackEnd bigEndian destination values = some writes →
      destination.toNat + values.length * layout.pointerSize < 2 ^ 64 ∧
        (∀ x, values.length * layout.pointerSize ≤ (x - destination).toNat →
          memoryAfter mem writes x = mem x) ∧
        ∀ k (hk : k < values.length),
          load (memoryAfter mem writes) (destination + .ofNat (k * layout.pointerSize))
            layout.pointerSize = scatter bigEndian values[k] layout.pointerSize := by
  intro values
  induction values with
  | nil =>
    intro destination writes mem h
    obtain rfl : [] = writes := Option.some.inj h
    refine ⟨?_, fun _ _ => rfl, fun k hk => absurd hk (Nat.not_lt_zero k)⟩
    rw [List.length_nil, Nat.zero_mul]
    exact destination.toNat_lt
  | cons value values ih =>
    intro destination writes mem h
    obtain ⟨hfits, rest, rfl, hrest⟩ := ViyAbiLayout.stackWrites_cons hsize h
    generalize hp : layout.pointerSize = p at hsize hfits hrest ih ⊢
    have hlt : p < 2 ^ 64 := by omega
    have hnext : (destination + .ofNat p).toNat = destination.toNat + p := by
      rw [UInt64.toNat_add, UInt64.toNat_ofNat_of_lt' hlt]
      omega
    obtain ⟨hroom, hframe, hslots⟩ :=
      @ih _ _ (store mem destination (scatter bigEndian value p)) hrest
    rw [hnext] at hroom
    have hcount : (value :: values).length * p = values.length * p + p := Nat.succ_mul _ _
    refine ⟨by omega, ?_, ?_⟩
    · intro x hx
      have hbehind := toNat_sub_add_of_le (by omega : p ≤ (x - destination).toNat)
      refine (hframe x (by omega)).trans (store_apply_of_le ?_)
      rw [length_scatter]
      omega
    · intro k hk
      cases k with
      | zero =>
        -- the later slots are behind this one
        rw [Nat.zero_mul, show UInt64.ofNat 0 = 0 from rfl, UInt64.add_zero]
        exact (load_of_kept_behind hroom hframe).trans
          (load_store_scatter mem destination value hsize)
      | succ k =>
        have hslot : destination + .ofNat ((k + 1) * p) =
            destination + .ofNat p + .ofNat (k * p) := by
          rw [UInt64.add_assoc, ← UInt64.ofNat_add, Nat.succ_mul, Nat.add_comm]
        rw [hslot]
        exact hslots k (Nat.lt_of_succ_lt_succ hk)

end Slots

/-! ## Arguments -/

/-- The run is one on the architecture, with the registers and the layout that belong to it. -/
structure EntersAs (c : HookCtx) (arch : ViyArch) (layout : ViyAbiLayout) : Prop where
  params : (archParams arch).map (fun p => (p.regs, p.is64)) = some (c.regs, c.is64)
  abi : ∃ windowsX64, layout = viyAbiLayout (viyAbiForArch arch windowsX64)
  argRegs : c.argRegs = layout.argumentRegisters
  stackArgumentOffset : c.stackArgumentOffset = layout.stackArgumentOffset

section Arguments

variable {c : HookCtx} {arch : ViyArch} {layout : ViyAbiLayout}

/-- What the driver derives from the architecture and what the layout says agree. -/
theorem EntersAs.agree (h : EntersAs c arch layout) :
    layout.pointerSize = c.ptr ∧ (layout.returnAddressOnStack = true ↔ c.regs.lr = none) ∧
      c.argRegs.Nodup ∧ ∃ spReg, c.regs.sp = some spReg ∧ spReg ∉ c.argRegs := by
  obtain ⟨hparams, ⟨windowsX64, rfl⟩, hargs, -⟩ := h
  unfold HookCtx.ptr
  rw [hargs]
  cases arch with
  | unsupported | x86_16 => cases hparams
  | x86_32 | x86_64 | arm64 | arm32 | riscv64 | cortexM | hexagon =>
    obtain ⟨hregs, hwide⟩ := Prod.mk.inj (Option.some.inj hparams)
    rw [← hregs, ← hwide]
    cases windowsX64 <;> exact ⟨rfl, by decide, by decide, _, rfl, by decide⟩

theorem EntersAs.argumentArea_eq (h : EntersAs c arch layout) (sp : UInt64) :
    c.argumentArea sp = layout.firstSlot sp := by
  obtain ⟨hptr, hlink, -⟩ := h.agree
  unfold HookCtx.argumentArea ViyAbiLayout.firstSlot
  rw [h.stackArgumentOffset, hptr]
  simp only [hlink]

/-- A summary looks for an argument in the slot that the plan has given to it. -/
theorem EntersAs.stackArgAddress_eq (h : EntersAs c arch layout) {sp destination : UInt64} {k : ℕ}
    (hslot : layout.firstSlot sp = some destination)
    (hfits : destination.toNat + k * c.ptr < 2 ^ 64) :
    c.stackArgAddress sp k = some (destination + .ofNat (k * c.ptr)) := by
  have hptr := c.ptr_bounds
  have hindex : ¬ k > (2 ^ 64 - 1) / c.ptr := by
    rw [gt_iff_lt, Nat.div_lt_iff_lt_mul (by omega)]
    omega
  unfold HookCtx.stackArgAddress
  rw [if_neg hindex, h.argumentArea_eq, hslot, Option.bind_some]
  exact (checkedAdd_ofNat_iff (by omega)).2 ⟨rfl, hfits⟩

theorem toNat_cell (c : HookCtx) (v : UInt64) : (c.cell v).toNat = v.toNat % 2 ^ (8 * c.ptr) := by
  have hv := v.toNat_lt
  unfold HookCtx.cell HookCtx.ptr
  by_cases hwide : c.is64 = true
  · rw [if_pos hwide, if_pos hwide, Nat.mod_eq_of_lt hv]
  · rw [if_neg hwide, if_neg hwide, UInt32.toNat_toUInt64, UInt64.toNat_toUInt32]

/-- An undisturbed fetch finds the argument. -/
theorem run_summaryArg {s : Machine} {i : ℕ} {v : UInt64} (h : c.argument s.guest i = some v) :
    ∃ t, (c.summaryArg i).run s [] = (some v, t, []) := by
  unfold HookCtx.argument at h
  unfold HookCtx.summaryArg
  cases hreg : c.argRegs[i]? with
  | some reg =>
    rw [hreg] at h
    obtain rfl := Option.some.inj h
    exact ⟨s, rfl⟩
  | none =>
    rw [hreg] at h
    obtain ⟨spReg, hsp, h⟩ := Option.bind_eq_some_iff.1 h
    obtain ⟨address, haddress, h⟩ := Option.bind_eq_some_iff.1 h
    obtain rfl := Option.some.inj h
    have hptr := c.ptr_bounds
    have hsize : (decide (c.ptr ≠ 0) && decide (c.ptr ≤ 8)) = true := by
      rw [Bool.and_eq_true, decide_eq_true_iff, decide_eq_true_iff]
      omega
    refine ⟨s.noteReads [(address, c.ptr)], ?_⟩
    refine run_bind_eq_some.2 ⟨spReg, s, [], run_lift_eq_some.2 ⟨hsp, rfl, rfl⟩, ?_⟩
    refine run_bind_eq_some.2 ⟨s.guest.regs spReg, s, [], rfl, ?_⟩
    refine run_bind_eq_some.2 ⟨address, s, [], run_lift_eq_some.2 ⟨haddress, rfl, rfl⟩, ?_⟩
    exact run_bind_eq_some.2 ⟨(), s, [], run_require_eq_some.2 ⟨hsize, rfl, rfl⟩, rfl⟩

/-- The input gives positional arguments and nothing else. -/
structure EmuInput.Positional (input : EmuInput) : Prop where
  argOverrides : input.argOverrides = []
  registerOverrides : input.registerOverrides = []
  stackArgs : input.stackArgs = []

variable {input : EmuInput}

theorem EmuInput.Positional.registerWrites (h : input.Positional) :
    layout.registerWrites input =
      List.zipWith RegisterWrite.mk layout.argumentRegisters input.args := by
  unfold ViyAbiLayout.registerWrites
  rw [h.argOverrides, h.registerOverrides]
  simp

theorem EmuInput.Positional.stackValues (h : input.Positional) :
    layout.stackValues input = input.args.drop layout.argumentRegisters.length := by
  unfold ViyAbiLayout.stackValues
  rw [h.stackArgs, List.append_nil]

/-- The arguments of a guest in whose registers and slots the plan has been performed. -/
theorem EntersAs.argument_eq (h : EntersAs c arch layout) {g : Guest} {sp stackBase stackEnd
    destination : UInt64} {stack : List StackWrite}
    (hslot : layout.firstSlot sp = some destination)
    (hstack : layout.stackWrites stackBase stackEnd c.bigEndian destination
      (input.args.drop layout.argumentRegisters.length) = some stack)
    (hsp : ∀ spReg, c.regs.sp = some spReg → g.regs spReg = sp) {i : ℕ}
    (hi : i < input.args.length) :
    ∃ v, c.argument { g with
          regs := registersAfter c g.regs
            (List.zipWith RegisterWrite.mk layout.argumentRegisters input.args)
          mem := memoryAfter g.mem stack } i = some v ∧
      v.toNat = input.args[i].toNat % 2 ^ (8 * layout.pointerSize) := by
  obtain ⟨hptr, -, hnodup, spReg, hspReg, hnotMem⟩ := h.agree
  have hbounds := c.ptr_bounds
  rw [h.argRegs] at hnodup hnotMem
  unfold HookCtx.argument
  rw [h.argRegs]
  by_cases hin : i < layout.argumentRegisters.length
  · refine ⟨c.cell input.args[i], ?_, by rw [toNat_cell, hptr]⟩
    rw [List.getElem?_eq_getElem hin]
    exact congrArg some (registersAfter_getElem hnodup hin hi)
  · -- the argument is in the slot at its distance to the last register
    obtain ⟨hroom, -, hslots⟩ :=
      @memoryAfter_stackWrites _ _ _ _ (by omega) _ _ _ g.mem hstack
    have hk : i - layout.argumentRegisters.length <
        (input.args.drop layout.argumentRegisters.length).length := by
      rw [List.length_drop]
      omega
    have haddress := h.stackArgAddress_eq hslot (k := i - layout.argumentRegisters.length) (by
      rw [← hptr]
      have hmul := Nat.mul_le_mul_right layout.pointerSize hk.le
      omega)
    have hvalue := hslots _ hk
    refine ⟨gather c.bigEndian (scatter c.bigEndian input.args[i] layout.pointerSize), ?_, ?_⟩
    · rw [List.getElem?_eq_none (Nat.not_lt.1 hin)]
      refine Option.bind_eq_some_iff.2 ⟨spReg, hspReg, ?_⟩
      dsimp only
      rw [registersAfter_of_notMem hnotMem, hsp spReg hspReg]
      refine Option.bind_eq_some_iff.2 ⟨_, haddress, ?_⟩
      rw [← hptr, hvalue, List.getElem_drop,
        getElem_congr_idx (Nat.add_sub_cancel' (Nat.not_lt.1 hin))]
    · rw [toNat_gather_scatter _ _ (by omega), pow_mul]
      norm_num

/-- **Arguments at the entry of a function.** If the plan for positional arguments is valid, it is
performed, and then a summary fetches each of them as far as a pointer holds it. -/
theorem summaryArg_applyInput {sp stackBase stackSize : UInt64} {s : Machine}
    (hc : EntersAs c arch layout) (hinput : input.Positional)
    (hsp : ∀ spReg, c.regs.sp = some spReg → s.guest.regs spReg = sp)
    (hvalid : (layout.viyPlanAbiInput input sp stackBase stackSize c.bigEndian).valid = true) :
    ∃ s', (applyInput c layout input sp stackBase stackSize).run s [] = (some (), s', []) ∧
      ∀ i (hi : i < input.args.length), ∃ v t, (c.summaryArg i).run s' [] = (some v, t, []) ∧
        v.toNat = input.args[i].toNat % 2 ^ (8 * layout.pointerSize) := by
  obtain ⟨-, stackEnd, destination, stack, -, hslot, hstack, hplan⟩ :=
    ViyAbiLayout.viyPlanAbiInput_valid hvalid
  rw [hinput.stackValues] at hstack
  rw [hinput.registerWrites] at hplan
  refine ⟨_, run_applyInput hplan rfl, ?_⟩
  intro i hi
  obtain ⟨v, hargument, hv⟩ := hc.argument_eq hslot hstack hsp hi
  obtain ⟨t, hrun⟩ := @run_summaryArg c ⟨s.hooks, _⟩ i v hargument
  exact ⟨v, t, hrun, hv⟩

end Arguments

/-! ## Eight arguments by the System V convention -/

/-- The last two are on the stack, behind the return address. -/
def eightArgs : EmuInput := { args := [1, 2, 3, 4, 5, 6, 7, 8] }

/-- The stack pointer is `0x8000`. -/
def entryMachine : Machine where
  hooks := {}
  guest := { mem := fun _ => 0, regs := fun r => if r = .x86Gpr64 4 then 0x8000 else 0 }

theorem eighth_argument_fetched : ∃ s',
    (applyInput sysvCtx (viyAbiLayout .x86_64Sysv) eightArgs 0x8000 0x1000 0x8000).run entryMachine
      [] = (some (), s', []) ∧
    ∀ i (hi : i < eightArgs.args.length), ∃ v t, (sysvCtx.summaryArg i).run s' [] =
      (some v, t, []) ∧ v.toNat = eightArgs.args[i].toNat % 2 ^ (8 * 8) := by
  have hc : EntersAs sysvCtx .x86_64 (viyAbiLayout .x86_64Sysv) :=
    ⟨rfl, ⟨false, rfl⟩, rfl, rfl⟩
  refine summaryArg_applyInput hc ⟨rfl, rfl, rfl⟩ ?_ (by decide +kernel)
  rintro spReg hsp
  obtain rfl := Option.some.inj hsp
  rfl

end Viy.Abi
