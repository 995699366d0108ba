import Mathlib.Data.List.TakeWhile
import Viy.Abi.Policy

/-!
# What a plan places

A valid plan of `viy_plan_abi_input` gives every value that no register takes a slot of its own, one
behind the other, inside the stack and behind the return slot and the home area. Its register writes
come in three layers, and the last write to a register decides.
-/

namespace Viy.Abi

open Wire Emu ProgramImage

/-! ## Registers -/

/-- The registers after a list of writes. -/
def performed (regs : Reg → UInt64) (writes : List RegisterWrite) : Reg → UInt64 :=
  writes.foldl (fun regs w => Function.update regs w.reg w.value) regs

/-- The value of the last write to a register. -/
def lastWrite (writes : List RegisterWrite) (r : Reg) : Option UInt64 :=
  (writes.filter fun w => w.reg = r).getLast?.map (·.value)

theorem lastWrite_append (a b : List RegisterWrite) (r : Reg) :
    lastWrite (a ++ b) r = (lastWrite b r).or (lastWrite a r) := by
  unfold lastWrite
  rw [List.filter_append, List.getLast?_append, Option.map_or]

theorem lastWrite_singleton (w : RegisterWrite) (r : Reg) :
    lastWrite [w] r = if w.reg = r then some w.value else none := by
  unfold lastWrite
  by_cases hr : w.reg = r <;> simp [hr]

theorem performed_apply (regs : Reg → UInt64) (writes : List RegisterWrite) (r : Reg) :
    performed regs writes r = (lastWrite writes r).getD (regs r) := by
  induction writes using List.reverseRecOn with
  | nil => rfl
  | append_singleton writes w ih =>
    have hlast : performed regs (writes ++ [w]) =
        Function.update (performed regs writes) w.reg w.value := by
      unfold performed
      rw [List.foldl_append]
      rfl
    rw [hlast, lastWrite_append, lastWrite_singleton]
    by_cases hr : w.reg = r
    · subst hr
      rw [Function.update_self, if_pos rfl]
      rfl
    · rw [Function.update_of_ne (Ne.symm hr), if_neg hr, ih]
      rfl

/-- The last explicit override of a register. -/
def EmuInput.registerOverride (input : EmuInput) (r : Reg) : Option UInt64 :=
  (input.registerOverrides.filter fun o => o.reg = some r).getLast?.map (·.value)

/-- The last override of an argument that is in the register. -/
def EmuInput.argOverride (input : EmuInput) (layout : ViyAbiLayout) (r : Reg) : Option UInt64 :=
  (input.argOverrides.filter fun o =>
    layout.argumentRegisters[o.index.toNat]? = some r).getLast?.map (·.value)

/-- The positional argument of a register; in a layout that repeats it, the last one. -/
def EmuInput.positional (input : EmuInput) (layout : ViyAbiLayout) (r : Reg) : Option UInt64 :=
  ((layout.argumentRegisters.zip input.args).filter fun p => p.1 = r).getLast?.map (·.2)

/-- A write for every element that has a register. -/
theorem lastWrite_filterMap {α : Type} (f : α → Option Reg) (g : α → UInt64) (l : List α)
    (r : Reg) :
    lastWrite (l.filterMap fun a => (f a).map (RegisterWrite.mk · (g a))) r =
      (l.filter fun a => f a = some r).getLast?.map g := by
  induction l using List.reverseRecOn with
  | nil => rfl
  | append_singleton l a ih =>
    rw [List.filterMap_append, lastWrite_append, List.filter_append, List.getLast?_append,
      Option.map_or, ih]
    congr 1
    cases hf : f a with
    | none => simp [hf, lastWrite]
    | some reg => by_cases hr : reg = r <;> simp [hf, hr, lastWrite]

theorem lastWrite_positional (layout : ViyAbiLayout) (input : EmuInput) (r : Reg) :
    lastWrite (List.zipWith RegisterWrite.mk layout.argumentRegisters input.args) r =
      input.positional layout r := by
  have hpairs := lastWrite_filterMap (fun p : Reg × UInt64 => some p.1) (fun p => p.2)
    (layout.argumentRegisters.zip input.args) r
  simp only [Option.map_some, Option.some.injEq] at hpairs
  unfold EmuInput.positional
  rw [← hpairs, ← List.map_uncurry_zip_eq_zipWith]
  congr 1
  exact (congrFun (List.filterMap_eq_map) _).symm

/-- The layers of the register writes. -/
theorem lastWrite_registerWrites {layout : ViyAbiLayout} {input : EmuInput}
    (hvalid : input.registerOverrides.any (fun o => o.reg.isNone) = false) (r : Reg) :
    lastWrite (layout.registerWrites input) r =
      (input.registerOverride r).or
        ((input.argOverride layout r).or (input.positional layout r)) := by
  have hall : input.registerOverrides.takeWhile (fun o => o.reg.isSome) =
      input.registerOverrides := by
    refine List.takeWhile_eq_self_iff.2 fun o ho => ?_
    have hsome := List.any_eq_false.1 hvalid o ho
    rwa [← Option.not_isNone, Bool.not_eq_true', ← Bool.not_eq_true]
  unfold ViyAbiLayout.registerWrites
  rw [hall, lastWrite_append, lastWrite_append, lastWrite_filterMap, lastWrite_filterMap,
    lastWrite_positional]
  rfl

/-! ## Slots -/

/-- A value in its slot. -/
structure Placed (size : ℕ) (bigEndian : Bool) (stackBase stackEnd slot : ℕ) (value : UInt64)
    (write : StackWrite) : Prop where
  address : write.address.toNat = slot
  length : write.bytes.length = size
  base : stackBase ≤ slot
  bound : slot + size ≤ stackEnd
  decodes : (gather bigEndian write.bytes).toNat = value.toNat % 2 ^ (8 * size)

section Slots

variable {layout : ViyAbiLayout} {stackBase stackEnd : UInt64} {bigEndian : Bool}

theorem stackWrite_placed (hsize : layout.pointerSize ≤ 8) {destination value next : UInt64}
    {write : StackWrite}
    (h : layout.stackWrite stackBase stackEnd bigEndian destination value = some (next, write)) :
    next.toNat = destination.toNat + layout.pointerSize ∧
      Placed layout.pointerSize bigEndian stackBase.toNat stackEnd.toNat destination.toNat value
        write := by
  have hlt : layout.pointerSize < 2 ^ 64 := by omega
  unfold ViyAbiLayout.stackWrite at h
  obtain ⟨sum, hsum, h⟩ := Option.bind_eq_some_iff.1 h
  split_ifs at h with hrange
  obtain ⟨rfl, rfl⟩ : sum = next ∧ _ = write := by simpa using h
  rw [checkedAdd_eq_some_iff, UInt64.toNat_ofNat_of_lt' hlt] at hsum
  rw [not_or] at hrange
  have hbase := UInt64.le_iff_toNat_le.1 (UInt64.not_lt.1 hrange.1)
  have hend := UInt64.le_iff_toNat_le.1 (UInt64.not_lt.1 hrange.2)
  refine ⟨hsum.symm, rfl, length_scatter _ _ _, hbase, hsum ▸ hend, ?_⟩
  rw [toNat_gather_scatter _ _ hsize, pow_mul]
  norm_num

/-- The slots follow each other, one for each value. -/
theorem stackWrites_placed (hsize : layout.pointerSize ≤ 8) : ∀ {values : List UInt64}
    {destination : UInt64} {writes : List StackWrite},
      layout.stackWrites stackBase stackEnd bigEndian destination values = some writes →
      writes.length = values.length ∧
        ∀ k value write, values[k]? = some value → writes[k]? = some write →
          Placed layout.pointerSize bigEndian stackBase.toNat stackEnd.toNat
            (destination.toNat + k * layout.pointerSize) value write := by
  intro values
  induction values with
  | nil =>
    intro destination writes h
    obtain rfl : [] = writes := Option.some.inj h
    exact ⟨rfl, fun k value write hvalue => by simp at hvalue⟩
  | cons first values ih =>
    intro destination writes h
    unfold ViyAbiLayout.stackWrites at h ih
    rw [walk] at h
    cases hstep : layout.stackWrite stackBase stackEnd bigEndian destination first with
    | none =>
      rw [hstep] at h
      cases h
    | some placed =>
      obtain ⟨next, write⟩ := placed
      rw [hstep] at h
      obtain ⟨rest, hrest, rfl⟩ := Option.map_eq_some_iff.1 h
      obtain ⟨hnext, hfirst⟩ := stackWrite_placed hsize hstep
      obtain ⟨hlength, hplaced⟩ := ih hrest
      refine ⟨congrArg (· + 1) hlength, ?_⟩
      intro k value write' hvalue hwrite
      cases k with
      | zero =>
        obtain rfl := Option.some.inj hvalue
        obtain rfl := Option.some.inj hwrite
        rwa [Nat.zero_mul, Nat.add_zero]
      | succ k =>
        have hslot := hplaced k value write' hvalue hwrite
        rwa [hnext, Nat.add_assoc, Nat.add_comm layout.pointerSize, ← Nat.succ_mul] at hslot

theorem toNat_firstSlot (hsize : layout.pointerSize ≤ 8) {entrySp destination : UInt64}
    (h : layout.firstSlot entrySp = some destination) :
    destination.toNat = entrySp.toNat +
      (if layout.returnAddressOnStack then layout.pointerSize else 0) +
      layout.stackArgumentOffset.toNat := by
  have hlt : layout.pointerSize < 2 ^ 64 := by omega
  unfold ViyAbiLayout.firstSlot at h
  obtain ⟨behind, hbehind, hoffset⟩ := Option.bind_eq_some_iff.1 h
  rw [checkedAdd_eq_some_iff] at hbehind hoffset
  rw [← hoffset, ← hbehind, UInt32.toNat_toUInt64]
  split_ifs
  · rw [UInt64.toNat_ofNat_of_lt' hlt]
  · rfl

end Slots

theorem registerOverrides_of_valid {layout : ViyAbiLayout} {input : EmuInput}
    {entrySp stackBase stackSize : UInt64} {bigEndian : Bool}
    (h : (layout.viyPlanAbiInput input entrySp stackBase stackSize bigEndian).valid = true) :
    input.registerOverrides.any (fun o => o.reg.isNone) = false := by
  by_contra hinvalid
  rw [Bool.not_eq_false] at hinvalid
  unfold ViyAbiLayout.viyPlanAbiInput at h
  rw [if_pos hinvalid] at h
  split_ifs at h <;> cases h

/-- **Placement.** A valid plan has one stack write for each positional argument that no register
takes and then one for each stack argument, in consecutive slots behind the return slot and the home
area and inside the stack. In each register it leaves the last explicit override, else the last
argument override, else the positional argument. -/
theorem plan_places {layout : ViyAbiLayout} {input : EmuInput}
    {entrySp stackBase stackSize : UInt64} {bigEndian : Bool} {plan : ViyAbiInputPlan}
    (hplan : layout.viyPlanAbiInput input entrySp stackBase stackSize bigEndian = plan)
    (hvalid : plan.valid = true) :
    plan.stack.length =
        (input.args.length - layout.argumentRegisters.length) + input.stackArgs.length ∧
    (∀ k value write,
      (input.args.drop layout.argumentRegisters.length ++ input.stackArgs)[k]? = some value →
      plan.stack[k]? = some write →
        Placed layout.pointerSize bigEndian stackBase.toNat (stackBase.toNat + stackSize.toNat)
          (entrySp.toNat + (if layout.returnAddressOnStack then layout.pointerSize else 0) +
            layout.stackArgumentOffset.toNat + k * layout.pointerSize) value write ∧
        (layout.returnAddressOnStack = true →
          entrySp.toNat + layout.pointerSize ≤ write.address.toNat)) ∧
    ∀ regs r, performed regs plan.registers r =
      ((input.registerOverride r).or
        ((input.argOverride layout r).or (input.positional layout r))).getD (regs r) := by
  subst hplan
  have hregisters := registerOverrides_of_valid hvalid
  obtain ⟨hsize, stackEnd, destination, stack, hend, hslot, hstack, heq⟩ :=
    ViyAbiLayout.viyPlanAbiInput_valid hvalid
  have hle : layout.pointerSize ≤ 8 := by omega
  rw [heq]
  obtain ⟨hlength, hplaced⟩ := stackWrites_placed hle hstack
  rw [checkedAdd_eq_some_iff] at hend
  refine ⟨?_, ?_, ?_⟩
  · rw [hlength]
    unfold ViyAbiLayout.stackValues
    rw [List.length_append, List.length_drop]
  · intro k value write hvalue hwrite
    have hplace := hplaced k value write hvalue hwrite
    rw [toNat_firstSlot hle hslot, ← hend] at hplace
    refine ⟨hplace, fun hreturn => ?_⟩
    rw [hplace.address, if_pos hreturn]
    omega
  · intro regs r
    rw [performed_apply, lastWrite_registerWrites hregisters]

/-- Six arguments by the Windows convention, with overrides of the first and of `rdx`. -/
def overriddenArgs : EmuInput where
  args := [1, 2, 3, 4, 5, 0x123456789]
  argOverrides := [⟨0, 10⟩, ⟨0, 11⟩]
  registerOverrides := [⟨some (.x86Gpr64 2), 20⟩]
  stackArgs := [7]

/-- The fifth argument is behind the return address and 32 bytes; `rcx` has the last override. -/
theorem overriddenArgs_placed :
    ∃ plan, (viyAbiLayout .x86_64Win64).viyPlanAbiInput overriddenArgs 0x8000 0x1000 0x8000 false =
        plan ∧ plan.valid = true ∧ plan.stack.length = 3 ∧
      (∃ write, plan.stack[0]? = some write ∧
        Placed 8 false 0x1000 0x9000 0x8028 5 write) ∧
      performed (fun _ => 0) plan.registers (.x86Gpr64 1) = 11 := by
  have hvalid : ((viyAbiLayout .x86_64Win64).viyPlanAbiInput overriddenArgs 0x8000 0x1000 0x8000
      false).valid = true := by decide +kernel
  generalize hplan : (viyAbiLayout .x86_64Win64).viyPlanAbiInput overriddenArgs 0x8000 0x1000 0x8000
    false = plan at hvalid ⊢
  obtain ⟨hlength, hplaced, hregisters⟩ := plan_places hplan hvalid
  refine ⟨plan, rfl, hvalid, hlength, ?_, hregisters _ _⟩
  have hlt : 0 < plan.stack.length := by
    rw [hlength]
    decide
  have hwrite := List.getElem?_eq_getElem hlt
  exact ⟨_, hwrite, (hplaced 0 5 _ rfl hwrite).1⟩

end Viy.Abi
