import Viy.Emu.Summaries

/-!
# The return of a summary

Behind its work a summary writes the return register, takes the return address from the link
register or pops it off the stack, and continues there. No step of this touches memory or what the
hooks have recorded; what a failed return leaves behind are the registers it has written so far.
-/

namespace Viy.Emu

open Wire Fault ProgramImage Proc

/-- The roles of a run's registers do not meet. -/
structure RunRegs.Apart (r : RunRegs) : Prop where
  sp_pc : ∀ a b, r.sp = some a → r.pc = some b → a ≠ b
  sp_ret : ∀ a b, r.sp = some a → r.ret = some b → a ≠ b
  lr_ret : ∀ a b, r.lr = some a → r.ret = some b → a ≠ b
  pc_ret : ∀ a b, r.pc = some a → r.ret = some b → a ≠ b

theorem RunRegs.apart (r : RunRegs) : r.Apart := by
  obtain ⟨sp, lr, pc, ret, hdistinct⟩ := r
  constructor <;> rintro a b ha hb rfl <;> subst ha hb <;>
    simp [List.filterMap_cons] at hdistinct <;> grind

variable {s s' : Machine} {script rest : List Outcome} {c : HookCtx} {value : UInt64}

namespace HookCtx

/-- The registers behind the write of the return register. -/
def retRegs (c : HookCtx) (value : UInt64) (regs : Reg → UInt64) : Reg → UInt64 :=
  match c.regs.ret with
  | some ret => Function.update regs ret (c.cell value)
  | none => regs

theorem retRegs_of_ne {regs : Reg → UInt64} {r : Reg} (h : ∀ ret, c.regs.ret = some ret → r ≠ ret) :
    c.retRegs value regs r = regs r := by
  unfold retRegs
  cases hret : c.regs.ret with
  | none => rfl
  | some ret => exact Function.update_of_ne (h ret hret) _ _

theorem retRegs_ret {regs : Reg → UInt64} {ret : Reg} (h : c.regs.ret = some ret) :
    c.retRegs value regs ret = c.cell value := by
  unfold retRegs
  rw [h]
  exact Function.update_self _ _ _

/-- The write changes nothing if the register has the value already. -/
theorem retRegs_eq_self_iff {regs : Reg → UInt64} :
    c.retRegs value regs = regs ↔ ∀ ret, c.regs.ret = some ret → regs ret = c.cell value := by
  constructor
  · intro h ret hret
    rw [← h, retRegs_ret hret]
  · intro h
    unfold retRegs
    cases hret : c.regs.ret with
    | none => rfl
    | some ret =>
      show Function.update regs ret (c.cell value) = regs
      rw [← h ret hret, Function.update_eq_self]

theorem writeRet_returned {u : Unit}
    (h : (c.writeRet value).run s script = (some u, s', rest)) :
    s' = s.withRegs (c.retRegs value s.guest.regs) := by
  unfold writeRet at h
  unfold retRegs
  cases hret : c.regs.ret with
  | none =>
    rw [hret] at h
    obtain ⟨rfl, -⟩ : s = s' ∧ script = rest := by simpa using h
    rfl
  | some ret =>
    rw [hret] at h
    exact regWriteU64_returned h

theorem writeRet_failed (h : (c.writeRet value).run s script = (none, s', rest)) : s' = s := by
  unfold writeRet at h
  cases hret : c.regs.ret with
  | none =>
    rw [hret] at h
    simp at h
  | some ret =>
    rw [hret] at h
    exact primitive_failed h

/-! ## The return address -/

/-- The slot is popped: the stack pointer is behind it. -/
def popRegs (c : HookCtx) (spReg : Reg) (regs : Reg → UInt64) : Reg → UInt64 :=
  Function.update regs spReg (c.cell (regs spReg + .ofNat c.ptr))

/-- The return address is in the link register or at the top of the stack. -/
theorem returnTarget_returned {target : UInt64}
    (h : c.returnTarget.run s script = (some target, s', rest)) :
    (∃ link, c.regs.lr = some link ∧ target = s.guest.regs link ∧ s' = s) ∨
      c.regs.lr = none ∧ ∃ spReg, c.regs.sp = some spReg ∧
        (s.guest.regs spReg).toNat + c.ptr < 2 ^ 64 ∧
        target = gather c.bigEndian (load s.guest.mem (s.guest.regs spReg) c.ptr) ∧
        s' = (s.noteReads [(s.guest.regs spReg, c.ptr)]).withRegs
          (c.popRegs spReg s.guest.regs) := by
  unfold returnTarget at h
  cases hlr : c.regs.lr with
  | some link =>
    rw [hlr] at h
    obtain ⟨rfl, rfl⟩ := regReadU64_returned h
    exact Or.inl ⟨link, rfl, rfl, rfl⟩
  | none =>
    rw [hlr] at h
    obtain ⟨spReg, t, mid, hlift, h⟩ := run_bind_eq_some.1 h
    obtain ⟨hsp, rfl, rfl⟩ := run_lift_eq_some.1 hlift
    obtain ⟨sp, t, mid, hread, h⟩ := run_bind_eq_some.1 h
    obtain ⟨rfl, rfl⟩ := regReadU64_returned hread
    obtain ⟨slot, t, mid, hslot, h⟩ := run_bind_eq_some.1 h
    obtain ⟨rfl, rfl⟩ := readScalar_returned hslot
    obtain ⟨nextSp, t, mid, hlift, h⟩ := run_bind_eq_some.1 h
    obtain ⟨hnext, rfl, rfl⟩ := run_lift_eq_some.1 hlift
    obtain ⟨_, t, mid, hwrite, h⟩ := run_bind_eq_some.1 h
    obtain rfl := regWriteU64_returned hwrite
    have hptr := c.ptr_bounds
    obtain ⟨rfl, hfits⟩ := (checkedAdd_ofNat_iff (by omega)).1 hnext
    obtain ⟨rfl, rfl, -⟩ : _ = target ∧ _ = s' ∧ mid = rest := by simpa using h
    exact Or.inr ⟨rfl, spReg, hsp, hfits, rfl, rfl⟩

theorem atomic_returnTarget : Atomic OnlyReads c.returnTarget := by
  unfold returnTarget
  cases c.regs.lr with
  | some link => exact (keeps_regReadU64 link).atomic
  | none =>
    refine Atomic.bind (keeps_lift _) fun spReg => ?_
    refine Atomic.bind (keeps_regReadU64 spReg) fun sp => ?_
    refine Atomic.bind (keeps_readScalar sp _) fun target => ?_
    refine Atomic.bind (keeps_lift _) fun nextSp => ?_
    exact Atomic.bind_returns atomic_primitive fun _ => returns_pure _

/-! ## The whole sequence -/

/-- The caller goes on, from the registers `regs` of the call: the return register has the result,
the program counter the return address, and a return address on the stack is popped. All other
registers are as they were. -/
structure Returned (c : HookCtx) (regs : Reg → UInt64) (g' : Guest) (value : UInt64) : Prop where
  ret : ∀ ret, c.regs.ret = some ret → g'.regs ret = c.cell value
  linked : ∀ link, c.regs.lr = some link → ∃ pc, c.regs.pc = some pc ∧
    g'.regs pc = c.cell (regs link)
  popped : c.regs.lr = none → ∃ spReg pc, c.regs.sp = some spReg ∧ c.regs.pc = some pc ∧
    g'.regs spReg = c.cell (regs spReg + .ofNat c.ptr) ∧
    g'.regs pc = c.cell (gather c.bigEndian (load g'.mem (regs spReg) c.ptr))
  frame : ∀ r, c.regs.ret ≠ some r → c.regs.pc ≠ some r →
    (c.regs.lr = none → c.regs.sp ≠ some r) → g'.regs r = regs r

/-- The return reads the slot it pops. -/
def slotReads (c : HookCtx) (regs : Reg → UInt64) : List (UInt64 × ℕ) :=
  match c.regs.lr, c.regs.sp with
  | none, some spReg => [(regs spReg, c.ptr)]
  | _, _ => []

section Registers

variable {regs : Reg → UInt64} {g' : Guest} {pcReg : Reg} (hpc : c.regs.pc = some pcReg)

include hpc

theorem Returned.of_link {link : Reg} (hlr : c.regs.lr = some link)
    (hregs : g'.regs = Function.update (c.retRegs value regs) pcReg
      (c.cell (c.retRegs value regs link))) : c.Returned regs g' value := by
  have hapart := c.regs.apart
  refine ⟨?_, ?_, ?_, ?_⟩
  · intro ret hret
    have hne : ret ≠ pcReg := fun heq => hapart.pc_ret _ _ hpc hret heq.symm
    rw [hregs, Function.update_of_ne hne, retRegs_ret hret]
  · intro link' hlink'
    obtain rfl := Option.some.inj (hlr.symm.trans hlink')
    refine ⟨pcReg, hpc, ?_⟩
    rw [hregs, Function.update_self, retRegs_of_ne fun ret hret => hapart.lr_ret _ _ hlr hret]
  · intro hnone
    rw [hlr] at hnone
    cases hnone
  · intro r hnret hnpc _
    have hne : r ≠ pcReg := by
      rintro rfl
      exact hnpc hpc
    rw [hregs, Function.update_of_ne hne]
    apply retRegs_of_ne
    rintro ret hret rfl
    exact hnret hret

theorem Returned.of_pop {spReg : Reg} (hlr : c.regs.lr = none) (hsp : c.regs.sp = some spReg)
    (hregs : g'.regs = Function.update (c.popRegs spReg (c.retRegs value regs)) pcReg
      (c.cell (gather c.bigEndian (load g'.mem (regs spReg) c.ptr)))) :
    c.Returned regs g' value := by
  have hapart := c.regs.apart
  have hspret : c.retRegs value regs spReg = regs spReg :=
    retRegs_of_ne fun ret hret => hapart.sp_ret _ _ hsp hret
  refine ⟨?_, ?_, ?_, ?_⟩
  · intro ret hret
    have hnepc : ret ≠ pcReg := fun heq => hapart.pc_ret _ _ hpc hret heq.symm
    have hnesp : ret ≠ spReg := fun heq => hapart.sp_ret _ _ hsp hret heq.symm
    rw [hregs, Function.update_of_ne hnepc, popRegs, Function.update_of_ne hnesp, retRegs_ret hret]
  · intro link hlink
    rw [hlr] at hlink
    cases hlink
  · intro _
    refine ⟨spReg, pcReg, hsp, hpc, ?_, ?_⟩
    · rw [hregs, Function.update_of_ne (hapart.sp_pc _ _ hsp hpc), popRegs, Function.update_self,
        hspret]
    · rw [hregs, Function.update_self]
  · intro r hnret hnpc hnsp
    have hnepc : r ≠ pcReg := by
      rintro rfl
      exact hnpc hpc
    have hnesp : r ≠ spReg := by
      rintro rfl
      exact hnsp hlr hsp
    rw [hregs, Function.update_of_ne hnepc, popRegs, Function.update_of_ne hnesp]
    apply retRegs_of_ne
    rintro ret hret rfl
    exact hnret hret

end Registers

theorem summaryReturn_returned {u : Unit}
    (h : (c.summaryReturn value).run s script = (some u, s', rest)) :
    c.Returned s.guest.regs s'.guest value ∧ s'.guest.mem = s.guest.mem ∧
      s'.guest.reads = s.guest.reads ++ c.slotReads s.guest.regs ∧
      s'.hooks = { s.hooks with summaryResume := true } := by
  obtain ⟨_, t, mid, hret, h⟩ := run_bind_eq_some.1 h
  obtain rfl := writeRet_returned hret
  obtain ⟨target, t, mid, htarget, h⟩ := run_bind_eq_some.1 h
  obtain ⟨pcReg, t', mid', hlift, h⟩ := run_bind_eq_some.1 h
  obtain ⟨hpc, rfl, rfl⟩ := run_lift_eq_some.1 hlift
  obtain ⟨_, t'', mid'', hwrite, h⟩ := run_bind_eq_some.1 h
  obtain rfl := regWriteU64_returned hwrite
  obtain ⟨rfl, -⟩ : _ = s' ∧ mid'' = rest := by simpa [run_bind, emuStop] using h
  rcases returnTarget_returned htarget with ⟨link, hlr, rfl, rfl⟩ |
      ⟨hlr, spReg, hsp, hfits, rfl, rfl⟩
  · refine ⟨Returned.of_link hpc hlr rfl, rfl, ?_, rfl⟩
    unfold slotReads
    rw [hlr]
    exact (List.append_nil _).symm
  · have hspret : (s.withRegs (c.retRegs value s.guest.regs)).guest.regs spReg =
        s.guest.regs spReg :=
      retRegs_of_ne fun ret hret => c.regs.apart.sp_ret _ _ hsp hret
    rw [hspret]
    refine ⟨Returned.of_pop hpc hlr hsp rfl, rfl, ?_, rfl⟩
    unfold slotReads
    rw [hlr, hsp]
    rfl

/-- A summary that returns to the guest has had one of its effects. -/
theorem runSummary_returned {kind : SummaryKind} (hkind : kind ≠ .terminate)
    (h : (c.runSummary kind).run s script = (some value, s', rest)) :
    ∃ e, c.Models s.guest s.hooks.heapCursor kind e ∧ value = e.result ∧
      c.Returned s.guest.regs s'.guest e.result ∧
      s'.guest.mem = store s.guest.mem e.write.1 e.write.2 ∧
      s'.guest.reads = s.guest.reads ++ e.reads ++ c.slotReads s.guest.regs ∧
      s'.hooks.data = (c.perform e s).hooks.data ∧
      s'.hooks.heapCursor = (c.perform e s).hooks.heapCursor := by
  obtain ⟨result, t, mid, hbody, h⟩ := run_bind_eq_some.1 h
  obtain ⟨e, hmodels, rfl, rfl⟩ := summaryBody_returned hkind hbody
  obtain ⟨_, t, mid, hreturn, h⟩ := run_bind_eq_some.1 h
  obtain ⟨hreturned, hmem, hreads, hhooks⟩ := summaryReturn_returned hreturn
  obtain ⟨rfl, rfl, -⟩ : e.result = value ∧ _ = s' ∧ mid = rest := by
    simpa [countCall, run_bind] using h
  refine ⟨e, hmodels, rfl, hreturned, hmem, hreads, ?_, ?_⟩
  · show t.hooks.data = _
    rw [hhooks]
  · show t.hooks.heapCursor = _
    rw [hhooks]

/-- A summary that does not has failed in its work, or in its return behind the effect. -/
theorem runSummary_failed {kind : SummaryKind} (hkind : kind ≠ .terminate)
    (h : (c.runSummary kind).run s script = (none, s', rest)) :
    (c.summaryBody kind).run s script = (none, s', rest) ∨
      ∃ e mid, c.Models s.guest s.hooks.heapCursor kind e ∧
        (c.summaryBody kind).run s script = (some e.result, c.perform e s, mid) ∧
        (c.summaryReturn e.result).run (c.perform e s) mid = (none, s', rest) := by
  rcases run_bind_eq_none.1 h with hbody | ⟨result, t, mid, hbody, h⟩
  · exact Or.inl hbody
  · obtain ⟨e, hmodels, rfl, rfl⟩ := summaryBody_returned hkind hbody
    refine Or.inr ⟨e, mid, hmodels, hbody, ?_⟩
    rcases run_bind_eq_none.1 h with hreturn | ⟨_, t, mid', -, h⟩
    · exact hreturn
    · simp [countCall, run_bind] at h

theorem applySummary_of_ne {kind : SummaryKind} (hkind : kind ≠ .terminate) :
    c.applySummary kind = c.runSummary kind >>= fun _ => pure () := if_neg hkind

/-- **A summary that is applied.** It has had one of its effects, and returned its result. -/
theorem applySummary_returned {kind : SummaryKind} (hkind : kind ≠ .terminate) {u : Unit}
    (h : (c.applySummary kind).run s script = (some u, s', rest)) :
    ∃ e, c.Models s.guest s.hooks.heapCursor kind e ∧
      c.Returned s.guest.regs s'.guest e.result ∧
      s'.guest.mem = store s.guest.mem e.write.1 e.write.2 ∧
      s'.guest.reads = s.guest.reads ++ e.reads ++ c.slotReads s.guest.regs ∧
      s'.hooks.data = (c.perform e s).hooks.data := by
  rw [applySummary_of_ne hkind] at h
  obtain ⟨value, t, mid, hrun, h⟩ := run_bind_eq_some.1 h
  obtain ⟨rfl, -⟩ : t = s' ∧ mid = rest := by simpa using h
  obtain ⟨e, hmodels, -, hreturned, hmem, hreads, hdata, -⟩ := runSummary_returned hkind hrun
  exact ⟨e, hmodels, hreturned, hmem, hreads, hdata⟩

/-- A summary that is not applied has not returned to the guest. -/
theorem applySummary_failed {kind : SummaryKind}
    (h : (c.applySummary kind).run s script = (none, s', rest)) :
    kind ≠ .terminate ∧ (c.runSummary kind).run s script = (none, s', rest) := by
  by_cases hkind : kind = .terminate
  · subst hkind
    simp [applySummary, terminateProcess, countCall, emuStop, run_bind] at h
  · rw [applySummary_of_ne hkind] at h
    rcases run_bind_eq_none.1 h with hrun | ⟨value, t, mid, -, h⟩
    · exact ⟨hkind, hrun⟩
    · simp at h

end HookCtx

end Viy.Emu
