import Viy.Emu.Return

/-!
# Summaries that fail

A summary that is not applied lets the function itself run, which is right if the summary has left
no trace. Its work leaves none: arguments and strings are read first, the one store comes last. But
the return sequence behind the work can still fail, and then the store, the recorded accesses and
the moved heap cursor stay.
-/

namespace Viy.Emu

open Wire Fault ProgramImage Proc

variable {s s' : Machine} {script rest : List Outcome} {c : HookCtx}

/-- What a failed call must leave as it was. -/
structure Unchanged (s s' : Machine) : Prop where
  mem : s'.guest.mem = s.guest.mem
  regs : s'.guest.regs = s.guest.regs
  data : s'.hooks.data = s.hooks.data
  sequence : s'.hooks.sequence = s.hooks.sequence
  heapCursor : s'.hooks.heapCursor = s.hooks.heapCursor

theorem OnlyReads.unchanged (h : OnlyReads s s') : Unchanged s s' := by
  obtain ⟨l, rfl⟩ := h
  exact ⟨rfl, rfl, rfl, rfl, rfl⟩

namespace HookCtx

/-! ## The work of a summary is atomic -/

theorem returns_recordSummaryAccess (kind : MemKind) (address value : UInt64) (size : UInt32) :
    Returns (c.recordSummaryAccess kind address value size) := returns_modify _

section Args

variable {α : Type}

theorem atomic_args_two {f : UInt64 → UInt64 → RaxProc α}
    (hf : ∀ a0 a1, Atomic OnlyReads (f a0 a1)) :
    Atomic OnlyReads (c.summaryArg 0 >>= fun a0 => c.summaryArg 1 >>= f a0) := by
  refine Atomic.bind (keeps_summaryArg 0) fun a0 => ?_
  exact Atomic.bind (keeps_summaryArg 1) fun a1 => hf a0 a1

/-- Three arguments, the last one a size. -/
theorem atomic_args_sized {f : UInt64 → UInt64 → UInt64 → RaxProc α}
    (hf : ∀ a0 a1 a2, Atomic OnlyReads (f a0 a1 a2)) :
    Atomic OnlyReads (c.summaryArg 0 >>= fun a0 => c.summaryArg 1 >>= fun a1 =>
      c.summaryArg 2 >>= fun a2 =>
        Proc.require (decide (a2 ≤ maxModelBytes)) >>= fun _ => f a0 a1 a2) := by
  refine atomic_args_two fun a0 a1 => ?_
  refine Atomic.bind (keeps_summaryArg 2) fun a2 => ?_
  exact Atomic.bind (keeps_require _) fun _ => hf a0 a1 a2

end Args

theorem atomic_memmoveSummary : Atomic OnlyReads c.memmoveSummary := by
  refine atomic_args_sized fun a0 a1 a2 => ?_
  refine Atomic.ite ?_ (returns_pure _).atomic
  refine Atomic.bind (keeps_memRead _ _) fun bytes => ?_
  refine Atomic.bind_returns atomic_primitive fun _ => ?_
  refine Returns.bind (returns_recordSummaryAccess _ _ _ _) fun _ => ?_
  exact Returns.bind (returns_recordSummaryAccess _ _ _ _) fun _ => returns_pure _

theorem atomic_memsetSummary : Atomic OnlyReads c.memsetSummary := by
  refine atomic_args_sized fun a0 a1 a2 => ?_
  refine Atomic.ite ?_ (returns_pure _).atomic
  refine Atomic.bind_returns atomic_primitive fun _ => ?_
  exact Returns.bind (returns_recordSummaryAccess _ _ _ _) fun _ => returns_pure _

theorem atomic_strcpySummary : Atomic OnlyReads c.strcpySummary := by
  refine atomic_args_two fun a0 a1 => ?_
  refine Atomic.bind keeps_readCString fun bytes => ?_
  refine Atomic.bind_returns atomic_primitive fun _ => ?_
  refine Returns.bind (returns_recordSummaryAccess _ _ _ _) fun _ => ?_
  exact Returns.bind (returns_recordSummaryAccess _ _ _ _) fun _ => returns_pure _

theorem atomic_strncpySummary : Atomic OnlyReads c.strncpySummary := by
  refine atomic_args_sized fun a0 a1 a2 => ?_
  refine Atomic.bind (keeps_readUpTo _) fun copied => ?_
  have hrecorded : ∀ bytes : Bytes, Returns (do
      if copied.length ≠ 0 then
        c.recordSummaryAccess .read a1 (c.scalarFromMemory copied) (.ofNat copied.length)
      if a2 ≠ 0 then c.recordSummaryAccess .write a0 (c.scalarFromMemory bytes) a2.toUInt32
      pure a0) := by
    intro bytes
    have hwrite : Returns (do
        if a2 ≠ 0 then c.recordSummaryAccess .write a0 (c.scalarFromMemory bytes) a2.toUInt32
        pure a0) :=
      Returns.ite (Returns.bind (returns_recordSummaryAccess _ _ _ _) fun _ => returns_pure _)
        (returns_pure _)
    exact Returns.ite (Returns.bind (returns_recordSummaryAccess _ _ _ _) fun _ => hwrite) hwrite
  exact Atomic.ite (Atomic.bind_returns atomic_primitive fun _ => hrecorded _) (hrecorded _).atomic

theorem atomic_strlenSummary : Atomic OnlyReads c.strlenSummary := by
  refine Atomic.bind (keeps_summaryArg 0) fun a0 => ?_
  refine Atomic.bind keeps_readCString fun bytes => ?_
  exact (Returns.bind (returns_recordSummaryAccess _ _ _ _) fun _ => returns_pure _).atomic

theorem atomic_strcmpSummary : Atomic OnlyReads c.strcmpSummary := by
  refine atomic_args_two fun a0 a1 => ?_
  refine Atomic.bind keeps_readCString fun bytes => ?_
  refine Atomic.bind keeps_readCString fun rhs => ?_
  refine Returns.atomic (Returns.bind (returns_recordSummaryAccess _ _ _ _) fun _ => ?_)
  exact Returns.bind (returns_recordSummaryAccess _ _ _ _) fun _ => returns_pure _

theorem atomic_allocateBlock (clear : Bool) (n : UInt64) :
    Atomic OnlyReads (c.allocateBlock clear n) := by
  refine Atomic.bind (keeps_get _) fun cursor => ?_
  have hmoved : Returns (do
      Proc.modify fun s : Machine =>
        { s with hooks := { s.hooks with heapCursor := s.hooks.heapCursor + aligned n } }
      pure cursor : RaxProc UInt64) :=
    Returns.bind (returns_modify _) fun _ => returns_pure _
  refine Atomic.ite ?_ (returns_pure _).atomic
  cases clear with
  | false => exact hmoved.atomic
  | true =>
    refine Atomic.bind_returns atomic_primitive fun _ => ?_
    exact Returns.bind (returns_recordSummaryAccess _ _ _ _) fun _ => hmoved

theorem atomic_allocateSummary (clear : Bool) : Atomic OnlyReads (c.allocateSummary clear) := by
  refine Atomic.bind (keeps_summaryArg 0) fun a0 => ?_
  cases clear with
  | false => exact Atomic.bind (keeps_pure 0) fun a1 => atomic_allocateBlock false _
  | true => exact Atomic.bind (keeps_summaryArg 1) fun a1 => atomic_allocateBlock true _

/-- **The work of a summary is atomic.** If it stops, it has only read. -/
theorem atomic_summaryBody (kind : SummaryKind) : Atomic OnlyReads (c.summaryBody kind) := by
  cases kind with
  | memcpy => exact atomic_memmoveSummary
  | memmove => exact atomic_memmoveSummary
  | memset => exact atomic_memsetSummary
  | strcpy => exact atomic_strcpySummary
  | strncpy => exact atomic_strncpySummary
  | strlen => exact atomic_strlenSummary
  | strcmp => exact atomic_strcmpSummary
  | allocate => exact atomic_allocateSummary false
  | callocate => exact atomic_allocateSummary true
  | deallocate => exact Atomic.bind (keeps_summaryArg 0) fun _ => (returns_pure _).atomic
  | terminate => exact (returns_pure _).atomic

/-! ## Effects that change nothing -/

/-- The hooks would record the access. -/
def Recordable (c : HookCtx) (h : HookState) (a : Access) : Prop :=
  (c.accessScope a.address a.size).isSome = true ∧ c.inFunction h.summarySource = true ∧
    h.data.length < c.dataCap

theorem record_of_not_recordable {h : HookState} {a : Access} (ha : ¬ c.Recordable h a) :
    c.record h a = h := by
  unfold record recordAccess
  cases hscope : c.accessScope a.address a.size with
  | none => rfl
  | some scope =>
    refine if_neg ?_
    rintro ⟨hsource, hcap⟩
    exact ha ⟨by rw [hscope]; rfl, hsource, hcap⟩

theorem length_record_of_recordable {h : HookState} {a : Access} (ha : c.Recordable h a) :
    (c.record h a).data.length = h.data.length + 1 := by
  obtain ⟨hscope, hsource, hcap⟩ := ha
  obtain ⟨scope, hscope⟩ := Option.isSome_iff_exists.1 hscope
  unfold record recordAccess
  rw [hscope]
  simp [hsource, hcap]

theorem length_le_length_record (h : HookState) (a : Access) :
    h.data.length ≤ (c.record h a).data.length := by
  by_cases ha : c.Recordable h a
  · rw [length_record_of_recordable ha]
    omega
  · rw [record_of_not_recordable ha]

theorem length_le_length_foldl_record (l : List Access) : ∀ h : HookState,
    h.data.length ≤ (l.foldl c.record h).data.length := by
  induction l with
  | nil =>
    intro h
    exact le_rfl
  | cons a l ih =>
    intro h
    exact (length_le_length_record h a).trans (ih _)

theorem foldl_record_of_not_recordable {l : List Access} {h : HookState}
    (hl : ∀ a ∈ l, ¬ c.Recordable h a) : l.foldl c.record h = h := by
  induction l with
  | nil => rfl
  | cons a l ih =>
    rw [List.foldl_cons, record_of_not_recordable (hl a List.mem_cons_self)]
    exact ih fun b hb => hl b (List.mem_cons_of_mem a hb)

/-- Nothing is recorded exactly if no access is to be recorded. -/
theorem foldl_record_data_eq_iff {l : List Access} {h : HookState} :
    (l.foldl c.record h).data = h.data ↔ ∀ a ∈ l, ¬ c.Recordable h a := by
  constructor
  · intro hdata
    induction l with
    | nil => exact fun a ha => absurd ha List.not_mem_nil
    | cons a l ih =>
      rw [List.foldl_cons] at hdata
      have hfirst : ¬ c.Recordable h a := by
        intro ha
        have hgrown := length_le_length_foldl_record (c := c) l (c.record h a)
        rw [hdata, length_record_of_recordable ha] at hgrown
        omega
      rw [record_of_not_recordable hfirst] at hdata
      exact List.forall_mem_cons.2 ⟨hfirst, ih hdata⟩
  · intro hl
    rw [foldl_record_of_not_recordable hl]

/-- The effect stores what is there, records nothing and leaves the heap cursor. -/
structure Idle (c : HookCtx) (e : Effect) (s : Machine) : Prop where
  stored : load s.guest.mem e.write.1 e.write.2.length = e.write.2
  unrecorded : ∀ a ∈ e.accesses, ¬ c.Recordable s.hooks a
  still : e.advance = 0

/-- A model of more than 1 MiB counts as one of nothing. -/
theorem toNat_capped (n : UInt64) : (if n > maxModelBytes then 0 else n).toNat =
    if n.toNat ≤ 2 ^ 20 then n.toNat else 0 := by
  have hmax : maxModelBytes.toNat = 2 ^ 20 := by decide
  by_cases hgt : n > maxModelBytes
  · have hnat := UInt64.lt_iff_toNat_lt.1 hgt
    rw [if_pos hgt, if_neg (by omega)]
    rfl
  · have hnat := UInt64.le_iff_toNat_le.1 (UInt64.not_lt.1 hgt)
    rw [if_neg hgt, if_pos (by omega)]

theorem Models.write_length_le {g : Guest} {cursor : UInt64} {kind : SummaryKind} {e : Effect}
    (h : c.Models g cursor kind e) : e.write.2.length ≤ 2 ^ 20 := by
  have hmax : maxModelBytes.toNat = 2 ^ 20 := by decide
  have hle_of : ∀ {n : UInt64}, n ≤ maxModelBytes → n.toNat ≤ 2 ^ 20 := by
    intro n hn
    exact hmax ▸ UInt64.le_iff_toNat_le.1 hn
  cases h with
  | memmove _ _ _ _ hle => simpa using hle_of hle
  | memset _ _ _ hle => simpa using hle_of hle
  | strcpy _ _ _ hlt =>
    simp only [List.length_append, List.length_singleton]
    omega
  | strncpy _ _ _ hle hcopied =>
    have hcount := hcopied.length_le
    have hn := hle_of hle
    simp only [List.length_append, List.length_replicate]
    omega
  | @allocated clear _ a0 a1 _ _ _ _ _ _ =>
    have hn : (requestedBytes clear a0 a1).toNat ≤ 2 ^ 20 := by
      refine (toNat_capped _).trans_le ?_
      split_ifs <;> omega
    cases clear with
    | false => simp
    | true => simpa using hn
  | strlen | strcmp | refused | deallocate => simp

/-- The work of a summary has left no trace exactly if its effect was idle. -/
theorem unchanged_perform_iff {e : Effect} (hlength : e.write.2.length ≤ 2 ^ 20) :
    ((c.perform e s).guest.mem = s.guest.mem ∧ (c.perform e s).hooks.data = s.hooks.data ∧
      (c.perform e s).hooks.sequence = s.hooks.sequence ∧
      (c.perform e s).hooks.heapCursor = s.hooks.heapCursor) ↔ c.Idle e s := by
  constructor
  · rintro ⟨hmem, hdata, -, hcursor⟩
    have hunrecorded := foldl_record_data_eq_iff.1 hdata
    refine ⟨(store_eq_self_iff (by omega)).1 hmem, hunrecorded, ?_⟩
    change (e.accesses.foldl c.record s.hooks).heapCursor + e.advance = _ at hcursor
    rw [foldl_record_of_not_recordable hunrecorded] at hcursor
    simpa using hcursor
  · rintro ⟨hstored, hunrecorded, hstill⟩
    rw [perform_of_advance_eq_zero c hstill, foldl_record_of_not_recordable hunrecorded]
    exact ⟨(store_eq_self_iff (by omega)).2 hstored, rfl, rfl, rfl⟩

/-! ## Failed returns -/

/-- The popped stack pointer is another one, also where a 32-bit register wraps around. -/
theorem cell_add_ptr_ne (x : UInt64) (hfits : x.toNat + c.ptr < 2 ^ 64) :
    c.cell (x + .ofNat c.ptr) ≠ x := by
  have hptr := c.ptr_bounds
  intro heq
  have hnat := congrArg UInt64.toNat heq
  have hlt : c.ptr < 2 ^ 64 := by omega
  have hsum : (x + .ofNat c.ptr).toNat = x.toNat + c.ptr := by
    rw [UInt64.toNat_add, UInt64.toNat_ofNat_of_lt' hlt]
    omega
  unfold cell at hnat
  by_cases hwide : c.is64 = true
  · rw [if_pos hwide, hsum] at hnat
    omega
  · rw [if_neg hwide, UInt32.toNat_toUInt64, UInt64.toNat_toUInt32, hsum] at hnat
    omega

/-- The return sequence stops with every register as it was: the return register could not be
written or had the result already, and no return address has been popped. -/
def ReturnIdle (c : HookCtx) (value : UInt64) (t : Machine) (script : List Outcome) : Prop :=
  ((c.writeRet value).run t script).1 = none ∨
    (∀ ret, c.regs.ret = some ret → t.guest.regs ret = c.cell value) ∧
      (c.regs.lr ≠ none ∨ ((c.writeRet value >>= fun _ => c.returnTarget).run t script).1 = none)

theorem summaryReturn_failed {value : UInt64}
    (h : (c.summaryReturn value).run s script = (none, s', rest)) :
    s'.hooks = s.hooks ∧ s'.guest.mem = s.guest.mem ∧
      (s'.guest.regs = s.guest.regs ↔ c.ReturnIdle value s script) := by
  unfold ReturnIdle
  rcases run_bind_eq_none.1 h with hret | ⟨u, t, mid, hret, h⟩
  · obtain rfl := writeRet_failed hret
    exact ⟨rfl, rfl, iff_of_true rfl (Or.inl (by rw [hret]))⟩
  obtain rfl := writeRet_returned hret
  have hwritten : ((c.writeRet value).run s script).1 ≠ none := by
    rw [hret]
    exact Option.some_ne_none u
  have hsequence : ((c.writeRet value >>= fun _ => c.returnTarget).run s script).1 =
      (c.returnTarget.run (s.withRegs (c.retRegs value s.guest.regs)) mid).1 := by
    rw [run_bind, hret]
  rw [hsequence, or_iff_right hwritten, ← retRegs_eq_self_iff]
  rcases run_bind_eq_none.1 h with htarget | ⟨target, t, mid', htarget, h⟩
  · obtain ⟨l, rfl⟩ := atomic_returnTarget.related htarget
    refine ⟨rfl, rfl, ?_⟩
    rw [htarget, and_iff_left (Or.inr rfl)]
    exact Iff.rfl
  · -- the target is known; the program counter could not be written
    have hstate : s' = t := by
      rcases run_bind_eq_none.1 h with hlift | ⟨pcReg, t', mid'', hlift, h⟩
      · exact (run_lift_eq_none.1 hlift).2.1.symm
      · obtain ⟨-, rfl, rfl⟩ := run_lift_eq_some.1 hlift
        rcases run_bind_eq_none.1 h with hwrite | ⟨_, t', mid'', -, h⟩
        · exact primitive_failed hwrite
        · simp [run_bind, emuStop] at h
    subst hstate
    rw [htarget]
    rcases returnTarget_returned htarget with ⟨link, hlr, -, rfl⟩ | ⟨hlr, spReg, hsp, hfits, -, rfl⟩
    · refine ⟨rfl, rfl, ?_⟩
      rw [and_iff_left (Or.inl (by rw [hlr]; exact Option.some_ne_none link))]
      exact Iff.rfl
    · refine ⟨rfl, rfl, iff_of_false ?_ ?_⟩
      · intro hregs
        have hspret : c.retRegs value s.guest.regs spReg = s.guest.regs spReg :=
          retRegs_of_ne fun ret hr => c.regs.apart.sp_ret _ _ hsp hr
        have hpopped := congrFun hregs spReg
        change c.popRegs spReg (c.retRegs value s.guest.regs) spReg = _ at hpopped
        rw [popRegs, Function.update_self, hspret] at hpopped
        refine cell_add_ptr_ne _ ?_ hpopped
        change (c.retRegs value s.guest.regs spReg).toNat + c.ptr < 2 ^ 64 at hfits
        rwa [hspret] at hfits
      · rintro ⟨-, hnot | hnone⟩
        · exact hnot hlr
        · cases hnone

/-! ## Failed calls -/

/-- The work of the call fails, or it has an idle effect and the return fails idly. -/
def FailsIdly (c : HookCtx) (kind : SummaryKind) (s : Machine) (script : List Outcome) : Prop :=
  ((c.summaryBody kind).run s script).1 = none ∨
    ∃ e mid, c.Models s.guest s.hooks.heapCursor kind e ∧
      (c.summaryBody kind).run s script = (some e.result, c.perform e s, mid) ∧
      c.Idle e s ∧ c.ReturnIdle e.result (c.perform e s) mid

/-- **Failed calls.** A summary that returns `false` has left the guest and the records as they were
exactly if its work has failed, or both its effect and its failed return were idle. -/
theorem failed_call_unchanged_iff {kind : SummaryKind}
    (h : (c.applySummary kind).run s script = (none, s', rest)) :
    Unchanged s s' ↔ c.FailsIdly kind s script := by
  obtain ⟨hkind, h⟩ := applySummary_failed h
  rcases runSummary_failed hkind h with hbody | ⟨e, mid, hmodels, hbody, hreturn⟩
  · exact iff_of_true ((atomic_summaryBody kind).related hbody).unchanged (Or.inl (by rw [hbody]))
  obtain ⟨hhooks, hmem, hregs⟩ := summaryReturn_failed hreturn
  have hperform := unchanged_perform_iff (c := c) (s := s) hmodels.write_length_le
  constructor
  · intro hunchanged
    refine Or.inr ⟨e, mid, hmodels, hbody, hperform.1 ⟨?_, ?_, ?_, ?_⟩, hregs.1 hunchanged.regs⟩
    · rw [← hmem, hunchanged.mem]
    · rw [← hhooks, hunchanged.data]
    · rw [← hhooks, hunchanged.sequence]
    · rw [← hhooks, hunchanged.heapCursor]
  · rintro (hnone | ⟨e', mid', hmodels', hbody', hidle, hreturnIdle⟩)
    · rw [hbody] at hnone
      cases hnone
    · rw [hbody] at hbody'
      simp only [Prod.mk.injEq, Option.some.injEq] at hbody'
      obtain ⟨hresult, hstate, rfl⟩ := hbody'
      rw [← hresult, ← hstate] at hreturnIdle
      have hsame := (unchanged_perform_iff hmodels'.write_length_le).2 hidle
      rw [← hstate, ← hhooks, ← hmem] at hsame
      exact ⟨hsame.1, hregs.2 hreturnIdle, hsame.2.1, hsame.2.2.1, hsame.2.2.2⟩

end HookCtx

/-! ## A call on x86-64 -/

/-- A `memcmp` that compares byte by byte. -/
def byteMemcmp : Memcmp where
  run a b := if a < b then -1 else if b < a then 1 else 0
  neg_iff a b _ := by
    by_cases hab : a < b
    · simp [hab]
    · by_cases hba : b < a <;> simp [hab, hba]
  pos_iff a b _ := by
    by_cases hab : a < b
    · simp [hab, List.lt_asymm hab]
    · by_cases hba : b < a <;> simp [hab, hba]

/-- A run on x86-64 with an empty image. -/
def sysvCtx : HookCtx where
  image := ⟨0, 0, [], fun _ hs => absurd hs List.not_mem_nil, List.Pairwise.nil⟩
  regs := x64Regs
  argRegs := [.x86Gpr64 7, .x86Gpr64 6, .x86Gpr64 2, .x86Gpr64 1, .x86Gpr64 8, .x86Gpr64 9]
  is64 := true
  memcmp := byteMemcmp

/-- `memset(0x5000, 0x41, 1)` is about to be called. -/
def memsetMachine : Machine where
  hooks := {}
  guest := { mem := fun _ => 0, regs := fun r =>
    if r = .x86Gpr64 7 then 0x5000 else if r = .x86Gpr64 6 then 0x41
    else if r = .x86Gpr64 2 then 1 else 0 }

/-- `memcpy(0x5000, 0x6000, 2)` is about to be called. -/
def memcpyMachine : Machine where
  hooks := {}
  guest := { mem := fun _ => 7, regs := fun r =>
    if r = .x86Gpr64 7 then 0x5000 else if r = .x86Gpr64 6 then 0x6000
    else if r = .x86Gpr64 2 then 2 else 0 }

/-- The arguments and the source are read before the bytes cannot be written. -/
theorem failed_memcpy_unchanged :
    let failed := (sysvCtx.applySummary .memcpy).run memcpyMachine [.ok, .ok, .ok, .ok, .fails]
    failed.1 = none ∧ failed.2.1.guest.reads = [(0x6000, 2)] ∧
      Unchanged memcpyMachine failed.2.1 := by
  intro failed
  have hfails : (sysvCtx.applySummary .memcpy).run memcpyMachine [.ok, .ok, .ok, .ok, .fails] =
      (none, failed.2.1, []) := rfl
  exact ⟨rfl, rfl, (HookCtx.failed_call_unchanged_iff hfails).2 (Or.inl rfl)⟩

/-- The byte is stored before the return register cannot be written. -/
theorem failed_memset_leaves_byte :
    ((sysvCtx.applySummary .memset).run memsetMachine [.ok, .ok, .ok, .ok, .fails]).1 = none ∧
      ¬ Unchanged memsetMachine
        ((sysvCtx.applySummary .memset).run memsetMachine [.ok, .ok, .ok, .ok, .fails]).2.1 := by
  refine ⟨by decide +kernel, fun h => ?_⟩
  have hbyte := congrFun h.mem 0x5000
  revert hbyte
  decide +kernel

end Viy.Emu
