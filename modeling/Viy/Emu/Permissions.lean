import Viy.Absint.Run
import Viy.Emu.FailedCalls

/-!
# Recorded accesses and segment permissions

In strict mode no access that a segment denies should be recorded. The memory hook asks the access
check, which lets every access pass that starts in a gap of the image. The summaries do not ask:
they record whatever the guest's arguments make them read and write. Where neither happens, every
recorded access of the image is permitted.
-/

namespace Viy.Emu

open Wire Fault ProgramImage Proc

/-! ## The check -/

/-- **The access check.** What it allows touches no segment that denies the access, exactly if the
range starts in a segment or touches no such segment anyway. -/
theorem access_check_sound_iff {image : ProgramImage} {address : UInt64} {size : UInt32}
    {required : SegPerm} (hsize : size ≠ 0) (hfits : address.toNat + size.toNat < 2 ^ 64) :
    (image.accessAllowed address size required = true →
        ∀ a, InRange address size a → image.Grants required a) ↔
      image.Backs address ∨ ∀ a, InRange address size a → image.Grants required a := by
  rw [image.accessAllowed_eq_true_iff hsize hfits]
  by_cases hbacks : image.Backs address
  · refine iff_of_true ?_ (Or.inl hbacks)
    rintro (hgap | hall) a ha
    · exact absurd hbacks hgap
    · exact (hall a ha).2
  · rw [or_iff_right hbacks]
    constructor
    · intro h
      exact h (Or.inl hbacks)
    · intro h _
      exact h

/-- A read-only segment at `0x2000`. -/
def readOnlyImage : ProgramImage where
  lo := 0x2000
  hi := 0x3000
  segs := [{ start := 0x2000, end_ := 0x3000, perm := 4 }]
  ordered := by
    intro s hs
    obtain rfl := List.mem_singleton.1 hs
    decide
  sorted := List.pairwise_singleton _ _

theorem read_in_segment_checked : readOnlyImage.accessAllowed 0x2000 8 .read = true ∧
    ∀ a, InRange 0x2000 8 a → readOnlyImage.Grants .read a := by
  have hallowed : readOnlyImage.accessAllowed 0x2000 8 .read = true := by decide
  have hbacks : readOnlyImage.Backs 0x2000 := ⟨_, List.mem_singleton.2 rfl, by decide⟩
  exact ⟨hallowed, (access_check_sound_iff (by decide) (by decide)).2 (Or.inl hbacks) hallowed⟩

/-- A write of eight bytes from the gap in front reaches into the segment. -/
theorem gap_write_allowed : readOnlyImage.accessAllowed 0x1ffc 8 .write = true ∧
    ¬ ∀ a, InRange 0x1ffc 8 a → readOnlyImage.Grants .write a := by
  refine ⟨by decide +kernel, fun h => ?_⟩
  have hgrants := h 0x2000 ⟨by decide, by decide⟩ _ (List.mem_singleton.2 rfl) (by decide)
  revert hgrants
  decide

/-! ## Recorded accesses -/

/-- No segment of the range denies the access. -/
def Permitted (image : ProgramImage) (kind : MemKind) (address : UInt64) (size : UInt32) : Prop :=
  ∀ a, InRange address size a → image.Grants kind.required a

/-- Every byte of the range has a segment, and none denies the access. -/
def Covered (image : ProgramImage) (kind : MemKind) (address : UInt64) (size : UInt32) : Prop :=
  ∀ a, InRange address size a → image.Backs a ∧ image.Grants kind.required a

/-- The event is the record of an access. -/
structure HookCtx.Records (c : HookCtx) (a : Access) (d : DataAcc) : Prop where
  kind : d.kind = a.kind
  addr : d.addr = a.address
  size : d.size = a.size
  scope : c.accessScope a.address a.size = some d.scope

/-- Every access of `s'` was there in `s` or has the property. -/
def Adds (P : DataAcc → Prop) (s s' : Machine) : Prop :=
  ∀ d ∈ s'.hooks.data, d ∈ s.hooks.data ∨ P d

instance (P : DataAcc → Prop) : IsPreorder Machine (Adds P) where
  refl _ _ hd := Or.inl hd
  trans _ _ _ hst htu d hd := by
    rcases htu d hd with hd | hP
    · exact hst d hd
    · exact Or.inr hP

namespace HookCtx

variable {c : HookCtx} {s s' : Machine} {script rest : List Outcome}

theorem mem_recordAccess {source : UInt64} {a : Access} {h : HookState} {d : DataAcc}
    (hd : d ∈ (c.recordAccess source a.kind a.address a.value a.size h).data) :
    d ∈ h.data ∨ c.Records a d ∧ c.inFunction source = true ∧ h.data.length < c.dataCap := by
  unfold recordAccess at hd
  cases hscope : c.accessScope a.address a.size with
  | none =>
    rw [hscope] at hd
    exact Or.inl hd
  | some scope =>
    rw [hscope] at hd
    simp only at hd
    by_cases hroom : c.inFunction source = true ∧ h.data.length < c.dataCap
    · rw [if_pos hroom] at hd
      rcases List.mem_append.1 hd with hd | hd
      · exact Or.inl hd
      · obtain rfl := List.mem_singleton.1 hd
        exact Or.inr ⟨⟨rfl, rfl, rfl, hscope⟩, hroom⟩
    · rw [if_neg hroom] at hd
      exact Or.inl hd

/-- The access is recorded when the accesses of the list are. -/
def Adopts (c : HookCtx) (h : HookState) (l : List Access) (a : Access) : Prop :=
  ∃ before after, l = before ++ a :: after ∧ c.Recordable (before.foldl c.record h) a

theorem mem_foldl_record {d : DataAcc} {l : List Access} : ∀ {h : HookState},
    d ∈ (l.foldl c.record h).data → d ∈ h.data ∨ ∃ a, c.Adopts h l a ∧ c.Records a d := by
  induction l with
  | nil =>
    intro h hd
    exact Or.inl hd
  | cons a l ih =>
    intro h hd
    rcases ih hd with hd | ⟨b, ⟨before, after, rfl, hb⟩, hrecords⟩
    · rcases mem_recordAccess hd with hd | ⟨hrecords, hroom⟩
      · exact Or.inl hd
      · exact Or.inr ⟨a, ⟨[], l, rfl, by rw [hrecords.scope]; rfl, hroom⟩, hrecords⟩
    · exact Or.inr ⟨b, ⟨a :: before, after, rfl, hb⟩, hrecords⟩

/-! ## The code hook -/

theorem keeps_captureValues : ∀ regs : List Reg,
    Keeps (Adds fun _ => False) (c.captureValues regs)
  | [] => keeps_pure []
  | reg :: regs => by
    refine Keeps.bind (keeps_regReadU64 reg).attempt fun value => ?_
    refine Keeps.bind (keeps_captureValues regs) fun values => ?_
    cases value with
    | none => exact keeps_pure values
    | some v => exact keeps_pure _

theorem keeps_captureState (addr : UInt64) : Keeps (Adds fun _ => False) (c.captureState addr) := by
  refine Keeps.bind (keeps_get _) fun states => ?_
  show Keeps (Adds fun _ => False) (if states.length < c.stateCap then _ else _)
  split_ifs
  · refine Keeps.bind (keeps_captureValues _) fun regs => ?_
    exact keeps_modify fun s d hd => Or.inl hd
  · exact keeps_pure ()

theorem keeps_recordTransfer (addr eventSequence : UInt64) :
    Keeps (Adds fun _ => False) (c.recordTransfer addr eventSequence) := by
  refine Keeps.bind (keeps_get _) fun h => ?_
  show Keeps (Adds fun _ => False) (if _ then _ else _)
  split_ifs
  · refine Keeps.bind (keeps_modify fun s d hd => Or.inl hd) fun _ => ?_
    exact keeps_captureState addr
  · exact keeps_pure ()

theorem recordExecution_data (addr eventSequence : UInt64) (h : HookState) :
    (c.recordExecution addr eventSequence h).data = h.data := by
  unfold recordExecution
  dsimp only
  split_ifs <;> rfl

/-- The records of an instruction are not those of an access. -/
theorem keeps_noteInstruction (addr : UInt64) :
    Keeps (Adds fun _ => False) (c.noteInstruction addr) := by
  refine Keeps.bind (keeps_get _) fun eventSequence => ?_
  refine Keeps.bind (keeps_modify fun s d hd => Or.inl hd) fun _ => ?_
  refine Keeps.bind (keeps_recordTransfer addr eventSequence) fun _ => ?_
  refine Keeps.bind (keeps_modify fun s d hd => ?_) fun _ => keeps_modify fun s d hd => Or.inl hd
  exact Or.inl (recordExecution_data addr eventSequence s.hooks ▸ hd)

/-- The work of a summary succeeds, and the access is recorded. -/
def Applies (c : HookCtx) (kind : SummaryKind) (s : Machine) (script : List Outcome) (a : Access) :
    Prop :=
  ∃ e rest, c.Models s.guest s.hooks.heapCursor kind e ∧
    (c.summaryBody kind).run s script = (some e.result, c.perform e s, rest) ∧
    c.Adopts s.hooks e.accesses a

/-- A summary records what its work has accessed, also where its return fails. -/
theorem applySummary_adds {kind : SummaryKind} :
    Adds (fun d => ∃ a, c.Applies kind s script a ∧ c.Records a d) s
      ((c.applySummary kind).run s script).2.1 := by
  intro d hd
  by_cases hkind : kind = .terminate
  · subst hkind
    exact Or.inl (by simpa [applySummary, terminateProcess, countCall, emuStop, run_bind] using hd)
  rw [applySummary_of_ne hkind] at hd
  rcases hbody : (c.summaryBody kind).run s script with ⟨_ | result, t, mid⟩
  · have hd : d ∈ t.hooks.data := by simpa [runSummary, run_bind, hbody] using hd
    exact Or.inl (((atomic_summaryBody kind).related hbody).unchanged.data ▸ hd)
  obtain ⟨e, hmodels, rfl, rfl⟩ := summaryBody_returned hkind hbody
  have hd : d ∈ (c.perform e s).hooks.data := by
    rcases hreturn : (c.summaryReturn e.result).run (c.perform e s) mid with ⟨_ | u, t, rest⟩
    · rw [← (summaryReturn_failed hreturn).1]
      simpa [runSummary, run_bind, hbody, hreturn] using hd
    · have hd : d ∈ t.hooks.data := by
        simpa [runSummary, run_bind, hbody, hreturn, countCall] using hd
      rwa [(summaryReturn_returned hreturn).2.2.2] at hd
  rcases mem_foldl_record hd with hd | ⟨a, hadopts, hrecords⟩
  · exact Or.inl hd
  · exact Or.inr ⟨a, ⟨e, mid, hmodels, hbody, hadopts⟩, hrecords⟩

end HookCtx

/-! ## Runs -/

inductive Callback where
  | code (addr : UInt64) (size : UInt32)
  | mem (kind : MemKind) (addr : UInt64) (size : UInt32) (value : UInt64)

/-- A call of a hook: the guest as it is then, and what the primitives will do. -/
structure HookCall where
  callback : Callback
  guest : Guest
  script : List Outcome := []

namespace HookCtx

variable (c : HookCtx)

def callback : Callback → RaxProc Unit
  | .code addr size => c.codeTr addr size
  | .mem kind addr size value => c.memTr kind addr size value

def hook (h : HookState) (call : HookCall) : HookState :=
  ((c.callback call.callback).run ⟨h, call.guest⟩ call.script).2.1.hooks

/-- The hooks over a run. The guest does between them what it does. -/
def hooks (h : HookState) (calls : List HookCall) : HookState := calls.foldl c.hook h

/-- The accesses that a hook records if they have a scope. -/
inductive Offers (h : HookState) : HookCall → Access → Prop
  | summary {addr : UInt64} {size : UInt32} {guest : Guest} {script mid : List Outcome}
      {summary : EmuCallSummary} {t : Machine} {a : Access}
      (hnote : (c.noteInstruction addr).run ⟨h, guest⟩ script = (some (), t, mid))
      (hfind : c.findSummary addr = some summary) (happlies : c.Applies summary.kind t mid a) :
      Offers h ⟨.code addr size, guest, script⟩ a
  | access {kind : MemKind} {addr : UInt64} {size : UInt32} {value : UInt64} {guest : Guest}
      {script : List Outcome}
      (hallowed : c.strictPermissions = true →
        c.image.accessAllowed addr size kind.required = true)
      (hrecord : c.recordMemory = true) (hsource : c.inFunction h.lastPc = true)
      (hroom : h.data.length < c.dataCap) :
      Offers h ⟨.mem kind addr size value, guest, script⟩ ⟨kind, addr, value, size⟩

variable {c} {h : HookState} {s : Machine} {script : List Outcome}

theorem adds_callSummary {addr : UInt64} :
    Adds (fun d => ∃ summary, c.findSummary addr = some summary ∧
      ∃ a, c.Applies summary.kind s script a ∧ c.Records a d) s
      ((c.callSummary addr).run s script).2.1 := by
  intro d hd
  unfold callSummary at hd
  cases hfind : c.findSummary addr with
  | none =>
    rw [hfind] at hd
    exact Or.inl hd
  | some summary =>
    rw [hfind] at hd
    exact (applySummary_adds d hd).imp_right fun happlies => ⟨summary, rfl, happlies⟩

theorem adds_codeTr {addr : UInt64} {size : UInt32} {guest : Guest} :
    Adds (fun d => ∃ a, c.Offers h ⟨.code addr size, guest, script⟩ a ∧ c.Records a d) ⟨h, guest⟩
      ((c.codeTr addr size).run ⟨h, guest⟩ script).2.1 := by
  intro d hd
  unfold codeTr at hd
  by_cases hdenied : c.strictPermissions = true ∧
      c.image.accessAllowed addr (if size = 0 then 1 else size) .exec = false
  · rw [if_pos hdenied] at hd
    exact Or.inl hd
  rw [if_neg hdenied] at hd
  have hnoted := keeps_noteInstruction (c := c) addr ⟨h, guest⟩ script d
  rcases hnote : (c.noteInstruction addr).run ⟨h, guest⟩ script with ⟨_ | ⟨⟩, t, mid⟩ <;>
    rw [hnote] at hnoted
  · rw [run_bind_of_stopped hnote] at hd
    exact Or.inl ((hnoted hd).resolve_right id)
  rw [run_bind_of_returned hnote] at hd
  -- what is behind the summary does not touch the accesses
  have hcalled : d ∈ ((c.callSummary addr).run t mid).2.1.hooks.data := by
    rcases hcall : (c.callSummary addr).run t mid with ⟨_ | u, t', mid'⟩
    · rw [run_bind_of_stopped hcall] at hd
      exact hd
    · rw [run_bind_of_returned hcall] at hd
      exact hd
  rcases adds_callSummary d hcalled with hd | ⟨summary, hfind, a, happlies, hrecords⟩
  · exact Or.inl ((hnoted hd).resolve_right id)
  · exact Or.inr ⟨a, .summary hnote hfind happlies, hrecords⟩

theorem keeps_restoreSnapshotBytes (address : UInt64) (size : UInt32) :
    Keeps (Adds fun _ => False) (c.restoreSnapshotBytes address size) := by
  unfold restoreSnapshotBytes
  split_ifs
  · exact keeps_pure ()
  cases c.snapshotBytes address size with
  | none => exact keeps_pure ()
  | some bytes =>
    refine Keeps.bind (Keeps.attempt ?_) fun _ => keeps_pure ()
    exact keeps_primitive fun s d hd => Or.inl hd

theorem adds_memTr {kind : MemKind} {addr : UInt64} {size : UInt32} {value : UInt64}
    {guest : Guest} : Adds (fun d => ∃ a,
        c.Offers h ⟨.mem kind addr size value, guest, script⟩ a ∧ c.Records a d) ⟨h, guest⟩
      ((c.memTr kind addr size value).run ⟨h, guest⟩ script).2.1 := by
  intro d hd
  unfold memTr at hd
  by_cases hfetch : kind = .fetch
  · rw [if_pos hfetch] at hd
    exact Or.inl hd
  rw [if_neg hfetch] at hd
  by_cases hdenied : c.strictPermissions = true ∧
      c.image.accessAllowed addr size kind.required = false
  · rw [if_pos hdenied] at hd
    refine Or.inl ?_
    have hrolled : Keeps (Adds fun _ => False) (do
        if kind = .write then c.restoreSnapshotBytes addr size
        violate) := by
      have hviolate : Keeps (Adds fun _ => False) violate :=
        Keeps.bind (keeps_modify fun s d hd => Or.inl hd) fun _ =>
          keeps_modify fun s d hd => Or.inl hd
      split_ifs
      · exact Keeps.bind (keeps_restoreSnapshotBytes addr size) fun _ => hviolate
      · exact hviolate
    exact (hrolled ⟨h, guest⟩ script d hd).resolve_right id
  rw [if_neg hdenied] at hd
  by_cases hrecord : c.recordMemory = true
  · rw [if_pos hrecord] at hd
    rcases mem_recordAccess (a := ⟨kind, addr, value, size⟩) hd with
      hd | ⟨hrecords, hsource, hroom⟩
    · exact Or.inl hd
    refine Or.inr ⟨_, .access (fun hstrict => ?_) hrecord hsource hroom, hrecords⟩
    rw [← Bool.not_eq_false]
    exact fun hfalse => hdenied ⟨hstrict, hfalse⟩
  · rw [if_neg hrecord] at hd
    exact Or.inl hd

/-- **A step of a run.** A hook records accesses that it offers. -/
theorem mem_hook_data {call : HookCall} {d : DataAcc}
    (hd : d ∈ (c.hook h call).data) :
    d ∈ h.data ∨ ∃ a, c.Offers h call a ∧ c.Records a d := by
  obtain ⟨callback, guest, script⟩ := call
  cases callback with
  | code addr size => exact adds_codeTr d hd
  | mem kind addr size value => exact adds_memTr d hd

/-- A recorded access was offered by a hook on the way. -/
theorem mem_hooks_data {calls : List HookCall} {d : DataAcc} (hempty : h.data = [])
    (hd : d ∈ (c.hooks h calls).data) :
    ∃ before call after a, calls = before ++ call :: after ∧
      c.Offers (c.hooks h before) call a ∧ c.Records a d := by
  have hnot : d ∉ h.data := by simp [hempty]
  obtain ⟨before, call, after, hcalls, hbefore, hcall⟩ :=
    Absint.exists_step_of_foldl (P := fun h : HookState => d ∈ h.data) hnot hd
  obtain ⟨a, hoffers, hrecords⟩ := (mem_hook_data hcall).resolve_left hbefore
  exact ⟨before, call, after, a, hcalls, hoffers, hrecords⟩

/-! ## Permitted accesses -/

/-- A call after which every access of the image has a property: what the memory hook records starts
in a segment or has the property, and what a summary records has it. -/
def Clean (c : HookCtx) (Q : MemKind → UInt64 → UInt32 → Prop) (h : HookState) (call : HookCall) :
    Prop :=
  ∀ a, c.Offers h call a → c.accessScope a.address a.size = some .image →
    match call.callback with
    | .code .. => Q a.kind a.address a.size
    | .mem .. => c.image.Backs a.address ∨ Q a.kind a.address a.size

theorem bounds_of_image_scope {address : UInt64} {size : UInt32}
    (h : c.accessScope address size = some .image) :
    size ≠ 0 ∧ address.toNat + size.toNat < 2 ^ 64 := by
  unfold accessScope at h
  by_cases himage : containsRange c.image.lo c.image.hi address size.toUInt64 = true
  · simp only [containsRange, Bool.and_eq_true, decide_eq_true_eq, Option.any_eq_true] at himage
    obtain ⟨⟨⟨hne, -⟩, -⟩, end_, hend, -⟩ := himage
    refine ⟨fun hzero => hne (by rw [hzero]; rfl), ?_⟩
    have hsum := checkedAdd_eq_some_iff.1 hend
    rw [UInt32.toNat_toUInt64] at hsum
    have hlt := end_.toNat_lt
    omega
  · rw [if_neg himage] at h
    split_ifs at h <;> cases h

theorem Offers.of_clean {Q : MemKind → UInt64 → UInt32 → Prop} {call : HookCall} {a : Access}
    (ha : c.Offers h call a) (hstrict : c.strictPermissions = true) (hclean : c.Clean Q h call)
    (hscope : c.accessScope a.address a.size = some .image)
    (hcovered : Covered c.image a.kind a.address a.size → Q a.kind a.address a.size) :
    Q a.kind a.address a.size := by
  have hclean := hclean a ha hscope
  cases ha with
  | summary => exact hclean
  | access hallowed =>
    obtain ⟨hsize, hfits⟩ := bounds_of_image_scope hscope
    rcases hclean with hbacks | hQ
    · have hchecked := (c.image.accessAllowed_eq_true_iff hsize hfits).1 (hallowed hstrict)
      exact hcovered (hchecked.resolve_left fun hgap => hgap hbacks)
    · exact hQ

theorem hooks_data_of_clean {Q : MemKind → UInt64 → UInt32 → Prop}
    {calls : List HookCall} (hstrict : c.strictPermissions = true) (hempty : h.data = [])
    (hcovered : ∀ kind address size, Covered c.image kind address size → Q kind address size)
    (hclean : ∀ before call after, calls = before ++ call :: after →
      c.Clean Q (c.hooks h before) call) :
    ∀ d ∈ (c.hooks h calls).data, d.scope = .image → Q d.kind d.addr d.size := by
  intro d hd hscope
  obtain ⟨before, call, after, a, hcalls, hoffers, hrecords⟩ := mem_hooks_data hempty hd
  rw [hrecords.kind, hrecords.addr, hrecords.size]
  have hscope : c.accessScope a.address a.size = some .image := hscope ▸ hrecords.scope
  exact hoffers.of_clean hstrict (hclean before call after hcalls) hscope (hcovered _ _ _)

end HookCtx

/-- A strict run over the read-only segment, with `memset` at `0x5000`. -/
def strictCtx : HookCtx :=
  { sysvCtx with
    image := readOnlyImage, flo := 0x5000, fhi := 0x5001, dataCap := 16
    summaries := [⟨0x5000, .memset⟩] }

/-- The guest reads eight bytes of the segment. -/
def segmentRead : HookCall where
  callback := .mem .read 0x2000 8 0
  guest := { mem := fun _ => 0, regs := fun _ => 0 }

/-- `memset(0x2000, 0x41, 1)` is called. -/
def segmentMemset : HookCall where
  callback := .code 0x5000 1
  guest := { mem := fun _ => 0, regs := fun r =>
    if r = .x86Gpr64 7 then 0x2000 else if r = .x86Gpr64 6 then 0x41
    else if r = .x86Gpr64 2 then 1 else 0 }

end Viy.Emu
