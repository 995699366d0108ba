import Viy.Emu.Permissions

/-!
# The rollback of denied writes

Memory hooks run after the access. A denied write is therefore taken back: the hook writes the
snapshot over the range. It needs a snapshot of every byte for that, and gives up where a byte of
the range is in no segment, so a write that runs out of a segment stays.
-/

namespace Viy.Emu

open Wire Fault ProgramImage Proc

/-- The byte of a segment before the run: the image's byte if it was loaded, zero otherwise. -/
def SegImage.initialByte (segment : SegImage) (ea : UInt64) : UInt8 :=
  if segment.byteLoaded ea then segment.bytes.getD (ea - segment.start).toNat 0 else 0

theorem snapshotByte_eq {segment : SegImage} {ea : UInt64} (h : segment.contains ea = true) :
    HookCtx.snapshotByte segment ea = segment.initialByte ea := by
  unfold HookCtx.snapshotByte SegImage.initialByte SegImage.byteLoaded
  rw [h]
  simp only [Bool.true_and, Bool.and_eq_true, decide_eq_true_eq]
  by_cases hlength : (ea - segment.start).toNat ≥ segment.bytes.length
  · rw [if_pos hlength, List.getD_eq_default _ _ hlength, ite_self]
  · rw [if_neg hlength]

/-! ## Snapshots of a range -/

section MapM

variable {α β : Type} {f : α → Option β} {g : α → β} {l : List α}

theorem mapM_of_total (h : ∀ x ∈ l, f x = some (g x)) : l.mapM f = some (l.map g) := by
  induction l with
  | nil => rfl
  | cons x l ih =>
    rw [List.mapM_cons, h x List.mem_cons_self, ih fun y hy => h y (List.mem_cons_of_mem x hy)]
    rfl

theorem mapM_of_failing {x : α} (hx : x ∈ l) (h : f x = none) : l.mapM f = none := by
  induction l with
  | nil => exact absurd hx List.not_mem_nil
  | cons y l ih =>
    rw [List.mapM_cons]
    rcases List.mem_cons.1 hx with rfl | hx
    · rw [h]
      rfl
    · rw [ih hx]
      cases f y <;> rfl

end MapM

namespace HookCtx

variable (c : HookCtx) (addr : UInt64) (size : UInt32)

/-- Every byte of the range is in a segment, and in front of the end of the address space. -/
def Restorable : Prop :=
  ∀ i < size.toNat, addr.toNat + i < 2 ^ 64 ∧ c.image.Backs (addr + .ofNat i)

/-- Every byte of the range in a segment that denies a write is as it was before the run. -/
def DeniedBytesInitial (mem : Memory) : Prop :=
  ∀ i < size.toNat, ∀ segment ∈ c.image.segs, segment.contains (addr + .ofNat i) = true →
    segment.perm ≠ 0 → segment.hasPerm .write = false →
    mem (addr + .ofNat i) = segment.initialByte (addr + .ofNat i)

/-- What the rollback writes at an address. -/
def rollbackByte (a : UInt64) : UInt8 :=
  match c.image.segmentAt a with
  | some segment => snapshotByte segment a
  | none => 0

variable {c addr size}

theorem snapshotBytes_of_restorable (h : c.Restorable addr size) :
    c.snapshotBytes addr size =
      some ((List.range size.toNat).map fun i => c.rollbackByte (addr + .ofNat i)) := by
  refine mapM_of_total ?_
  intro i hi
  obtain ⟨hfits, hbacks⟩ := h i (List.mem_range.1 hi)
  have hlt : i < 2 ^ 64 := by omega
  have hadd := (checkedAdd_ofNat_iff hlt).2 ⟨rfl, hfits⟩
  obtain ⟨segment, hsegment⟩ : ∃ segment, c.image.segmentAt (addr + .ofNat i) = some segment := by
    by_contra hnone
    rw [not_exists, ← Option.eq_none_iff_forall_ne_some, segmentAt_eq_none_iff] at hnone
    exact hnone hbacks
  unfold rollbackByte
  rw [hadd, Option.bind_eq_bind, Option.bind_some, hsegment]
  rfl

theorem snapshotBytes_of_not_restorable (h : ¬ c.Restorable addr size) :
    c.snapshotBytes addr size = none := by
  unfold Restorable at h
  push Not at h
  obtain ⟨i, hi, hbad⟩ := h
  refine mapM_of_failing (List.mem_range.2 hi) ?_
  have hlt : i < 2 ^ 64 := by
    have hsize := size.toNat_lt
    omega
  cases hadd : checkedAdd addr (.ofNat i) with
  | none => rfl
  | some current =>
    obtain ⟨rfl, hfits⟩ := (checkedAdd_ofNat_iff hlt).1 hadd
    rw [Option.bind_eq_bind, Option.bind_some, c.image.segmentAt_eq_none_iff.2 (hbad hfits)]
    rfl

/-- The bytes a rollback leaves in denying segments are the initial ones. -/
theorem deniedBytesInitial_store {mem : Memory} :
    c.DeniedBytesInitial addr size
      (store mem addr ((List.range size.toNat).map fun i => c.rollbackByte (addr + .ofNat i))) := by
  intro i hi segment hsegment hcontains _ _
  have hsize := size.toNat_lt
  rw [store_apply_add (by simpa using hi) (by simp; omega), List.getElem_map, List.getElem_range]
  unfold rollbackByte
  rw [c.image.segmentAt_eq_some_iff.2 ⟨hsegment, hcontains⟩]
  exact snapshotByte_eq hcontains

/-! ## Denied writes -/

/-- The hook sets the flag: it is set afterwards even if it was not before. -/
def SetsViolation (c : HookCtx) (callback : Callback) (s : Machine) (script : List Outcome) :
    Prop :=
  ((c.callback callback).run { s with hooks := { s.hooks with permissionViolation := false } }
    script).2.1.hooks.permissionViolation = true

instance (callback : Callback) (s : Machine) (script : List Outcome) :
    Decidable (c.SetsViolation callback s script) := inferInstanceAs (Decidable (_ = true))

variable {s : Machine} {script : List Outcome} {value : UInt64}

theorem permissionViolation_recordAccess (source : UInt64) (kind : MemKind)
    (h : HookState) :
    (c.recordAccess source kind addr value size h).permissionViolation = h.permissionViolation := by
  unfold recordAccess
  cases c.accessScope addr size with
  | none => rfl
  | some scope =>
    dsimp only
    split_ifs <;> rfl

theorem SetsViolation.denied {kind : MemKind}
    (h : c.SetsViolation (.mem kind addr size value) s script) :
    kind ≠ .fetch ∧ c.strictPermissions = true ∧
      c.image.accessAllowed addr size kind.required = false := by
  unfold SetsViolation at h
  change ((c.memTr kind addr size value).run _ script).2.1.hooks.permissionViolation = true at h
  unfold memTr at h
  by_cases hfetch : kind = .fetch
  · rw [if_pos hfetch] at h
    cases h
  rw [if_neg hfetch] at h
  refine ⟨hfetch, ?_⟩
  by_contra hallowed
  rw [if_neg hallowed] at h
  by_cases hrecord : c.recordMemory = true
  · rw [if_pos hrecord] at h
    rw [run_modify, permissionViolation_recordAccess] at h
    cases h
  · rw [if_neg hrecord] at h
    cases h

/-- The memory behind a denied write. -/
theorem mem_memTr_denied (hstrict : c.strictPermissions = true)
    (hdenied : c.image.accessAllowed addr size .write = false) :
    ((c.memTr .write addr size value).run s script).2.1.guest.mem =
      ((c.restoreSnapshotBytes addr size).run s script).2.1.guest.mem := by
  unfold memTr
  rw [if_neg (by decide), if_pos ⟨hstrict, hdenied⟩, if_pos rfl]
  rcases hrun : (c.restoreSnapshotBytes addr size).run s script with ⟨_ | u, t, mid⟩
  · rw [run_bind_of_stopped hrun]
  · rw [run_bind_of_returned hrun]
    rfl

theorem mem_restoreSnapshotBytes (hsize : size ≠ 0) (hle : size ≤ (1 : UInt32) <<< 20)
    (hwritten : script.head? ≠ some .fails) :
    ((c.restoreSnapshotBytes addr size).run s script).2.1.guest.mem =
      match c.snapshotBytes addr size with
      | some bytes => store s.guest.mem addr bytes
      | none => s.guest.mem := by
  have hbounded : ¬ (size = 0 ∨ size > (1 : UInt32) <<< 20) :=
    not_or.2 ⟨hsize, UInt32.not_lt.2 hle⟩
  unfold restoreSnapshotBytes
  rw [if_neg hbounded]
  cases c.snapshotBytes addr size with
  | none => rfl
  | some bytes =>
    cases script with
    | nil => rfl
    | cons outcome script =>
      cases outcome with
      | ok => rfl
      | fails => exact absurd rfl hwritten

/-- **The rollback.** Behind a write that the memory hook reports as a violation, the bytes of
denying segments are the initial ones exactly if every byte of the range is in a segment, or if the
write has not changed them. -/
theorem denied_write_rolled_back_iff (hsize : size ≠ 0) (hle : size ≤ (1 : UInt32) <<< 20)
    (hsets : c.SetsViolation (.mem .write addr size value) s script)
    (hwritten : script.head? ≠ some .fails) :
    c.DeniedBytesInitial addr size
        ((c.memTr .write addr size value).run s script).2.1.guest.mem ↔
      c.Restorable addr size ∨ c.DeniedBytesInitial addr size s.guest.mem := by
  obtain ⟨-, hstrict, hdenied⟩ := hsets.denied
  rw [mem_memTr_denied hstrict hdenied, mem_restoreSnapshotBytes hsize hle hwritten]
  by_cases hrestorable : c.Restorable addr size
  · rw [snapshotBytes_of_restorable hrestorable]
    exact iff_of_true deniedBytesInitial_store (Or.inl hrestorable)
  · rw [snapshotBytes_of_not_restorable hrestorable, or_iff_right hrestorable]

end HookCtx

/-- The guest has filled its memory, also where it is read-only. -/
def overwritten : Machine where
  hooks := {}
  guest := { mem := fun _ => 0x41, regs := fun _ => 0 }

theorem write_in_segment_rolled_back : strictCtx.DeniedBytesInitial 0x2000 1
    ((strictCtx.memTr .write 0x2000 1 0x41).run overwritten []).2.1.guest.mem := by
  refine (HookCtx.denied_write_rolled_back_iff (by decide) (by decide) (by decide +kernel)
    (by decide)).2 (Or.inl ?_)
  intro i hi
  obtain rfl : i = 0 := by
    change i < 1 at hi
    omega
  exact ⟨by decide, _, List.mem_singleton.2 rfl, by decide⟩

/-- A write over the end of the segment is denied and stays. -/
theorem write_over_end_stays :
    strictCtx.SetsViolation (.mem .write 0x2ffc 8 0x41) overwritten [] ∧
      ¬ strictCtx.DeniedBytesInitial 0x2ffc 8
        ((strictCtx.memTr .write 0x2ffc 8 0x41).run overwritten []).2.1.guest.mem := by
  refine ⟨by decide +kernel, fun h => ?_⟩
  have hbyte := h 0 (by decide) _ (List.mem_singleton.2 rfl) (by decide) (by decide) (by decide)
  revert hbyte
  decide +kernel

end Viy.Emu
