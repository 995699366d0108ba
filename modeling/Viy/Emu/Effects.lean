import Viy.Fault.Atomic
import Viy.Emu.Driver

/-!
# What a summary does

The work of every summary has one shape: it reads the guest, stores one run of bytes, records its
accesses, moves the heap cursor and has a result. `Models` says which such effect a summary may have
in a state; a run of its work that returns has one of them, and a run that stops has only read.
-/

namespace Viy.Emu

open Wire Fault ProgramImage Proc

variable {s s' : Machine} {script rest : List Outcome}

/-- The only change is in what has been read. -/
def OnlyReads (s s' : Machine) : Prop := ∃ l, s' = s.noteReads l

theorem OnlyReads.refl (s : Machine) : OnlyReads s s := ⟨[], s.noteReads_nil.symm⟩

instance : IsPreorder Machine OnlyReads where
  refl := OnlyReads.refl
  trans a b c hab hbc := by
    obtain ⟨l, rfl⟩ := hab
    obtain ⟨m, rfl⟩ := hbc
    exact ⟨l ++ m, a.noteReads_noteReads l m⟩

/-! ## Primitives -/

theorem keeps_primitive {R : Machine → Machine → Prop} [Std.Refl R] {α : Type}
    {f : Machine → α × Machine} (h : ∀ s, R s (f s).2) : Keeps R (primitive f) := by
  intro s script
  rcases hrun : (primitive f).run s script with ⟨_ | a, s', rest⟩
  · rw [primitive_failed hrun]
    exact Std.Refl.refl s
  · rw [← (primitive_returned hrun).2]
    exact h s

theorem keeps_memRead (a : UInt64) (n : ℕ) : Keeps OnlyReads (memRead a n) :=
  keeps_primitive fun _ => ⟨[(a, n)], rfl⟩

theorem keeps_regReadU64 {R : Machine → Machine → Prop} [Std.Refl R] (r : Reg) :
    Keeps R (regReadU64 r) :=
  keeps_primitive fun s => Std.Refl.refl s

/-- A primitive that fails has no effect. -/
theorem atomic_primitive {R : Machine → Machine → Prop} [Std.Refl R] {α : Type}
    {f : Machine → α × Machine} : Atomic R (primitive f) := by
  intro s script hnone
  rcases hrun : (primitive f).run s script with ⟨_ | a, s', rest⟩ <;> rw [hrun] at hnone
  · rw [primitive_failed hrun]
    exact Std.Refl.refl s
  · cases hnone

theorem memRead_returned {a : UInt64} {n : ℕ} {bytes : Bytes}
    (h : (memRead a n).run s script = (some bytes, s', rest)) :
    bytes = load s.guest.mem a n ∧ s' = s.noteReads [(a, n)] := by
  obtain ⟨rfl, rfl⟩ := primitive_returned h
  exact ⟨rfl, rfl⟩

theorem memWrite_returned {a : UInt64} {bytes : Bytes} {u : Unit}
    (h : (memWrite a bytes).run s script = (some u, s', rest)) : s' = s.writeMem a bytes := by
  obtain ⟨-, rfl⟩ := primitive_returned h
  rfl

theorem regReadU64_returned {r : Reg} {v : UInt64}
    (h : (regReadU64 r).run s script = (some v, s', rest)) : v = s.guest.regs r ∧ s' = s := by
  obtain ⟨rfl, rfl⟩ := primitive_returned h
  exact ⟨rfl, rfl⟩

theorem regWriteU64_returned {c : HookCtx} {r : Reg} {v : UInt64} {u : Unit}
    (h : (regWriteU64 c r v).run s script = (some u, s', rest)) : s' = s.setReg r (c.cell v) := by
  obtain ⟨-, rfl⟩ := primitive_returned h
  rfl

/-! ## Scalars and arguments -/

namespace HookCtx

variable (c : HookCtx)

theorem ptr_bounds : 4 ≤ c.ptr ∧ c.ptr ≤ 8 := by
  unfold ptr
  split_ifs <;> omega

/-- An argument by the calling convention: in its register, or in its stack slot. -/
def argument (g : Guest) (index : ℕ) : Option UInt64 :=
  match c.argRegs[index]? with
  | some reg => some (g.regs reg)
  | none => do
    let spReg ← c.regs.sp
    let address ← c.stackArgAddress (g.regs spReg) (index - c.argRegs.length)
    some (gather c.bigEndian (load g.mem address c.ptr))

/-- The reads that fetch it. -/
def argReads (g : Guest) (index : ℕ) : List (UInt64 × ℕ) :=
  match c.argRegs[index]? with
  | some _ => []
  | none =>
    match c.regs.sp with
    | some spReg =>
      ((c.stackArgAddress (g.regs spReg) (index - c.argRegs.length)).map fun a => (a, c.ptr)).toList
    | none => []

@[simp] theorem argument_noteReads (l : List (UInt64 × ℕ)) (index : ℕ) :
    c.argument (s.noteReads l).guest index = c.argument s.guest index := rfl

@[simp] theorem argReads_noteReads (l : List (UInt64 × ℕ)) (index : ℕ) :
    c.argReads (s.noteReads l).guest index = c.argReads s.guest index := rfl

variable {c}

theorem readScalar_returned {a : UInt64} {n : ℕ} {v : UInt64}
    (h : (c.readScalar a n).run s script = (some v, s', rest)) :
    v = gather c.bigEndian (load s.guest.mem a n) ∧ s' = s.noteReads [(a, n)] := by
  obtain ⟨_, t, mid, hrequire, h⟩ := run_bind_eq_some.1 h
  obtain ⟨-, rfl, rfl⟩ := run_require_eq_some.1 hrequire
  obtain ⟨bytes, t, mid, hread, h⟩ := run_bind_eq_some.1 h
  obtain ⟨rfl, rfl⟩ := memRead_returned hread
  obtain ⟨rfl, rfl, -⟩ : _ = v ∧ _ = s' ∧ mid = rest := by simpa using h
  exact ⟨rfl, rfl⟩

theorem keeps_readScalar (a : UInt64) (n : ℕ) : Keeps OnlyReads (c.readScalar a n) := by
  refine Keeps.bind (keeps_require _) fun _ => ?_
  exact Keeps.bind (keeps_memRead a n) fun _ => keeps_pure _

theorem summaryArg_returned {index : ℕ} {v : UInt64}
    (h : (c.summaryArg index).run s script = (some v, s', rest)) :
    c.argument s.guest index = some v ∧ s' = s.noteReads (c.argReads s.guest index) := by
  unfold summaryArg at h
  unfold argument argReads
  cases hreg : c.argRegs[index]? with
  | some reg =>
    rw [hreg] at h
    obtain ⟨rfl, rfl⟩ := regReadU64_returned h
    exact ⟨rfl, s'.noteReads_nil.symm⟩
  | none =>
    rw [hreg] at h
    obtain ⟨spReg, t, mid, hsp, h⟩ := run_bind_eq_some.1 h
    obtain ⟨hspReg, rfl, rfl⟩ := run_lift_eq_some.1 hsp
    obtain ⟨sp, t, mid, hread, h⟩ := run_bind_eq_some.1 h
    obtain ⟨rfl, rfl⟩ := regReadU64_returned hread
    obtain ⟨address, t', mid', hlift, h⟩ := run_bind_eq_some.1 h
    obtain ⟨haddress, rfl, rfl⟩ := run_lift_eq_some.1 hlift
    obtain ⟨rfl, rfl⟩ := readScalar_returned h
    simp [hspReg, haddress]

theorem keeps_summaryArg (index : ℕ) : Keeps OnlyReads (c.summaryArg index) := by
  unfold summaryArg
  cases c.argRegs[index]? with
  | some reg => exact keeps_regReadU64 reg
  | none =>
    refine Keeps.bind (keeps_lift _) fun _ => ?_
    refine Keeps.bind (keeps_regReadU64 _) fun _ => ?_
    refine Keeps.bind (keeps_lift _) fun _ => ?_
    exact keeps_readScalar _ _

end HookCtx

/-! ## Strings -/

/-- A string with its NUL, in front of the end of the address space. -/
structure CString (mem : Memory) (a : UInt64) (str : Bytes) : Prop where
  nonzero : 0 ∉ str
  bytes : load mem a (str.length + 1) = str ++ [0]
  fits : a.toNat + str.length < 2 ^ 64

/-- What is read of a string of which at most `n` bytes are wanted. -/
def Scanned (mem : Memory) (a : UInt64) (n : ℕ) (out : Bytes) : Prop :=
  (∃ str, CString mem a str ∧ str.length < n ∧ out = str ++ [0]) ∨
    (out = load mem a n ∧ 0 ∉ out)

theorem Scanned.length_le {mem : Memory} {a : UInt64} {n : ℕ} {out : Bytes}
    (h : Scanned mem a n out) : out.length ≤ n := by
  rcases h with ⟨str, -, hlt, rfl⟩ | ⟨rfl, -⟩
  · simpa using hlt
  · simp

theorem Scanned.length_eq_zero {mem : Memory} {a : UInt64} {n : ℕ} {out : Bytes}
    (h : Scanned mem a n out) : out.length = 0 ↔ n = 0 := by
  rcases h with ⟨str, -, hlt, rfl⟩ | ⟨rfl, -⟩
  · simp only [List.length_append, List.length_singleton]
    omega
  · simp

/-- One read for every byte. -/
def byteReads (a : UInt64) (n : ℕ) : List (UInt64 × ℕ) :=
  (List.range n).map fun i => (a + .ofNat i, 1)

theorem byteReads_succ (a : UInt64) (n : ℕ) :
    byteReads a (n + 1) = byteReads a n ++ [(a + .ofNat n, 1)] := by
  simp [byteReads, List.range_succ]

section Scan

variable {atLimit : Bytes → RaxProc Bytes} {a : UInt64} {bytes : Bytes}

theorem readByteAt_returned {i : ℕ} {ch : UInt8} (hi : i < 2 ^ 64)
    (h : (readByteAt a i).run s script = (some ch, s', rest)) :
    ch = s.guest.mem (a + .ofNat i) ∧ a.toNat + i < 2 ^ 64 ∧
      s' = s.noteReads [(a + .ofNat i, 1)] := by
  obtain ⟨current, t, mid, hlift, h⟩ := run_bind_eq_some.1 h
  obtain ⟨hcurrent, rfl, rfl⟩ := run_lift_eq_some.1 hlift
  obtain ⟨rfl, hfits⟩ := (checkedAdd_ofNat_iff hi).1 hcurrent
  obtain ⟨byte, t, mid, hread, h⟩ := run_bind_eq_some.1 h
  obtain ⟨rfl, rfl⟩ := memRead_returned hread
  obtain ⟨rfl, rfl, -⟩ : _ = ch ∧ _ = s' ∧ mid = rest := by simpa using h
  exact ⟨by simp [load], hfits, rfl⟩

/-- The loop has read a prefix without a NUL; from there it finds the NUL or comes to its limit. -/
theorem loop_readTurn_returned (fuel : ℕ) : ∀ {out : Bytes} {script : List Outcome}, 0 ∉ out →
    out = load s.guest.mem a out.length → out.length + fuel < 2 ^ 64 →
    (loop (readTurn a) atLimit fuel out).run (s.noteReads (byteReads a out.length)) script =
      (some bytes, s', rest) →
    (∃ str, CString s.guest.mem a str ∧ str.length < out.length + fuel ∧ bytes = str ++ [0] ∧
        s' = s.noteReads (byteReads a bytes.length)) ∨
      ∃ str mid, str.length = out.length + fuel ∧ 0 ∉ str ∧ str = load s.guest.mem a str.length ∧
        (atLimit str).run (s.noteReads (byteReads a str.length)) mid =
          (some bytes, s', rest) := by
  induction fuel with
  | zero =>
    intro out script hzero hout hsmall h
    exact Or.inr ⟨out, script, rfl, hzero, hout, h⟩
  | succ fuel ih =>
    intro out script hzero hout hsmall h
    rw [loop_succ] at h
    obtain ⟨turn, t, mid, hturn, h⟩ := run_bind_eq_some.1 h
    obtain ⟨ch, t', mid', hread, hturn⟩ := run_bind_eq_some.1 hturn
    obtain ⟨rfl, hfits, rfl⟩ := readByteAt_returned (by omega) hread
    rw [Machine.noteReads_noteReads, ← byteReads_succ, Machine.mem_noteReads] at hturn
    have hnext : out ++ [s.guest.mem (a + .ofNat out.length)] =
        load s.guest.mem a (out.length + 1) := by
      rw [load_succ, ← hout]
    have hlength : (out ++ [s.guest.mem (a + .ofNat out.length)]).length = out.length + 1 :=
      List.length_append
    by_cases hnul : s.guest.mem (a + .ofNat out.length) = 0
    · rw [if_pos hnul] at hturn
      obtain ⟨rfl, rfl, rfl⟩ : Sum.inr _ = turn ∧ _ = t ∧ mid' = mid := by simpa using hturn
      obtain ⟨rfl, rfl, -⟩ : _ = bytes ∧ _ = s' ∧ mid' = rest := by simpa using h
      refine Or.inl ⟨out, ⟨hzero, ?_, hfits⟩, by omega, by rw [hnul], by rw [hlength]⟩
      rw [← hnext, hnul]
    · rw [if_neg hnul] at hturn
      obtain ⟨rfl, rfl, rfl⟩ : Sum.inl _ = turn ∧ _ = t ∧ mid' = mid := by simpa using hturn
      have hnotin : 0 ∉ out ++ [s.guest.mem (a + .ofNat out.length)] := by
        simp only [List.mem_append, List.mem_singleton, not_or]
        exact ⟨hzero, fun heq => hnul heq.symm⟩
      rw [← hlength] at h hnext
      have hrest := ih hnotin hnext (by rw [hlength]; omega) h
      rw [hlength, Nat.add_assoc, Nat.add_comm 1 fuel] at hrest
      exact hrest

/-- From the start of a string. -/
theorem loop_nil_returned {fuel : ℕ} (hfuel : fuel < 2 ^ 64)
    (h : (loop (readTurn a) atLimit fuel []).run s script = (some bytes, s', rest)) :
    (∃ str, CString s.guest.mem a str ∧ str.length < fuel ∧ bytes = str ++ [0] ∧
        s' = s.noteReads (byteReads a bytes.length)) ∨
      ∃ str mid, str.length = fuel ∧ 0 ∉ str ∧ str = load s.guest.mem a str.length ∧
        (atLimit str).run (s.noteReads (byteReads a str.length)) mid =
          (some bytes, s', rest) := by
  have hstart : (loop (readTurn a) atLimit fuel []).run (s.noteReads (byteReads a 0)) script =
      (some bytes, s', rest) := by
    rwa [show byteReads a 0 = [] from rfl, Machine.noteReads_nil]
  have hreturned := loop_readTurn_returned fuel List.not_mem_nil rfl (by simpa using hfuel) hstart
  rwa [List.length_nil, Nat.zero_add] at hreturned

theorem readCString_returned (h : (readCString a).run s script = (some bytes, s', rest)) :
    ∃ str, CString s.guest.mem a str ∧ str.length < 65536 ∧ bytes = str ++ [0] ∧
      s' = s.noteReads (byteReads a bytes.length) := by
  unfold readCString at h
  rcases loop_nil_returned (by norm_num) h with hstr | ⟨str, mid, -, -, -, hstop⟩
  · exact hstr
  · simp at hstop

theorem readUpTo_returned {n : ℕ} (hn : n < 2 ^ 64)
    (h : (readUpTo a n).run s script = (some bytes, s', rest)) :
    Scanned s.guest.mem a n bytes ∧ s' = s.noteReads (byteReads a bytes.length) := by
  unfold readUpTo at h
  rcases loop_nil_returned hn h with
    ⟨str, hstr, hlt, rfl, hs'⟩ | ⟨str, mid, hlength, hzero, hload, hpure⟩
  · exact ⟨Or.inl ⟨str, hstr, hlt, rfl⟩, hs'⟩
  · obtain ⟨rfl, rfl, -⟩ : str = bytes ∧ s.noteReads _ = s' ∧ mid = rest := by simpa using hpure
    refine ⟨Or.inr ⟨?_, hzero⟩, rfl⟩
    rwa [hlength] at hload

theorem keeps_readTurn (out : Bytes) : Keeps OnlyReads (readTurn a out) := by
  refine Keeps.bind ?_ fun _ => keeps_pure _
  refine Keeps.bind (keeps_lift _) fun _ => ?_
  exact Keeps.bind (keeps_memRead _ 1) fun _ => keeps_pure _

theorem keeps_readCString : Keeps OnlyReads (readCString a) := by
  unfold readCString
  exact Keeps.loop keeps_readTurn (fun _ => keeps_stop) _ _

theorem keeps_readUpTo (n : ℕ) : Keeps OnlyReads (readUpTo a n) := by
  unfold readUpTo
  exact Keeps.loop keeps_readTurn keeps_pure _ _

end Scan

end Viy.Emu
