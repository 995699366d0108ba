import Viy.Emu.Effects

/-!
# The effects of the summaries

`Models` lists the effects a summary may have in a state, one constructor for each kind of summary.
A summary whose work returns has had one of them.
-/

namespace Viy.Emu

open Wire Fault ProgramImage Proc

/-- An access a summary asks to record. -/
structure Access where
  kind : MemKind
  address : UInt64
  value : UInt64
  size : UInt32

structure Effect where
  reads : List (UInt64 × ℕ)
  /-- The stored bytes; a summary that stores nothing stores no bytes. -/
  write : UInt64 × Bytes := (0, [])
  accesses : List Access := []
  advance : UInt64 := 0
  result : UInt64

variable {s s' : Machine} {script rest : List Outcome}

namespace HookCtx

variable (c : HookCtx)

def record (s : HookState) (a : Access) : HookState :=
  c.recordAccess s.summarySource a.kind a.address a.value a.size s

/-- A state after an effect. -/
def perform (e : Effect) (s : Machine) : Machine where
  hooks := { e.accesses.foldl c.record s.hooks with
    heapCursor := (e.accesses.foldl c.record s.hooks).heapCursor + e.advance }
  guest := { s.guest with
    mem := store s.guest.mem e.write.1 e.write.2
    reads := s.guest.reads ++ e.reads }

theorem perform_of_advance_eq_zero {e : Effect} (h : e.advance = 0) (s : Machine) :
    c.perform e s = {
      hooks := e.accesses.foldl c.record s.hooks
      guest := { s.guest with
        mem := store s.guest.mem e.write.1 e.write.2
        reads := s.guest.reads ++ e.reads } } := by
  unfold perform
  rw [h, UInt64.add_zero]

/-- The reads that fetch the first arguments. -/
def argsReads (g : Guest) (n : ℕ) : List (UInt64 × ℕ) := (List.range n).flatMap (c.argReads g)

/-- The effects of a summary in a state of the guest, with the heap cursor where it is. -/
inductive Models (g : Guest) (cursor : UInt64) : SummaryKind → Effect → Prop
  | memmove {kind : SummaryKind} {a0 a1 a2 : UInt64} (hkind : kind = .memcpy ∨ kind = .memmove)
      (h0 : c.argument g 0 = some a0) (h1 : c.argument g 1 = some a1)
      (h2 : c.argument g 2 = some a2) (hle : a2 ≤ maxModelBytes) :
      Models g cursor kind
        { reads := c.argsReads g 3 ++ if a2 = 0 then [] else [(a1, a2.toNat)]
          write := (a0, load g.mem a1 a2.toNat)
          accesses :=
            [⟨.read, a1, c.scalarFromMemory (load g.mem a1 a2.toNat), a2.toUInt32⟩,
              ⟨.write, a0, c.scalarFromMemory (load g.mem a1 a2.toNat), a2.toUInt32⟩]
          result := a0 }
  | memset {a0 a1 a2 : UInt64} (h0 : c.argument g 0 = some a0) (h1 : c.argument g 1 = some a1)
      (h2 : c.argument g 2 = some a2) (hle : a2 ≤ maxModelBytes) :
      Models g cursor .memset
        { reads := c.argsReads g 3
          write := (a0, List.replicate a2.toNat a1.toUInt8)
          accesses := [⟨.write, a0,
            c.scalarFromMemory (List.replicate a2.toNat a1.toUInt8), a2.toUInt32⟩]
          result := a0 }
  | strcpy {a0 a1 : UInt64} {str : Bytes} (h0 : c.argument g 0 = some a0)
      (h1 : c.argument g 1 = some a1) (hstr : CString g.mem a1 str) (hlt : str.length < 65536) :
      Models g cursor .strcpy
        { reads := c.argsReads g 2 ++ byteReads a1 (str.length + 1)
          write := (a0, str ++ [0])
          accesses :=
            [⟨.read, a1, c.scalarFromMemory (str ++ [0]), .ofNat (str.length + 1)⟩,
              ⟨.write, a0, c.scalarFromMemory (str ++ [0]), .ofNat (str.length + 1)⟩]
          result := a0 }
  | strncpy {a0 a1 a2 : UInt64} {copied : Bytes} (h0 : c.argument g 0 = some a0)
      (h1 : c.argument g 1 = some a1) (h2 : c.argument g 2 = some a2) (hle : a2 ≤ maxModelBytes)
      (hcopied : Scanned g.mem a1 a2.toNat copied) :
      Models g cursor .strncpy
        { reads := c.argsReads g 3 ++ byteReads a1 copied.length
          write := (a0, copied ++ List.replicate (a2.toNat - copied.length) 0)
          accesses :=
            [⟨.read, a1, c.scalarFromMemory copied, .ofNat copied.length⟩,
              ⟨.write, a0, c.scalarFromMemory
                (copied ++ List.replicate (a2.toNat - copied.length) 0), a2.toUInt32⟩]
          result := a0 }
  | strlen {a0 : UInt64} {str : Bytes} (h0 : c.argument g 0 = some a0)
      (hstr : CString g.mem a0 str) (hlt : str.length < 65536) :
      Models g cursor .strlen
        { reads := c.argsReads g 1 ++ byteReads a0 (str.length + 1)
          accesses := [⟨.read, a0, c.scalarFromMemory (str ++ [0]), .ofNat (str.length + 1)⟩]
          result := .ofNat str.length }
  | strcmp {a0 a1 : UInt64} {lhs rhs : Bytes} (h0 : c.argument g 0 = some a0)
      (h1 : c.argument g 1 = some a1) (hlhs : CString g.mem a0 lhs) (hrhs : CString g.mem a1 rhs)
      (hlt : lhs.length < 65536) (hlt' : rhs.length < 65536) :
      Models g cursor .strcmp
        { reads := c.argsReads g 2 ++ byteReads a0 (lhs.length + 1) ++
            byteReads a1 (rhs.length + 1)
          accesses :=
            [⟨.read, a0, c.scalarFromMemory (lhs ++ [0]), .ofNat (lhs.length + 1)⟩,
              ⟨.read, a1, c.scalarFromMemory (rhs ++ [0]), .ofNat (rhs.length + 1)⟩]
          result := (c.compareStrings (lhs ++ [0]) (rhs ++ [0])).toInt64.toUInt64 }
  | allocated {clear : Bool} {kind : SummaryKind} {a0 a1 : UInt64}
      (hkind : kind = if clear then .callocate else .allocate) (h0 : c.argument g 0 = some a0)
      (h1 : clear = true → c.argument g 1 = some a1) (hn : requestedBytes clear a0 a1 ≠ 0)
      (hle : cursor ≤ c.heapHi) (hfits : aligned (requestedBytes clear a0 a1) ≤ c.heapHi - cursor) :
      Models g cursor kind
        { reads := c.argsReads g (if clear then 2 else 1)
          write := if clear then (cursor, List.replicate (requestedBytes clear a0 a1).toNat 0)
            else (0, [])
          accesses := if clear then [⟨.write, cursor, 0, (requestedBytes clear a0 a1).toUInt32⟩]
            else []
          advance := aligned (requestedBytes clear a0 a1)
          result := cursor }
  | refused {clear : Bool} {kind : SummaryKind} {a0 a1 : UInt64}
      (hkind : kind = if clear then .callocate else .allocate) (h0 : c.argument g 0 = some a0)
      (h1 : clear = true → c.argument g 1 = some a1)
      (hrefused : ¬ (requestedBytes clear a0 a1 ≠ 0 ∧ cursor ≤ c.heapHi ∧
        aligned (requestedBytes clear a0 a1) ≤ c.heapHi - cursor)) :
      Models g cursor kind { reads := c.argsReads g (if clear then 2 else 1), result := 0 }
  | deallocate {a0 : UInt64} (h0 : c.argument g 0 = some a0) :
      Models g cursor .deallocate { reads := c.argsReads g 1, result := 0 }

/-! ## Recording -/

/-- Recording changes the accesses and the event counter only. -/
theorem record_eq (s : HookState) (a : Access) :
    c.record s a = { s with data := (c.record s a).data, sequence := (c.record s a).sequence } := by
  unfold record recordAccess
  cases c.accessScope a.address a.size with
  | none => rfl
  | some scope =>
    show (if _ then _ else _) = _
    split_ifs <;> rfl

@[simp] theorem heapCursor_record (s : HookState) (a : Access) :
    (c.record s a).heapCursor = s.heapCursor := by
  rw [record_eq]

/-- An access of no bytes is never recorded. -/
@[simp] theorem record_zero (s : HookState) (kind : MemKind) (address value : UInt64) :
    c.record s ⟨kind, address, value, 0⟩ = s := by
  simp [record, recordAccess, accessScope, containsRange]

theorem run_recordSummaryAccess_bind {α : Type} (kind : MemKind) (address value : UInt64)
    (size : UInt32) (f : Unit → RaxProc α) (s : Machine) (script : List Outcome) :
    (c.recordSummaryAccess kind address value size >>= f).run s script =
      (f ()).run { s with hooks := c.record s.hooks ⟨kind, address, value, size⟩ } script := rfl

/-! ## Arguments -/

theorem argsReads_succ (g : Guest) (n : ℕ) :
    c.argsReads g (n + 1) = c.argsReads g n ++ c.argReads g n := by
  simp [argsReads, List.range_succ]

section Args

variable {c} {α : Type} {r : α}

/-- The next argument of a summary is fetched. -/
theorem arg_returned {f : UInt64 → RaxProc α} {n : ℕ}
    (h : (c.summaryArg n >>= f).run (s.noteReads (c.argsReads s.guest n)) script =
      (some r, s', rest)) :
    ∃ a mid, c.argument s.guest n = some a ∧
      (f a).run (s.noteReads (c.argsReads s.guest (n + 1))) mid = (some r, s', rest) := by
  obtain ⟨a, t, mid, harg, h⟩ := run_bind_eq_some.1 h
  obtain ⟨ha, rfl⟩ := summaryArg_returned harg
  rw [argReads_noteReads, Machine.noteReads_noteReads, ← argsReads_succ] at h
  exact ⟨a, mid, ha, h⟩

theorem args_one_returned {f : UInt64 → RaxProc α}
    (h : (c.summaryArg 0 >>= f).run s script = (some r, s', rest)) :
    ∃ a0 mid, c.argument s.guest 0 = some a0 ∧
      (f a0).run (s.noteReads (c.argsReads s.guest 1)) mid = (some r, s', rest) := by
  apply arg_returned
  rwa [show c.argsReads s.guest 0 = [] from rfl, Machine.noteReads_nil]

theorem args_two_returned {f : UInt64 → UInt64 → RaxProc α}
    (h : (c.summaryArg 0 >>= fun a0 => c.summaryArg 1 >>= f a0).run s script =
      (some r, s', rest)) :
    ∃ a0 a1 mid, c.argument s.guest 0 = some a0 ∧ c.argument s.guest 1 = some a1 ∧
      (f a0 a1).run (s.noteReads (c.argsReads s.guest 2)) mid = (some r, s', rest) := by
  obtain ⟨a0, mid, h0, h⟩ := args_one_returned h
  obtain ⟨a1, mid, h1, h⟩ := arg_returned h
  exact ⟨a0, a1, mid, h0, h1, h⟩

/-- Three arguments, the last one a size. -/
theorem args_sized_returned {f : UInt64 → UInt64 → UInt64 → RaxProc α}
    (h : (c.summaryArg 0 >>= fun a0 => c.summaryArg 1 >>= fun a1 => c.summaryArg 2 >>= fun a2 =>
      Proc.require (decide (a2 ≤ maxModelBytes)) >>= fun _ => f a0 a1 a2).run
        s script = (some r, s', rest)) :
    ∃ a0 a1 a2 mid, c.argument s.guest 0 = some a0 ∧ c.argument s.guest 1 = some a1 ∧
      c.argument s.guest 2 = some a2 ∧ a2 ≤ maxModelBytes ∧
      (f a0 a1 a2).run (s.noteReads (c.argsReads s.guest 3)) mid = (some r, s', rest) := by
  obtain ⟨a0, a1, mid, h0, h1, h⟩ := args_two_returned h
  obtain ⟨a2, mid, h2, h⟩ := arg_returned h
  obtain ⟨_, t, mid, hrequire, h⟩ := run_bind_eq_some.1 h
  obtain ⟨hle, rfl, rfl⟩ := run_require_eq_some.1 hrequire
  exact ⟨a0, a1, a2, _, h0, h1, h2, of_decide_eq_true hle, h⟩

end Args

/-! ## One lemma for each kind -/

/-- A run of a summary's work has one of its effects. -/
def Done (kind : SummaryKind) (s : Machine) (result : UInt64) (s' : Machine) : Prop :=
  ∃ e, c.Models s.guest s.hooks.heapCursor kind e ∧ result = e.result ∧ s' = c.perform e s

variable {c} {result : UInt64}

theorem memmoveSummary_returned {kind : SummaryKind} (hkind : kind = .memcpy ∨ kind = .memmove)
    (h : c.memmoveSummary.run s script = (some result, s', rest)) : c.Done kind s result s' := by
  obtain ⟨a0, a1, a2, mid, h0, h1, h2, hle, h⟩ := args_sized_returned h
  refine ⟨_, .memmove hkind h0 h1 h2 hle, ?_⟩
  rw [perform_of_advance_eq_zero c rfl]
  by_cases hzero : a2 = 0
  · subst hzero
    obtain ⟨rfl, rfl, -⟩ : a0 = result ∧ _ = s' ∧ _ = rest := by simpa using h
    simp [Machine.noteReads]
  · simp only [ne_eq, hzero, not_false_eq_true, if_true] at h
    obtain ⟨bytes, t, mid, hread, h⟩ := run_bind_eq_some.1 h
    obtain ⟨rfl, rfl⟩ := memRead_returned hread
    obtain ⟨_, t, mid, hwrite, h⟩ := run_bind_eq_some.1 h
    obtain rfl := memWrite_returned hwrite
    rw [run_recordSummaryAccess_bind, run_recordSummaryAccess_bind, run_pure] at h
    obtain ⟨rfl, rfl, -⟩ : a0 = result ∧ _ = s' ∧ mid = rest := by simpa using h
    simp [Machine.noteReads, Machine.writeMem, hzero]

theorem memsetSummary_returned (h : c.memsetSummary.run s script = (some result, s', rest)) :
    c.Done .memset s result s' := by
  obtain ⟨a0, a1, a2, mid, h0, h1, h2, hle, h⟩ := args_sized_returned h
  refine ⟨_, .memset h0 h1 h2 hle, ?_⟩
  rw [perform_of_advance_eq_zero c rfl]
  by_cases hzero : a2 = 0
  · subst hzero
    obtain ⟨rfl, rfl, -⟩ : a0 = result ∧ _ = s' ∧ _ = rest := by simpa using h
    simp [Machine.noteReads]
  · simp only [ne_eq, hzero, not_false_eq_true, if_true] at h
    obtain ⟨_, t, mid, hwrite, h⟩ := run_bind_eq_some.1 h
    obtain rfl := memWrite_returned hwrite
    rw [run_recordSummaryAccess_bind, run_pure] at h
    obtain ⟨rfl, rfl, -⟩ : a0 = result ∧ _ = s' ∧ mid = rest := by simpa using h
    simp [Machine.noteReads, Machine.writeMem]

theorem strcpySummary_returned (h : c.strcpySummary.run s script = (some result, s', rest)) :
    c.Done .strcpy s result s' := by
  obtain ⟨a0, a1, mid, h0, h1, h⟩ := args_two_returned h
  obtain ⟨bytes, t, mid, hread, h⟩ := run_bind_eq_some.1 h
  obtain ⟨str, hstr, hlt, rfl, rfl⟩ := readCString_returned hread
  obtain ⟨_, t, mid, hwrite, h⟩ := run_bind_eq_some.1 h
  obtain rfl := memWrite_returned hwrite
  rw [run_recordSummaryAccess_bind, run_recordSummaryAccess_bind, run_pure] at h
  obtain ⟨rfl, rfl, -⟩ : a0 = result ∧ _ = s' ∧ mid = rest := by simpa using h
  refine ⟨_, .strcpy h0 h1 hstr hlt, ?_⟩
  rw [perform_of_advance_eq_zero c rfl]
  simp [Machine.noteReads, Machine.writeMem]

theorem strncpySummary_returned (h : c.strncpySummary.run s script = (some result, s', rest)) :
    c.Done .strncpy s result s' := by
  obtain ⟨a0, a1, a2, mid, h0, h1, h2, hle, h⟩ := args_sized_returned h
  obtain ⟨copied, t, mid, hread, h⟩ := run_bind_eq_some.1 h
  obtain ⟨hcopied, rfl⟩ := readUpTo_returned a2.toNat_lt hread
  refine ⟨_, .strncpy h0 h1 h2 hle hcopied, ?_⟩
  rw [perform_of_advance_eq_zero c rfl]
  by_cases hzero : a2 = 0
  · subst hzero
    obtain rfl := List.length_eq_zero_iff.1 (hcopied.length_eq_zero.2 rfl)
    obtain ⟨rfl, rfl, -⟩ : a0 = result ∧ _ = s' ∧ mid = rest := by simpa using h
    simp [Machine.noteReads]
  · have hcount : copied.length ≠ 0 := by
      intro hempty
      exact hzero (UInt64.toNat_inj.1 (hcopied.length_eq_zero.1 hempty))
    simp only [ne_eq, hzero, hcount, not_false_eq_true, if_true] at h
    obtain ⟨_, t, mid, hwrite, h⟩ := run_bind_eq_some.1 h
    obtain rfl := memWrite_returned hwrite
    rw [run_recordSummaryAccess_bind, run_recordSummaryAccess_bind, run_pure] at h
    obtain ⟨rfl, rfl, -⟩ : a0 = result ∧ _ = s' ∧ mid = rest := by simpa using h
    simp [Machine.noteReads, Machine.writeMem]

theorem strlenSummary_returned (h : c.strlenSummary.run s script = (some result, s', rest)) :
    c.Done .strlen s result s' := by
  obtain ⟨a0, mid, h0, h⟩ := args_one_returned h
  obtain ⟨bytes, t, mid, hread, h⟩ := run_bind_eq_some.1 h
  obtain ⟨str, hstr, hlt, rfl, rfl⟩ := readCString_returned hread
  rw [run_recordSummaryAccess_bind, run_pure] at h
  obtain ⟨rfl, rfl, -⟩ : .ofNat str.length = result ∧ _ = s' ∧ mid = rest := by simpa using h
  refine ⟨_, .strlen h0 hstr hlt, rfl, ?_⟩
  rw [perform_of_advance_eq_zero c rfl]
  simp [Machine.noteReads]

theorem strcmpSummary_returned (h : c.strcmpSummary.run s script = (some result, s', rest)) :
    c.Done .strcmp s result s' := by
  obtain ⟨a0, a1, mid, h0, h1, h⟩ := args_two_returned h
  obtain ⟨bytes, t, mid, hread, h⟩ := run_bind_eq_some.1 h
  obtain ⟨lhs, hlhs, hlt, rfl, rfl⟩ := readCString_returned hread
  obtain ⟨bytes, t, mid, hread, h⟩ := run_bind_eq_some.1 h
  obtain ⟨rhs, hrhs, hlt', rfl, rfl⟩ := readCString_returned hread
  rw [run_recordSummaryAccess_bind, run_recordSummaryAccess_bind, run_pure] at h
  obtain ⟨rfl, rfl, -⟩ : _ = result ∧ _ = s' ∧ mid = rest := by simpa using h
  refine ⟨_, .strcmp h0 h1 hlhs hrhs hlt hlt', rfl, ?_⟩
  rw [perform_of_advance_eq_zero c rfl]
  simp [Machine.noteReads]

/-- A block is granted if there is room for it. -/
theorem allocateBlock_returned {clear : Bool} {n : UInt64}
    (h : (c.allocateBlock clear n).run s script = (some result, s', rest)) :
    ((n ≠ 0 ∧ s.hooks.heapCursor ≤ c.heapHi ∧ aligned n ≤ c.heapHi - s.hooks.heapCursor) ∧
        result = s.hooks.heapCursor ∧ s' = c.perform
          { reads := []
            write := if clear then (s.hooks.heapCursor, List.replicate n.toNat 0) else (0, [])
            accesses := if clear then [⟨.write, s.hooks.heapCursor, 0, n.toUInt32⟩] else []
            advance := aligned n
            result := s.hooks.heapCursor } s) ∨
      ¬ (n ≠ 0 ∧ s.hooks.heapCursor ≤ c.heapHi ∧ aligned n ≤ c.heapHi - s.hooks.heapCursor) ∧
        result = 0 ∧ s' = s := by
  change (if _ then _ else pure 0 : RaxProc UInt64).run s script = _ at h
  by_cases hroom : n ≠ 0 ∧ s.hooks.heapCursor ≤ c.heapHi ∧ aligned n ≤ c.heapHi - s.hooks.heapCursor
  · rw [if_pos hroom] at h
    refine Or.inl ⟨hroom, ?_⟩
    cases clear with
    | false =>
      obtain ⟨rfl, rfl, -⟩ : s.hooks.heapCursor = result ∧ _ = s' ∧ script = rest := by
        simpa [run_bind] using h
      simp [perform]
    | true =>
      simp only [if_true] at h
      obtain ⟨_, t, mid, hwrite, h⟩ := run_bind_eq_some.1 h
      obtain rfl := memWrite_returned hwrite
      rw [run_recordSummaryAccess_bind] at h
      obtain ⟨rfl, rfl, -⟩ : s.hooks.heapCursor = result ∧ _ = s' ∧ mid = rest := by
        simpa [run_bind] using h
      simp [perform, Machine.writeMem]
  · rw [if_neg hroom] at h
    obtain ⟨rfl, rfl, -⟩ : 0 = result ∧ s = s' ∧ script = rest := by simpa using h
    exact Or.inr ⟨hroom, rfl, rfl⟩

theorem allocateSummary_returned {clear : Bool}
    (h : (c.allocateSummary clear).run s script = (some result, s', rest)) :
    c.Done (if clear then .callocate else .allocate) s result s' := by
  obtain ⟨a0, mid, h0, h⟩ := args_one_returned h
  have hargs : ∃ a1 mid, (clear = true → c.argument s.guest 1 = some a1) ∧
      (c.allocateBlock clear (requestedBytes clear a0 a1)).run
        (s.noteReads (c.argsReads s.guest (if clear then 2 else 1))) mid =
          (some result, s', rest) := by
    cases clear with
    | false => exact ⟨0, mid, nofun, h⟩
    | true =>
      obtain ⟨a1, mid, h1, h⟩ := arg_returned h
      exact ⟨a1, mid, fun _ => h1, h⟩
  obtain ⟨a1, mid, h1, h⟩ := hargs
  rcases allocateBlock_returned h with ⟨⟨hn, hle, hfits⟩, rfl, rfl⟩ | ⟨hrefused, rfl, rfl⟩
  · refine ⟨_, .allocated rfl h0 h1 hn hle hfits, rfl, ?_⟩
    simp [perform, Machine.noteReads]
  · refine ⟨_, .refused rfl h0 h1 hrefused, rfl, ?_⟩
    rw [perform_of_advance_eq_zero c rfl]
    simp [Machine.noteReads]

theorem deallocateSummary_returned
    (h : c.deallocateSummary.run s script = (some result, s', rest)) :
    c.Done .deallocate s result s' := by
  obtain ⟨a0, mid, h0, h⟩ := args_one_returned h
  obtain ⟨rfl, rfl, -⟩ : 0 = result ∧ _ = s' ∧ mid = rest := by simpa using h
  refine ⟨_, .deallocate h0, rfl, ?_⟩
  rw [perform_of_advance_eq_zero c rfl]
  simp [Machine.noteReads]

/-- **The effects of a summary.** Work that returns has had one of its effects. -/
theorem summaryBody_returned {kind : SummaryKind} (hkind : kind ≠ .terminate)
    (h : (c.summaryBody kind).run s script = (some result, s', rest)) :
    c.Done kind s result s' := by
  cases kind with
  | memcpy => exact memmoveSummary_returned (Or.inl rfl) h
  | memmove => exact memmoveSummary_returned (Or.inr rfl) h
  | memset => exact memsetSummary_returned h
  | strcpy => exact strcpySummary_returned h
  | strncpy => exact strncpySummary_returned h
  | strlen => exact strlenSummary_returned h
  | strcmp => exact strcmpSummary_returned h
  | allocate => exact allocateSummary_returned h
  | callocate => exact allocateSummary_returned h
  | deallocate => exact deallocateSummary_returned h
  | terminate => exact absurd rfl hkind

end HookCtx

end Viy.Emu
