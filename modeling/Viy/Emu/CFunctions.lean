import Mathlib.Data.List.TakeWhile
import Viy.Emu.FailedCalls

/-!
# Summaries as C functions

`CCall` says what the string and memory functions of C do to a memory, without reference to the
driver. Every summary of one of them that is applied is such a call with the guest's arguments:
memory changes as the function changes it, the return register gets its value, and the caller goes
on behind the call.
-/

namespace Viy.Emu

open Wire Fault ProgramImage Proc

/-! ## The functions -/

/-- The bytes are at `a`, and no other byte has changed. -/
structure Placed (mem mem' : Memory) (a : UInt64) (bytes : Bytes) : Prop where
  inside : ∀ i (hi : i < bytes.length), mem' (a + .ofNat i) = bytes[i]
  outside : ∀ x, (∀ i < bytes.length, x ≠ a + .ofNat i) → mem' x = mem x

/-- A value as the `int` that a caller sees. -/
def asInt (value : UInt64) : Int32 := value.toUInt32.toInt32

/-- `strncpy`: the source up to its NUL, and zeros for the rest of the `n` bytes. -/
def strncpyBytes (source : Bytes) : Bytes :=
  let str := source.takeWhile (· ≠ 0)
  str ++ List.replicate (source.length - str.length) 0

/-- A call of a C function: arguments, the memory behind it and its value. -/
inductive CCall (mem : Memory) (args : ℕ → UInt64) : SummaryKind → Memory → UInt64 → Prop
  | strlen {str : Bytes} (hstr : CString mem (args 0) str) :
      CCall mem args .strlen mem (.ofNat str.length)
  | strcmp {lhs rhs : Bytes} {value : UInt64} (hlhs : CString mem (args 0) lhs)
      (hrhs : CString mem (args 1) rhs) (hneg : asInt value < 0 ↔ lhs < rhs)
      (hzero : asInt value = 0 ↔ lhs = rhs) (hpos : 0 < asInt value ↔ rhs < lhs) :
      CCall mem args .strcmp mem value
  | memcpy {mem' : Memory} (h : Placed mem mem' (args 0) (load mem (args 1) (args 2).toNat)) :
      CCall mem args .memcpy mem' (args 0)
  | memmove {mem' : Memory} (h : Placed mem mem' (args 0) (load mem (args 1) (args 2).toNat)) :
      CCall mem args .memmove mem' (args 0)
  | memset {mem' : Memory}
      (h : Placed mem mem' (args 0) (List.replicate (args 2).toNat (args 1).toUInt8)) :
      CCall mem args .memset mem' (args 0)
  | strcpy {mem' : Memory} {str : Bytes} (hstr : CString mem (args 1) str)
      (h : Placed mem mem' (args 0) (str ++ [0])) : CCall mem args .strcpy mem' (args 0)
  | strncpy {mem' : Memory}
      (h : Placed mem mem' (args 0) (strncpyBytes (load mem (args 1) (args 2).toNat))) :
      CCall mem args .strncpy mem' (args 0)

theorem placed_store {mem : Memory} {a : UInt64} {bytes : Bytes}
    (hlength : bytes.length ≤ 2 ^ 64) : Placed mem (store mem a bytes) a bytes := by
  refine ⟨fun i hi => store_apply_add hi hlength, ?_⟩
  intro x hx
  apply store_apply_of_le
  by_contra hlt
  exact hx _ (Nat.not_le.1 hlt) (add_ofNat_toNat_sub a x).symm

/-! ## Comparing strings -/

/-- The order of two strings shows in their common length with the NULs. -/
theorem take_lt_take_iff {l r : Bytes} (hl : 0 ∉ l) (hr : 0 ∉ r) :
    (l ++ [0]).take (min (l.length + 1) (r.length + 1)) <
      (r ++ [0]).take (min (l.length + 1) (r.length + 1)) ↔ l < r := by
  induction l generalizing r with
  | nil =>
    cases r with
    | nil => simp
    | cons b r =>
      have hb : (0 : UInt8) < b := by
        rw [UInt8.lt_iff_toNat_lt]
        have hne : b ≠ 0 := fun h => hr (h ▸ List.mem_cons_self)
        exact Nat.pos_of_ne_zero fun h => hne (UInt8.toNat_inj.1 h)
      simp [List.cons_lt_cons_iff, hb]
  | cons a l ih =>
    cases r with
    | nil =>
      have ha : a ≠ 0 := fun h => hl (h ▸ List.mem_cons_self)
      have hnot : ¬ a < 0 := UInt8.not_lt.2 (UInt8.le_iff_toNat_le.2 (Nat.zero_le _))
      simp [List.cons_lt_cons_iff, ha, hnot]
    | cons b r =>
      have hrec := ih (fun h => hl (List.mem_cons_of_mem a h))
        (fun h => hr (List.mem_cons_of_mem b h))
      simp only [List.length_cons, List.cons_append, Nat.add_min_add_right, List.take_succ_cons,
        List.cons_lt_cons_iff] at hrec ⊢
      rw [hrec]

theorem asInt_toUInt64 (r : Int32) : asInt r.toInt64.toUInt64 = r := by
  apply Int32.toBitVec_inj.1
  show BitVec.setWidth 32 (BitVec.signExtend 64 r.toBitVec) = r.toBitVec
  apply BitVec.eq_of_getLsbD_eq
  intro i hi
  have hi64 : i < 64 := by omega
  simp only [BitVec.getLsbD_setWidth, BitVec.getLsbD_signExtend, hi, hi64, decide_true,
    Bool.true_and, if_true]

section Compare

variable {c : HookCtx} {l r : Bytes} (hl : 0 ∉ l) (hr : 0 ∉ r)

include hl hr

/-- Equal lengths are compared by `memcmp` alone: no string ends where the other goes on. -/
theorem compareStrings_signs :
    (c.compareStrings (l ++ [0]) (r ++ [0]) < 0 ↔ l < r) ∧
      (0 < c.compareStrings (l ++ [0]) (r ++ [0]) ↔ r < l) := by
  have hlength : ((l ++ [0]).take (min (l.length + 1) (r.length + 1))).length =
      ((r ++ [0]).take (min (l.length + 1) (r.length + 1))).length := by
    simp only [List.length_take, List.length_append, List.length_singleton]
    omega
  have hneg := c.memcmp.neg_iff _ _ hlength
  have hpos := c.memcmp.pos_iff _ _ hlength
  rw [take_lt_take_iff hl hr] at hneg
  have hswap := take_lt_take_iff hr hl
  rw [min_comm] at hswap
  rw [hswap] at hpos
  unfold HookCtx.compareStrings
  simp only [List.length_append, List.length_singleton]
  by_cases hzero : c.memcmp.run ((l ++ [0]).take (min (l.length + 1) (r.length + 1)))
      ((r ++ [0]).take (min (l.length + 1) (r.length + 1))) = 0
  · rw [hzero] at hneg hpos
    have hnlt : ¬ l < r := fun h => absurd (hneg.2 h) (by decide)
    have hngt : ¬ r < l := fun h => absurd (hpos.2 h) (by decide)
    obtain rfl := List.le_antisymm hngt hnlt
    rw [if_pos hzero, if_neg (Nat.lt_irrefl _), if_neg (Nat.lt_irrefl _)]
    exact ⟨iff_of_false (by decide) hnlt, iff_of_false (by decide) hnlt⟩
  · rw [if_neg hzero]
    exact ⟨hneg, hpos⟩

theorem compareStrings_eq_zero_iff :
    c.compareStrings (l ++ [0]) (r ++ [0]) = 0 ↔ l = r := by
  obtain ⟨hneg, hpos⟩ := compareStrings_signs (c := c) hl hr
  constructor
  · intro hzero
    rw [hzero] at hneg hpos
    have hnlt : ¬ l < r := fun h => absurd (hneg.2 h) (by decide)
    have hngt : ¬ r < l := fun h => absurd (hpos.2 h) (by decide)
    exact List.le_antisymm hngt hnlt
  · rintro rfl
    have hnneg : ¬ c.compareStrings (l ++ [0]) (l ++ [0]) < 0 :=
      fun h => List.lt_irrefl l (hneg.1 h)
    have hnpos : ¬ 0 < c.compareStrings (l ++ [0]) (l ++ [0]) :=
      fun h => List.lt_irrefl l (hpos.1 h)
    exact Int32.le_antisymm (Int32.not_lt.1 hnpos) (Int32.not_lt.1 hnneg)

end Compare

/-! ## Copying strings -/

/-- What is copied and what is padded make up the bytes of `strncpy`. -/
theorem Scanned.strncpyBytes {mem : Memory} {a : UInt64} {n : ℕ} {copied : Bytes}
    (h : Scanned mem a n copied) :
    copied ++ List.replicate (n - copied.length) 0 = strncpyBytes (load mem a n) := by
  unfold Emu.strncpyBytes
  rcases h with ⟨str, hstr, hlt, rfl⟩ | ⟨rfl, hzero⟩
  · have hstop : (load mem a n).takeWhile (· ≠ 0) = str := by
      rw [← List.take_append_drop (str.length + 1) (load mem a n), take_load mem a hlt, hstr.bytes,
        List.append_assoc, List.takeWhile_append_of_pos]
      · simp
      · intro b hb
        exact decide_eq_true fun hzero => hstr.nonzero (hzero ▸ hb)
    have hpad : n - str.length = (n - (str.length + 1)) + 1 := by omega
    simp only [hstop, length_load, hpad, List.replicate_succ, List.length_append,
      List.length_singleton, List.append_assoc, List.singleton_append]
  · have hall : (load mem a n).takeWhile (· ≠ 0) = load mem a n := by
      apply List.takeWhile_eq_self_iff.2
      intro b hb
      exact decide_eq_true fun hnul => hzero (hnul ▸ hb)
    simp only [hall, length_load]

/-- Of the `n` bytes at `a`, `k` are read, and none of them behind a NUL. -/
def StopsAtNul (mem : Memory) (a : UInt64) (n k : ℕ) : Prop :=
  k ≤ n ∧ ∀ i, i + 1 < k → mem (a + .ofNat i) ≠ 0

theorem Scanned.stopsAtNul {mem : Memory} {a : UInt64} {n : ℕ} {copied : Bytes}
    (h : Scanned mem a n copied) : StopsAtNul mem a n copied.length := by
  refine ⟨h.length_le, fun i hi hnul => ?_⟩
  rcases h with ⟨str, hstr, -, rfl⟩ | ⟨rfl, hzero⟩
  · rw [List.length_append, List.length_singleton] at hi
    have hbyte := getElem_load mem a (by simp; omega : i < (load mem a (str.length + 1)).length)
    simp only [hstr.bytes] at hbyte
    rw [hnul, List.getElem_append_left (by omega)] at hbyte
    exact hstr.nonzero (hbyte ▸ List.getElem_mem _)
  · have hbyte := getElem_load mem a (by omega : i < (load mem a n).length)
    rw [hnul] at hbyte
    exact hzero (hbyte ▸ List.getElem_mem _)

/-! ## Applied summaries -/

def SummaryKind.arity : SummaryKind → ℕ
  | .memcpy | .memmove | .memset | .strncpy => 3
  | .strcpy | .strcmp | .callocate => 2
  | .strlen | .allocate | .deallocate => 1
  | .terminate => 0

/-- The summaries of string and memory functions. -/
def cFunctions : List SummaryKind :=
  [.strlen, .strcmp, .memcpy, .memmove, .memset, .strcpy, .strncpy]

variable {s s' : Machine} {script rest : List Outcome} {c : HookCtx}

/-- A register of either size keeps an `int`. -/
theorem asInt_cell (value : UInt64) : asInt (c.cell value) = asInt value := by
  unfold asInt HookCtx.cell
  split_ifs
  · rfl
  · rw [UInt32.toUInt32_toUInt64]

section Arguments

variable {g : Guest} {a0 a1 a2 : UInt64}

theorem arguments_two (h0 : c.argument g 0 = some a0) (h1 : c.argument g 1 = some a1) :
    ∀ i < 2, c.argument g i = some ([a0, a1].getD i 0) := by
  intro i hi
  interval_cases i <;> assumption

theorem arguments_three (h0 : c.argument g 0 = some a0) (h1 : c.argument g 1 = some a1)
    (h2 : c.argument g 2 = some a2) : ∀ i < 3, c.argument g i = some ([a0, a1, a2].getD i 0) := by
  intro i hi
  interval_cases i <;> assumption

end Arguments

/-- The effect of a summary is the call of its function. -/
theorem HookCtx.Models.ccall {g : Guest} {cursor : UInt64} {kind : SummaryKind} {e : Effect}
    (h : c.Models g cursor kind e) (hkind : kind ∈ cFunctions) :
    ∃ args : ℕ → UInt64, (∀ i < kind.arity, c.argument g i = some (args i)) ∧
      CCall g.mem args kind (store g.mem e.write.1 e.write.2) e.result ∧
      (kind = .strncpy → ∃ k, StopsAtNul g.mem (args 1) (args 2).toNat k ∧
        e.reads = c.argsReads g 3 ++ byteReads (args 1) k) := by
  have hlength : e.write.2.length ≤ 2 ^ 64 := h.write_length_le.trans (by norm_num)
  cases h with
  | memmove hmove h0 h1 h2 hle =>
    rcases hmove with rfl | rfl
    · exact ⟨_, arguments_three h0 h1 h2, .memcpy (placed_store hlength), nofun⟩
    · exact ⟨_, arguments_three h0 h1 h2, .memmove (placed_store hlength), nofun⟩
  | memset h0 h1 h2 hle =>
    exact ⟨_, arguments_three h0 h1 h2, .memset (placed_store hlength), nofun⟩
  | strcpy h0 h1 hstr hlt =>
    exact ⟨_, arguments_two h0 h1, .strcpy hstr (placed_store hlength), nofun⟩
  | @strncpy a0 _ _ copied h0 h1 h2 hle hcopied =>
    refine ⟨_, arguments_three h0 h1 h2, .strncpy ?_, fun _ =>
      ⟨copied.length, hcopied.stopsAtNul, rfl⟩⟩
    have hplaced : Placed g.mem _ a0 _ := placed_store hlength
    rwa [hcopied.strncpyBytes] at hplaced ⊢
  | @strlen a0 str h0 hstr hlt =>
    refine ⟨fun _ => a0, ?_, .strlen hstr, nofun⟩
    intro i hi
    obtain rfl : i = 0 := Nat.lt_one_iff.1 hi
    exact h0
  | strcmp h0 h1 hlhs hrhs hlt hlt' =>
    obtain ⟨hneg, hpos⟩ := compareStrings_signs (c := c) hlhs.nonzero hrhs.nonzero
    refine ⟨_, arguments_two h0 h1, .strcmp hlhs hrhs ?_ ?_ ?_, nofun⟩
    · rw [asInt_toUInt64]
      exact hneg
    · rw [asInt_toUInt64]
      exact compareStrings_eq_zero_iff hlhs.nonzero hrhs.nonzero
    · rw [asInt_toUInt64]
      exact hpos
  | @allocated clear _ _ _ hclear => cases clear <;> simp [hclear, cFunctions] at hkind
  | @refused clear _ _ _ hclear => cases clear <;> simp [hclear, cFunctions] at hkind
  | deallocate => simp [cFunctions] at hkind

/-- **Summaries are C functions.** A summary of a string or memory function that is applied is a
call of the function with the guest's arguments; it stores its value in the return register, pops
the return slot where there is one, and changes no other register. `strncpy` reads its source up to
the first NUL only. -/
theorem applied_summary_is_c_call {kind : SummaryKind} (hkind : kind ∈ cFunctions) {u : Unit}
    (h : (c.applySummary kind).run s script = (some u, s', rest)) :
    ∃ (args : ℕ → UInt64) (value : UInt64),
      (∀ i < kind.arity, c.argument s.guest i = some (args i)) ∧
      CCall s.guest.mem args kind s'.guest.mem value ∧
      c.Returned s.guest.regs s'.guest value ∧
      (∀ ret, c.regs.ret = some ret → asInt (s'.guest.regs ret) = asInt value) ∧
      (kind = .strncpy → ∃ k, StopsAtNul s.guest.mem (args 1) (args 2).toNat k ∧
        s'.guest.reads = s.guest.reads ++ (c.argsReads s.guest 3 ++ byteReads (args 1) k) ++
          c.slotReads s.guest.regs) := by
  have hterminate : kind ≠ .terminate := by
    rintro rfl
    simp [cFunctions] at hkind
  obtain ⟨e, hmodels, hreturned, hmem, hreads, -⟩ := HookCtx.applySummary_returned hterminate h
  obtain ⟨args, hargs, hcall, hstops⟩ := hmodels.ccall hkind
  rw [← hmem] at hcall
  refine ⟨args, e.result, hargs, hcall, hreturned, ?_, ?_⟩
  · intro ret hret
    rw [hreturned.ret ret hret, asInt_cell]
  · intro hstrncpy
    obtain ⟨k, hk, hread⟩ := hstops hstrncpy
    exact ⟨k, hk, by rw [hreads, hread]⟩

/-- `memset(0x5000, 0x41, 1)` is applied, and is a call of `memset`. -/
theorem memset_applied : ∃ (args : ℕ → UInt64) (value : UInt64),
    (∀ i < 3, sysvCtx.argument memsetMachine.guest i = some (args i)) ∧
      CCall memsetMachine.guest.mem args .memset
        ((sysvCtx.applySummary .memset).run memsetMachine []).2.1.guest.mem value := by
  have hrun : (sysvCtx.applySummary .memset).run memsetMachine [] =
      (some (), ((sysvCtx.applySummary .memset).run memsetMachine []).2.1, []) := rfl
  obtain ⟨args, value, hargs, hcall, -⟩ := applied_summary_is_c_call (by decide) hrun
  exact ⟨args, value, hargs, hcall⟩

end Viy.Emu
