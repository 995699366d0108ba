import Viy.Emu.FailedCalls

/-!
# The scratch heap

Allocation summaries hand out blocks of a scratch heap from a cursor that only moves up. Whatever
the guest asks for in a run, the blocks it gets are aligned, inside the heap and disjoint; a request
that cannot be served gets null, and the cursor stays.
-/

namespace Viy.Emu

open Wire Fault ProgramImage Proc

variable {s s' : Machine} {script rest : List Outcome} {c : HookCtx}

/-! ## Sizes -/

/-- Rounding up to 16 bytes. -/
def roundUp (n : ℕ) : ℕ := (n + 15) / 16 * 16

theorem toNat_and_not_fifteen (x : UInt64) : (x &&& ~~~15).toNat = x.toNat / 16 * 16 := by
  have hmask : (~~~15 : UInt64).toNat = (2 ^ (64 - 4) - 1) * 2 ^ 4 := by decide
  exact toNat_and_high x (by norm_num) hmask

theorem toNat_aligned {n : UInt64} (hn : n.toNat ≤ 2 ^ 20) :
    (HookCtx.aligned n).toNat = roundUp n.toNat := by
  have hsum : (n + 15).toNat = n.toNat + 15 := by
    rw [UInt64.toNat_add]
    exact Nat.mod_eq_of_lt (by simp; omega)
  unfold HookCtx.aligned roundUp
  rw [toNat_and_not_fifteen, hsum]

/-- The number of bytes that are asked for, without overflow. -/
def demanded (clear : Bool) (a0 a1 : UInt64) : ℕ :=
  if clear then a0.toNat * a1.toNat else a0.toNat

/-- The test for overflow that is made before the product. -/
theorem product_overflows_iff {a0 a1 : UInt64} :
    a0 ≠ 0 ∧ a1 > ~~~0 / a0 ↔ 2 ^ 64 ≤ a0.toNat * a1.toNat := by
  have hones : (~~~0 : UInt64).toNat = 2 ^ 64 - 1 := by decide
  by_cases hzero : a0 = 0
  · rw [hzero]
    simp
  · have hpos : 0 < a0.toNat := Nat.pos_of_ne_zero fun h => hzero (UInt64.toNat_inj.1 h)
    rw [and_iff_right hzero, gt_iff_lt, UInt64.lt_iff_toNat_lt, UInt64.toNat_div, hones,
      Nat.div_lt_iff_lt_mul hpos, Nat.mul_comm]
    omega

/-- A demand of more than 1 MiB counts as none; so does one that overflows. -/
theorem toNat_requestedBytes (clear : Bool) (a0 a1 : UInt64) :
    (HookCtx.requestedBytes clear a0 a1).toNat =
      if demanded clear a0 a1 ≤ 2 ^ 20 then demanded clear a0 a1 else 0 := by
  refine (HookCtx.toNat_capped _).trans ?_
  unfold demanded
  cases clear with
  | false => rfl
  | true =>
    simp only [if_true]
    by_cases hover : a0 ≠ 0 ∧ a1 > ~~~0 / a0
    · have hlarge := product_overflows_iff.1 hover
      rw [if_pos hover, if_neg (by omega : ¬ a0.toNat * a1.toNat ≤ 2 ^ 20)]
      rfl
    · have hsmall := Nat.not_le.1 (mt product_overflows_iff.2 hover)
      rw [if_neg hover, UInt64.toNat_mul, Nat.mod_eq_of_lt hsmall]

/-! ## One call -/

/-- The summaries that use the heap. -/
def heapKinds : List SummaryKind := [.allocate, .callocate, .deallocate]

/-- What a call asks for. -/
def HookCtx.request (c : HookCtx) (g : Guest) : SummaryKind → Option ℕ
  | .allocate => (c.argument g 0).map fun a0 => demanded false a0 0
  | .callocate => do
    let a0 ← c.argument g 0
    let a1 ← c.argument g 1
    some (demanded true a0 a1)
  | _ => some 0

/-- The request can be served: it is for 1 byte to 1 MiB, and the rest of the heap has room. -/
def HookCtx.Serves (c : HookCtx) (cursor : UInt64) (n : ℕ) : Prop :=
  n ≠ 0 ∧ n ≤ 2 ^ 20 ∧ cursor.toNat + roundUp n ≤ c.heapHi.toNat

/-- A served call gets the block at the cursor, which moves behind it; any other gets null. -/
structure HeapEffect (c : HookCtx) (cursor : UInt64) (n : ℕ) (e : Effect) : Prop where
  served : c.Serves cursor n → e.result = cursor ∧ e.advance.toNat = roundUp n
  refused : ¬ c.Serves cursor n → e.result = 0 ∧ e.advance = 0

theorem serves_iff (cursor : UInt64) (clear : Bool) (a0 a1 : UInt64) :
    c.Serves cursor (demanded clear a0 a1) ↔
      HookCtx.requestedBytes clear a0 a1 ≠ 0 ∧ cursor ≤ c.heapHi ∧
        HookCtx.aligned (HookCtx.requestedBytes clear a0 a1) ≤ c.heapHi - cursor := by
  have hn := toNat_requestedBytes clear a0 a1
  unfold HookCtx.Serves
  generalize HookCtx.requestedBytes clear a0 a1 = n at hn ⊢
  generalize demanded clear a0 a1 = d at hn ⊢
  have hzero_iff : n ≠ 0 ↔ n.toNat ≠ 0 := (not_congr UInt64.toNat_inj).symm
  rw [hzero_iff, UInt64.le_iff_toNat_le, UInt64.le_iff_toNat_le]
  by_cases hd : d ≤ 2 ^ 20
  · rw [if_pos hd] at hn
    rw [toNat_aligned (by omega), hn]
    constructor
    · rintro ⟨hzero, -, hroom⟩
      have hle : cursor.toNat ≤ c.heapHi.toNat := by omega
      rw [UInt64.toNat_sub_of_le _ _ (UInt64.le_iff_toNat_le.2 hle)]
      exact ⟨hzero, hle, by omega⟩
    · rintro ⟨hzero, hle, hroom⟩
      rw [UInt64.toNat_sub_of_le _ _ (UInt64.le_iff_toNat_le.2 hle)] at hroom
      exact ⟨hzero, hd, by omega⟩
  · rw [if_neg hd] at hn
    refine iff_of_false (fun h => hd h.2.1) (fun h => h.1 hn)

/-- The effect of a heap call is determined by its request. -/
theorem HookCtx.Models.heapEffect {g : Guest} {cursor : UInt64} {kind : SummaryKind} {e : Effect}
    (h : c.Models g cursor kind e) (hkind : kind ∈ heapKinds) :
    ∃ n, c.request g kind = some n ∧ HeapEffect c cursor n e := by
  cases h with
  | @allocated clear kind a0 a1 hclear h0 h1 hn hle hfits =>
    have hserves := (serves_iff (c := c) cursor clear a0 a1).2 ⟨hn, hle, hfits⟩
    have hbytes := toNat_requestedBytes clear a0 a1
    rw [if_pos hserves.2.1] at hbytes
    refine ⟨demanded clear a0 a1, ?_, fun _ => ⟨rfl, ?_⟩, fun hnot => absurd hserves hnot⟩
    · cases clear with
      | false =>
        subst hclear
        simp [request, h0, demanded]
      | true =>
        subst hclear
        simp [request, h0, h1 rfl]
    · show (aligned _).toNat = _
      rw [toNat_aligned (hbytes ▸ hserves.2.1), hbytes]
  | @refused clear kind a0 a1 hclear h0 h1 hrefused =>
    have hnot : ¬ c.Serves cursor (demanded clear a0 a1) := by
      rw [serves_iff]
      exact hrefused
    refine ⟨demanded clear a0 a1, ?_, fun hserves => absurd hserves hnot, fun _ => ⟨rfl, rfl⟩⟩
    cases clear with
    | false =>
      subst hclear
      simp [request, h0, demanded]
    | true =>
      subst hclear
      simp [request, h0, h1 rfl]
  | deallocate h0 => exact ⟨0, rfl, fun hserves => absurd rfl hserves.1, fun _ => ⟨rfl, rfl⟩⟩
  | memmove hmove => rcases hmove with rfl | rfl <;> simp [heapKinds] at hkind
  | memset | strcpy | strncpy | strlen | strcmp => simp [heapKinds] at hkind

/-! ## Runs -/

structure Block where
  pointer : UInt64
  size : ℕ

/-- A run of heap calls: where the cursor is, and the blocks returned so far, the last one first.
Between the calls the guest and the hooks may do anything but move the cursor. -/
inductive HeapRun (c : HookCtx) : UInt64 → List Block → Prop
  | start : HeapRun c c.heapLo []
  | returned {kind : SummaryKind} {s s' : Machine} {script rest : List Outcome} {pointer : UInt64}
      {n : ℕ} {blocks : List Block} (hrun : HeapRun c s.hooks.heapCursor blocks)
      (hkind : kind ∈ heapKinds)
      (hcall : (c.runSummary kind).run s script = (some pointer, s', rest))
      (hsize : c.request s.guest kind = some n) :
      HeapRun c s'.hooks.heapCursor (⟨pointer, n⟩ :: blocks)
  | failed {kind : SummaryKind} {s s' : Machine} {script rest : List Outcome} {blocks : List Block}
      (hrun : HeapRun c s.hooks.heapCursor blocks) (hkind : kind ∈ heapKinds)
      (hcall : (c.runSummary kind).run s script = (none, s', rest)) :
      HeapRun c s'.hooks.heapCursor blocks

/-- The heap of a scratch stack, as a run sets it up. -/
structure HookCtx.HeapOf (c : HookCtx) (stackBase : UInt64) : Prop where
  lo : c.heapLo = stackBase + 0x10000
  hi : c.heapHi = stackBase + 0x100000 / 2

/-- A block is aligned and inside the heap. -/
structure Block.Inside (c : HookCtx) (b : Block) : Prop where
  aligned : 16 ∣ b.pointer.toNat
  lo : c.heapLo.toNat ≤ b.pointer.toNat
  hi : b.pointer.toNat + b.size ≤ c.heapHi.toNat

/-- Two blocks have no byte in common. -/
def Block.Disjoint (a b : Block) : Prop :=
  a.pointer.toNat + a.size ≤ b.pointer.toNat ∨ b.pointer.toNat + b.size ≤ a.pointer.toNat

/-- The invariant of the cursor: it is aligned and in front of no block. -/
structure HeapOk (c : HookCtx) (cursor : UInt64) (blocks : List Block) : Prop where
  aligned : 16 ∣ cursor.toNat
  lo : c.heapLo.toNat ≤ cursor.toNat
  inside : ∀ b ∈ blocks, b.pointer ≠ 0 → b.Inside c
  below : ∀ b ∈ blocks, b.pointer ≠ 0 → b.pointer.toNat + b.size ≤ cursor.toNat
  disjoint : blocks.Pairwise fun a b => a.pointer ≠ 0 → b.pointer ≠ 0 → a.Disjoint b

theorem le_roundUp (n : ℕ) : n ≤ roundUp n := by
  unfold roundUp
  omega

theorem dvd_roundUp (n : ℕ) : 16 ∣ roundUp n := dvd_mul_left _ _

theorem HookCtx.heapCursor_perform (e : Effect) :
    (c.perform e s).hooks.heapCursor = s.hooks.heapCursor + e.advance := by
  have hfold : ∀ (l : List Access) (h : HookState),
      (l.foldl c.record h).heapCursor = h.heapCursor := by
    intro l
    induction l with
    | nil => exact fun _ => rfl
    | cons a l ih =>
      intro h
      rw [List.foldl_cons, ih, heapCursor_record]
  show (e.accesses.foldl c.record s.hooks).heapCursor + e.advance = _
  rw [hfold]

section Step

variable {cursor : UInt64} {blocks : List Block} {n : ℕ} {e : Effect}

/-- The cursor behind a call has moved over the block, or has not moved. -/
theorem HeapEffect.toNat_cursor (h : HeapEffect c cursor n e) :
    (c.Serves cursor n ∧ (cursor + e.advance).toNat = cursor.toNat + roundUp n) ∨
      ¬ c.Serves cursor n ∧ cursor + e.advance = cursor := by
  by_cases hserves : c.Serves cursor n
  · have hroom := hserves.2.2
    have hlt := c.heapHi.toNat_lt
    refine Or.inl ⟨hserves, ?_⟩
    rw [UInt64.toNat_add, (h.served hserves).2]
    exact Nat.mod_eq_of_lt (by omega)
  · exact Or.inr ⟨hserves, by rw [(h.refused hserves).2, UInt64.add_zero]⟩

/-- A call keeps the invariant, also if the guest does not get the block. -/
theorem HeapOk.skip (hok : HeapOk c cursor blocks) (h : HeapEffect c cursor n e) :
    HeapOk c (cursor + e.advance) blocks := by
  rcases h.toNat_cursor with ⟨-, hmoved⟩ | ⟨-, hsame⟩
  · have hle : cursor.toNat ≤ (cursor + e.advance).toNat := by omega
    refine ⟨?_, hok.lo.trans hle, hok.inside, ?_, hok.disjoint⟩
    · rw [hmoved]
      exact dvd_add hok.aligned (dvd_roundUp n)
    · intro b hb hnull
      exact (hok.below b hb hnull).trans hle
  · rwa [hsame]

/-- The block of a served call lies behind all blocks before it. -/
theorem HeapOk.push (hok : HeapOk c cursor blocks) (h : HeapEffect c cursor n e) :
    HeapOk c (cursor + e.advance) (⟨e.result, n⟩ :: blocks) := by
  have hnext := hok.skip h
  rcases h.toNat_cursor with ⟨hserves, hmoved⟩ | ⟨hserves, -⟩
  · obtain ⟨hresult, -⟩ := h.served hserves
    have hsize := le_roundUp n
    have hroom := hserves.2.2
    rw [hresult]
    refine ⟨hnext.aligned, hnext.lo, List.forall_mem_cons.2 ⟨fun _ => ?_, hnext.inside⟩,
      List.forall_mem_cons.2 ⟨fun _ => ?_, hnext.below⟩, List.pairwise_cons.2 ⟨?_, hnext.disjoint⟩⟩
    · exact ⟨hok.aligned, hok.lo, by show cursor.toNat + n ≤ _; omega⟩
    · show cursor.toNat + n ≤ _
      omega
    · intro b hb _ hnull
      exact Or.inr (hok.below b hb hnull)
  · obtain ⟨hresult, -⟩ := h.refused hserves
    rw [hresult]
    exact ⟨hnext.aligned, hnext.lo,
      List.forall_mem_cons.2 ⟨fun hnull => absurd rfl hnull, hnext.inside⟩,
      List.forall_mem_cons.2 ⟨fun hnull => absurd rfl hnull, hnext.below⟩,
      List.pairwise_cons.2 ⟨fun b _ hnull => absurd rfl hnull, hnext.disjoint⟩⟩

end Step

theorem heapKinds_ne_terminate {kind : SummaryKind} (h : kind ∈ heapKinds) : kind ≠ .terminate := by
  rintro rfl
  simp [heapKinds] at h

/-- The invariant holds in every run. -/
theorem HeapRun.ok {cursor : UInt64} {blocks : List Block} (haligned : 16 ∣ c.heapLo.toNat)
    (h : HeapRun c cursor blocks) : HeapOk c cursor blocks := by
  induction h with
  | start =>
    exact ⟨haligned, le_rfl, fun b hb => absurd hb List.not_mem_nil,
      fun b hb => absurd hb List.not_mem_nil, List.Pairwise.nil⟩
  | returned hrun hkind hcall hsize ih =>
    obtain ⟨e, hmodels, rfl, -, -, -, -, hcursor⟩ :=
      HookCtx.runSummary_returned (heapKinds_ne_terminate hkind) hcall
    obtain ⟨n, hn, heffect⟩ := hmodels.heapEffect hkind
    obtain rfl := Option.some.inj (hsize.symm.trans hn)
    rw [hcursor, HookCtx.heapCursor_perform]
    exact ih.push heffect
  | failed hrun hkind hcall ih =>
    rcases HookCtx.runSummary_failed (heapKinds_ne_terminate hkind) hcall with
      hbody | ⟨e, mid, hmodels, -, hreturn⟩
    · rw [((HookCtx.atomic_summaryBody _).related hbody).unchanged.heapCursor]
      exact ih
    · obtain ⟨n, -, heffect⟩ := hmodels.heapEffect hkind
      rw [(HookCtx.summaryReturn_failed hreturn).1, HookCtx.heapCursor_perform]
      exact ih.skip heffect

/-- **The scratch heap.** In every run of allocation calls, every block that is not null is aligned,
has all bytes asked for inside the heap and is disjoint from all blocks before it. A call for no
bytes, for more than 1 MiB, for a product that overflows or for more than there is room for returns
null and leaves the cursor. -/
theorem heap_blocks_sound {stackBase : UInt64} (hbase : 16 ∣ stackBase.toNat)
    (hheap : c.HeapOf stackBase) :
    (∀ cursor blocks, HeapRun c cursor blocks →
      (∀ b ∈ blocks, b.pointer ≠ 0 → b.Inside c) ∧
        blocks.Pairwise fun later earlier =>
          later.pointer ≠ 0 → earlier.pointer ≠ 0 → later.Disjoint earlier) ∧
      ∀ (kind : SummaryKind) (s s' : Machine) (script rest : List Outcome) (pointer : UInt64)
        (n : ℕ),
        kind ∈ heapKinds → (c.runSummary kind).run s script = (some pointer, s', rest) →
        c.request s.guest kind = some n →
        (n = 0 ∨ 2 ^ 20 < n ∨ 2 ^ 64 ≤ n ∨ c.heapHi.toNat < s.hooks.heapCursor.toNat + n) →
        pointer = 0 ∧ s'.hooks.heapCursor = s.hooks.heapCursor := by
  have haligned : 16 ∣ c.heapLo.toNat := by
    rw [hheap.lo, UInt64.toNat_add]
    have hoffset : (0x10000 : UInt64).toNat = 16 * 4096 := by decide
    omega
  refine ⟨fun cursor blocks hrun => ?_, ?_⟩
  · have hok := hrun.ok haligned
    exact ⟨hok.inside, hok.disjoint⟩
  · intro kind s s' script rest pointer n hkind hcall hsize hunserved
    obtain ⟨e, hmodels, rfl, -, -, -, -, hcursor⟩ :=
      HookCtx.runSummary_returned (heapKinds_ne_terminate hkind) hcall
    obtain ⟨m, hm, heffect⟩ := hmodels.heapEffect hkind
    obtain rfl := Option.some.inj (hsize.symm.trans hm)
    have hnot : ¬ c.Serves s.hooks.heapCursor n := by
      rintro ⟨hzero, hle, hroom⟩
      have hsize := le_roundUp n
      omega
    obtain ⟨hresult, hadvance⟩ := heffect.refused hnot
    rw [hcursor, HookCtx.heapCursor_perform, hadvance, UInt64.add_zero]
    exact ⟨hresult, rfl⟩

/-- A run with its scratch stack at `0x70000000`. -/
def heapCtx : HookCtx := { sysvCtx with heapLo := 0x70010000, heapHi := 0x70080000 }

/-- `malloc(size)` is about to be called. -/
def mallocMachine (cursor size : UInt64) : Machine where
  hooks := { heapCursor := cursor }
  guest := { mem := fun _ => 0, regs := fun r => if r = .x86Gpr64 7 then size else 0 }

/-- `malloc(20)` and `malloc(100)`, one after the other. -/
theorem two_blocks_disjoint :
    let first : Block := ⟨0x70010000, 20⟩
    let second : Block := ⟨0x70010020, 100⟩
    HeapRun heapCtx 0x70010090 [second, first] ∧
      (first.Inside heapCtx ∧ second.Inside heapCtx) ∧ second.Disjoint first := by
  intro first second
  have hkind : SummaryKind.allocate ∈ heapKinds := by decide
  have hstart : HeapRun heapCtx (mallocMachine 0x70010000 20).hooks.heapCursor [] := .start
  have hfirst := hstart.returned hkind
    (rfl : (heapCtx.runSummary .allocate).run _ [] = (some 0x70010000, _, [])) (rfl : _ = some 20)
  have hrun := HeapRun.returned (s := mallocMachine 0x70010020 100) hfirst hkind
    (rfl : (heapCtx.runSummary .allocate).run _ [] = (some 0x70010020, _, [])) (rfl : _ = some 100)
  have hbase : 16 ∣ (0x70000000 : UInt64).toNat := by decide
  obtain ⟨hinside, hdisjoint⟩ := (heap_blocks_sound hbase ⟨rfl, rfl⟩).1 _ _ hrun
  have hmem : first ∈ [first] := List.mem_singleton_self _
  refine ⟨hrun, ⟨hinside first (List.mem_cons_of_mem _ hmem) (by decide),
    hinside second List.mem_cons_self (by decide)⟩, ?_⟩
  exact (List.pairwise_cons.1 hdisjoint).1 first hmem (by decide) (by decide)

end Viy.Emu
