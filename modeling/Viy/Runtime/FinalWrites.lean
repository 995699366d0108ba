import Mathlib.Data.Finset.Card
import Mathlib.Data.List.Nodup
import Viy.Cxx.Coalesce
import Viy.Events.Normalize

/-!
# The final writes of a run

After a run the driver reads back what the run has written. It collects the recorded write accesses,
sorts them by scope and address, merges those that overlap or touch, and reads the merged ranges one
after the other until the byte budget is used up. A read that fails leaves its range out. Whatever
fails, what is captured was written by the run, in separate ranges; with enough budget and no
failure it is all that was written.
-/

namespace Viy.Runtime

open Wire Emu Cxx Fault

/-! ## The capture -/

/-- `Range` -/
structure WriteRange where
  lo : UInt64
  hi : UInt64
  scope : DataScope

/-- The range of a write access of the run. -/
def writeRange (runId : UInt32) (a : DataAcc) : Option WriteRange :=
  if a.kind ≠ .write ∨ a.size = 0 ∨ a.runId ≠ runId then none
  else
    let hi := if a.addr > ~~~0 - a.size.toUInt64 then ~~~0 else a.addr + a.size.toUInt64
    if hi ≤ a.addr then none else some ⟨a.addr, hi, a.scope⟩

def rangeOrder : Comparator (ℕ × UInt64 × UInt64) :=
  Comparator.tie .nat (Comparator.tie .u64 .u64)

/-- `std::tie(scope, lo, hi)` -/
def WriteRange.key (r : WriteRange) : ℕ × UInt64 × UInt64 :=
  (Events.scopeNumber r.scope, r.lo, r.hi)

def joinRange (back r : WriteRange) : Option WriteRange :=
  if r.scope = back.scope ∧ r.lo ≤ back.hi then
    some { back with hi := if back.hi < r.hi then r.hi else back.hi }
  else none

def mergedRanges (runId : UInt32) (data : List DataAcc) : List WriteRange :=
  coalesce joinRange
    (sort (fun a b => rangeOrder.less a.key b.key) (data.filterMap (writeRange runId)))

/-- Reading the merged ranges. -/
def captureLoop (runId : UInt32) (seed : UInt64) : UInt64 → List WriteRange →
    RaxProc (List MemoryBytes)
  | _, [] => pure []
  | remaining, r :: ranges =>
    if remaining = 0 then pure []
    else
      let rawLen := r.hi - r.lo
      let len := if remaining < rawLen then remaining else rawLen
      if len = 0 then captureLoop runId seed remaining ranges
      else do
        match ← (memRead r.lo len.toNat).attempt with
        | none => captureLoop runId seed remaining ranges
        | some bytes =>
          let rest ← captureLoop runId seed (remaining - len) ranges
          pure ({ addr := r.lo, bytes := bytes, scope := r.scope, runId := runId
                  seed := seed } :: rest)

/-- `readable` says that the engine has `mem_read`. -/
def captureFinalWrites (readable : Bool) (maxRuntimeBytes : UInt64) (runId : UInt32) (seed : UInt64)
    (dataBegin : ℕ) (out : EmuEvents) : RaxProc EmuEvents :=
  if readable = false ∨ maxRuntimeBytes = 0 ∨ out.data.length ≤ dataBegin then pure out
  else do
    let captured ← captureLoop runId seed maxRuntimeBytes
      (mergedRanges runId (out.data.drop dataBegin))
    pure { out with finalWrites := out.finalWrites ++ captured }

/-! ## Written bytes -/

/-- The bytes that the write accesses of the run cover, each with its scope. -/
def writtenBytes (runId : UInt32) (data : List DataAcc) : List (DataScope × ℕ) :=
  (data.filter fun a => a.kind = .write ∧ a.runId = runId).flatMap fun a =>
    (List.range a.size.toNat).map fun i => (a.scope, a.addr.toNat + i)

section Ranges

variable {runId : UInt32} {data : List DataAcc} {scope : DataScope} {x : ℕ}

theorem mem_writtenBytes : (scope, x) ∈ writtenBytes runId data ↔
    ∃ a ∈ data, a.kind = .write ∧ a.runId = runId ∧ a.scope = scope ∧
      a.addr.toNat ≤ x ∧ x < a.addr.toNat + a.size.toNat := by
  simp only [writtenBytes, List.mem_flatMap, List.mem_filter, List.mem_map, List.mem_range,
    decide_eq_true_eq, Prod.mk.injEq]
  constructor
  · rintro ⟨a, ⟨ha, hkind, hrun⟩, i, hi, hscope, rfl⟩
    exact ⟨a, ha, hkind, hrun, hscope, by omega, by omega⟩
  · rintro ⟨a, ha, hkind, hrun, hscope, hle, hlt⟩
    exact ⟨a, ⟨ha, hkind, hrun⟩, x - a.addr.toNat, by omega, hscope, by omega⟩

namespace WriteRange

/-- The byte is in the range. -/
def Covers (r : WriteRange) (p : DataScope × ℕ) : Prop :=
  r.scope = p.1 ∧ r.lo.toNat ≤ p.2 ∧ p.2 < r.hi.toNat

/-- The order of the scan: by scope, then by where a range begins. -/
def Before (r r' : WriteRange) : Prop :=
  Events.scopeNumber r.scope < Events.scopeNumber r'.scope ∨
    r.scope = r'.scope ∧ r.lo.toNat ≤ r'.lo.toNat

/-- Ranges of one scope with a gap between them. -/
def Apart (r r' : WriteRange) : Prop :=
  Events.scopeNumber r.scope < Events.scopeNumber r'.scope ∨
    r.scope = r'.scope ∧ r.hi.toNat < r'.lo.toNat

end WriteRange

open WriteRange

/-- An access whose end does not overflow has its own bytes for a range. -/
theorem writeRange_covers {a : DataAcc} (hend : a.addr.toNat + a.size.toNat < 2 ^ 64) :
    (∃ r, writeRange runId a = some r ∧ r.Covers (scope, x)) ↔
      a.kind = .write ∧ a.runId = runId ∧ a.scope = scope ∧
        a.addr.toNat ≤ x ∧ x < a.addr.toNat + a.size.toNat := by
  have hsize : a.size.toUInt64.toNat = a.size.toNat := UInt32.toNat_toUInt64 a.size
  have hroom : (~~~0 - a.size.toUInt64).toNat = 2 ^ 64 - 1 - a.size.toNat := by
    have hmax : (~~~0 : UInt64).toNat = 2 ^ 64 - 1 := by decide
    have hlt := a.size.toNat_lt
    rw [UInt64.toNat_sub, hmax, hsize]
    omega
  have hfits : ¬ a.addr > ~~~0 - a.size.toUInt64 := by
    rw [gt_iff_lt, UInt64.lt_iff_toNat_lt, hroom]
    omega
  have hsum : (a.addr + a.size.toUInt64).toNat = a.addr.toNat + a.size.toNat := by
    rw [UInt64.toNat_add, hsize, Nat.mod_eq_of_lt hend]
  unfold writeRange
  by_cases hskip : a.kind ≠ .write ∨ a.size = 0 ∨ a.runId ≠ runId
  · rw [if_pos hskip]
    refine iff_of_false ?_ ?_
    · rintro ⟨r, hr, -⟩
      cases hr
    · rintro ⟨hkind, hrun, -, hle, hlt⟩
      rcases hskip with hne | hzero | hne
      · exact hne hkind
      · rw [hzero] at hlt
        exact absurd hlt (Nat.not_lt.2 hle)
      · exact hne hrun
  · rw [if_neg hskip, if_neg hfits]
    rw [not_or, not_or, not_not, not_not] at hskip
    obtain ⟨hkind, hsize0, hrun⟩ := hskip
    have hpos : a.size.toNat ≠ 0 := fun h => hsize0 (UInt32.toNat_inj.1 h)
    have hgrows : ¬ a.addr + a.size.toUInt64 ≤ a.addr := by
      rw [UInt64.le_iff_toNat_le, hsum]
      omega
    dsimp only
    rw [if_neg hgrows]
    constructor
    · rintro ⟨r, hr, hscope, hle, hlt⟩
      obtain rfl := Option.some.inj hr
      exact ⟨hkind, hrun, hscope, hle, hsum ▸ hlt⟩
    · rintro ⟨-, -, hscope, hle, hlt⟩
      exact ⟨_, rfl, hscope, hle, hsum ▸ hlt⟩

theorem writeRange_lt {a : DataAcc} {r : WriteRange} (h : writeRange runId a = some r) :
    r.lo.toNat < r.hi.toNat := by
  unfold writeRange at h
  dsimp only at h
  generalize (if a.addr > _ then _ else _ : UInt64) = hi at h
  split_ifs at h with _ hle
  obtain rfl := Option.some.inj h
  exact UInt64.lt_iff_toNat_lt.1 (UInt64.not_le.1 hle)

theorem scopeNumber_inj {s t : DataScope} (h : Events.scopeNumber s = Events.scopeNumber t) :
    s = t := by
  cases s <;> cases t <;> first | rfl | cases h

theorem before_of_not_less {r r' : WriteRange} (h : rangeOrder.less r'.key r.key = false) :
    r.Before r' := by
  obtain ⟨hscope, hrest⟩ := Bool.or_eq_false_iff.1 h
  have hle := Nat.not_lt.1 (of_decide_eq_false hscope)
  rcases Nat.lt_or_eq_of_le hle with hlt | heq
  · exact Or.inl hlt
  · refine Or.inr ⟨scopeNumber_inj heq, ?_⟩
    rcases Bool.and_eq_false_iff.1 hrest with hless | hlo
    · have hlt := of_decide_eq_true (Bool.not_eq_false' _ ▸ hless)
      exact absurd heq (Nat.ne_of_lt hlt)
    · exact Nat.not_lt.1 fun hlt =>
        of_decide_eq_false (Bool.or_eq_false_iff.1 hlo).1 (UInt64.lt_iff_toNat_lt.2 hlt)

/-- The join of two ranges of one scope is the range from the start of the first. -/
theorem joinRange_eq_some {b r b' : WriteRange} (h : joinRange b r = some b') :
    r.scope = b.scope ∧ r.lo.toNat ≤ b.hi.toNat ∧ b'.scope = b.scope ∧ b'.lo = b.lo ∧
      b'.hi.toNat = max b.hi.toNat r.hi.toNat := by
  unfold joinRange at h
  generalize hhi : (if b.hi < r.hi then r.hi else b.hi) = hi at h
  split_ifs at h with hjoin
  obtain rfl := Option.some.inj h
  refine ⟨hjoin.1, UInt64.le_iff_toNat_le.1 hjoin.2, rfl, rfl, ?_⟩
  rw [← hhi, toNat_ite_max]

theorem joinRange_eq_none {b r : WriteRange} (h : joinRange b r = none)
    (hscope : r.scope = b.scope) : b.hi.toNat < r.lo.toNat := by
  by_contra hle
  have hjoin : r.scope = b.scope ∧ r.lo ≤ b.hi :=
    ⟨hscope, UInt64.le_iff_toNat_le.2 (Nat.not_lt.1 hle)⟩
  rw [joinRange, if_pos hjoin] at h
  cases h

theorem before_of_joinRange {b r b' r' : WriteRange} (h : joinRange b r = some b')
    (hb : b.Before r') (_ : r.Before r') : b'.Before r' := by
  obtain ⟨-, -, hscope, hlo, -⟩ := joinRange_eq_some h
  unfold Before at hb ⊢
  rwa [hscope, hlo]

theorem covers_joinRange {b r b' : WriteRange} {p : DataScope × ℕ} (hbefore : b.Before r)
    (h : joinRange b r = some b') : b'.Covers p ↔ b.Covers p ∨ r.Covers p := by
  obtain ⟨hscope, hle, hscope', hlo, hhi⟩ := joinRange_eq_some h
  have hstart : b.lo.toNat ≤ r.lo.toNat := by
    rcases hbefore with hlt | ⟨-, hstart⟩
    · rw [hscope] at hlt
      exact absurd hlt (Nat.lt_irrefl _)
    · exact hstart
  unfold Covers
  rw [hscope', hscope, hlo, hhi]
  by_cases hp : b.scope = p.1
  · simp only [hp, true_and]
    omega
  · simp only [hp, false_and, or_self]

/-- The accesses in scan order. -/
theorem sortedRanges_pairwise (runId : UInt32) (data : List DataAcc) :
    (sort (fun a b => rangeOrder.less (key a) (key b)) (data.filterMap (writeRange runId))).Pairwise
      Before :=
  (sort_pairwise_key rangeOrder key _).imp before_of_not_less

/-- The merged ranges have gaps between them. -/
theorem mergedRanges_apart (runId : UInt32) (data : List DataAcc) :
    (mergedRanges runId data).Pairwise Apart := by
  refine coalesce_pairwise (fun _ _ _ _ => before_of_joinRange) ?_ ?_ ?_
    (sortedRanges_pairwise runId data)
  · rintro b r (hlt | ⟨hscope, -⟩) hnone
    · exact Or.inl hlt
    · exact Or.inr ⟨hscope, joinRange_eq_none hnone hscope.symm⟩
  · rintro b r r' (hlt | ⟨hscope, hgap⟩) (hlt' | ⟨hscope', hstart⟩)
    · exact Or.inl (hlt.trans hlt')
    · exact Or.inl (hscope' ▸ hlt)
    · exact Or.inl (hscope ▸ hlt')
    · exact Or.inr ⟨hscope.trans hscope', by omega⟩
  · intro a b r b' hapart hjoin
    obtain ⟨-, -, hscope, hlo, -⟩ := joinRange_eq_some hjoin
    unfold Apart at hapart ⊢
    rwa [hscope, hlo]

theorem mergedRanges_lt {r : WriteRange} (hr : r ∈ mergedRanges runId data) :
    r.lo.toNat < r.hi.toNat := by
  refine @coalesce_forall _ joinRange (fun r => r.lo.toNat < r.hi.toNat) ?_ _ ?_ r hr
  · intro b r b' hb _ hjoin
    obtain ⟨-, -, -, hlo, hhi⟩ := joinRange_eq_some hjoin
    rw [hlo, hhi]
    omega
  · intro x hx
    obtain ⟨a, -, ha⟩ := List.mem_filterMap.1 (mem_sort.1 hx)
    exact writeRange_lt ha

/-- Together they are what the run has written. -/
theorem mergedRanges_covers
    (hends : ∀ a ∈ data, a.addr.toNat + a.size.toNat < 2 ^ 64) (p : DataScope × ℕ) :
    (∃ r ∈ mergedRanges runId data, r.Covers p) ↔ p ∈ writtenBytes runId data := by
  obtain ⟨scope, x⟩ := p
  have hcovers := coalesce_covers (fun _ _ _ _ => before_of_joinRange)
    (fun _ _ _ => @covers_joinRange _ _ _ (scope, x)) (sortedRanges_pairwise runId data)
  refine hcovers.trans ?_
  rw [mem_writtenBytes]
  constructor
  · rintro ⟨r, hr, hx⟩
    obtain ⟨a, ha, har⟩ := List.mem_filterMap.1 (mem_sort.1 hr)
    exact ⟨a, ha, (writeRange_covers (hends a ha)).1 ⟨r, har, hx⟩⟩
  · rintro ⟨a, ha, hwritten⟩
    obtain ⟨r, har, hx⟩ := (writeRange_covers (hends a ha)).2 hwritten
    exact ⟨r, mem_sort.2 (List.mem_filterMap.2 ⟨a, ha, har⟩), hx⟩

end Ranges

/-! ## Reading the ranges -/

/-- A read succeeds, or the script has a failure for it. -/
theorem attempt_memRead (a : UInt64) (n : ℕ) (s : Machine) (script : List Outcome) :
    (∃ rest, (memRead a n).attempt.run s script =
        (some (some (load s.guest.mem a n)), s.noteReads [(a, n)], rest) ∧
      ((∀ o ∈ script, o = .ok) → ∀ o ∈ rest, o = .ok)) ∨
    ∃ rest, (memRead a n).attempt.run s script = (some none, s, rest) ∧ .fails ∈ script := by
  cases script with
  | nil => exact Or.inl ⟨[], rfl, fun h => h⟩
  | cons outcome script =>
    cases outcome with
    | ok => exact Or.inl ⟨script, rfl, fun h o ho => h o (List.mem_cons_of_mem _ ho)⟩
    | fails => exact Or.inr ⟨script, rfl, List.mem_cons_self⟩

/-- What is read of a range: bytes of the guest from its start on. -/
structure Captures (mem : Memory) (runId : UInt32) (seed : UInt64) (b : MemoryBytes)
    (r : WriteRange) : Prop where
  addr : b.addr = r.lo
  scope : b.scope = r.scope
  length : b.bytes.length ≤ r.hi.toNat - r.lo.toNat
  bytes : b.bytes = load mem b.addr b.bytes.length
  runId : b.runId = runId
  seed : b.seed = seed

/-- The whole range is read. -/
def Whole (b : MemoryBytes) (r : WriteRange) : Prop :=
  b.addr = r.lo ∧ b.scope = r.scope ∧ b.bytes.length = r.hi.toNat - r.lo.toNat

def totalLength (ranges : List WriteRange) : ℕ :=
  (ranges.map fun r => r.hi.toNat - r.lo.toNat).sum

def capturedLength (l : List MemoryBytes) : ℕ := (l.map fun b => b.bytes.length).sum

/-- What the loop makes of the ranges; `Undisturbed` says that no read fails. -/
structure Captured (mem : Memory) (runId : UInt32) (seed : UInt64) (remaining : ℕ)
    (Undisturbed : Prop) (ranges : List WriteRange) (l : List MemoryBytes) : Prop where
  sources : List.SublistForall₂ (Captures mem runId seed) l ranges
  total : capturedLength l ≤ remaining
  whole : Undisturbed → totalLength ranges ≤ remaining → List.Forall₂ Whole l ranges

section Loop

variable {runId : UInt32} {seed : UInt64}

section Turn

variable {mem : Memory} {remaining : ℕ} {Undisturbed Undisturbed' : Prop}
  {ranges : List WriteRange} {l : List MemoryBytes} {r : WriteRange}

/-- A range that is read, as far as the budget goes. -/
theorem Captured.read {n : ℕ} (h : Captured mem runId seed (remaining - n) Undisturbed' ranges l)
    (hn : n = min remaining (r.hi.toNat - r.lo.toNat)) (hscript : Undisturbed → Undisturbed') :
    Captured mem runId seed remaining Undisturbed (r :: ranges)
      ({ addr := r.lo, bytes := load mem r.lo n, scope := r.scope, runId := runId
         seed := seed } :: l) := by
  have hlength := length_load mem r.lo n
  have htotal := h.total
  refine ⟨.cons ?_ h.sources, ?_, ?_⟩
  · refine ⟨rfl, rfl, ?_, ?_, rfl, rfl⟩
    · rw [hlength]
      omega
    · rw [hlength]
  · show (load mem r.lo n).length + capturedLength l ≤ remaining
    omega
  · intro hok hle
    have hsum : (r.hi.toNat - r.lo.toNat) + totalLength ranges ≤ remaining := hle
    refine .cons ⟨rfl, rfl, ?_⟩ (h.whole (hscript hok) (by omega))
    rw [hlength]
    omega

/-- A range that is left out, because its read fails. -/
theorem Captured.skip (h : Captured mem runId seed remaining Undisturbed' ranges l)
    (hfails : ¬ Undisturbed) : Captured mem runId seed remaining Undisturbed (r :: ranges) l :=
  ⟨.cons_right h.sources, h.total, fun hok => absurd hok hfails⟩

/-- No budget is left. -/
theorem captured_nil (hlt : ∀ r ∈ ranges, r.lo.toNat < r.hi.toNat)
    (hnone : remaining = 0 ∨ ranges = []) :
    Captured mem runId seed remaining Undisturbed ranges [] := by
  refine ⟨.nil, Nat.zero_le _, fun _ hle => ?_⟩
  cases ranges with
  | nil => exact .nil
  | cons r ranges =>
    have hr := hlt r List.mem_cons_self
    have hsum : (r.hi.toNat - r.lo.toNat) + totalLength ranges ≤ remaining := hle
    rcases hnone with hzero | hempty
    · omega
    · cases hempty

end Turn

/-- **Reading back.** The loop captures some of the ranges in their order, within the budget, and
all of them if the budget is enough and no read fails. -/
theorem captureLoop_captured {ranges : List WriteRange} :
    ∀ {remaining : UInt64} {s : Machine} {script : List Outcome},
      (∀ r ∈ ranges, r.lo.toNat < r.hi.toNat) →
        ∃ l s' rest, (captureLoop runId seed remaining ranges).run s script = (some l, s', rest) ∧
          Captured s.guest.mem runId seed remaining.toNat (∀ o ∈ script, o = .ok) ranges l := by
  induction ranges with
  | nil =>
    intro remaining s script hlt
    exact ⟨[], s, script, rfl, captured_nil hlt (Or.inr rfl)⟩
  | cons r ranges ih =>
    intro remaining s script hlt
    have hr : r.lo.toNat < r.hi.toNat := hlt r List.mem_cons_self
    have hrest : ∀ r ∈ ranges, r.lo.toNat < r.hi.toNat :=
      fun r' hr' => hlt r' (List.mem_cons_of_mem r hr')
    rw [captureLoop]
    by_cases hzero : remaining = 0
    · rw [if_pos hzero]
      exact ⟨[], s, script, rfl, captured_nil hlt (Or.inl (by rw [hzero]; rfl))⟩
    · rw [if_neg hzero]
      have hpos : remaining.toNat ≠ 0 := fun h => hzero (UInt64.toNat_inj.1 h)
      set len := if remaining < r.hi - r.lo then remaining else r.hi - r.lo with hlen
      have hlen_nat : len.toNat = min remaining.toNat (r.hi.toNat - r.lo.toNat) := by
        rw [hlen, toNat_ite_min,
          UInt64.toNat_sub_of_le _ _ (UInt64.le_iff_toNat_le.2 hr.le)]
      have hlen0 : ¬ len = 0 := by
        rw [← UInt64.toNat_inj, hlen_nat]
        have hnone : (0 : UInt64).toNat = 0 := rfl
        omega
      dsimp only
      rw [if_neg hlen0]
      rcases attempt_memRead r.lo len.toNat s script with
        ⟨rest, hread, hok⟩ | ⟨rest, hread, hfails⟩
      · obtain ⟨l, s', rest', hrun, hcaptured⟩ := @ih (remaining - len)
          (s.noteReads [(r.lo, len.toNat)]) rest hrest
        rw [Proc.run_bind_of_returned hread, Proc.run_bind_of_returned hrun]
        have hleft : (remaining - len).toNat = remaining.toNat - len.toNat :=
          UInt64.toNat_sub_of_le _ _ (UInt64.le_iff_toNat_le.2 (by omega))
        rw [hleft] at hcaptured
        exact ⟨_, s', rest', rfl, hcaptured.read hlen_nat hok⟩
      · obtain ⟨l, s', rest', hrun, hcaptured⟩ := @ih remaining s rest hrest
        rw [Proc.run_bind_of_returned hread]
        refine ⟨l, s', rest', hrun, hcaptured.skip fun hscript => ?_⟩
        exact absurd (hscript _ hfails) (by decide)

/-- Every piece is read from one of the ranges. -/
theorem exists_source {mem : Memory} {l : List MemoryBytes} {ranges : List WriteRange}
    (h : List.SublistForall₂ (Captures mem runId seed) l ranges) :
    ∀ b ∈ l, ∃ r ∈ ranges, Captures mem runId seed b r := by
  induction h with
  | nil =>
    intro b hb
    cases hb
  | cons hcaptures _ ih =>
    intro b hb
    rcases List.mem_cons.1 hb with rfl | hb
    · exact ⟨_, List.mem_cons_self, hcaptures⟩
    · obtain ⟨r, hr, hb⟩ := ih b hb
      exact ⟨r, List.mem_cons_of_mem _ hr, hb⟩
  | cons_right _ ih =>
    intro b hb
    obtain ⟨r, hr, hb⟩ := ih b hb
    exact ⟨r, List.mem_cons_of_mem _ hr, hb⟩

/-- Pieces of ranges with gaps between them have gaps between them. -/
theorem captures_pairwise {mem : Memory} {l : List MemoryBytes} {ranges : List WriteRange}
    (h : List.SublistForall₂ (Captures mem runId seed) l ranges)
    (hlt : ∀ r ∈ ranges, r.lo.toNat < r.hi.toNat) (hapart : ranges.Pairwise WriteRange.Apart) :
    l.Pairwise fun b b' => b.scope = b'.scope →
      b.addr.toNat + b.bytes.length < b'.addr.toNat := by
  induction h with
  | nil => exact List.Pairwise.nil
  | @cons b r l ranges hcaptures hsources ih =>
    obtain ⟨hr, hranges⟩ := List.pairwise_cons.1 hapart
    have hrest := ih (fun r hr => hlt r (List.mem_cons_of_mem _ hr)) hranges
    refine List.pairwise_cons.2 ⟨fun b' hb' hscope => ?_, hrest⟩
    obtain ⟨r', hr', hcaptures'⟩ := exists_source hsources b' hb'
    have hpos := hlt r List.mem_cons_self
    have hlength := hcaptures.length
    rw [hcaptures.scope, hcaptures'.scope] at hscope
    rw [hcaptures.addr, hcaptures'.addr]
    rcases hr r' hr' with hnumber | ⟨-, hgap⟩
    · rw [hscope] at hnumber
      exact absurd hnumber (Nat.lt_irrefl _)
    · omega
  | cons_right _ ih =>
    exact ih (fun r hr => hlt r (List.mem_cons_of_mem _ hr)) (List.pairwise_cons.1 hapart).2

/-- The byte is in the piece. -/
def InPiece (b : MemoryBytes) (p : DataScope × ℕ) : Prop :=
  b.scope = p.1 ∧ b.addr.toNat ≤ p.2 ∧ p.2 < b.addr.toNat + b.bytes.length

theorem whole_covers {l : List MemoryBytes} {ranges : List WriteRange} {p : DataScope × ℕ}
    (h : List.Forall₂ Whole l ranges) (hlt : ∀ r ∈ ranges, r.lo.toNat < r.hi.toNat) :
    (∃ b ∈ l, InPiece b p) ↔ ∃ r ∈ ranges, r.Covers p := by
  induction h with
  | nil => simp
  | @cons b r l ranges hwhole _ ih =>
    obtain ⟨haddr, hscope, hlength⟩ := hwhole
    have hpos := hlt r List.mem_cons_self
    have hhead : InPiece b p ↔ r.Covers p := by
      unfold InPiece WriteRange.Covers
      rw [haddr, hscope, hlength, Nat.add_sub_of_le hpos.le]
    rw [List.exists_mem_cons_iff, List.exists_mem_cons_iff, hhead,
      ih fun r hr => hlt r (List.mem_cons_of_mem _ hr)]

end Loop

/-- The bytes of a range, each with its scope. -/
def WriteRange.members (r : WriteRange) : List (DataScope × ℕ) :=
  (List.range (r.hi.toNat - r.lo.toNat)).map fun i => (r.scope, r.lo.toNat + i)

theorem WriteRange.mem_members {r : WriteRange} {p : DataScope × ℕ} :
    p ∈ r.members ↔ r.Covers p := by
  obtain ⟨scope, x⟩ := p
  simp only [members, Covers, List.mem_map, List.mem_range, Prod.mk.injEq]
  constructor
  · rintro ⟨i, hi, hscope, rfl⟩
    exact ⟨hscope, by omega, by omega⟩
  · rintro ⟨hscope, hle, hlt⟩
    exact ⟨x - r.lo.toNat, by omega, hscope, by omega⟩

theorem WriteRange.members_nodup (r : WriteRange) : r.members.Nodup := by
  refine List.nodup_range.map ?_
  intro i j h
  have hsum : r.lo.toNat + i = r.lo.toNat + j := congrArg Prod.snd h
  omega

/-- Separate ranges are as long together as the set of their bytes. -/
theorem totalLength_le_card {runId : UInt32} {data : List DataAcc}
    (hends : ∀ a ∈ data, a.addr.toNat + a.size.toNat < 2 ^ 64) :
    totalLength (mergedRanges runId data) ≤ (writtenBytes runId data).toFinset.card := by
  set ranges := mergedRanges runId data with hranges
  have hnodup : (ranges.flatMap WriteRange.members).Nodup := by
    refine List.nodup_flatMap.2 ⟨fun r _ => r.members_nodup, ?_⟩
    refine (mergedRanges_apart runId data).imp_of_mem fun {r r'} hr hr' hapart p hp hp' => ?_
    obtain ⟨hscope, hle, hlt⟩ := WriteRange.mem_members.1 hp
    obtain ⟨hscope', hle', hlt'⟩ := WriteRange.mem_members.1 hp'
    rcases hapart with hnumber | ⟨-, hgap⟩
    · rw [hscope, hscope'] at hnumber
      exact absurd hnumber (Nat.lt_irrefl _)
    · omega
  have hlength : (ranges.flatMap WriteRange.members).length = totalLength ranges := by
    rw [List.length_flatMap, totalLength]
    simp only [WriteRange.members, List.length_map, List.length_range]
  rw [← hlength, ← List.toFinset_card_of_nodup hnodup]
  apply Finset.card_le_card
  intro p hp
  obtain ⟨r, hr, hpr⟩ := List.mem_flatMap.1 (List.mem_toFinset.1 hp)
  exact List.mem_toFinset.2
    ((mergedRanges_covers hends p).1 ⟨r, hr, WriteRange.mem_members.1 hpr⟩)

/-! ## The captured bytes -/

/-- The captured pieces: in order with gaps between them in each scope, written by the run, read
from the guest, and within the budget. -/
structure FinalWrites (mem : Memory) (runId : UInt32) (seed : UInt64) (data : List DataAcc)
    (budget : ℕ) (l : List MemoryBytes) : Prop where
  separate : l.Pairwise fun b b' => b.scope = b'.scope →
    b.addr.toNat + b.bytes.length < b'.addr.toNat
  written : ∀ b ∈ l, ∀ p, InPiece b p → p ∈ writtenBytes runId data
  read : ∀ b ∈ l, b.bytes = load mem b.addr b.bytes.length ∧ b.runId = runId ∧ b.seed = seed
  total : capturedLength l ≤ budget

theorem finalWrites_nil (mem : Memory) (runId : UInt32) (seed : UInt64) (data : List DataAcc)
    (budget : ℕ) : FinalWrites mem runId seed data budget [] where
  separate := List.Pairwise.nil
  written _ hb := absurd hb List.not_mem_nil
  read _ hb := absurd hb List.not_mem_nil
  total := Nat.zero_le _

/-- **Final writes.** Under every budget and whatever reads fail, the pieces appended after a run
are separate in each scope, have only bytes that the run has written there, and stay within the
budget. If the budget is enough for the union of the written ranges and no read fails, they have all
of them. -/
theorem final_writes_captured (readable : Bool) (maxRuntimeBytes : UInt64) (runId : UInt32)
    (seed : UInt64) (dataBegin : ℕ) (out : EmuEvents) (s : Machine) (script : List Outcome)
    (hends : ∀ a ∈ out.data.drop dataBegin, a.addr.toNat + a.size.toNat < 2 ^ 64) :
    ∃ l s' rest,
      (captureFinalWrites readable maxRuntimeBytes runId seed dataBegin out).run s script =
        (some { out with finalWrites := out.finalWrites ++ l }, s', rest) ∧
      FinalWrites s.guest.mem runId seed (out.data.drop dataBegin) maxRuntimeBytes.toNat l ∧
      (readable = true → (∀ o ∈ script, o = .ok) →
        (writtenBytes runId (out.data.drop dataBegin)).toFinset.card ≤ maxRuntimeBytes.toNat →
        ∀ p, (∃ b ∈ l, InPiece b p) ↔ p ∈ writtenBytes runId (out.data.drop dataBegin)) := by
  set data := out.data.drop dataBegin with hdata
  unfold captureFinalWrites
  by_cases hearly : readable = false ∨ maxRuntimeBytes = 0 ∨ out.data.length ≤ dataBegin
  · rw [if_pos hearly]
    refine ⟨[], s, script, by rw [List.append_nil]; rfl, finalWrites_nil _ _ _ _ _, ?_⟩
    intro hreadable _ hcard p
    -- with no budget or no access there is nothing to capture
    have hnone : writtenBytes runId data = [] := by
      rcases hearly with hnot | hzero | hlength
      · rw [hnot] at hreadable
        cases hreadable
      · rw [hzero] at hcard
        exact List.toFinset_eq_empty_iff _ |>.1 (Finset.card_eq_zero.1 (Nat.le_zero.1 hcard))
      · rw [hdata, List.drop_eq_nil_of_le hlength]
        rfl
    rw [hnone]
    simp
  · rw [if_neg hearly]
    have hlt : ∀ r ∈ mergedRanges runId data, r.lo.toNat < r.hi.toNat := fun r => mergedRanges_lt
    obtain ⟨l, s', rest, hrun, hcaptured⟩ :=
      @captureLoop_captured runId seed _ maxRuntimeBytes s script hlt
    rw [Proc.run_bind_of_returned hrun]
    refine ⟨l, s', rest, rfl, ⟨?_, ?_, ?_, hcaptured.total⟩, ?_⟩
    · exact captures_pairwise hcaptured.sources hlt (mergedRanges_apart runId data)
    · rintro b hb p ⟨hscope, hle, hend⟩
      obtain ⟨r, hr, hcaptures⟩ := exists_source hcaptured.sources b hb
      have hlength := hcaptures.length
      rw [hcaptures.scope] at hscope
      rw [hcaptures.addr] at hle hend
      exact (mergedRanges_covers hends p).1 ⟨r, hr, hscope, hle, by omega⟩
    · intro b hb
      obtain ⟨r, -, hcaptures⟩ := exists_source hcaptured.sources b hb
      exact ⟨hcaptures.bytes, hcaptures.runId, hcaptures.seed⟩
    · intro _ hscript hcard p
      have hwhole := hcaptured.whole hscript ((totalLength_le_card hends).trans hcard)
      exact (whole_covers hwhole hlt).trans (mergedRanges_covers hends p)

/-- Behind an access of an earlier run: writes that overlap and touch, in two scopes, and a read. -/
def mixedAccesses : EmuEvents where
  data :=
    let access (addr : UInt64) (size : UInt32) (kind : MemKind) (scope : DataScope)
        (runId : UInt32) : DataAcc :=
      { from_ := 0x400, addr := addr, value := 0, size := size, kind := kind, scope := scope
        sequence := 0, runId := runId, seed := 7 }
    [access 0x1100 4 .write .image 1, access 0x1004 4 .write .image 2,
      access 0x7000 8 .write .stack 2, access 0x1000 2 .write .image 2,
      access 0x1040 4 .read .image 2, access 0x1001 3 .write .image 2]

/-- A guest of zero bytes. -/
def blankMachine : Machine where
  hooks := {}
  guest := { mem := fun _ => 0, regs := fun _ => 0 }

theorem mixedAccesses_captured :
    (∀ a ∈ mixedAccesses.data.drop 1, a.addr.toNat + a.size.toNat < 2 ^ 64) ∧
    (writtenBytes 2 (mixedAccesses.data.drop 1)).toFinset.card ≤ (16 : UInt64).toNat ∧
    ∃ l s' rest,
      (captureFinalWrites true 16 2 7 1 mixedAccesses).run blankMachine [.ok, .ok] =
        (some { mixedAccesses with finalWrites := [] ++ l }, s', rest) ∧
      FinalWrites blankMachine.guest.mem 2 7 (mixedAccesses.data.drop 1) 16 l ∧
      ∀ p, (∃ b ∈ l, InPiece b p) ↔ p ∈ writtenBytes 2 (mixedAccesses.data.drop 1) := by
  have hends : ∀ a ∈ mixedAccesses.data.drop 1, a.addr.toNat + a.size.toNat < 2 ^ 64 := by decide
  have hcard : (writtenBytes 2 (mixedAccesses.data.drop 1)).toFinset.card ≤
      (16 : UInt64).toNat := by
    decide +kernel
  obtain ⟨l, s', rest, hrun, hfinal, hall⟩ :=
    final_writes_captured true 16 2 7 1 mixedAccesses blankMachine [.ok, .ok] hends
  exact ⟨hends, hcard, l, s', rest, hrun, hfinal, hall rfl (by decide) hcard⟩

example : ((captureFinalWrites true 10 2 7 1 mixedAccesses).run blankMachine [.ok, .ok]).1.map
    (fun out => out.finalWrites.map fun b => (b.addr, b.bytes.length)) =
      some [(0x1000, 8), (0x7000, 2)] := by
  decide +kernel

end Viy.Runtime
