import Viy.Events.Normalize
import Viy.Wire.Writes

/-!
# Runtime patches

Bytes that runs have written may be patched into the database. A range is patched only if no
observation of its scope says otherwise: `range_has_conflict` compares it with all of them, also
with those that other ranges were cut from. So ranges that pass agree with each other, and the order
in which they are patched does not matter.
-/

namespace Viy.Runtime

open Wire Emu Cxx

/-! ## The gate -/

def checkedEnd (start : UInt64) (size : ℕ) : Option UInt64 :=
  if size > (~~~0 - start).toNat then none else some (start + .ofNat size)

def MemoryBytes.write (o : MemoryBytes) : Write := ⟨o.addr, o.bytes⟩

/-- The body of the loop over the observations. -/
def observationConflicts (expected : Write) (expectedEnd : UInt64) (scope : DataScope)
    (observation : MemoryBytes) : Bool :=
  if observation.scope ≠ scope ∨ observation.bytes = [] then false
  else
    match checkedEnd observation.addr observation.bytes.length with
    | none => true
    | some observedEnd =>
      let lo := max expected.addr observation.addr
      let hi := min expectedEnd observedEnd
      if hi ≤ lo then false
      else (List.range (hi - lo).toNat).any fun k =>
        let ea := lo + .ofNat k
        expected.bytes.getD (ea - expected.addr).toNat 0 !=
          observation.bytes.getD (ea - observation.addr).toNat 0

def rangeHasConflict (observations : List MemoryBytes) (expected : Write) (scope : DataScope) :
    Bool :=
  if expected.bytes = [] then true
  else
    match checkedEnd expected.addr expected.bytes.length with
    | none => true
    | some expectedEnd => observations.any (observationConflicts expected expectedEnd scope)

/-- Nothing speaks against the range. -/
structure Unopposed (observations : List MemoryBytes) (expected : Write) (scope : DataScope) :
    Prop where
  fits : expected.addr.toNat + expected.bytes.length < 2 ^ 64
  others_fit : ∀ o ∈ observations, o.scope = scope → o.bytes ≠ [] →
    o.addr.toNat + o.bytes.length < 2 ^ 64
  agree : ∀ o ∈ observations, o.scope = scope → expected.Agree o.write

section Gate

variable {start end_ : UInt64} {size : ℕ}

theorem checkedEnd_eq_some_iff :
    checkedEnd start size = some end_ ↔ start.toNat + size = end_.toNat := by
  have hstart := start.toNat_lt
  have hend := end_.toNat_lt
  unfold checkedEnd
  rw [toNat_max_sub]
  by_cases hgt : size > 2 ^ 64 - 1 - start.toNat
  · rw [if_pos hgt]
    refine iff_of_false (by simp) ?_
    omega
  · rw [if_neg hgt, Option.some.injEq, ← UInt64.toNat_inj, toNat_add_ofNat (by omega)]

theorem checkedEnd_eq_none_iff : checkedEnd start size = none ↔ 2 ^ 64 ≤ start.toNat + size := by
  rw [Option.eq_none_iff_forall_ne_some]
  constructor
  · intro h
    by_contra hlt
    refine h (.ofNat (start.toNat + size)) (checkedEnd_eq_some_iff.2 ?_)
    rw [UInt64.toNat_ofNat_of_lt' (by omega : start.toNat + size < 2 ^ 64)]
  · intro hle e he
    have hsum := checkedEnd_eq_some_iff.1 he
    have hlt := e.toNat_lt
    omega

/-- The loop over the common addresses finds a difference exactly if there is one. -/
theorem common_differ_iff {v w : Write} {vEnd wEnd : UInt64}
    (hv : v.addr.toNat + v.bytes.length = vEnd.toNat)
    (hw : w.addr.toNat + w.bytes.length = wEnd.toNat) {lo hi : UInt64}
    (hlo : lo = max v.addr w.addr) (hhi : hi = min vEnd wEnd) (hlt : lo < hi) :
    ((List.range (hi - lo).toNat).any fun k =>
        v.bytes.getD (lo + .ofNat k - v.addr).toNat 0 !=
          w.bytes.getD (lo + .ofNat k - w.addr).toNat 0) = false ↔ v.Agree w := by
  have hlo_nat : lo.toNat = max v.addr.toNat w.addr.toNat := hlo ▸ toNat_max_u64 ..
  have hhi_nat : hi.toNat = min vEnd.toNat wEnd.toNat := hhi ▸ toNat_min_u64 ..
  have hcount := UInt64.toNat_sub_of_le _ _ (UInt64.le_of_lt hlt)
  have hvEnd := vEnd.toNat_lt
  have hwEnd := wEnd.toNat_lt
  have hvfits : v.addr.toNat + v.bytes.length ≤ 2 ^ 64 := by omega
  have hwfits : w.addr.toNat + w.bytes.length ≤ 2 ^ 64 := by omega
  have hoff : ∀ {a : UInt64} {k : ℕ}, a.toNat ≤ lo.toNat → k < (hi - lo).toNat →
      (lo + .ofNat k - a).toNat = lo.toNat + k - a.toNat := by
    intro a k ha hk
    have hnat : (lo + .ofNat k).toNat = lo.toNat + k := toNat_add_ofNat (by omega)
    rw [UInt64.toNat_sub_of_le _ _ (UInt64.le_iff_toNat_le.2 (by omega)), hnat]
  rw [List.any_eq_false]
  constructor
  · intro hsame x b c hb hc
    obtain ⟨hvx, hvlt, hb⟩ := Write.bounds_of_valueAt hvfits hb
    obtain ⟨hwx, hwlt, hc⟩ := Write.bounds_of_valueAt hwfits hc
    have hk : x.toNat - lo.toNat < (hi - lo).toNat := by omega
    have hback : lo.toNat + (x.toNat - lo.toNat) = x.toNat := by omega
    have hequal := hsame (x.toNat - lo.toNat) (List.mem_range.2 hk)
    rw [Bool.not_eq_true, bne_eq_false_iff_eq, hoff (by omega) hk, hoff (by omega) hk, hback,
      List.getD_eq_getElem?_getD, List.getD_eq_getElem?_getD, hb, hc] at hequal
    exact hequal
  · intro hagree k hk
    have hk := List.mem_range.1 hk
    have hx : (lo + .ofNat k).toNat = lo.toNat + k := toNat_add_ofNat (by omega)
    rw [Bool.not_eq_true, bne_eq_false_iff_eq, hoff (by omega) hk, hoff (by omega) hk,
      List.getD_eq_getElem _ _ (by omega), List.getD_eq_getElem _ _ (by omega)]
    refine hagree (lo + .ofNat k) _ _ ((Write.valueAt_eq_some_iff hvfits).2 ?_)
      ((Write.valueAt_eq_some_iff hwfits).2 ?_)
    · rw [hx]
      exact ⟨by omega, List.getElem?_eq_getElem _⟩
    · rw [hx]
      exact ⟨by omega, List.getElem?_eq_getElem _⟩

/-- Ranges without a common address agree. -/
theorem agree_of_apart {v w : Write} {vEnd wEnd : UInt64}
    (hv : v.addr.toNat + v.bytes.length = vEnd.toNat)
    (hw : w.addr.toNat + w.bytes.length = wEnd.toNat)
    (hapart : min vEnd wEnd ≤ max v.addr w.addr) : v.Agree w := by
  have hle := UInt64.le_iff_toNat_le.1 hapart
  rw [toNat_min_u64, toNat_max_u64] at hle
  have hvEnd := vEnd.toNat_lt
  have hwEnd := wEnd.toNat_lt
  intro x b c hb hc
  obtain ⟨hvx, hvlt, -⟩ := Write.bounds_of_valueAt (by omega) hb
  obtain ⟨hwx, hwlt, -⟩ := Write.bounds_of_valueAt (by omega) hc
  omega

/-- The comparison of two ranges. -/
theorem overlap_eq_false_iff {v w : Write} {vEnd wEnd : UInt64}
    (hv : v.addr.toNat + v.bytes.length = vEnd.toNat)
    (hw : w.addr.toNat + w.bytes.length = wEnd.toNat) {lo hi : UInt64}
    (hlo : lo = max v.addr w.addr) (hhi : hi = min vEnd wEnd) :
    (if hi ≤ lo then false
      else (List.range (hi - lo).toNat).any fun k =>
        v.bytes.getD (lo + .ofNat k - v.addr).toNat 0 !=
          w.bytes.getD (lo + .ofNat k - w.addr).toNat 0) = false ↔ v.Agree w := by
  by_cases hapart : hi ≤ lo
  · rw [if_pos hapart]
    rw [hlo, hhi] at hapart
    exact iff_of_true rfl (agree_of_apart hv hw hapart)
  · rw [if_neg hapart]
    exact common_differ_iff hv hw hlo hhi (UInt64.not_le.1 hapart)

theorem observationConflicts_eq_false_iff {expected : Write} {expectedEnd : UInt64}
    (hend : expected.addr.toNat + expected.bytes.length = expectedEnd.toNat) {scope : DataScope}
    {o : MemoryBytes} : observationConflicts expected expectedEnd scope o = false ↔
      (o.scope = scope → (o.bytes ≠ [] → o.addr.toNat + o.bytes.length < 2 ^ 64) ∧
        expected.Agree o.write) := by
  rw [observationConflicts]
  by_cases hskip : o.scope ≠ scope ∨ o.bytes = []
  · rw [if_pos hskip]
    refine iff_of_true rfl fun hscope => ?_
    have hempty : o.bytes = [] := hskip.resolve_left (not_not.2 hscope)
    refine ⟨fun hne => absurd hempty hne, fun x b c _ hc => ?_⟩
    rw [Write.valueAt, MemoryBytes.write, hempty, List.getElem?_nil] at hc
    cases hc
  · rw [if_neg hskip]
    rw [not_or, not_not] at hskip
    cases hobserved : checkedEnd o.addr o.bytes.length with
    | none =>
      refine iff_of_false (by simp) fun h => ?_
      have hover := checkedEnd_eq_none_iff.1 hobserved
      have hfits := (h hskip.1).1 hskip.2
      omega
    | some observedEnd =>
      have hsum : o.write.addr.toNat + o.write.bytes.length = observedEnd.toNat :=
        checkedEnd_eq_some_iff.1 hobserved
      have hfits : o.addr.toNat + o.bytes.length < 2 ^ 64 := by
        have hlt := observedEnd.toNat_lt
        exact hsum ▸ hlt
      refine (overlap_eq_false_iff hend hsum rfl rfl).trans ?_
      constructor
      · intro h _
        exact ⟨fun _ => hfits, h⟩
      · intro h
        exact (h hskip.1).2

theorem rangeHasConflict_eq_false_iff {observations : List MemoryBytes} {expected : Write}
    {scope : DataScope} (hne : expected.bytes ≠ []) :
    rangeHasConflict observations expected scope = false ↔
      Unopposed observations expected scope := by
  rw [rangeHasConflict, if_neg hne]
  cases hexpected : checkedEnd expected.addr expected.bytes.length with
  | none =>
    have hover := checkedEnd_eq_none_iff.1 hexpected
    refine iff_of_false (by simp) fun h => ?_
    have hfits := h.fits
    omega
  | some expectedEnd =>
    have hsum := checkedEnd_eq_some_iff.1 hexpected
    have hlt := expectedEnd.toNat_lt
    dsimp only
    rw [List.any_eq_false]
    simp only [Bool.not_eq_true, observationConflicts_eq_false_iff hsum]
    constructor
    · intro h
      exact ⟨hsum ▸ hlt, fun o ho hscope => (h o ho hscope).1, fun o ho hscope => (h o ho hscope).2⟩
    · intro h o ho hscope
      exact ⟨h.others_fit o ho hscope, h.agree o ho hscope⟩

end Gate

/-! ## Slices of observations -/

/-- The range is cut from the bytes of an observation. -/
def SliceOf (w : Write) (o : MemoryBytes) : Prop :=
  ∃ k, k + w.bytes.length ≤ o.bytes.length ∧ w.addr = o.addr + .ofNat k ∧
    w.bytes = (o.bytes.drop k).take w.bytes.length

/-- A range that is cut from an observation of the scope and passes the gate. -/
structure Admitted (observations : List MemoryBytes) (scope : DataScope) (w : Write) : Prop where
  slice : ∃ o ∈ observations, o.scope = scope ∧ SliceOf w o
  nonempty : w.bytes ≠ []
  passes : rangeHasConflict observations w scope = false

theorem SliceOf.valueAt {w : Write} {o : MemoryBytes} (h : SliceOf w o)
    (hlength : o.bytes.length < 2 ^ 64) {x : UInt64} {b : UInt8} (hb : w.valueAt x = some b) :
    o.write.valueAt x = some b := by
  obtain ⟨k, hk, haddr, hbytes⟩ := h
  rw [Write.valueAt] at hb
  obtain ⟨hlt, -⟩ := List.getElem?_eq_some_iff.1 hb
  have hoff : (x - o.addr).toNat = k + (x - w.addr).toNat := by
    rw [haddr] at hlt ⊢
    rcases Nat.lt_or_ge (x - o.addr).toNat k with hbefore | hbehind
    · rw [toNat_sub_add_of_lt (by omega) hbefore] at hlt
      omega
    · rw [toNat_sub_add_of_le hbehind]
      omega
  rw [Write.valueAt]
  show o.bytes[(x - o.addr).toNat]? = some b
  rw [hoff, ← List.getElem?_drop]
  rw [hbytes, List.getElem?_take_of_lt hlt] at hb
  exact hb

/-- Each range has been compared with the observation that the other one is cut from. -/
theorem Admitted.agree {observations : List MemoryBytes} {scope : DataScope} {v w : Write}
    (hv : Admitted observations scope v) (hw : Admitted observations scope w) : v.Agree w := by
  have hgate := (rangeHasConflict_eq_false_iff hv.nonempty).1 hv.passes
  obtain ⟨o, ho, hscope, hslice⟩ := hw.slice
  have hne : o.bytes ≠ [] := by
    obtain ⟨k, hk, -, -⟩ := hslice
    have hpos := List.length_pos_iff.2 hw.nonempty
    exact List.length_pos_iff.1 (by omega)
  have hfits := hgate.others_fit o ho hscope hne
  intro x b c hb hc
  exact hgate.agree o ho hscope x b c hb (hslice.valueAt (by omega) hc)

/-! ## Patching -/

/-- The bytes of the database; ranges outside its segments cannot be read. -/
structure Idb where
  bytes : Memory
  readable : UInt64 → ℕ → Bool

def Idb.currentBytes (db : Idb) (ea : UInt64) (size : ℕ) : Option Bytes :=
  if size = 0 ∨ size > 2 ^ 63 - 1 ∨ db.readable ea size = false then none
  else some (load db.bytes ea size)

def Idb.currentBytesEqual (db : Idb) (ea : UInt64) (bytes : Bytes) : Bool :=
  db.currentBytes ea bytes.length == some bytes

def rangeInOneSegment (img : ProgramImage) (start : UInt64) (size : ℕ) : Bool :=
  decide (size ≠ 0) && (checkedEnd start size).any fun end_ =>
    (img.segmentAt start).any fun seg => decide (end_ ≤ seg.end_)

/-- `snapshot_bytes` without `require_loaded` -/
def snapshotBytes (img : ProgramImage) (ea : UInt64) (size : ℕ) : Option Bytes :=
  (List.range size).mapM fun i => (img.segmentAt (ea + .ofNat i)).map fun seg =>
    let off := (ea + .ofNat i - seg.start).toNat
    if seg.byteLoaded (ea + .ofNat i) && decide (off < seg.bytes.length) then seg.bytes.getD off 0
    else 0

/-- What a sequence of patches works on: `PatchBudget`, the counters and the database. -/
structure PatchState where
  remaining : ℕ
  patchesSkippedConflict : ℕ := 0
  patchesSkippedChangedDb : ℕ := 0
  runtimeRangesPatched : ℕ := 0
  runtimeBytesPatched : ℕ := 0
  db : Idb

section Patch

variable (img : ProgramImage) (finalWrites : List MemoryBytes) (applyRuntimeBytes : Bool)
  (scope : DataScope)

def patchRuntimeRange (w : Write) (s : PatchState) : Bool × PatchState :=
  if applyRuntimeBytes = false ∨ scope ≠ .image ∨ w.bytes = [] ∨ w.bytes.length > s.remaining ∨
      rangeInOneSegment img w.addr w.bytes.length = false then (false, s)
  else if rangeHasConflict finalWrites w scope then
    (false, { s with patchesSkippedConflict := s.patchesSkippedConflict + 1 })
  else if s.db.currentBytesEqual w.addr w.bytes then (true, s)
  else if snapshotBytes img w.addr w.bytes.length = none ∨
      s.db.currentBytes w.addr w.bytes.length ≠ snapshotBytes img w.addr w.bytes.length then
    (false, { s with patchesSkippedChangedDb := s.patchesSkippedChangedDb + 1 })
  else
    let db := { s.db with bytes := store s.db.bytes w.addr w.bytes }
    if db.currentBytesEqual w.addr w.bytes then
      (true, { s with
        remaining := s.remaining - w.bytes.length
        runtimeRangesPatched := s.runtimeRangesPatched + 1
        runtimeBytesPatched := s.runtimeBytesPatched + w.bytes.length
        db := db })
    else (false, { s with db := db })

/-- Ranges one after the other: those for which the answer is `true`, and the state in the end. -/
def patchRanges : List Write → PatchState → List Write × PatchState
  | [], s => ([], s)
  | w :: ws, s =>
    let first := patchRuntimeRange img finalWrites applyRuntimeBytes scope w s
    let rest := patchRanges ws first.2
    (if first.1 then w :: rest.1 else rest.1, rest.2)

/-- What can be read is what is there. -/
theorem currentBytes_eq_some {db : Idb} {ea : UInt64} {size : ℕ} {bytes : Bytes}
    (h : db.currentBytes ea size = some bytes) :
    bytes = load db.bytes ea size ∧ size ≤ 2 ^ 64 ∧
      ∀ mem, ({ db with bytes := mem } : Idb).currentBytes ea size = some (load mem ea size) := by
  rw [Idb.currentBytes] at h
  split_ifs at h with hnone
  refine ⟨(Option.some.inj h).symm, ?_, fun mem => ?_⟩
  · rw [not_or, not_or] at hnone
    omega
  · rw [Idb.currentBytes, if_neg hnone]

/-- A range is accepted or leaves the bytes alone. An accepted one has passed the gate, and its
bytes are in the database. -/
theorem patchRuntimeRange_spec (w : Write) (s : PatchState) :
    let r := patchRuntimeRange img finalWrites applyRuntimeBytes scope w s
    (r.1 = true → w.bytes ≠ [] ∧ rangeHasConflict finalWrites w scope = false) ∧
      r.2.db.bytes = if r.1 then store s.db.bytes w.addr w.bytes else s.db.bytes := by
  dsimp only
  rw [patchRuntimeRange]
  by_cases hguard : applyRuntimeBytes = false ∨ scope ≠ .image ∨ w.bytes = [] ∨
      w.bytes.length > s.remaining ∨ rangeInOneSegment img w.addr w.bytes.length = false
  · rw [if_pos hguard]
    exact ⟨fun h => Bool.noConfusion h, rfl⟩
  · rw [if_neg hguard]
    have hne : w.bytes ≠ [] := fun hempty => hguard (Or.inr (Or.inr (Or.inl hempty)))
    cases hconflict : rangeHasConflict finalWrites w scope with
    | true => exact ⟨fun h => Bool.noConfusion h, rfl⟩
    | false =>
      rw [if_neg Bool.false_ne_true]
      by_cases hsame : s.db.currentBytesEqual w.addr w.bytes = true
      · rw [if_pos hsame]
        obtain ⟨hload, hlength, -⟩ := currentBytes_eq_some (beq_iff_eq.1 hsame)
        exact ⟨fun _ => ⟨hne, rfl⟩, ((store_eq_self_iff hlength).2 hload.symm).symm⟩
      · rw [if_neg hsame]
        by_cases hchanged : snapshotBytes img w.addr w.bytes.length = none ∨
            s.db.currentBytes w.addr w.bytes.length ≠ snapshotBytes img w.addr w.bytes.length
        · rw [if_pos hchanged]
          exact ⟨fun h => Bool.noConfusion h, rfl⟩
        · rw [if_neg hchanged]
          rw [not_or, not_not] at hchanged
          obtain ⟨original, horiginal⟩ := Option.ne_none_iff_exists'.1 hchanged.1
          obtain ⟨-, hlength, hreadable⟩ := currentBytes_eq_some (hchanged.2.trans horiginal)
          -- the range could be read before, so it reads as patched now
          have hpatched : ({ s.db with bytes := store s.db.bytes w.addr w.bytes } :
              Idb).currentBytesEqual w.addr w.bytes = true :=
            beq_iff_eq.2 ((hreadable _).trans (congrArg some (load_store hlength)))
          rw [if_pos hpatched]
          exact ⟨fun _ => ⟨hne, rfl⟩, rfl⟩

/-- The run leaves what storing the accepted ranges leaves. -/
theorem patchRanges_spec (ws : List Write) : ∀ s : PatchState,
    let r := patchRanges img finalWrites applyRuntimeBytes scope ws s
    (∀ w ∈ r.1, w ∈ ws ∧ w.bytes ≠ [] ∧ rangeHasConflict finalWrites w scope = false) ∧
      r.2.db.bytes = storeAll s.db.bytes r.1 := by
  induction ws with
  | nil =>
    intro s
    exact ⟨fun w hw => absurd hw List.not_mem_nil, rfl⟩
  | cons w ws ih =>
    intro s
    obtain ⟨hgate, hbytes⟩ :=
      patchRuntimeRange_spec img finalWrites applyRuntimeBytes scope w s
    obtain ⟨hrest, hstored⟩ :=
      ih (patchRuntimeRange img finalWrites applyRuntimeBytes scope w s).2
    dsimp only at hgate hbytes hrest hstored ⊢
    rw [patchRanges]
    cases haccepted : (patchRuntimeRange img finalWrites applyRuntimeBytes scope w s).1 with
    | true =>
      rw [haccepted, if_pos rfl] at hbytes
      refine ⟨?_, ?_⟩
      · intro v hv
        rcases List.mem_cons.1 hv with rfl | hv
        · exact ⟨List.mem_cons_self, hgate haccepted⟩
        · exact ⟨List.mem_cons_of_mem _ (hrest v hv).1, (hrest v hv).2⟩
      · rw [hstored, hbytes]
        rfl
    | false =>
      rw [haccepted, if_neg Bool.false_ne_true] at hbytes
      refine ⟨fun v hv => ⟨List.mem_cons_of_mem _ (hrest v hv).1, (hrest v hv).2⟩, ?_⟩
      rw [hstored, hbytes]
      rfl

end Patch

/-- Two runs have left overlapping bytes that agree. -/
def overlappingRuns : List MemoryBytes :=
  [⟨0x1000, [1, 2, 3, 4], .image, 0, 0⟩, ⟨0x1002, [3, 4, 5, 6], .image, 1, 7⟩]

end Viy.Runtime
