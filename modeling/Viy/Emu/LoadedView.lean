import Viy.Emu.Image

/-!
# Loaded bytes of a segment

`loaded_view` gives the initialized bytes from an address on without copying them. It reads the mask
of loaded bytes eight bits at a time from any bit on, with a partial byte of the mask at either end.
The view is the longest run of bytes that are in the segment, in its buffer and loaded.
-/

namespace Viy.Emu

open Wire

/-! ## The view -/

/-- The bit of the byte at an offset in the mask of loaded bytes. -/
def maskBit (mask : Bytes) (offset : ℕ) : Bool :=
  decide (offset / 8 < mask.length) && (mask.getD (offset / 8) 0).toNat.testBit (offset % 8)

/-- `while (length < limit)`, one byte of the mask at a time. -/
def viewLoop (mask : Bytes) (begin_ limit : ℕ) : ℕ → ℕ → ℕ
  | 0, length => length
  | fuel + 1, length =>
    if length < limit then
      let current := begin_ + length
      if mask.length ≤ current / 8 then length
      else
        let count := min (8 - current % 8) (limit - length)
        let bits := (mask.getD (current / 8) 0).toNat >>> (current % 8)
        let required := 2 ^ count - 1
        if bits &&& required ≠ required then length + Cxx.advanceWhile bits.testBit count 0
        else viewLoop mask begin_ limit fuel (length + count)
    else length

def SegImage.loadedView (s : SegImage) (ea : UInt64) (maximumBytes : ℕ) : Bytes :=
  if s.contains ea = false ∨ maximumBytes = 0 then []
  else
    let begin_ := (ea - s.start).toNat
    if s.bytes.length ≤ begin_ then []
    else
      let limit := min (s.end_ - ea).toNat (min maximumBytes (s.bytes.length - begin_))
      (s.bytes.drop begin_).take (viewLoop s.mask begin_ limit limit 0)

section View

variable {mask : Bytes} {begin_ limit : ℕ}

/-- A mask test on the low bits is a test of each of them. -/
theorem and_ones_eq_iff {bits count : ℕ} :
    bits &&& (2 ^ count - 1) = 2 ^ count - 1 ↔ ∀ i < count, bits.testBit i = true := by
  constructor
  · intro h i hi
    have hbit := congrArg (Nat.testBit · i) h
    simpa only [Nat.testBit_and, Nat.testBit_two_pow_sub_one, hi, decide_true, Bool.and_true]
      using hbit
  · intro h
    apply Nat.eq_of_testBit_eq
    intro i
    rw [Nat.testBit_and, Nat.testBit_two_pow_sub_one]
    by_cases hi : i < count
    · rw [h i hi, decide_eq_true hi]
      rfl
    · rw [decide_eq_false hi, Bool.and_false]

/-- Where not all of the bits are set, the count stops before the last of them. -/
theorem advanceWhile_testBit_lt {bits count : ℕ} (h : bits &&& (2 ^ count - 1) ≠ 2 ^ count - 1) :
    Cxx.advanceWhile bits.testBit count 0 < count := by
  obtain ⟨-, hup, hones, -⟩ := Cxx.advanceWhile_spec bits.testBit count 0
  rw [Nat.zero_add] at hup
  refine lt_of_le_of_ne hup fun heq => h (and_ones_eq_iff.2 fun i hi => ?_)
  exact hones i (Nat.zero_le i) (by rwa [heq])

/-- The bits of a byte of the mask, from the current offset on. -/
theorem maskBit_add {current i : ℕ} (hcurrent : current / 8 < mask.length)
    (hi : i < 8 - current % 8) :
    maskBit mask (current + i) =
      ((mask.getD (current / 8) 0).toNat >>> (current % 8)).testBit i := by
  have hdiv : (current + i) / 8 = current / 8 := by omega
  have hmod : (current + i) % 8 = current % 8 + i := by omega
  rw [maskBit, hdiv, hmod, decide_eq_true hcurrent, Bool.true_and, Nat.testBit_shiftRight]

/-- `n` is where the run of set bits from `begin_` on ends. -/
structure LoadedRun (mask : Bytes) (begin_ limit n : ℕ) : Prop where
  le : n ≤ limit
  set : ∀ i < n, maskBit mask (begin_ + i) = true
  stops : n < limit → maskBit mask (begin_ + n) = false

/-- The loop measures the run: whole mask bytes as long as all their bits are set, then bits. -/
theorem viewLoop_loadedRun (fuel : ℕ) : ∀ {length : ℕ}, limit - length ≤ fuel → length ≤ limit →
    (∀ i < length, maskBit mask (begin_ + i) = true) →
      LoadedRun mask begin_ limit (viewLoop mask begin_ limit fuel length) := by
  induction fuel with
  | zero =>
    intro length hfuel hle hset
    exact ⟨hle, hset, fun hlt => absurd hlt (by rw [viewLoop]; omega)⟩
  | succ fuel ih =>
    intro length hfuel hle hset
    rw [viewLoop]
    by_cases hlt : length < limit
    · rw [if_pos hlt]
      dsimp only
      by_cases hmask : mask.length ≤ (begin_ + length) / 8
      · rw [if_pos hmask]
        refine ⟨hle, hset, fun _ => ?_⟩
        rw [maskBit, decide_eq_false (Nat.not_lt.2 hmask), Bool.false_and]
      · rw [if_neg hmask]
        set current := begin_ + length with hcurrent
        set bits := (mask.getD (current / 8) 0).toNat >>> (current % 8) with hbits
        set count := min (8 - current % 8) (limit - length) with hcount
        have hbit : ∀ i < count, maskBit mask (begin_ + (length + i)) = bits.testBit i := by
          intro i hi
          rw [← Nat.add_assoc, ← hcurrent, maskBit_add (by omega) (by omega)]
        have hextend : ∀ {n}, n ≤ count → (∀ i < n, bits.testBit i = true) →
            ∀ i < length + n, maskBit mask (begin_ + i) = true := by
          intro n hn hones i hi
          by_cases hold : i < length
          · exact hset i hold
          · obtain ⟨k, rfl⟩ := Nat.exists_eq_add_of_le (Nat.not_lt.1 hold)
            rw [hbit k (by omega)]
            exact hones k (by omega)
        by_cases hall : bits &&& (2 ^ count - 1) = 2 ^ count - 1
        · rw [if_neg (not_not.2 hall)]
          exact ih (by omega) (by omega) (hextend le_rfl (and_ones_eq_iff.1 hall))
        · rw [if_pos hall]
          obtain ⟨-, hup, hones, hstop⟩ := Cxx.advanceWhile_spec bits.testBit count 0
          rw [Nat.zero_add] at hup hstop
          have hshort := advanceWhile_testBit_lt hall
          refine ⟨by omega, hextend hup fun i hi => hones i (Nat.zero_le i) hi, fun _ => ?_⟩
          rw [hbit _ hshort]
          exact hstop hshort
    · rw [if_neg hlt]
      exact ⟨hle, hset, fun h => absurd h hlt⟩

end View

namespace SegImage

variable {s : SegImage} {ea : UInt64}

theorem contains_eq_true_iff :
    s.contains ea = true ↔ s.start.toNat ≤ ea.toNat ∧ ea.toNat < s.end_.toNat := by
  rw [contains, Bool.and_eq_true, decide_eq_true_iff, decide_eq_true_iff,
    UInt64.le_iff_toNat_le, UInt64.lt_iff_toNat_lt]

/-- `byte_loaded` looks at one bit of the mask. -/
theorem byteLoaded_eq :
    s.byteLoaded ea = (s.contains ea && maskBit s.mask (ea - s.start).toNat) := by
  set off := (ea - s.start).toNat
  have hbit : ∀ (m : UInt8) (k : ℕ), k < 8 →
      decide (m &&& ((1 : UInt8) <<< UInt8.ofNat k) ≠ 0) = m.toNat.testBit k := by
    intro m k hk
    have hshift : ((1 : UInt8) <<< UInt8.ofNat k).toNat = 2 ^ k := by
      interval_cases k <;> rfl
    rw [Bool.eq_iff_iff, decide_eq_true_iff, ne_eq, ← UInt8.toNat_inj, UInt8.toNat_and, hshift,
      Nat.and_two_pow]
    cases m.toNat.testBit k <;> simp
  show (s.contains ea && decide (off / 8 < s.mask.length) &&
    decide (s.mask.getD (off / 8) 0 &&& ((1 : UInt8) <<< UInt8.ofNat (off % 8)) ≠ 0)) = _
  rw [hbit _ _ (Nat.mod_lt _ (by decide)), Bool.and_assoc]
  rfl

/-- The address is inside the segment and inside its buffer, and its byte is loaded. -/
structure Readable (s : SegImage) (a : ℕ) : Prop where
  start_le : s.start.toNat ≤ a
  lt_end : a < s.end_.toNat
  buffered : a - s.start.toNat < s.bytes.length
  loaded : s.byteLoaded (.ofNat a) = true

/-- The bytes of the longest prefix of `[ea, ea + maximumBytes)` that can be read. -/
structure LongestView (s : SegImage) (ea : UInt64) (maximumBytes : ℕ) (view : Bytes) : Prop where
  length_le : view.length ≤ maximumBytes
  readable : ∀ i < view.length, s.Readable (ea.toNat + i)
  getElem? : ∀ i < view.length, view[i]? = s.bytes[ea.toNat + i - s.start.toNat]?
  stops : view.length < maximumBytes → ¬ s.Readable (ea.toNat + view.length)

theorem Readable.contains {a : UInt64} (h : s.Readable a.toNat) : s.contains a = true :=
  contains_eq_true_iff.2 ⟨h.start_le, h.lt_end⟩

/-- Inside the segment and its buffer, the mask alone decides. -/
theorem readable_iff_maskBit {a : ℕ} (hstart : s.start.toNat ≤ a) (hend : a < s.end_.toNat)
    (hbytes : a - s.start.toNat < s.bytes.length) :
    s.Readable a ↔ maskBit s.mask (a - s.start.toNat) = true := by
  have hend64 := s.end_.toNat_lt
  have hnat : (UInt64.ofNat a).toNat = a := UInt64.toNat_ofNat_of_lt' (hend.trans hend64)
  have hcontains : s.contains (.ofNat a) = true := by
    rw [contains_eq_true_iff, hnat]
    exact ⟨hstart, hend⟩
  have hoff : (UInt64.ofNat a - s.start).toNat = a - s.start.toNat := by
    rw [UInt64.toNat_sub_of_le _ _ (UInt64.le_iff_toNat_le.2 (hnat.symm ▸ hstart)), hnat]
  have hloaded : s.byteLoaded (.ofNat a) = maskBit s.mask (a - s.start.toNat) := by
    rw [byteLoaded_eq, hcontains, Bool.true_and, hoff]
  constructor
  · intro h
    rw [← hloaded]
    exact h.loaded
  · intro h
    exact ⟨hstart, hend, hbytes, hloaded.trans h⟩

/-- Nothing can be seen from an address that cannot be read. -/
theorem longestView_nil {maximumBytes : ℕ} (h : 0 < maximumBytes → ¬ s.Readable ea.toNat) :
    LongestView s ea maximumBytes [] :=
  ⟨Nat.zero_le _, fun i hi => absurd hi (Nat.not_lt_zero i),
    fun i hi => absurd hi (Nat.not_lt_zero i), h⟩

/-- A run of the mask inside the segment and its buffer is the view. -/
theorem LongestView.of_loadedRun {maximumBytes limit n : ℕ} (hcontains : s.contains ea = true)
    (hlimit : limit = min (s.end_.toNat - ea.toNat)
      (min maximumBytes (s.bytes.length - (ea.toNat - s.start.toNat))))
    (hrun : LoadedRun s.mask (ea.toNat - s.start.toNat) limit n) :
    LongestView s ea maximumBytes ((s.bytes.drop (ea.toNat - s.start.toNat)).take n) := by
  obtain ⟨hstart, hend⟩ := contains_eq_true_iff.1 hcontains
  have hle := hrun.le
  have hlength : ((s.bytes.drop (ea.toNat - s.start.toNat)).take n).length = n := by
    rw [List.length_take, List.length_drop]
    omega
  have hoff : ∀ i, ea.toNat + i - s.start.toNat = ea.toNat - s.start.toNat + i := by
    intro i
    omega
  constructor <;> rw [hlength]
  · omega
  · intro i hi
    rw [readable_iff_maskBit (by omega) (by omega) (by omega), hoff]
    exact hrun.set i hi
  · intro i hi
    rw [List.getElem?_take_of_lt hi, List.getElem?_drop, hoff]
  · intro hmax hreadable
    have hlt : n < limit := by
      have hin := hreadable.lt_end
      have hbuffered := hreadable.buffered
      omega
    have hset := (readable_iff_maskBit hreadable.start_le hreadable.lt_end
      hreadable.buffered).1 hreadable
    rw [hoff, hrun.stops hlt] at hset
    cases hset

theorem loadedView_longest (s : SegImage) (ea : UInt64) (maximumBytes : ℕ) :
    LongestView s ea maximumBytes (s.loadedView ea maximumBytes) := by
  unfold loadedView
  by_cases hnone : s.contains ea = false ∨ maximumBytes = 0
  · rw [if_pos hnone]
    apply longestView_nil
    intro hpos hreadable
    rcases hnone with hout | hzero
    · rw [hreadable.contains] at hout
      cases hout
    · omega
  · rw [if_neg hnone]
    rw [not_or, Bool.not_eq_false] at hnone
    obtain ⟨hstart, hend⟩ := contains_eq_true_iff.1 hnone.1
    have hbegin : (ea - s.start).toNat = ea.toNat - s.start.toNat :=
      UInt64.toNat_sub_of_le _ _ (UInt64.le_iff_toNat_le.2 hstart)
    have hroom : (s.end_ - ea).toNat = s.end_.toNat - ea.toNat :=
      UInt64.toNat_sub_of_le _ _ (UInt64.le_iff_toNat_le.2 hend.le)
    rw [hbegin, hroom]
    by_cases hbytes : s.bytes.length ≤ ea.toNat - s.start.toNat
    · rw [if_pos hbytes]
      exact longestView_nil fun _ hreadable => absurd hreadable.buffered (Nat.not_lt.2 hbytes)
    · rw [if_neg hbytes]
      exact LongestView.of_loadedRun hnone.1 rfl (viewLoop_loadedRun _ (Nat.sub_le _ _)
        (Nat.zero_le _) fun i hi => absurd hi (Nat.not_lt_zero i))

/-- Two longest prefixes are as long, and have the same bytes of the buffer. -/
theorem LongestView.unique {maximumBytes : ℕ} {v w : Bytes} (hv : LongestView s ea maximumBytes v)
    (hw : LongestView s ea maximumBytes w) : v = w := by
  have hle : ∀ {v w : Bytes}, LongestView s ea maximumBytes v → LongestView s ea maximumBytes w →
      v.length ≤ w.length := by
    intro v w hv hw
    by_contra hlt
    have hv_le := hv.length_le
    exact hw.stops (by omega) (hv.readable w.length (by omega))
  have hlength : v.length = w.length := Nat.le_antisymm (hle hv hw) (hle hw hv)
  apply List.ext_getElem?
  intro i
  by_cases hi : i < v.length
  · rw [hv.getElem? i hi, hw.getElem? i (hlength ▸ hi)]
  · rw [List.getElem?_eq_none (by omega), List.getElem?_eq_none (by omega)]

end SegImage

def loadedView (segs : List SegImage) (ea : UInt64) (maximumBytes : ℕ) : Bytes :=
  match segmentAmong segs ea with
  | none => []
  | some segment => segment.loadedView ea maximumBytes

/-- **Loaded views.** The view of a segment is the longest prefix of the addresses asked for that
are inside the segment, inside its buffer and loaded; the image asks the one segment there is. -/
theorem loaded_view_longest (s : SegImage) (ea : UInt64) (maximumBytes : ℕ) :
    (∀ view, s.LongestView ea maximumBytes view ↔ view = s.loadedView ea maximumBytes) ∧
    (¬ s.Readable ea.toNat → s.loadedView ea maximumBytes = []) ∧
    ∀ image : ProgramImage,
      (s ∈ image.segs → s.contains ea = true →
        (∀ t ∈ image.segs, t.contains ea = true → t = s) ∧
        loadedView image.segs ea maximumBytes = s.loadedView ea maximumBytes) ∧
      ((∀ t ∈ image.segs, t.contains ea = false) → loadedView image.segs ea maximumBytes = []) := by
  have hlongest := s.loadedView_longest ea maximumBytes
  refine ⟨?_, ?_, ?_⟩
  · intro view
    constructor
    · intro hview
      exact hview.unique hlongest
    · rintro rfl
      exact hlongest
  · intro hout
    exact (SegImage.longestView_nil fun _ => hout).unique hlongest |>.symm
  · intro image
    constructor
    · intro hs hcontains
      have hat : segmentAmong image.segs ea = some s :=
        image.segmentAt_eq_some_iff.2 ⟨hs, hcontains⟩
      constructor
      · intro t ht htcontains
        exact Option.some.inj ((image.segmentAt_eq_some_iff.2 ⟨ht, htcontains⟩).symm.trans hat)
      · rw [loadedView, hat]
    · intro hnone
      have hat : segmentAmong image.segs ea = none := by
        refine image.segmentAt_eq_none_iff.2 ?_
        rintro ⟨t, ht, hcontains⟩
        rw [hnone t ht] at hcontains
        cases hcontains
      rw [loadedView, hat]

end Viy.Emu
