import Viy.Cxx.Coalesce
import Viy.Runtime.Patches
import Viy.Runtime.StringCandidates

/-!
# Words that are pointers

`collect_string_groups` takes no string from an aligned word that points into one of the known
ranges. The ranges are sorted and merged once and searched by bisection; so are the offsets of such
words within an observation. Both searches decide what they are meant to (`isPointer_iff`,
`overlapsPointer_eq_false`).
-/

namespace Viy.Runtime

open Wire Cxx

/-! ## The searches -/

/-- `mapped.back().second = max(…)` for a range that begins in the last one or right behind it. -/
def joinPointerRange (back range : UInt64 × UInt64) : Option (UInt64 × UInt64) :=
  if range.1 ≤ back.2 then some (back.1, max back.2 range.2) else none

/-- The ranges in order and merged, without the empty ones. -/
def mappedRanges (pointerRanges : List (UInt64 × UInt64)) : List (UInt64 × UInt64) :=
  let ranges := sort (Comparator.tie .u64 .u64).less pointerRanges
  coalesce joinPointerRange (ranges.filter fun range => !(range.1 ≥ range.2))

/-- The last range that does not begin behind the value: `std::prev` of its upper bound. -/
def isPointer (mapped : List (UInt64 × UInt64)) (value : UInt64) : Bool :=
  if value == 0 then false
  else (mapped.takeWhile fun range => !(value < range.1)).getLast?.any fun range => value < range.2

/-- The offsets of the words of an observation that are pointers. -/
def pointerOffsets (options : StringScanOptions) (mapped : List (UInt64 × UInt64))
    (observation : MemoryBytes) : List ℕ :=
  let width := options.pointerWidth
  if !mapped.isEmpty && (width == 4 || width == 8) then
    let first := (width - observation.addr.toNat % width) % width
    let words := (List.range ((observation.bytes.length - first) / width)).map fun k =>
      first + k * width
    words.filter fun off =>
      isPointer mapped
        (decodePointer ((observation.bytes.drop off).take width) options.imageBigEndian)
  else []

/-- The first word from the start on, or the last one before it, overlaps the slice. -/
def overlapsPointer (offsets : List ℕ) (width start length : ℕ) : Bool :=
  let bound := lowerBound (fun a b => decide (a < b)) offsets start
  (bound.2.head?.any fun off => off - start < length) ||
    bound.1.getLast?.any fun off => start - off < width

/-- The last element of an ordered list comes behind all others. -/
theorem exists_getLast {α : Type} {r : α → α → Prop} {l : List α} {x : α} (hl : l.Pairwise r)
    (hx : x ∈ l) : ∃ last, l.getLast? = some last ∧ last ∈ l ∧ (x = last ∨ r x last) := by
  have hlast := List.getLast?_eq_some_getLast (List.ne_nil_of_mem hx)
  obtain ⟨earlier, hsplit⟩ := List.getLast?_eq_some_iff.1 hlast
  refine ⟨_, hlast, List.mem_of_getLast? hlast, ?_⟩
  rw [hsplit] at hl hx
  rcases List.mem_append.1 hx with hx | hx
  · exact Or.inr ((List.pairwise_append.1 hl).2.2 x hx _ (List.mem_singleton_self _))
  · exact Or.inl (List.mem_singleton.1 hx)

/-! ## Merged ranges -/

section Ranges

variable {ranges : List (UInt64 × UInt64)} {value : UInt64}

/-- A value lies in a range. -/
def InRange (range : UInt64 × UInt64) (value : UInt64) : Prop :=
  range.1 ≤ value ∧ value < range.2

/-- The value of a word that points into one of the ranges. -/
def PointsInto (ranges : List (UInt64 × UInt64)) (value : UInt64) : Prop :=
  value ≠ 0 ∧ ∃ range ∈ ranges, InRange range value

theorem joinPointerRange_eq_some {b x b' : UInt64 × UInt64} (h : joinPointerRange b x = some b') :
    x.1 ≤ b.2 ∧ b' = (b.1, max b.2 x.2) := by
  unfold joinPointerRange at h
  split_ifs at h with hle
  exact ⟨hle, (Option.some.inj h).symm⟩

theorem before_of_joinPointerRange {b x b' y : UInt64 × UInt64}
    (h : joinPointerRange b x = some b') (hb : b.1 ≤ y.1) (_ : x.1 ≤ y.1) : b'.1 ≤ y.1 := by
  obtain ⟨-, rfl⟩ := joinPointerRange_eq_some h
  exact hb

theorem sortedRanges_pairwise_first (ranges : List (UInt64 × UInt64)) :
    ((sort (Comparator.tie .u64 .u64).less ranges).filter fun range =>
      !(range.1 ≥ range.2)).Pairwise fun a b => a.1 ≤ b.1 := by
  refine List.Pairwise.filter _ ((sort_pairwise _ ranges).imp fun {a b} hab => ?_)
  simp only [Comparator.tie, Comparator.u64, Comparator.ofToNat, Bool.or_eq_false_iff,
    decide_eq_false_iff_not, UInt64.not_lt] at hab
  exact hab.1

theorem mappedRanges_covers :
    (∃ range ∈ mappedRanges ranges, InRange range value) ↔
      ∃ range ∈ ranges, InRange range value := by
  unfold mappedRanges
  rw [coalesce_covers (fun _ _ _ _ => before_of_joinPointerRange) ?_
    (sortedRanges_pairwise_first ranges)]
  · constructor
    · rintro ⟨range, hmem, hin⟩
      exact ⟨range, mem_sort.1 (List.mem_of_mem_filter hmem), hin⟩
    · rintro ⟨range, hmem, hin⟩
      refine ⟨range, List.mem_filter.2 ⟨mem_sort.2 hmem, ?_⟩, hin⟩
      have hlt : range.1 < range.2 := UInt64.lt_of_le_of_lt hin.1 hin.2
      simpa using hlt
  · intro b x b' hbefore hjoin
    obtain ⟨hle, rfl⟩ := joinPointerRange_eq_some hjoin
    unfold InRange
    simp only [UInt64.le_iff_toNat_le, UInt64.lt_iff_toNat_lt, toNat_max_u64] at hbefore hle ⊢
    omega

/-- Merged ranges are apart from each other. -/
theorem mappedRanges_pairwise (ranges : List (UInt64 × UInt64)) :
    (mappedRanges ranges).Pairwise fun a b => a.2 < b.1 := by
  unfold mappedRanges
  refine coalesce_pairwise (fun _ _ _ _ => before_of_joinPointerRange) ?_ ?_ ?_
    (sortedRanges_pairwise_first ranges)
  · intro b x _ hnone
    unfold joinPointerRange at hnone
    split_ifs at hnone with hle
    exact UInt64.not_le.1 hle
  · intro b x y hbx hxy
    exact UInt64.lt_of_lt_of_le hbx hxy
  · intro a b x b' hab hjoin
    obtain ⟨-, rfl⟩ := joinPointerRange_eq_some hjoin
    exact hab

theorem mappedRanges_nonempty {range : UInt64 × UInt64} (h : range ∈ mappedRanges ranges) :
    range.1 < range.2 := by
  refine coalesce_forall (P := fun range : UInt64 × UInt64 => range.1 < range.2) ?_ ?_ range h
  · intro b x b' hb _ hjoin
    obtain ⟨-, rfl⟩ := joinPointerRange_eq_some hjoin
    simp only [UInt64.lt_iff_toNat_lt, toNat_max_u64] at hb ⊢
    omega
  · intro range hrange
    simpa using (List.mem_filter.1 hrange).2

/-- **Pointers.** The search finds the values in the ranges. -/
theorem isPointer_iff : isPointer (mappedRanges ranges) value = true ↔ PointsInto ranges value := by
  have hapart := mappedRanges_pairwise ranges
  have hbefore : ∀ {range}, range ∈ (mappedRanges ranges).takeWhile (fun range =>
      !(value < range.1)) ↔ range ∈ mappedRanges ranges ∧ range.1 ≤ value := by
    intro range
    rw [mem_takeWhile_not, decide_eq_false_iff_not, UInt64.not_lt]
    refine hapart.imp_of_mem fun {a b} ha _ hab hvalue => ?_
    have hlt := mappedRanges_nonempty ha
    simp only [decide_eq_true_eq, UInt64.lt_iff_toNat_lt] at hab hlt hvalue ⊢
    omega
  unfold isPointer PointsInto
  by_cases hzero : value = 0
  · simp [hzero]
  rw [if_neg (by simpa using hzero), Option.any_eq_true, ← mappedRanges_covers]
  refine ⟨?_, ?_⟩
  · rintro ⟨last, hlast, hlt⟩
    obtain ⟨hmem, hle⟩ := hbefore.1 (List.mem_of_getLast? hlast)
    exact ⟨hzero, last, hmem, hle, by simpa using hlt⟩
  · rintro ⟨-, range, hmem, hin⟩
    have hpairwise := hapart.sublist (List.takeWhile_sublist fun range => !(value < range.1))
    obtain ⟨last, hlast, hmem', hcase⟩ := exists_getLast hpairwise (hbefore.2 ⟨hmem, hin.1⟩)
    refine ⟨last, hlast, ?_⟩
    rcases hcase with rfl | hfar
    · simpa using hin.2
    · -- a range before the last one ends before that one begins
      have hle := (hbefore.1 hmem').2
      exact absurd (UInt64.lt_of_le_of_lt hle (UInt64.lt_trans hin.2 hfar)) (UInt64.lt_irrefl _)

end Ranges

/-! ## Words of an observation -/

section Words

variable {options : StringScanOptions} {observation : MemoryBytes}

theorem overlapsPointer_eq_false {offsets : List ℕ} {width start length : ℕ}
    (hsorted : offsets.Pairwise (· < ·)) (h : overlapsPointer offsets width start length = false) :
    ∀ off ∈ offsets, off + width ≤ start ∨ start + length ≤ off := by
  have hsorted' : Sorted (fun x y => Comparator.nat.less (id x) (id y)) offsets :=
    hsorted.imp fun hab => decide_eq_true hab
  have hsplit := lowerBound_append (fun a b => decide (a < b)) offsets start
  have hbefore : ∀ off ∈ (lowerBound (fun a b => decide (a < b)) offsets start).1, off < start :=
    fun off hoff => by simpa using less_of_mem_before hoff
  have hfrom : ∀ off ∈ (lowerBound (fun a b => decide (a < b)) offsets start).2, start ≤ off :=
    fun off hoff => Nat.le_of_not_lt
      (of_decide_eq_false (not_less_of_mem_from (c := .nat) (f := id) hsorted' off hoff))
  unfold overlapsPointer at h
  obtain ⟨hhead, hlast⟩ := Bool.or_eq_false_iff.1 h
  rw [← hsplit] at hsorted
  obtain ⟨hbelow, habove, -⟩ := List.pairwise_append.1 hsorted
  intro off hoff
  rw [← hsplit] at hoff
  rcases List.mem_append.1 hoff with hoff | hoff
  · left
    obtain ⟨last, hget, hmem, hcase⟩ := exists_getLast hbelow hoff
    rw [hget] at hlast
    have hlt := hbefore last hmem
    have hfar : width ≤ start - last := by simpa using hlast
    omega
  · right
    rcases hcons : (lowerBound (fun a b => decide (a < b)) offsets start).2 with _ | ⟨first, rest⟩
    · rw [hcons] at hoff
      cases hoff
    rw [hcons] at hhead hoff habove
    have hle : first ≤ off := by
      rcases List.mem_cons.1 hoff with rfl | hmem
      · exact Nat.le_refl _
      · exact Nat.le_of_lt ((List.pairwise_cons.1 habove).1 off hmem)
    have hge := hfrom first (by rw [hcons]; exact List.mem_cons_self)
    have hfar : length ≤ first - start := by simpa using hhead
    omega

theorem decodePointer_eq_gather {bytes : Bytes} (bigEndian : Bool) (hlength : bytes.length ≤ 8) :
    decodePointer bytes bigEndian = gather bigEndian bytes := by
  apply UInt64.toNat_inj.1
  unfold decodePointer
  cases bigEndian with
  | true => exact (toNat_ofU64 hlength).trans (toNat_gather_true hlength).symm
  | false =>
    have hreverse : bytes.reverse.length ≤ 8 := by simpa using hlength
    rw [toNat_gather_false hlength, if_neg (by decide), toNat_ofU64 hreverse, List.reverse_reverse]

/-- The loop over the words comes to every aligned one. -/
theorem aligned_offset {addr off size width : ℕ} (hwidth : width = 4 ∨ width = 8)
    (haligned : (addr + off) % width = 0) (hfits : off + width ≤ size) :
    ∃ k < (size - (width - addr % width) % width) / width,
      (width - addr % width) % width + k * width = off := by
  rcases hwidth with rfl | rfl
  · refine ⟨(off - (4 - addr % 4) % 4) / 4, ?_, ?_⟩ <;> omega
  · refine ⟨(off - (8 - addr % 8) % 8) / 8, ?_, ?_⟩ <;> omega

theorem mem_pointerOffsets {off : ℕ}
    (hwidth : options.pointerWidth = 4 ∨ options.pointerWidth = 8)
    (haligned : (observation.addr.toNat + off) % options.pointerWidth = 0)
    (hfits : off + options.pointerWidth ≤ observation.bytes.length)
    (hpoints : PointsInto options.pointerRanges (gather options.imageBigEndian
      ((observation.bytes.drop off).take options.pointerWidth))) :
    off ∈ pointerOffsets options (mappedRanges options.pointerRanges) observation := by
  obtain ⟨k, hk, hoff⟩ := aligned_offset hwidth haligned hfits
  have hmapped : mappedRanges options.pointerRanges ≠ [] := by
    obtain ⟨range, hrange, -⟩ := mappedRanges_covers.2 hpoints.2
    exact List.ne_nil_of_mem hrange
  have hlength : ((observation.bytes.drop off).take options.pointerWidth).length ≤ 8 := by
    rw [List.length_take]
    omega
  dsimp only [pointerOffsets]
  rw [if_pos (by simpa [hmapped] using hwidth), List.mem_filter]
  refine ⟨List.mem_map.2 ⟨k, List.mem_range.2 hk, hoff⟩, ?_⟩
  rw [decodePointer_eq_gather _ hlength]
  exact isPointer_iff.2 hpoints

theorem pointerOffsets_pairwise (options : StringScanOptions) (mapped : List (UInt64 × UInt64))
    (observation : MemoryBytes) :
    (pointerOffsets options mapped observation).Pairwise (· < ·) := by
  dsimp only [pointerOffsets]
  split
  · rename_i hguard
    have hpos : 0 < options.pointerWidth := by
      simp only [Bool.and_eq_true, Bool.or_eq_true, beq_iff_eq] at hguard
      omega
    refine List.Pairwise.filter _ (List.pairwise_map.2 ?_)
    refine List.pairwise_lt_range.imp fun {i j} hij => ?_
    exact Nat.add_lt_add_left ((Nat.mul_lt_mul_right hpos).2 hij) _
  · exact List.Pairwise.nil

/-- **Pointer words.** A slice that overlaps none of the words found overlaps no aligned word that
points into a range. -/
theorem clear_of_pointers {start length off : ℕ}
    (h : overlapsPointer (pointerOffsets options (mappedRanges options.pointerRanges) observation)
      options.pointerWidth start length = false)
    (hwidth : options.pointerWidth = 4 ∨ options.pointerWidth = 8)
    (haligned : (observation.addr.toNat + off) % options.pointerWidth = 0)
    (hfits : off + options.pointerWidth ≤ observation.bytes.length)
    (hpoints : PointsInto options.pointerRanges (gather options.imageBigEndian
      ((observation.bytes.drop off).take options.pointerWidth))) :
    off + options.pointerWidth ≤ start ∨ start + length ≤ off :=
  overlapsPointer_eq_false (pointerOffsets_pairwise _ _ _) h off
    (mem_pointerOffsets hwidth haligned hfits hpoints)

end Words

end Viy.Runtime
