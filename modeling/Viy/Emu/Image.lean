import Viy.Cxx.Bisect
import Viy.Wire.Words

/-!
# Program images and access checks

An image is a list of disjoint segments in address order; the order is part of the type. In strict
mode the hooks of the emulation driver ask `image_access_allowed` before they record an access. Its
walk gives up at the first byte outside all segments: an access that starts in such a gap is allowed
whatever it reaches, every other one exactly if all its bytes are in segments that grant it.
-/

namespace Viy.Emu

open Wire

/-! ## Images -/

/-- `ViySegPerm` -/
inductive SegPerm where
  | exec | write | read
  deriving DecidableEq

def SegPerm.bits : SegPerm → UInt32
  | .exec => 1
  | .write => 2
  | .read => 4

structure SegImage where
  start : UInt64 := 0
  end_ : UInt64 := 0
  perm : UInt32 := 0
  bytes : Bytes := []
  mask : Bytes := []

def SegImage.contains (s : SegImage) (ea : UInt64) : Bool :=
  decide (s.start ≤ ea) && decide (ea < s.end_)

def SegImage.byteLoaded (s : SegImage) (ea : UInt64) : Bool :=
  let off := (ea - s.start).toNat
  s.contains ea && decide (off / 8 < s.mask.length) &&
    decide (s.mask.getD (off / 8) 0 &&& ((1 : UInt8) <<< UInt8.ofNat (off % 8)) ≠ 0)

def SegImage.hasPerm (s : SegImage) (required : SegPerm) : Bool :=
  s.perm &&& required.bits == required.bits

/-- `segment_at` over the segments of any image, in order or not. -/
def segmentAmong (segs : List SegImage) (ea : UInt64) : Option SegImage :=
  let first := Cxx.bisect (fun i => segs[i]?.any fun s => decide (s.start ≤ ea))
    segs.length 0 segs.length
  if first = 0 then none
  else segs[first - 1]?.filter (·.contains ea)

/-- An image whose segments follow each other without overlap. -/
structure ProgramImage where
  lo : UInt64 := 0
  hi : UInt64 := 0
  segs : List SegImage
  ordered : ∀ s ∈ segs, s.start ≤ s.end_
  sorted : segs.Pairwise fun a b => a.end_ ≤ b.start

namespace ProgramImage

variable (image : ProgramImage)

def segmentAt (ea : UInt64) : Option SegImage := segmentAmong image.segs ea

section Search

variable {image} {ea : UInt64} {i j : ℕ} {s t : SegImage}

theorem end_le_start (hij : i < j) (hs : image.segs[i]? = some s) (ht : image.segs[j]? = some t) :
    s.end_ ≤ t.start := by
  obtain ⟨hi, rfl⟩ := List.getElem?_eq_some_iff.1 hs
  obtain ⟨hj, rfl⟩ := List.getElem?_eq_some_iff.1 ht
  exact List.pairwise_iff_getElem.1 image.sorted i j hi hj hij

/-- Starts are in order, so the ones up to an address come first. -/
theorem start_le_of_le (hij : i ≤ j)
    (h : (image.segs[j]?.any fun s => decide (s.start ≤ ea)) = true) :
    (image.segs[i]?.any fun s => decide (s.start ≤ ea)) = true := by
  rcases Nat.lt_or_eq_of_le hij with hlt | rfl
  · obtain ⟨t, ht, hle⟩ := (Option.any_eq_true _ _).1 h
    obtain ⟨hj, -⟩ := List.getElem?_eq_some_iff.1 ht
    have hs : image.segs[i]? = some image.segs[i] := List.getElem?_eq_getElem (by omega)
    refine (Option.any_eq_true _ _).2 ⟨_, hs, decide_eq_true ?_⟩
    have hordered := image.ordered _ (List.mem_of_getElem? hs)
    exact UInt64.le_trans hordered
      (UInt64.le_trans (end_le_start hlt hs ht) (of_decide_eq_true hle))
  · exact h

end Search

/-- The segment at an address is the one that contains it. -/
theorem segmentAt_eq_some_iff {ea : UInt64} {s : SegImage} :
    image.segmentAt ea = some s ↔ s ∈ image.segs ∧ s.contains ea = true := by
  have hout : ∀ i, image.segs.length ≤ i →
      (image.segs[i]?.any fun s => decide (s.start ≤ ea)) = false := by
    intro i hi
    rw [List.getElem?_eq_none hi]
    rfl
  obtain ⟨hbefore, hafter⟩ := Cxx.bisect_spec (fun i j hij => start_le_of_le hij)
    image.segs.length (Nat.zero_le _) (Nat.sub_le _ 0) (fun i hi => absurd hi (Nat.not_lt_zero i))
    hout
  unfold segmentAt segmentAmong
  generalize Cxx.bisect _ image.segs.length 0 image.segs.length = first at hbefore hafter ⊢
  constructor
  · intro h
    by_cases hzero : first = 0
    · simp only [if_pos hzero] at h
      cases h
    · simp only [if_neg hzero] at h
      obtain ⟨hs, hcontains⟩ := Option.filter_eq_some_iff.1 h
      exact ⟨List.mem_of_getElem? hs, hcontains⟩
  · rintro ⟨hmem, hcontains⟩
    obtain ⟨j, hj⟩ := List.mem_iff_getElem?.1 hmem
    have hbounds := hcontains
    rw [SegImage.contains, Bool.and_eq_true, decide_eq_true_iff, decide_eq_true_iff] at hbounds
    have hlt : j < first := by
      by_contra hge
      have hfalse := hafter j (Nat.not_lt.1 hge)
      rw [hj, Option.any_some, decide_eq_false_iff_not] at hfalse
      exact hfalse hbounds.1
    -- a later segment would start after the end of this one
    have hlast : j = first - 1 := by
      by_contra hne
      obtain ⟨t, ht, hle⟩ := (Option.any_eq_true _ _).1 (hbefore (first - 1) (by omega))
      have hend := end_le_start (by omega : j < first - 1) hj ht
      exact UInt64.not_lt.2 (UInt64.le_trans hend (of_decide_eq_true hle)) hbounds.2
    have hzero : first ≠ 0 := by omega
    simp only [if_neg hzero, ← hlast, hj]
    exact Option.filter_eq_some_iff.2 ⟨rfl, hcontains⟩

/-- Some segment has the byte. -/
def Backs (a : UInt64) : Prop := ∃ s ∈ image.segs, s.contains a = true

/-- No segment that has the byte denies the access; a permission of 0 is unknown. -/
def Grants (required : SegPerm) (a : UInt64) : Prop :=
  ∀ s ∈ image.segs, s.contains a = true → s.perm = 0 ∨ s.hasPerm required = true

theorem segmentAt_eq_none_iff {ea : UInt64} : image.segmentAt ea = none ↔ ¬ image.Backs ea := by
  rw [Option.eq_none_iff_forall_ne_some]
  constructor
  · rintro h ⟨s, hs⟩
    exact h s (image.segmentAt_eq_some_iff.2 hs)
  · intro h s hs
    exact h ⟨s, image.segmentAt_eq_some_iff.1 hs⟩

/-- At most one segment has a byte. -/
theorem grants_iff {required : SegPerm} {a : UInt64} {s : SegImage} (hs : s ∈ image.segs)
    (ha : s.contains a = true) :
    image.Grants required a ↔ s.perm = 0 ∨ s.hasPerm required = true := by
  constructor
  · intro h
    exact h s hs ha
  · intro h t ht hta
    have hsame : some t = some s :=
      (image.segmentAt_eq_some_iff.2 ⟨ht, hta⟩).symm.trans (image.segmentAt_eq_some_iff.2 ⟨hs, ha⟩)
    rw [Option.some.inj hsame]
    exact h

/-! ## The access check -/

def checkedAdd (left right : UInt64) : Option UInt64 :=
  if left > ~~~0 - right then none else some (left + right)

/-- `while (cursor < end)`; a range of `fuel` bytes at most is walked. -/
def accessLoop (required : SegPerm) (end_ : UInt64) : ℕ → UInt64 → Bool → Bool
  | 0, _, _ => true
  | fuel + 1, cursor, touchesImage =>
    if cursor < end_ then
      match image.segmentAt cursor with
      | none => !touchesImage
      | some segment =>
        if segment.perm ≠ 0 ∧ segment.hasPerm required = false then false
        else
          accessLoop required end_ fuel (if segment.end_ < end_ then segment.end_ else end_) true
    else true

def accessAllowed (address : UInt64) (size : UInt32) (required : SegPerm) : Bool :=
  if size = 0 then true
  else
    match checkedAdd address size.toUInt64 with
    | none => false
    | some end_ => image.accessLoop required end_ size.toNat address false

theorem checkedAdd_eq_some_iff {left right sum : UInt64} :
    checkedAdd left right = some sum ↔ left.toNat + right.toNat = sum.toNat := by
  have hright := right.toNat_lt
  have hsum := sum.toNat_lt
  have hroom := Wire.toNat_max_sub right
  unfold checkedAdd
  by_cases hgt : left > ~~~0 - right
  · rw [if_pos hgt]
    have hlt := UInt64.lt_iff_toNat_lt.1 hgt
    refine iff_of_false nofun ?_
    omega
  · rw [if_neg hgt, Option.some.injEq, ← UInt64.toNat_inj, UInt64.toNat_add]
    have hle := UInt64.le_iff_toNat_le.1 (UInt64.not_lt.1 hgt)
    omega

theorem checkedAdd_ofNat_iff {a sum : UInt64} {n : ℕ} (hn : n < 2 ^ 64) :
    checkedAdd a (.ofNat n) = some sum ↔ sum = a + .ofNat n ∧ a.toNat + n < 2 ^ 64 := by
  have ha := a.toNat_lt
  have hsum := sum.toNat_lt
  rw [checkedAdd_eq_some_iff, ← UInt64.toNat_inj, UInt64.toNat_add, UInt64.toNat_ofNat_of_lt' hn]
  omega

section Walk

variable {image} {required : SegPerm} {end_ cursor : UInt64}

/-- Behind a segment that grants the access, the walk has the rest of the range to look at. -/
theorem range_granted_iff {s : SegImage} (hs : s ∈ image.segs)
    (hcontains : s.contains cursor = true) (hgranted : s.perm = 0 ∨ s.hasPerm required = true)
    {next : UInt64} (hlt : cursor < next) (hle : next ≤ s.end_) :
    (∀ a, next ≤ a → a < end_ → image.Backs a ∧ image.Grants required a) ↔
      ∀ a, cursor ≤ a → a < end_ → image.Backs a ∧ image.Grants required a := by
  rw [SegImage.contains, Bool.and_eq_true, decide_eq_true_iff, decide_eq_true_iff] at hcontains
  constructor
  · intro h a hcursor hend
    by_cases ha : a < next
    · have hsa : s.contains a = true := by
        rw [SegImage.contains, Bool.and_eq_true, decide_eq_true_iff, decide_eq_true_iff]
        exact ⟨UInt64.le_trans hcontains.1 hcursor, UInt64.lt_of_lt_of_le ha hle⟩
      exact ⟨⟨s, hs, hsa⟩, (image.grants_iff hs hsa).2 hgranted⟩
    · exact h a (UInt64.not_lt.1 ha) hend
  · intro h a hnext hend
    exact h a (UInt64.le_trans (UInt64.le_of_lt hlt) hnext) hend

/-- Once it has touched the image, the walk wants every byte backed and granted. -/
theorem accessLoop_eq_true_iff (fuel : ℕ) : ∀ {cursor : UInt64},
    end_.toNat - cursor.toNat ≤ fuel →
      (image.accessLoop required end_ fuel cursor true = true ↔
        ∀ a, cursor ≤ a → a < end_ → image.Backs a ∧ image.Grants required a) := by
  induction fuel with
  | zero =>
    intro cursor hfuel
    refine iff_of_true rfl ?_
    intro a hcursor hend
    have hle := UInt64.le_iff_toNat_le.1 hcursor
    have hlt := UInt64.lt_iff_toNat_lt.1 hend
    omega
  | succ fuel ih =>
    intro cursor hfuel
    unfold accessLoop
    by_cases hlt : cursor < end_
    · rw [if_pos hlt]
      cases hsegment : image.segmentAt cursor with
      | none =>
        refine iff_of_false (by simp) ?_
        intro h
        exact image.segmentAt_eq_none_iff.1 hsegment (h cursor UInt64.le_rfl hlt).1
      | some s =>
        obtain ⟨hs, hcontains⟩ := image.segmentAt_eq_some_iff.1 hsegment
        have hgrants : image.Grants required cursor ↔ s.perm = 0 ∨ s.hasPerm required = true :=
          image.grants_iff hs hcontains
        show (if s.perm ≠ 0 ∧ s.hasPerm required = false then false else _) = true ↔ _
        by_cases hdenies : s.perm ≠ 0 ∧ s.hasPerm required = false
        · rw [if_pos hdenies]
          refine iff_of_false (by simp) ?_
          intro h
          rcases hgrants.1 (h cursor UInt64.le_rfl hlt).2 with hzero | hhas
          · exact hdenies.1 hzero
          · rw [hdenies.2] at hhas
            cases hhas
        · rw [if_neg hdenies]
          have hgranted : s.perm = 0 ∨ s.hasPerm required = true := by
            by_contra hnot
            rw [not_or, Bool.not_eq_true] at hnot
            exact hdenies hnot
          have hnext : cursor < (if s.end_ < end_ then s.end_ else end_) ∧
              (if s.end_ < end_ then s.end_ else end_) ≤ s.end_ := by
            split_ifs with hend
            · rw [SegImage.contains, Bool.and_eq_true, decide_eq_true_iff, decide_eq_true_iff]
                at hcontains
              exact ⟨hcontains.2, UInt64.le_rfl⟩
            · exact ⟨hlt, UInt64.not_lt.1 hend⟩
          have hnat := UInt64.lt_iff_toNat_lt.1 hnext.1
          rw [ih (by omega)]
          exact range_granted_iff hs hcontains hgranted hnext.1 hnext.2
    · rw [if_neg hlt]
      refine iff_of_true rfl ?_
      intro a hcursor hend
      exact absurd (UInt64.lt_of_le_of_lt hcursor hend) hlt

end Walk

/-- The byte is in the range of an access. -/
def InRange (address : UInt64) (size : UInt32) (a : UInt64) : Prop :=
  address.toNat ≤ a.toNat ∧ a.toNat < address.toNat + size.toNat

/-- **The access check.** It passes every access that starts in a gap; of the others it passes the
ones all of whose bytes are in segments that grant it. -/
theorem accessAllowed_eq_true_iff {address : UInt64} {size : UInt32} {required : SegPerm}
    (hsize : size ≠ 0) (hfits : address.toNat + size.toNat < 2 ^ 64) :
    image.accessAllowed address size required = true ↔ ¬ image.Backs address ∨
      ∀ a, InRange address size a → image.Backs a ∧ image.Grants required a := by
  have hpos : size.toNat ≠ 0 := fun hzero => hsize (UInt32.toNat_inj.1 hzero)
  have hsum : checkedAdd address size.toUInt64 = some (.ofNat (address.toNat + size.toNat)) := by
    rw [checkedAdd_eq_some_iff, UInt32.toNat_toUInt64, UInt64.toNat_ofNat_of_lt' hfits]
  set end_ : UInt64 := .ofNat (address.toNat + size.toNat) with hend
  have hend_nat : end_.toNat = address.toNat + size.toNat := UInt64.toNat_ofNat_of_lt' hfits
  have hlt : address < end_ := UInt64.lt_iff_toNat_lt.2 (by omega)
  have hrange : (∀ a, InRange address size a → image.Backs a ∧ image.Grants required a) ↔
      ∀ a, address ≤ a → a < end_ → image.Backs a ∧ image.Grants required a := by
    constructor
    · intro h a hle hlt'
      exact h a ⟨UInt64.le_iff_toNat_le.1 hle, hend_nat ▸ UInt64.lt_iff_toNat_lt.1 hlt'⟩
    · rintro h a ⟨hle, hlt'⟩
      exact h a (UInt64.le_iff_toNat_le.2 hle) (UInt64.lt_iff_toNat_lt.2 (hend_nat ▸ hlt'))
  obtain ⟨fuel, hfuel⟩ := Nat.exists_eq_succ_of_ne_zero hpos
  unfold accessAllowed
  rw [if_neg hsize, hsum, hrange]
  show image.accessLoop required end_ size.toNat address false = true ↔ _
  cases hsegment : image.segmentAt address with
  | none =>
    have hgap := image.segmentAt_eq_none_iff.1 hsegment
    rw [hfuel, accessLoop, if_pos hlt, hsegment]
    exact iff_of_true rfl (Or.inl hgap)
  | some s =>
    have hbacks : image.Backs address := ⟨s, image.segmentAt_eq_some_iff.1 hsegment⟩
    have hsame : image.accessLoop required end_ size.toNat address false =
        image.accessLoop required end_ size.toNat address true := by
      rw [hfuel, accessLoop, accessLoop, if_pos hlt, if_pos hlt, hsegment]
    rw [hsame, accessLoop_eq_true_iff _ (by omega), or_iff_right (not_not.2 hbacks)]

end ProgramImage

end Viy.Emu
