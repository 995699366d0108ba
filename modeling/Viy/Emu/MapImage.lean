import Viy.Cxx.Coalesce
import Viy.Cxx.Map
import Viy.Emu.DecodeCache

/-!
# Mapping the image

The driver maps the pages of an image before it runs anything. It collects the protection of every
page that a segment touches in a map, merges neighbouring pages of one protection into intervals,
maps these, and writes the initialized bytes of the segments, one run of set mask bits at a time. If
all calls into rax succeed, the engine has exactly the pages of the segments, each with the union of
the protections on it, and in them the bytes of the image among zeros.
-/

namespace Viy.Emu

open Wire Cxx Fault

/-! ## The engine -/

/-- The bits of `RAX_PROT_*`. -/
structure Prot where
  read : Bool := false
  write : Bool := false
  exec : Bool := false
  deriving DecidableEq

namespace Prot

/-- `RAX_PROT_NONE` -/
def none : Prot := {}

/-- `RAX_PROT_ALL` -/
def all : Prot := { read := true, write := true, exec := true }

def union (a b : Prot) : Prot :=
  { read := a.read || b.read, write := a.write || b.write, exec := a.exec || b.exec }

end Prot

/-- A successful `mem_map`. -/
structure Mapping where
  base : UInt64
  len : UInt64
  prot : Prot

/-- What the engine has mapped, call by call and byte by byte, and its memory. -/
structure Engine where
  maps : List Mapping := []
  prot : UInt64 → Option Prot := fun _ => none
  mem : Memory

/-- The byte is in the range of a call. -/
def inCall (base len a : UInt64) : Bool := decide ((a - base).toNat < len.toNat)

/-- New pages are filled with zeros. -/
def Engine.map (e : Engine) (m : Mapping) : Engine where
  maps := e.maps ++ [m]
  prot a := if inCall m.base m.len a then some m.prot else e.prot a
  mem a := if inCall m.base m.len a then 0 else e.mem a

def Engine.protect (e : Engine) (m : Mapping) : Engine :=
  { e with prot := fun a =>
      if inCall m.base m.len a then (e.prot a).map fun _ => m.prot else e.prot a }

def Engine.write (e : Engine) (a : UInt64) (bytes : Bytes) : Engine :=
  { e with mem := store e.mem a bytes }

abbrev EngineProc := Proc Engine Outcome

/-- A call into rax that succeeds, or fails without effect. -/
def engineCall (f : Engine → Engine) : EngineProc Unit :=
  Proc.prim (fun e => ((), f e)) fun outcome e => match outcome with
    | .ok => (some (), f e)
    | .fails => (none, e)

/-! ## Pages -/

def kPage : UInt64 := 0x1000

def pageDown (x : UInt64) : UInt64 := x &&& ~~~(kPage - 1)

def segProt (strict : Bool) (s : SegImage) : Prot :=
  if strict = false ∨ s.perm = 0 then .all
  else
    { read := decide (s.perm &&& 4 ≠ 0), write := decide (s.perm &&& 2 ≠ 0)
      exec := decide (s.perm &&& 1 ≠ 0) }

def roundedEnd (s : SegImage) : Option UInt64 :=
  if s.end_ &&& (kPage - 1) ≠ 0 then (ProgramImage.checkedAdd s.end_ (kPage - 1)).map pageDown
  else some s.end_

abbrev PageMap : Type := Map Comparator.u64 Prot

/-- `pages[p] |= prot` -/
def addPage (prot : Prot) (pages : PageMap) (p : UInt64) : PageMap :=
  pages.upsert p fun old => (old.getD .none).union prot

/-- `for (p; p < rounded_end;)`; `fuel` pages at most. -/
def pageLoop (prot : Prot) (roundedEnd : UInt64) : ℕ → UInt64 → PageMap → PageMap
  | 0, _, pages => pages
  | fuel + 1, p, pages =>
    if p < roundedEnd then
      let pages := addPage prot pages p
      if roundedEnd - p ≤ kPage then pages else pageLoop prot roundedEnd fuel (p + kPage) pages
    else pages

def addSegment (strict : Bool) (pages : PageMap) (s : SegImage) : Option PageMap :=
  if s.end_ ≤ s.start then some pages
  else (roundedEnd s).map fun last =>
    pageLoop (segProt strict s) last (last.toNat / 0x1000) (pageDown s.start) pages

def imagePages (strict : Bool) (segs : List SegImage) : Option PageMap :=
  segs.foldlM (addSegment strict) Map.empty

/-! ## Intervals -/

/-- `IV` -/
structure PageRange where
  base : UInt64
  end_ : UInt64
  prot : Prot

/-- A page without any right is mapped readable. -/
def mappedProt (prot : Prot) : Prot := if prot = .none then { read := true } else prot

def pushPage (page : UInt64 × Prot) : Option PageRange :=
  (ProgramImage.checkedAdd page.1 kPage).map fun end_ => ⟨page.1, end_, mappedProt page.2⟩

/-- The loop over the pages, with the last interval of the result. -/
def mergeFrom (back : PageRange) : List (UInt64 × Prot) → Option (List PageRange)
  | [] => some [back]
  | page :: pages =>
    if page.1 = back.end_ ∧ mappedProt page.2 = back.prot then
      mergeFrom { back with end_ := back.end_ + kPage } pages
    else do
      let next ← pushPage page
      let rest ← mergeFrom next pages
      pure (back :: rest)

def mergePages : List (UInt64 × Prot) → Option (List PageRange)
  | [] => some []
  | page :: pages => do
    let first ← pushPage page
    mergeFrom first pages

def PageRange.mapping (iv : PageRange) : Mapping := ⟨iv.base, iv.end_ - iv.base, iv.prot⟩

/-- An interval that cannot be mapped is protected instead. -/
def mapIntervals : List PageRange → EngineProc Unit
  | [] => pure ()
  | iv :: ivs => do
    match ← (engineCall fun e => e.map iv.mapping).attempt with
    | some () => mapIntervals ivs
    | none => do
      engineCall fun e => e.protect iv.mapping
      mapIntervals ivs

/-! ## Bytes -/

def writeBytes (a : UInt64) (bytes : Bytes) : EngineProc Unit :=
  engineCall fun e => e.write a bytes

/-- Skip the bytes that are not initialized, and find the end of those that are. -/
def nextRun (s : SegImage) (i : ℕ) : Option (ℕ × ℕ) :=
  let len := s.bytes.length
  if i < len then
    let i := advanceWhile (fun k => !maskBit s.mask k) (len - i) i
    if len ≤ i then none else some (i, advanceWhile (maskBit s.mask) (len - i) i)
  else none

def writeRun (s : SegImage) (i j : ℕ) : EngineProc Unit := do
  let address ← Proc.lift (ProgramImage.checkedAdd s.start (.ofNat i))
  writeBytes address ((s.bytes.drop i).take (j - i))

/-- A turn of `while (i < len)`. -/
def writeTurn (s : SegImage) (i : ℕ) : EngineProc (ℕ ⊕ Unit) :=
  match nextRun s i with
  | none => pure (.inr ())
  | some (i, j) => do
    writeRun s i j
    pure (.inl j)

def writeRuns (s : SegImage) : ℕ → ℕ → EngineProc Unit :=
  Proc.loop (writeTurn s) fun _ => pure ()

/-- The segment has no more bytes than addresses, and a mask for all of them. -/
def SegImage.loadable (s : SegImage) : Bool :=
  let len := s.bytes.length
  decide (s.start ≤ s.end_) && decide (len ≤ (s.end_ - s.start).toNat) &&
    (decide (len = 0) || decide ((len + 7) / 8 ≤ s.mask.length))

def loadImageBytes : List SegImage → EngineProc Unit
  | [] => pure ()
  | s :: segs => do
    Proc.require s.loadable
    writeRuns s s.bytes.length 0
    loadImageBytes segs

def mapImage (strict : Bool) (segs : List SegImage) : EngineProc Unit := do
  let pages ← Proc.lift (imagePages strict segs)
  let merged ← Proc.lift (mergePages pages.entries)
  mapIntervals merged
  loadImageBytes segs

/-! ## The pages of the segments -/

theorem toNat_pageDown (x : UInt64) : (pageDown x).toNat = x.toNat / 0x1000 * 0x1000 := by
  have hmask : (~~~(kPage - 1) : UInt64).toNat = (2 ^ (64 - 12) - 1) * 2 ^ 12 := by decide
  exact toNat_and_high x (by norm_num) hmask

theorem toNat_kPage : kPage.toNat = 0x1000 := rfl

theorem toNat_add_kPage {p : UInt64} (h : p.toNat + 0x1000 < 2 ^ 64) :
    (p + kPage).toNat = p.toNat + 0x1000 :=
  toNat_add_ofNat h

/-- The page at an address. -/
def Aligned (p : UInt64) : Prop := p.toNat % 0x1000 = 0

instance (p : UInt64) : Decidable (Aligned p) := inferInstanceAs (Decidable (_ = _))

/-- A non-empty segment has a byte in the page. -/
def SegImage.OnPage (s : SegImage) (p : UInt64) : Prop :=
  s.start.toNat < s.end_.toNat ∧ s.start.toNat < p.toNat + 0x1000 ∧ p.toNat < s.end_.toNat

instance (s : SegImage) (p : UInt64) : Decidable (s.OnPage p) := inferInstanceAs (Decidable (_ ∧ _))

section Pages

variable {strict : Bool} {s : SegImage} {last p q : UInt64}

/-- Rounding up keeps to the address space, or fails. -/
theorem roundedEnd_spec (h : roundedEnd s = some last) :
    Aligned last ∧ s.end_.toNat ≤ last.toNat ∧ last.toNat < s.end_.toNat + 0x1000 := by
  have hlow : (s.end_ &&& (kPage - 1)).toNat = s.end_.toNat % 0x1000 := by
    have hmask : (kPage - 1).toNat = 2 ^ 12 - 1 := by decide
    rw [UInt64.toNat_and, hmask, Nat.and_two_pow_sub_one_eq_mod]
  unfold roundedEnd at h
  unfold Aligned
  by_cases hzero : s.end_ &&& (kPage - 1) = 0
  · rw [if_neg (not_not.2 hzero)] at h
    obtain rfl := Option.some.inj h
    rw [hzero] at hlow
    exact ⟨hlow.symm, le_rfl, by omega⟩
  · rw [if_pos hzero] at h
    obtain ⟨sum, hsum, rfl⟩ := Option.map_eq_some_iff.1 h
    have hnat := ProgramImage.checkedAdd_eq_some_iff.1 hsum
    have hstep : (kPage - 1).toNat = 0xfff := by decide
    rw [toNat_pageDown]
    omega

/-- The loop adds the protection to every page of its range. -/
theorem find_pageLoop (prot : Prot) (hlast : Aligned last) (q : UInt64) (fuel : ℕ) :
    ∀ {p : UInt64} {pages : PageMap}, Aligned p → (last.toNat - p.toNat) / 0x1000 ≤ fuel →
      (pageLoop prot last fuel p pages).find q =
        if Aligned q ∧ p.toNat ≤ q.toNat ∧ q.toNat < last.toNat then
          some (((pages.find q).getD .none).union prot)
        else pages.find q := by
  unfold Aligned at hlast ⊢
  induction fuel with
  | zero =>
    intro p pages hp hfuel
    rw [pageLoop, if_neg (by omega)]
  | succ fuel ih =>
    intro p pages hp hfuel
    rw [pageLoop]
    by_cases hlt : p < last
    · rw [if_pos hlt]
      have hlt_nat := UInt64.lt_iff_toNat_lt.1 hlt
      have hlast64 := last.toNat_lt
      have hadd : (addPage prot pages p).find q =
          if p = q then some (((pages.find p).getD .none).union prot) else pages.find q :=
        Map.find_upsert pages p q _
      have hleft : (last - p).toNat = last.toNat - p.toNat :=
        UInt64.toNat_sub_of_le _ _ (UInt64.le_of_lt hlt)
      dsimp only
      by_cases hdone : last - p ≤ kPage
      · -- the last page of the range
        rw [if_pos hdone, hadd]
        rw [UInt64.le_iff_toNat_le, hleft, toNat_kPage] at hdone
        by_cases hpq : p = q
        · subst hpq
          rw [if_pos rfl, if_pos ⟨hp, le_rfl, hlt_nat⟩]
        · have hne : p.toNat ≠ q.toNat := fun h => hpq (UInt64.toNat_inj.1 h)
          rw [if_neg hpq, if_neg (by omega)]
      · rw [if_neg hdone]
        rw [UInt64.le_iff_toNat_le, hleft, toNat_kPage] at hdone
        have hnext : (p + kPage).toNat = p.toNat + 0x1000 := toNat_add_kPage (by omega)
        rw [ih (by omega) (by omega), hadd, hnext]
        by_cases hpq : p = q
        · subst hpq
          rw [if_neg (by omega), if_pos rfl, if_pos ⟨hp, le_rfl, hlt_nat⟩]
        · have hne : p.toNat ≠ q.toNat := fun h => hpq (UInt64.toNat_inj.1 h)
          rw [if_neg hpq]
          refine if_congr ?_ rfl rfl
          omega
    · rw [if_neg hlt]
      have hle := UInt64.le_iff_toNat_le.1 (UInt64.not_lt.1 hlt)
      rw [if_neg (by omega)]

/-- A segment adds its protection to the pages it is on. -/
theorem find_addSegment {pages pages' : PageMap} (h : addSegment strict pages s = some pages')
    (q : UInt64) :
    pages'.find q =
      if Aligned q ∧ s.OnPage q then some (((pages.find q).getD .none).union (segProt strict s))
      else pages.find q := by
  unfold addSegment at h
  by_cases hempty : s.end_ ≤ s.start
  · rw [if_pos hempty] at h
    obtain rfl := Option.some.inj h
    have hle := UInt64.le_iff_toNat_le.1 hempty
    rw [if_neg]
    rintro ⟨-, hlt, -⟩
    omega
  · rw [if_neg hempty] at h
    obtain ⟨last, hlast, rfl⟩ := Option.map_eq_some_iff.1 h
    obtain ⟨haligned, hle, hlt⟩ := roundedEnd_spec hlast
    have hstart : Aligned (pageDown s.start) := by
      unfold Aligned
      rw [toNat_pageDown]
      omega
    have hfuel : (last.toNat - (pageDown s.start).toNat) / 0x1000 ≤ last.toNat / 0x1000 :=
      Nat.div_le_div_right (Nat.sub_le _ _)
    rw [find_pageLoop _ haligned q _ hstart hfuel, toNat_pageDown]
    have hnonempty := UInt64.lt_iff_toNat_lt.1 (UInt64.not_le.1 hempty)
    refine if_congr ?_ rfl rfl
    unfold SegImage.OnPage Aligned at *
    omega

/-- The segment grants the right; all are granted in permissive mode and if none is known. -/
def SegImage.allows (strict : Bool) (s : SegImage) (right : SegPerm) : Bool :=
  !strict || s.perm == 0 || s.hasPerm right

/-- The union of the protections of the segments on a page. -/
def unionProt (strict : Bool) (segs : List SegImage) (p : UInt64) : Prot :=
  { read := segs.any fun s => decide (s.OnPage p) && s.allows strict .read
    write := segs.any fun s => decide (s.OnPage p) && s.allows strict .write
    exec := segs.any fun s => decide (s.OnPage p) && s.allows strict .exec }

/-- A permission is a single bit. -/
theorem hasPerm_eq (s : SegImage) (right : SegPerm) :
    s.hasPerm right = decide (s.perm &&& right.bits ≠ 0) := by
  obtain ⟨k, hk⟩ : ∃ k, right.bits.toNat = 2 ^ k := by
    cases right
    · exact ⟨0, rfl⟩
    · exact ⟨1, rfl⟩
    · exact ⟨2, rfl⟩
  rw [SegImage.hasPerm, Bool.eq_iff_iff, beq_iff_eq, decide_eq_true_iff, ne_eq,
    ← UInt32.toNat_inj, ← UInt32.toNat_inj, UInt32.toNat_and, hk, Nat.and_two_pow]
  have hpos : 0 < 2 ^ k := Nat.two_pow_pos k
  cases s.perm.toNat.testBit k
  · simp [hpos.ne]
  · simp

theorem segProt_eq (strict : Bool) (s : SegImage) :
    segProt strict s =
      { read := s.allows strict .read, write := s.allows strict .write
        exec := s.allows strict .exec } := by
  unfold segProt SegImage.allows
  by_cases hall : strict = false ∨ s.perm = 0
  · have hopen : (!strict || s.perm == 0) = true := by
      rcases hall with hstrict | hperm
      · rw [hstrict]
        rfl
      · rw [hperm]
        exact Bool.or_true _
    rw [if_pos hall, hopen]
    rfl
  · rw [if_neg hall]
    rw [not_or, Bool.not_eq_false] at hall
    have hclosed : (!strict || s.perm == 0) = false := by
      rw [hall.1, beq_eq_false_iff_ne.2 hall.2]
      rfl
    rw [hclosed, Bool.false_or, Bool.false_or, Bool.false_or, hasPerm_eq, hasPerm_eq, hasPerm_eq]
    rfl

namespace Prot

theorem union_assoc (a b c : Prot) : (a.union b).union c = a.union (b.union c) := by
  simp only [union, Bool.or_assoc]

@[simp] theorem union_none (a : Prot) : a.union .none = a := by
  simp only [union, none, Bool.or_false]

@[simp] theorem none_union (a : Prot) : Prot.none.union a = a := by
  simp only [union, none, Bool.false_or]

end Prot

theorem unionProt_cons (segs : List SegImage) :
    unionProt strict (s :: segs) p =
      if s.OnPage p then (segProt strict s).union (unionProt strict segs p)
      else unionProt strict segs p := by
  by_cases hs : s.OnPage p
  · simp only [unionProt, List.any_cons, hs, decide_true, Bool.true_and, if_true, Prot.union,
      segProt_eq]
  · simp only [unionProt, List.any_cons, hs, decide_false, Bool.false_and, Bool.false_or, if_false]

theorem unionProt_eq_none {segs : List SegImage} (h : ¬ ∃ s ∈ segs, s.OnPage p) :
    unionProt strict segs p = .none := by
  have hoff : ∀ (f : SegImage → Bool), (segs.any fun s => decide (s.OnPage p) && f s) = false := by
    intro f
    rw [List.any_eq_false]
    intro s hs
    rw [decide_eq_false fun hpage => h ⟨s, hs, hpage⟩, Bool.false_and]
    exact Bool.false_ne_true
  simp only [unionProt, hoff, Prot.none]

/-- The loop over the segments leaves on every page what it had and what the segments add. -/
theorem find_addSegments (segs : List SegImage) (q : UInt64) : ∀ {pages pages' : PageMap},
    segs.foldlM (addSegment strict) pages = some pages' →
      pages'.find q =
        if Aligned q ∧ ∃ s ∈ segs, s.OnPage q then
          some (((pages.find q).getD .none).union (unionProt strict segs q))
        else pages.find q := by
  induction segs with
  | nil =>
    intro pages pages' h
    obtain rfl := Option.some.inj h
    rw [if_neg]
    rintro ⟨-, s, hs, -⟩
    cases hs
  | cons s segs ih =>
    intro pages pages' h
    rw [List.foldlM_cons] at h
    obtain ⟨mid, hmid, hrest⟩ := Option.bind_eq_some_iff.1 h
    rw [ih hrest, find_addSegment hmid q, unionProt_cons]
    by_cases hq : Aligned q
    · by_cases hs : s.OnPage q
      · have hany : ∃ t ∈ s :: segs, t.OnPage q := ⟨s, List.mem_cons_self, hs⟩
        simp only [hq, hs, hany, and_self, true_and, if_true]
        by_cases hmore : ∃ t ∈ segs, t.OnPage q
        · rw [if_pos hmore, Option.getD_some, Prot.union_assoc]
        · rw [if_neg hmore, unionProt_eq_none hmore, Prot.union_none]
      · simp only [hq, hs, true_and, and_false, if_false, List.exists_mem_cons_iff, false_or]
    · simp only [hq, false_and, if_false]

/-- **Pages.** The map has the pages that a non-empty segment is on, with their union. -/
theorem find_imagePages {segs : List SegImage} {pages : PageMap}
    (h : imagePages strict segs = some pages) (q : UInt64) :
    pages.find q =
      if Aligned q ∧ ∃ s ∈ segs, s.OnPage q then some (unionProt strict segs q) else none := by
  rw [find_addSegments segs q h, Map.find_empty, Option.getD_none, Prot.none_union]

theorem roundedEnd_of_addSegments (segs : List SegImage) : ∀ {pages pages' : PageMap},
    segs.foldlM (addSegment strict) pages = some pages' →
      ∀ s ∈ segs, s.start.toNat < s.end_.toNat → ∃ last, roundedEnd s = some last := by
  induction segs with
  | nil =>
    intro pages pages' _ s hs
    cases hs
  | cons s segs ih =>
    intro pages pages' h t ht hlt
    rw [List.foldlM_cons] at h
    obtain ⟨mid, hmid, hrest⟩ := Option.bind_eq_some_iff.1 h
    rcases List.mem_cons.1 ht with rfl | ht
    · rw [addSegment, if_neg (UInt64.not_le.2 (UInt64.lt_iff_toNat_lt.2 hlt))] at hmid
      obtain ⟨last, hlast, -⟩ := Option.map_eq_some_iff.1 hmid
      exact ⟨last, hlast⟩
    · exact ih hrest t ht hlt

/-- The end of a page of the map is an address. -/
theorem page_end_lt {segs : List SegImage} {pages : PageMap}
    (h : imagePages strict segs = some pages) (hp : Aligned p) (hs : ∃ s ∈ segs, s.OnPage p) :
    p.toNat + 0x1000 < 2 ^ 64 := by
  obtain ⟨s, hs, hlt, -, hend⟩ := hs
  obtain ⟨last, hlast⟩ := roundedEnd_of_addSegments segs h s hs hlt
  obtain ⟨haligned, hle, -⟩ := roundedEnd_spec hlast
  have hlast64 := last.toNat_lt
  unfold Aligned at hp haligned
  omega

end Pages

/-! ## The merged intervals -/

namespace PageRange

/-- The interval of a single page. -/
def ofPage (page : UInt64 × Prot) : PageRange := ⟨page.1, page.1 + kPage, mappedProt page.2⟩

def join (back next : PageRange) : Option PageRange :=
  if next.base = back.end_ ∧ next.prot = back.prot then some { back with end_ := next.end_ }
  else none

/-- The byte is in the interval, with this protection. -/
def Covers (iv : PageRange) (x : UInt64 × Prot) : Prop :=
  iv.prot = x.2 ∧ iv.base.toNat ≤ x.1.toNat ∧ x.1.toNat < iv.end_.toNat

def Before (a b : PageRange) : Prop :=
  a.base.toNat < a.end_.toNat ∧ a.end_.toNat ≤ b.base.toNat ∧ b.base.toNat < b.end_.toNat

/-- Whole pages, at least one. -/
def Paged (iv : PageRange) : Prop :=
  Aligned iv.base ∧ Aligned iv.end_ ∧ iv.base.toNat < iv.end_.toNat

theorem join_eq_some {b x b' : PageRange} (h : join b x = some b') :
    x.base = b.end_ ∧ x.prot = b.prot ∧ b' = { b with end_ := x.end_ } := by
  unfold join at h
  split_ifs at h with hjoin
  exact ⟨hjoin.1, hjoin.2, (Option.some.inj h).symm⟩

theorem before_of_join {b x b' y : PageRange} (h : join b x = some b') (hb : b.Before y)
    (hx : x.Before y) : b'.Before y := by
  obtain ⟨hbase, -, rfl⟩ := join_eq_some h
  obtain ⟨hlt, -, -⟩ := hb
  obtain ⟨hlt', hle, hy⟩ := hx
  rw [hbase] at hlt'
  exact ⟨hlt.trans hlt', hle, hy⟩

theorem covers_join {b x b' : PageRange} {a : UInt64 × Prot} (hbefore : b.Before x)
    (h : join b x = some b') : b'.Covers a ↔ b.Covers a ∨ x.Covers a := by
  obtain ⟨hbase, hprot, rfl⟩ := join_eq_some h
  obtain ⟨hlt, -, hlt'⟩ := hbefore
  unfold Covers
  dsimp only
  rw [hprot, hbase] at *
  by_cases hp : b.prot = a.2
  · simp only [hp, true_and]
    omega
  · simp only [hp, false_and, or_self]

end PageRange

section Intervals

variable {strict : Bool} {segs : List SegImage} {pages : PageMap}

open PageRange

theorem pushPage_eq {page : UInt64 × Prot} (h : page.1.toNat + 0x1000 < 2 ^ 64) :
    pushPage page = some (ofPage page) := by
  have hsum : ProgramImage.checkedAdd page.1 kPage = some (page.1 + kPage) := by
    rw [ProgramImage.checkedAdd_eq_some_iff, toNat_add_kPage h, toNat_kPage]
  rw [pushPage, hsum]
  rfl

/-- Below the top page nothing overflows, and the loop merges the intervals of the single pages. -/
theorem mergeFrom_eq (l : List (UInt64 × Prot)) : ∀ {back : PageRange},
    (∀ page ∈ l, page.1.toNat + 0x1000 < 2 ^ 64) →
      mergeFrom back l = some (coalesceFrom join back (l.map ofPage)) := by
  induction l with
  | nil =>
    intro back _
    rfl
  | cons page l ih =>
    intro back hl
    have hrest : ∀ page ∈ l, page.1.toNat + 0x1000 < 2 ^ 64 :=
      fun page' h => hl page' (List.mem_cons_of_mem page h)
    rw [mergeFrom, List.map_cons, coalesceFrom]
    by_cases hjoin : page.1 = back.end_ ∧ mappedProt page.2 = back.prot
    · have hstep : join back (ofPage page) = some { back with end_ := back.end_ + kPage } := by
        have hend : (ofPage page).end_ = back.end_ + kPage := congrArg (· + kPage) hjoin.1
        rw [join, if_pos (show (ofPage page).base = _ ∧ (ofPage page).prot = _ from hjoin), hend]
      rw [if_pos hjoin, hstep]
      exact ih hrest
    · have hstep : join back (ofPage page) = none :=
        if_neg (show ¬ ((ofPage page).base = _ ∧ (ofPage page).prot = _) from hjoin)
      rw [if_neg hjoin, hstep, pushPage_eq (hl page List.mem_cons_self)]
      show (mergeFrom (ofPage page) l).bind (fun rest => some (back :: rest)) = _
      rw [ih hrest]
      rfl

theorem mergePages_eq {l : List (UInt64 × Prot)}
    (hl : ∀ page ∈ l, page.1.toNat + 0x1000 < 2 ^ 64) :
    mergePages l = some (coalesce join (l.map ofPage)) := by
  cases l with
  | nil => rfl
  | cons page l =>
    rw [mergePages, pushPage_eq (hl page List.mem_cons_self)]
    exact mergeFrom_eq l fun page' h => hl page' (List.mem_cons_of_mem page h)

/-- The entries of the map. -/
theorem mem_imagePages (h : imagePages strict segs = some pages) {page : UInt64 × Prot} :
    page ∈ pages.entries ↔
      (Aligned page.1 ∧ ∃ s ∈ segs, s.OnPage page.1) ∧ page.2 = unionProt strict segs page.1 := by
  obtain ⟨p, prot⟩ := page
  rw [Map.mem_entries_iff, find_imagePages h]
  by_cases hp : Aligned p ∧ ∃ s ∈ segs, s.OnPage p
  · rw [if_pos hp, Option.some.injEq]
    exact ⟨fun heq => ⟨hp, heq.symm⟩, fun heq => heq.2.symm⟩
  · rw [if_neg hp]
    exact iff_of_false (by simp) fun hq => hp hq.1

theorem entry_end_lt (h : imagePages strict segs = some pages) :
    ∀ page ∈ pages.entries, page.1.toNat + 0x1000 < 2 ^ 64 := by
  intro page hpage
  obtain ⟨⟨haligned, hs⟩, -⟩ := (mem_imagePages h).1 hpage
  exact page_end_lt h haligned hs

theorem pages_before (h : imagePages strict segs = some pages) :
    (pages.entries.map ofPage).Pairwise Before := by
  rw [List.pairwise_map]
  refine List.Pairwise.imp_of_mem ?_ pages.sorted
  intro page page' hpage hpage' hless
  have hlt := UInt64.lt_iff_toNat_lt.1 (of_decide_eq_true hless)
  have haligned := ((mem_imagePages h).1 hpage).1.1
  have haligned' := ((mem_imagePages h).1 hpage').1.1
  unfold Aligned at haligned haligned'
  unfold Before ofPage
  dsimp only
  rw [toNat_add_kPage (entry_end_lt h page hpage), toNat_add_kPage (entry_end_lt h page' hpage')]
  omega

/-- What the merged intervals are: whole pages, in order, over the pages of the segments. -/
structure MergedPages (strict : Bool) (segs : List SegImage) (ivs : List PageRange) : Prop where
  paged : ∀ iv ∈ ivs, iv.Paged
  apart : ivs.Pairwise fun a b => a.end_.toNat ≤ b.base.toNat
  covers : ∀ x : UInt64 × Prot, (∃ iv ∈ ivs, iv.Covers x) ↔
    (∃ s ∈ segs, s.OnPage (pageDown x.1)) ∧
      mappedProt (unionProt strict segs (pageDown x.1)) = x.2

theorem aligned_pageDown (a : UInt64) : Aligned (pageDown a) := by
  unfold Aligned
  rw [toNat_pageDown]
  omega

/-- The page of a byte is the only one that it is in. -/
theorem eq_pageDown {p a : UInt64} (hp : Aligned p) (hle : p.toNat ≤ a.toNat)
    (hlt : a.toNat < p.toNat + 0x1000) : p = pageDown a := by
  unfold Aligned at hp
  rw [← UInt64.toNat_inj, toNat_pageDown]
  omega

/-- **Merging.** The merge succeeds and its intervals are those of the pages. -/
theorem mergedPages (h : imagePages strict segs = some pages) :
    ∃ ivs, mergePages pages.entries = some ivs ∧ MergedPages strict segs ivs := by
  refine ⟨_, mergePages_eq (entry_end_lt h), ?_, ?_, ?_⟩
  · refine coalesce_forall ?_ ?_
    · rintro b x b' ⟨hbase, -, hlt⟩ ⟨-, hend, hlt'⟩ hjoin
      obtain ⟨hnext, -, rfl⟩ := join_eq_some hjoin
      rw [hnext] at hlt'
      exact ⟨hbase, hend, hlt.trans hlt'⟩
    · intro iv hiv
      obtain ⟨page, hpage, rfl⟩ := List.mem_map.1 hiv
      have haligned := ((mem_imagePages h).1 hpage).1.1
      unfold Aligned at haligned
      unfold Paged Aligned ofPage
      dsimp only
      rw [toNat_add_kPage (entry_end_lt h page hpage)]
      omega
  · refine coalesce_pairwise (fun _ _ _ _ => before_of_join) ?_ ?_ ?_ (pages_before h)
    · intro b x hbefore _
      exact hbefore.2.1
    · intro b x y hapart hbefore
      obtain ⟨hlt, hle, -⟩ := hbefore
      omega
    · intro a b x b' hapart hjoin
      obtain ⟨-, -, rfl⟩ := join_eq_some hjoin
      exact hapart
  · rintro ⟨a, prot⟩
    have hcovers := coalesce_covers (fun _ _ _ _ => before_of_join)
      (fun _ _ _ => @covers_join _ _ _ (a, prot)) (pages_before h)
    refine hcovers.trans ?_
    constructor
    · rintro ⟨iv, hiv, hprot, hle, hlt⟩
      obtain ⟨page, hpage, rfl⟩ := List.mem_map.1 hiv
      obtain ⟨⟨haligned, hs⟩, hunion⟩ := (mem_imagePages h).1 hpage
      have hend : (ofPage page).end_.toNat = page.1.toNat + 0x1000 :=
        toNat_add_kPage (entry_end_lt h page hpage)
      have hdown : page.1 = pageDown a := eq_pageDown haligned hle (hend ▸ hlt)
      rw [← hdown, ← hunion]
      exact ⟨hs, hprot⟩
    · rintro ⟨hs, hprot⟩
      set page : UInt64 × Prot := (pageDown a, unionProt strict segs (pageDown a)) with hpage_eq
      have hpage : page ∈ pages.entries := (mem_imagePages h).2 ⟨⟨aligned_pageDown a, hs⟩, rfl⟩
      have hend : (ofPage page).end_.toNat = (pageDown a).toNat + 0x1000 :=
        toNat_add_kPage (entry_end_lt h page hpage)
      have hbase : (ofPage page).base.toNat = a.toNat / 0x1000 * 0x1000 := toNat_pageDown a
      rw [toNat_pageDown] at hend
      refine ⟨ofPage page, List.mem_map.2 ⟨page, hpage, rfl⟩, hprot, ?_, ?_⟩
      · show (ofPage page).base.toNat ≤ a.toNat
        omega
      · show a.toNat < (ofPage page).end_.toNat
        omega

end Intervals

end Viy.Emu
