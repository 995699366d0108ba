import Viy.Emu.MapImage

/-!
# The mapped image

The engine after `map_image`. Without failures the calls map the merged intervals and write the runs
of initialized bytes; since neither the intervals nor the segments overlap, every byte is set by one
call at most, and what the engine has there in the end is what that call has set.
-/

namespace Viy.Emu

open Wire Cxx Fault

/-! ## The mapped engine -/

section Mapped

variable {e e' : Engine} {script rest : List Outcome}

/-- A call that does not fail. -/
theorem engineCall_ok (f : Engine → Engine) (e : Engine) (hok : ∀ o ∈ script, o = .ok) :
    ∃ rest, (engineCall f).run e script = (some (), f e, rest) ∧ ∀ o ∈ rest, o = .ok := by
  cases script with
  | nil => exact ⟨[], rfl, hok⟩
  | cons outcome script =>
    obtain rfl := hok outcome List.mem_cons_self
    exact ⟨script, rfl, fun o ho => hok o (List.mem_cons_of_mem _ ho)⟩

def Engine.mapAll (e : Engine) (ivs : List PageRange) : Engine :=
  ivs.foldl (fun e iv => e.map iv.mapping) e

/-- Without failures every interval is mapped. -/
theorem mapIntervals_ok (ivs : List PageRange) : ∀ {e : Engine} {script : List Outcome},
    (∀ o ∈ script, o = .ok) →
      ∃ rest, (mapIntervals ivs).run e script =
          (some (), e.mapAll ivs, rest) ∧ ∀ o ∈ rest, o = .ok := by
  induction ivs with
  | nil =>
    intro e script hok
    exact ⟨script, rfl, hok⟩
  | cons iv ivs ih =>
    intro e script hok
    obtain ⟨mid, hcall, hmid⟩ := engineCall_ok (fun e => e.map iv.mapping) e hok
    have hattempt : (engineCall fun e => e.map iv.mapping).attempt.run e script =
        (some (some ()), e.map iv.mapping, mid) := by
      rw [Proc.run_attempt, hcall]
    rw [mapIntervals, Proc.run_bind_of_returned hattempt]
    exact ih hmid

theorem maps_mapAll (ivs : List PageRange) : ∀ {e : Engine},
    (e.mapAll ivs).maps = e.maps ++ ivs.map PageRange.mapping := by
  induction ivs with
  | nil =>
    intro e
    exact (List.append_nil _).symm
  | cons iv ivs ih =>
    intro e
    have hrest := @ih (e.map iv.mapping)
    rw [List.map_cons, List.append_cons]
    exact hrest

/-- The range of the call that maps an interval. -/
theorem inCall_mapping {iv : PageRange} (h : iv.base.toNat < iv.end_.toNat) (a : UInt64) :
    inCall iv.mapping.base iv.mapping.len a = true ↔
      iv.base.toNat ≤ a.toNat ∧ a.toNat < iv.end_.toNat := by
  have ha := a.toNat_lt
  have hend := iv.end_.toNat_lt
  have hlen : iv.mapping.len.toNat = iv.end_.toNat - iv.base.toNat :=
    UInt64.toNat_sub_of_le _ _ (UInt64.le_iff_toNat_le.2 h.le)
  have hbase : iv.mapping.base = iv.base := rfl
  rw [inCall, decide_eq_true_iff, hlen, hbase, UInt64.toNat_sub]
  omega

/-- Nothing but the interval of a byte sets it. -/
theorem mapAll_at {ivs : List PageRange} (hlt : ∀ iv ∈ ivs, iv.base.toNat < iv.end_.toNat)
    (hapart : ivs.Pairwise fun a b => a.end_.toNat ≤ b.base.toNat) (e : Engine) (a : UInt64) :
    (∀ iv ∈ ivs, inCall iv.mapping.base iv.mapping.len a = true →
      (e.mapAll ivs).prot a = some iv.prot ∧
        (e.mapAll ivs).mem a = 0) ∧
    ((∀ iv ∈ ivs, inCall iv.mapping.base iv.mapping.len a = false) →
      (e.mapAll ivs).prot a = e.prot a) := by
  have hkeep : ∀ (e : Engine) (iv : PageRange), ¬ inCall iv.mapping.base iv.mapping.len a = true →
      ((e.map iv.mapping).prot a, (e.map iv.mapping).mem a) = (e.prot a, e.mem a) :=
    fun e iv hnot => Prod.ext (if_neg hnot) (if_neg hnot)
  have hset : ∀ (e : Engine) (iv : PageRange), inCall iv.mapping.base iv.mapping.len a = true →
      ((e.map iv.mapping).prot a, (e.map iv.mapping).mem a) = (some iv.prot, 0) :=
    fun e iv hin => Prod.ext (if_pos hin) (if_pos hin)
  constructor
  · intro iv hiv hin
    have hone : ivs.Pairwise fun iv iv' => inCall iv.mapping.base iv.mapping.len a = true →
        ¬ inCall iv'.mapping.base iv'.mapping.len a = true := by
      refine hapart.imp_of_mem fun {iv iv'} hiv hiv' hsep => ?_
      rw [inCall_mapping (hlt iv hiv), inCall_mapping (hlt iv' hiv')]
      omega
    have hboth := foldl_touched (f := fun e : Engine => (e.prot a, e.mem a)) hkeep hset hone
      hiv hin e
    exact ⟨congrArg Prod.fst hboth, congrArg Prod.snd hboth⟩
  · intro hout
    have hboth := foldl_untouched (f := fun e : Engine => (e.prot a, e.mem a)) hkeep ivs
      (fun iv hiv => Bool.eq_false_iff.1 (hout iv hiv)) e
    exact congrArg Prod.fst hboth

end Mapped

/-! ## The loaded bytes -/

namespace SegImage

variable {s : SegImage}

/-- The engine with the initialized bytes of the segment from an offset on. -/
def loadFrom (s : SegImage) (i : ℕ) (e : Engine) : Engine :=
  { e with mem := fun a =>
      let off := (a - s.start).toNat
      if i ≤ off ∧ off < s.bytes.length ∧ maskBit s.mask off = true then s.bytes.getD off 0
      else e.mem a }

theorem loadable_iff : s.loadable = true ↔
    s.start.toNat ≤ s.end_.toNat ∧ s.bytes.length ≤ s.end_.toNat - s.start.toNat ∧
      (s.bytes.length = 0 ∨ (s.bytes.length + 7) / 8 ≤ s.mask.length) := by
  unfold loadable
  simp only [Bool.and_eq_true, Bool.or_eq_true, decide_eq_true_eq, UInt64.le_iff_toNat_le,
    and_assoc]
  refine and_congr_right fun hle => ?_
  rw [UInt64.toNat_sub_of_le _ _ (UInt64.le_iff_toNat_le.2 hle)]

/-- A byte of a loadable segment is one of its addresses. -/
theorem contains_of_offset_lt (h : s.loadable = true) {a : UInt64}
    (ha : (a - s.start).toNat < s.bytes.length) : s.contains a = true := by
  obtain ⟨hle, hlen, -⟩ := loadable_iff.1 h
  have hend := s.end_.toNat_lt
  have ha64 := a.toNat_lt
  rw [UInt64.toNat_sub] at ha
  rw [contains_eq_true_iff]
  omega

/-- Nothing is left to load where no bit of the mask is set. -/
theorem loadFrom_of_clear {i : ℕ} (e : Engine)
    (h : ∀ k, i ≤ k → k < s.bytes.length → maskBit s.mask k = false) : s.loadFrom i e = e := by
  have hmem : (s.loadFrom i e).mem = e.mem := by
    funext a
    refine if_neg ?_
    rintro ⟨hle, hlt, hbit⟩
    rw [h _ hle hlt] at hbit
    cases hbit
  cases e
  exact congrArg (Engine.mk _ _) hmem

/-- Loading a run of set bits and then what comes behind it. -/
theorem loadFrom_store {i begin_ j : ℕ} (e : Engine) (hlen : s.bytes.length < 2 ^ 64)
    (hle : i ≤ begin_) (hlt : begin_ ≤ j) (hj : j ≤ s.bytes.length)
    (hclear : ∀ k, i ≤ k → k < begin_ → maskBit s.mask k = false)
    (hset : ∀ k, begin_ ≤ k → k < j → maskBit s.mask k = true) :
    s.loadFrom j (e.write (s.start + .ofNat begin_) ((s.bytes.drop begin_).take (j - begin_))) =
      s.loadFrom i e := by
  refine congrArg (Engine.mk _ _) (funext fun a => ?_)
  dsimp only
  set off := (a - s.start).toNat with hoff
  have hslice : ((s.bytes.drop begin_).take (j - begin_)).length = j - begin_ := by
    rw [List.length_take, List.length_drop]
    omega
  by_cases hbehind : j ≤ off
  · -- behind the run both sides look at the same bit
    have hold : (e.write (s.start + .ofNat begin_)
        ((s.bytes.drop begin_).take (j - begin_))).mem a = e.mem a := by
      apply store_apply_of_le
      rw [hslice, toNat_sub_add_of_le (by omega)]
      omega
    rw [hold]
    refine if_congr ?_ rfl rfl
    constructor
    · rintro ⟨-, hrest⟩
      exact ⟨by omega, hrest⟩
    · rintro ⟨-, hrest⟩
      exact ⟨hbehind, hrest⟩
  · rw [if_neg fun h => hbehind h.1]
    by_cases hin : begin_ ≤ off
    · have hindex : (a - (s.start + .ofNat begin_)).toNat = off - begin_ :=
        toNat_sub_add_of_le (by omega)
      rw [if_pos ⟨by omega, by omega, hset off hin (by omega)⟩]
      show ((s.bytes.drop begin_).take (j - begin_)).getD
        (a - (s.start + .ofNat begin_)).toNat _ = _
      rw [hindex, List.getD_eq_getElem?_getD, List.getElem?_take_of_lt (by omega),
        List.getElem?_drop, List.getD_eq_getElem?_getD, Nat.add_sub_of_le hin,
        List.getElem?_eq_getElem (by omega)]
      rfl
    · have hbegin : begin_ < 2 ^ 64 := by omega
      have hnot : ¬ (i ≤ off ∧ off < s.bytes.length ∧ maskBit s.mask off = true) := by
        rintro ⟨hle', -, hbit⟩
        rw [hclear off hle' (by omega)] at hbit
        cases hbit
      rw [if_neg hnot]
      apply store_apply_of_le
      rw [hslice, toNat_sub_add_of_lt hbegin (by omega)]
      omega

end SegImage

section Loaded

variable {e e' : Engine} {script rest : List Outcome} {s : SegImage}

/-- Without another run, no bit of the mask is set any more. -/
theorem nextRun_eq_none {i : ℕ} (h : nextRun s i = none) :
    ∀ k, i ≤ k → k < s.bytes.length → maskBit s.mask k = false := by
  intro k hik hk
  unfold nextRun at h
  obtain ⟨-, -, hclear, -⟩ :=
    advanceWhile_spec (fun k => !maskBit s.mask k) (s.bytes.length - i) i
  dsimp only at h
  rw [if_pos (Nat.lt_of_le_of_lt hik hk)] at h
  split_ifs at h with hnone
  simpa using hclear k hik (Nat.lt_of_lt_of_le hk hnone)

/-- The next run: clear bits up to its first byte, which is set with all that follow up to the
second position. -/
theorem nextRun_eq_some {i first last : ℕ} (h : nextRun s i = some (first, last)) :
    i ≤ first ∧ first < last ∧ last ≤ s.bytes.length ∧
      (∀ k, i ≤ k → k < first → maskBit s.mask k = false) ∧
      ∀ k, first ≤ k → k < last → maskBit s.mask k = true := by
  unfold nextRun at h
  obtain ⟨hle, hup, hclear, hfound⟩ :=
    advanceWhile_spec (fun k => !maskBit s.mask k) (s.bytes.length - i) i
  dsimp only at h
  split_ifs at h with hi hnone
  obtain ⟨rfl, rfl⟩ := Prod.mk.inj (Option.some.inj h)
  generalize advanceWhile (fun k => !maskBit s.mask k) (s.bytes.length - i) i = first
    at hle hup hclear hfound hnone ⊢
  obtain ⟨hle', hup', hset, hstop⟩ :=
    advanceWhile_spec (maskBit s.mask) (s.bytes.length - first) first
  generalize advanceWhile (maskBit s.mask) (s.bytes.length - first) first = last
    at hle' hup' hset hstop ⊢
  have hbit : maskBit s.mask first = true := by
    simpa using hfound (by omega)
  -- the first bit is set, so the run is not empty
  have hgrows : first < last := by
    rcases Nat.lt_or_eq_of_le hle' with hlt | heq
    · exact hlt
    · rw [← heq, hbit] at hstop
      exact absurd (hstop (by omega)) (by decide)
  refine ⟨hle, hgrows, by omega, ?_, hset⟩
  intro k hik hk
  simpa using hclear k hik hk

/-- Without a failure a run is written to its place. -/
theorem writeRun_ok {first last : ℕ} (hfits : s.start.toNat + first < 2 ^ 64)
    (hok : ∀ o ∈ script, o = .ok) :
    ∃ rest, (writeRun s first last).run e script = (some (), e.write (s.start + .ofNat first)
        ((s.bytes.drop first).take (last - first)), rest) ∧
      ∀ o ∈ rest, o = .ok := by
  have hfirst : first < 2 ^ 64 := by omega
  have hsum := (@ProgramImage.checkedAdd_ofNat_iff s.start _ first hfirst).2 ⟨rfl, hfits⟩
  have haddress : (Proc.lift (ProgramImage.checkedAdd s.start (.ofNat first)) :
      EngineProc UInt64).run e script = (some (s.start + .ofNat first), e, script) :=
    Proc.run_lift_eq_some.2 ⟨hsum, rfl, rfl⟩
  obtain ⟨rest, hwrite, hrest⟩ := engineCall_ok
    (fun e => e.write (s.start + .ofNat first) ((s.bytes.drop first).take (last - first))) e hok
  refine ⟨rest, ?_, hrest⟩
  rw [writeRun, Proc.run_bind_of_returned haddress]
  exact hwrite

/-- Without failures the runs of set bits are written one after the other. -/
theorem writeRuns_ok (hload : s.loadable = true) (fuel : ℕ) :
    ∀ {i : ℕ} {e : Engine} {script : List Outcome}, s.bytes.length - i ≤ fuel →
      (∀ o ∈ script, o = .ok) →
        ∃ rest, (writeRuns s fuel i).run e script = (some (), s.loadFrom i e, rest) ∧
          ∀ o ∈ rest, o = .ok := by
  obtain ⟨hstart, hlen, -⟩ := SegImage.loadable_iff.1 hload
  have hend := s.end_.toNat_lt
  induction fuel with
  | zero =>
    intro i e script hfuel hok
    refine ⟨script, ?_, hok⟩
    rw [SegImage.loadFrom_of_clear e fun k hle hlt => absurd hlt (by omega)]
    rfl
  | succ fuel ih =>
    intro i e script hfuel hok
    rw [writeRuns, Proc.loop_succ]
    cases hnext : nextRun s i with
    | none =>
      have hturn : (writeTurn s i).run e script = (some (.inr ()), e, script) := by
        rw [writeTurn, hnext]
        rfl
      refine ⟨script, ?_, hok⟩
      rw [Proc.run_bind_of_returned hturn, SegImage.loadFrom_of_clear e (nextRun_eq_none hnext)]
      rfl
    | some run =>
      obtain ⟨first, last⟩ := run
      obtain ⟨hle, hgrows, hlast, hclear, hset⟩ := nextRun_eq_some hnext
      obtain ⟨mid, hwrite, hmid⟩ := @writeRun_ok e script s first last (by omega) hok
      have hturn : (writeTurn s i).run e script = (some (.inl last), e.write
          (s.start + .ofNat first) ((s.bytes.drop first).take (last - first)), mid) := by
        rw [writeTurn, hnext]
        exact Proc.run_bind_of_returned hwrite
      rw [Proc.run_bind_of_returned hturn,
        ← SegImage.loadFrom_store e (by omega) hle hgrows.le hlast hclear hset]
      exact ih (by omega) hmid

def Engine.loadAll (e : Engine) (segs : List SegImage) : Engine :=
  segs.foldl (fun e s => s.loadFrom 0 e) e

/-- A segment that has passed the checks is loaded. -/
theorem loadImageBytes_returned (segs : List SegImage) :
    ∀ {e e' : Engine} {script rest : List Outcome}, (∀ o ∈ script, o = .ok) →
      (loadImageBytes segs).run e script = (some (), e', rest) →
      (∀ s ∈ segs, s.loadable = true) ∧ e' = e.loadAll segs := by
  induction segs with
  | nil =>
    intro e e' script rest _ hrun
    refine ⟨fun s hs => absurd hs List.not_mem_nil, ?_⟩
    exact (congrArg (fun r => r.2.1) hrun).symm
  | cons s segs ih =>
    intro e e' script rest hok hrun
    obtain ⟨_, t, mid, hrequire, hrun⟩ := Proc.run_bind_eq_some.1 hrun
    obtain ⟨hload, rfl, rfl⟩ := Proc.run_require_eq_some.1 hrequire
    obtain ⟨next, hwrite, hnext⟩ := writeRuns_ok hload s.bytes.length (Nat.sub_le _ _) hok
    rw [Proc.run_bind_of_returned hwrite] at hrun
    obtain ⟨hrest, rfl⟩ := ih hnext hrun
    refine ⟨fun t ht => ?_, rfl⟩
    rcases List.mem_cons.1 ht with rfl | ht
    · exact hload
    · exact hrest t ht

/-- The segment has an initialized byte for the address. -/
def SegImage.HasByte (s : SegImage) (a : UInt64) : Prop :=
  (a - s.start).toNat < s.bytes.length ∧ maskBit s.mask (a - s.start).toNat = true

theorem SegImage.hasByte_iff (h : s.loadable = true) {a : UInt64} :
    s.HasByte a ↔ s.byteLoaded a = true ∧ (a - s.start).toNat < s.bytes.length := by
  rw [byteLoaded_eq, Bool.and_eq_true, HasByte]
  constructor
  · rintro ⟨hlt, hbit⟩
    exact ⟨⟨contains_of_offset_lt h hlt, hbit⟩, hlt⟩
  · rintro ⟨⟨-, hbit⟩, hlt⟩
    exact ⟨hlt, hbit⟩

/-- Loading changes the bytes of the memory only. -/
theorem loadAll_frame (segs : List SegImage) (e : Engine) :
    (e.loadAll segs).maps = e.maps ∧
      (e.loadAll segs).prot = e.prot := by
  induction segs generalizing e with
  | nil => exact ⟨rfl, rfl⟩
  | cons s segs ih => exact ih (s.loadFrom 0 e)

end Loaded

/-! ## The image in the engine -/

/-- No address is in both segments. -/
def SegImage.Disjoint (s t : SegImage) : Prop := ∀ a, s.contains a = true → ¬ t.contains a = true

/-- Every byte is set by the segment that has it. -/
theorem loadAll_at {segs : List SegImage} (hload : ∀ s ∈ segs, s.loadable = true)
    (hdisjoint : segs.Pairwise SegImage.Disjoint) (e : Engine) (a : UInt64) :
    (∀ s ∈ segs, s.HasByte a → (e.loadAll segs).mem a =
      s.bytes.getD (a - s.start).toNat 0) ∧
    ((∀ s ∈ segs, ¬ s.HasByte a) →
      (e.loadAll segs).mem a = e.mem a) := by
  have hkeep : ∀ (e : Engine) (s : SegImage), ¬ s.HasByte a → (s.loadFrom 0 e).mem a = e.mem a :=
    fun e s hnot => if_neg fun h => hnot h.2
  have hset : ∀ (e : Engine) (s : SegImage), s.HasByte a →
      (s.loadFrom 0 e).mem a = s.bytes.getD (a - s.start).toNat 0 :=
    fun e s hbyte => if_pos ⟨Nat.zero_le _, hbyte⟩
  constructor
  · intro s hs hbyte
    have hone : segs.Pairwise fun s t => s.HasByte a → ¬ t.HasByte a := by
      refine hdisjoint.imp_of_mem fun {s t} hs ht hsep hbyte hbyte' => ?_
      exact hsep a (SegImage.contains_of_offset_lt (hload s hs) hbyte.1)
        (SegImage.contains_of_offset_lt (hload t ht) hbyte'.1)
    exact foldl_touched (f := fun e : Engine => e.mem a) hkeep hset hone hs hbyte e
  · intro hnone
    exact foldl_untouched (f := fun e : Engine => e.mem a) hkeep segs hnone e

/-- The image as the engine should have it: whole pages, mapped once, exactly those with a byte of a
segment, with the union of the protections on them, and the initialized bytes among zeros. -/
structure MappedImage (strict : Bool) (segs : List SegImage) (e : Engine) : Prop where
  aligned : ∀ m ∈ e.maps, Aligned m.base ∧ Aligned m.len ∧ m.base.toNat + m.len.toNat < 2 ^ 64
  disjoint : e.maps.Pairwise fun m m' =>
    ∀ a, inCall m.base m.len a = true → ¬ inCall m'.base m'.len a = true
  pages : ∀ a, (∃ m ∈ e.maps, inCall m.base m.len a = true) ↔
    ∃ s ∈ segs, ∃ b, s.contains b = true ∧ pageDown b = pageDown a
  protection : ∀ m ∈ e.maps, ∀ a, inCall m.base m.len a = true →
    m.prot = mappedProt (unionProt strict segs (pageDown a)) ∧ e.prot a = some m.prot
  unmapped : ∀ a, (∀ m ∈ e.maps, inCall m.base m.len a = false) → e.prot a = none
  initialized : ∀ m ∈ e.maps, ∀ a, inCall m.base m.len a = true → ∀ s ∈ segs,
    s.byteLoaded a = true → (a - s.start).toNat < s.bytes.length →
      e.mem a = s.bytes.getD (a - s.start).toNat 0
  zero : ∀ m ∈ e.maps, ∀ a, inCall m.base m.len a = true →
    (∀ s ∈ segs, s.byteLoaded a = true → s.bytes.length ≤ (a - s.start).toNat) → e.mem a = 0

/-- A segment is on the page of an address if it has a byte there. -/
theorem onPage_pageDown_iff {s : SegImage} {a : UInt64} :
    s.OnPage (pageDown a) ↔ ∃ b, s.contains b = true ∧ pageDown b = pageDown a := by
  constructor
  · rintro ⟨hlt, hstart, hend⟩
    -- the start of the segment, or of the page if that is later
    refine ⟨if s.start < pageDown a then pageDown a else s.start, ?_, ?_⟩
    · rw [SegImage.contains_eq_true_iff]
      split_ifs with hless
      · exact ⟨(UInt64.lt_iff_toNat_lt.1 hless).le, hend⟩
      · exact ⟨le_rfl, hlt⟩
    · split_ifs with hless
      · exact (eq_pageDown (aligned_pageDown a) le_rfl (by omega)).symm
      · exact (eq_pageDown (aligned_pageDown a)
          (UInt64.le_iff_toNat_le.1 (UInt64.not_lt.1 hless)) hstart).symm
  · rintro ⟨b, hb, hpage⟩
    rw [SegImage.contains_eq_true_iff] at hb
    have hdown := toNat_pageDown b
    rw [← hpage]
    unfold SegImage.OnPage
    omega

/-- Mapping the merged intervals and loading the segments makes the image. -/
theorem mappedImage_of_merged {strict : Bool} {segs : List SegImage} {ivs : List PageRange}
    (hmerged : MergedPages strict segs ivs) (hload : ∀ s ∈ segs, s.loadable = true)
    (hdisjoint : segs.Pairwise SegImage.Disjoint) (mem : Memory) :
    MappedImage strict segs ((Engine.mapAll { mem := mem } ivs).loadAll segs) := by
  set e : Engine := { mem := mem }
  obtain ⟨hmaps, hprot⟩ := loadAll_frame segs (e.mapAll ivs)
  have hlist : (e.mapAll ivs).maps = ivs.map PageRange.mapping := maps_mapAll ivs
  have hlt : ∀ iv ∈ ivs, iv.base.toNat < iv.end_.toNat := fun iv hiv => (hmerged.paged iv hiv).2.2
  have hmap_at := mapAll_at hlt hmerged.apart e
  have hload_at := loadAll_at hload hdisjoint (e.mapAll ivs)
  -- the calls are those of the intervals, and a call reaches the bytes of its interval
  have hcall : ∀ {m}, m ∈ ((e.mapAll ivs).loadAll segs).maps → ∃ iv ∈ ivs, iv.mapping = m := by
    intro m hm
    rw [hmaps, hlist] at hm
    exact List.mem_map.1 hm
  have hcovers : ∀ {iv a}, iv ∈ ivs → inCall iv.mapping.base iv.mapping.len a = true →
      (∃ s ∈ segs, s.OnPage (pageDown a)) ∧
        mappedProt (unionProt strict segs (pageDown a)) = iv.prot := by
    intro iv a hiv ha
    exact (hmerged.covers (a, iv.prot)).1 ⟨iv, hiv, rfl, (inCall_mapping (hlt iv hiv) a).1 ha⟩
  constructor
  case aligned =>
    intro m hm
    obtain ⟨iv, hiv, rfl⟩ := hcall hm
    obtain ⟨hbase, hend, hless⟩ := hmerged.paged iv hiv
    have hlen : iv.mapping.len.toNat = iv.end_.toNat - iv.base.toNat :=
      UInt64.toNat_sub_of_le _ _ (UInt64.le_iff_toNat_le.2 hless.le)
    have hend64 := iv.end_.toNat_lt
    have hstart : iv.mapping.base = iv.base := rfl
    unfold Aligned at hbase hend ⊢
    rw [hlen, hstart]
    omega
  case disjoint =>
    rw [hmaps, hlist, List.pairwise_map]
    refine hmerged.apart.imp_of_mem fun {iv iv'} hiv hiv' hsep a => ?_
    rw [inCall_mapping (hlt iv hiv), inCall_mapping (hlt iv' hiv')]
    omega
  case pages =>
    intro a
    simp only [← onPage_pageDown_iff]
    constructor
    · rintro ⟨m, hm, ha⟩
      obtain ⟨iv, hiv, rfl⟩ := hcall hm
      exact (hcovers hiv ha).1
    · intro hs
      obtain ⟨iv, hiv, -, hin⟩ := (hmerged.covers
        (a, mappedProt (unionProt strict segs (pageDown a)))).2 ⟨hs, rfl⟩
      refine ⟨iv.mapping, ?_, (inCall_mapping (hlt iv hiv) a).2 hin⟩
      rw [hmaps, hlist]
      exact List.mem_map_of_mem hiv
  case protection =>
    intro m hm a ha
    obtain ⟨iv, hiv, rfl⟩ := hcall hm
    refine ⟨(hcovers hiv ha).2.symm, ?_⟩
    rw [hprot]
    exact ((hmap_at a).1 iv hiv ha).1
  case unmapped =>
    intro a hout
    rw [hprot]
    refine (hmap_at a).2 fun iv hiv => hout _ ?_
    rw [hmaps, hlist]
    exact List.mem_map_of_mem hiv
  case initialized =>
    intro m _ a _ s hs hloaded hlength
    exact (hload_at a).1 s hs ((SegImage.hasByte_iff (hload s hs)).2 ⟨hloaded, hlength⟩)
  case zero =>
    intro m hm a ha hnone
    obtain ⟨iv, hiv, rfl⟩ := hcall hm
    have hkept := (hload_at a).2 fun s hs hbyte => by
      obtain ⟨hloaded, hlength⟩ := (SegImage.hasByte_iff (hload s hs)).1 hbyte
      exact absurd hlength (Nat.not_lt.2 (hnone s hs hloaded))
    rw [hkept]
    exact ((hmap_at a).1 iv hiv ha).2

/-- **The mapped image.** Where the calls into rax succeed and the image is accepted, the engine has
it as it should. -/
theorem map_image_mapped (strict : Bool) (segs : List SegImage) (mem : Memory)
    {script rest : List Outcome} {e' : Engine} (hdisjoint : segs.Pairwise SegImage.Disjoint)
    (hok : ∀ o ∈ script, o = .ok)
    (hrun : (mapImage strict segs).run { mem := mem } script = (some (), e', rest)) :
    MappedImage strict segs e' := by
  obtain ⟨pages, t, mid, hlift, hrun⟩ := Proc.run_bind_eq_some.1 hrun
  obtain ⟨hpages, rfl, rfl⟩ := Proc.run_lift_eq_some.1 hlift
  obtain ⟨ivs, t, mid, hlift, hrun⟩ := Proc.run_bind_eq_some.1 hrun
  obtain ⟨hivs, rfl, rfl⟩ := Proc.run_lift_eq_some.1 hlift
  obtain ⟨ivs', hmerge, hmerged⟩ := mergedPages hpages
  obtain rfl : ivs = ivs' := Option.some.inj (hivs.symm.trans hmerge)
  obtain ⟨next, hmap, hnext⟩ := @mapIntervals_ok ivs { mem := mem } script hok
  rw [Proc.run_bind_of_returned hmap] at hrun
  obtain ⟨hload, rfl⟩ := loadImageBytes_returned segs hnext hrun
  exact mappedImage_of_merged hmerged hload hdisjoint mem

/-- A data segment in front of the text segment that ends in its page. -/
def sharedPage : List SegImage :=
  [{ start := 0x2010, end_ := 0x2030, perm := 6, bytes := [1, 2, 3], mask := [5] },
    { start := 0x1800, end_ := 0x2010, perm := 5, bytes := [0x90, 0xc3], mask := [3] }]

theorem sharedPage_mapped :
    sharedPage.Pairwise SegImage.Disjoint ∧ ∃ e' rest,
      (mapImage true sharedPage).run { mem := fun _ => 0xcc } [] = (some (), e', rest) ∧
        MappedImage true sharedPage e' := by
  have hdisjoint : sharedPage.Pairwise SegImage.Disjoint := by
    refine List.pairwise_pair.2 fun a ha ha' => ?_
    rw [SegImage.contains_eq_true_iff] at ha ha'
    have hend : (0x2010 : UInt64).toNat = 0x2010 := rfl
    simp only [hend] at ha ha'
    omega
  have hreturned : ((mapImage true sharedPage).run { mem := fun _ => 0xcc } []).1 = some () := by
    decide +kernel
  have hrun : (mapImage true sharedPage).run { mem := fun _ => 0xcc } [] = (some (),
      ((mapImage true sharedPage).run { mem := fun _ => 0xcc } []).2) :=
    Prod.ext hreturned rfl
  exact ⟨hdisjoint, _, _, hrun,
    map_image_mapped true sharedPage (fun _ => 0xcc) hdisjoint
      (fun _ ho => absurd ho List.not_mem_nil) hrun⟩

/-- The shared page has the rights of both segments. -/
example : ((mapImage true sharedPage).run { mem := fun _ => 0xcc } []).2.1.maps.map
    (fun m => (m.base, m.len, m.prot)) =
      [(0x1000, 0x1000, { read := true, exec := true }), (0x2000, 0x1000, .all)] := by
  decide +kernel

end Viy.Emu
