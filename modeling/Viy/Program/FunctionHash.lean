import Viy.Emu.LoadedView
import Viy.Emu.Machine
import Viy.Program.Fnv
import Viy.Wire.Stream

/-!
# The byte hash of a function

`viy_function_byte_hash` walks every chunk of a function through the segments of the image and feeds
FNV with the place of the chunk relative to the entry, its size and what is at its addresses: runs
that are not mapped with their length, bytes that are not loaded, bytes that are, with their value.

The walk is written over any sink for bytes. With the hash as the sink it is the code; with a list
it gives the stream that the hash is fed. The stream turns out to be a function of the state of
every byte alone, and it can be taken apart again: equal streams mean equal chunks with equal
states.
-/

namespace Viy.Emu

/-- A function without a list of chunks is its primary range. -/
def FuncRange.hashedChunks (func : FuncRange) : List FuncChunk :=
  if func.chunks.isEmpty then [⟨func.start, func.end_⟩] else func.chunks

end Viy.Emu

namespace Viy.Program

open Wire Emu

/-- An image without empty segments. -/
structure SolidImage extends ProgramImage where
  solid : ∀ s ∈ segs, s.start < s.end_

/-! ## The walk -/

def kFunctionHashVersion : UInt64 := 1

section Walk

variable {σ : Type} (feed : σ → UInt8 → σ)

def feedU64 (hash : σ) (value : UInt64) : σ :=
  (List.range 8).foldl (fun hash i => feed hash (value >>> UInt64.ofNat (8 * i)).toUInt8) hash

/-- `for (i = 0; i < count; ++i)` over the bytes of one segment. -/
def feedRun (seg : SegImage) : ℕ → ℕ → σ → σ
  | 0, _, hash => hash
  | count + 1, segOff, hash =>
    feedRun seg count (segOff + 1)
      (if maskBit seg.mask segOff then feed (feed hash 2) (seg.bytes.getD segOff 0)
      else feed hash 1)

/-- The body of `while (ea < chunk.end)`, with the cursor on the first of the segments: the next
address, the segments and the sink. -/
def cursorTurn (end_ ea : UInt64) (segments : List SegImage) (hash : σ) :
    UInt64 × List SegImage × σ :=
  match segments with
  | [] => (end_, segments, feedU64 feed (feed hash 0) (end_ - ea))
  | segment :: _ =>
    if segment.contains ea then
      let runEnd := min end_ segment.end_
      (runEnd, segments,
        feedRun feed segment (runEnd - ea).toNat (ea - segment.start).toNat hash)
    else
      let next := min end_ segment.start
      (next, segments, feedU64 feed (feed hash 0) (next - ea))

/-- `while (segment->end <= ea) ++segment`, and the body. -/
def chunkTurn (end_ ea : UInt64) (segments : List SegImage) (hash : σ) :
    UInt64 × List SegImage × σ :=
  cursorTurn feed end_ ea (segments.dropWhile fun s => decide (s.end_ ≤ ea)) hash

/-- `while (ea < chunk.end)`; there is no result if more than `fuel` turns are needed. -/
def chunkLoop (end_ : UInt64) : ℕ → UInt64 → List SegImage → σ → Option σ
  | 0, ea, _, hash => if ea < end_ then none else some hash
  | fuel + 1, ea, segments, hash =>
    if ea < end_ then
      let turn := chunkTurn feed end_ ea segments hash
      chunkLoop end_ fuel turn.1 turn.2.1 turn.2.2
    else some hash

/-- `std::upper_bound` by the starts, and one segment back. -/
def firstSegments (segs : List SegImage) (ea : UInt64) : List SegImage :=
  segs.drop (Cxx.bisect (fun i => segs[i]?.any fun s => decide (s.start ≤ ea))
    segs.length 0 segs.length - 1)

def hashChunkBytes (img : SolidImage) (func : Emu.FuncRange) (hash : σ) (chunk : FuncChunk) :
    Option σ :=
  let hash := feedU64 feed hash (chunk.start - func.start)
  let hash := feedU64 feed hash chunk.size
  chunkLoop feed chunk.end_ chunk.size.toNat chunk.start (firstSegments img.segs chunk.start) hash

def hashFunction (img : SolidImage) (func : Emu.FuncRange) (hash : σ) : Option σ :=
  let hash := feedU64 feed hash kFunctionHashVersion
  let nchunks := if func.chunks.isEmpty then 1 else func.chunks.length
  let hash := feedU64 feed hash (.ofNat nchunks)
  func.hashedChunks.foldlM (hashChunkBytes feed img func) hash

end Walk

def viyFunctionByteHash (img : SolidImage) (func : Emu.FuncRange) : Option UInt64 :=
  hashFunction hashByte img func kFnvOffset

/-- The bytes that the hash is fed. -/
def functionStream (img : SolidImage) (func : Emu.FuncRange) : Option Bytes :=
  hashFunction (fun stream b => stream ++ [b]) img func []

/-! ## The state of a byte -/

inductive ByteState where
  | unmapped | unloaded
  | loaded (value : UInt8)
  deriving DecidableEq

/-- The address is inside the segment. -/
def covers (s : SegImage) (a : ℕ) : Bool := decide (s.start.toNat ≤ a) && decide (a < s.end_.toNat)

def segmentState (s : SegImage) (a : ℕ) : ByteState :=
  if maskBit s.mask (a - s.start.toNat) then .loaded (s.bytes.getD (a - s.start.toNat) 0)
  else .unloaded

/-- What the segments have at an address. -/
def stateAt (segs : List SegImage) (a : ℕ) : ByteState :=
  match segs.find? (covers · a) with
  | none => .unmapped
  | some s => segmentState s a

/-- The states of the `n` addresses from `a` on. -/
def states (segs : List SegImage) (a n : ℕ) : List ByteState :=
  (List.range' a n).map (stateAt segs)

section States

variable {segs : List SegImage} {s : SegImage} {a b n : ℕ} {ea : UInt64}

@[simp] theorem length_states : (states segs a n).length = n := by
  rw [states, List.length_map, List.length_range']

theorem covers_eq_true_iff : covers s a = true ↔ s.start.toNat ≤ a ∧ a < s.end_.toNat := by
  rw [covers, Bool.and_eq_true, decide_eq_true_iff, decide_eq_true_iff]

theorem stateAt_eq_unmapped (h : ∀ s ∈ segs, covers s a = false) : stateAt segs a = .unmapped := by
  have hnone : segs.find? (covers · a) = none :=
    List.find?_eq_none.2 fun s hs => Bool.eq_false_iff.1 (h s hs)
  rw [stateAt, hnone]

theorem stateAt_cons (h : covers s a = true) : stateAt (s :: segs) a = segmentState s a := by
  have hsome : (s :: segs).find? (covers · a) = some s := List.find?_cons_of_pos h
  rw [stateAt, hsome]

theorem stateAt_cons_of_not (h : covers s a = false) : stateAt (s :: segs) a = stateAt segs a := by
  have hskip : (s :: segs).find? (covers · a) = segs.find? (covers · a) :=
    List.find?_cons_of_neg (Bool.eq_false_iff.1 h)
  rw [stateAt, stateAt, hskip]

theorem segmentState_ne (s : SegImage) (a : ℕ) : segmentState s a ≠ .unmapped := by
  rw [segmentState]
  split_ifs
  · exact fun h => ByteState.noConfusion h
  · exact fun h => ByteState.noConfusion h

/-- Segments that end before an address do not matter there. -/
theorem stateAt_append {before : List SegImage} (h : ∀ s ∈ before, s.end_.toNat ≤ a) :
    stateAt (before ++ segs) a = stateAt segs a := by
  have hnone : before.find? (covers · a) = none := by
    refine List.find?_eq_none.2 fun s hs => ?_
    rw [covers_eq_true_iff]
    have hend := h s hs
    omega
  rw [stateAt, stateAt, List.find?_append, hnone, Option.none_or]

theorem states_add (a m n : ℕ) :
    states segs a (m + n) = states segs a m ++ states segs (a + m) n := by
  rw [states, states, states, ← List.map_append, List.range'_append_1]

theorem states_congr {segs' : List SegImage} {a' : ℕ}
    (h : ∀ i < n, stateAt segs (a + i) = stateAt segs' (a' + i)) :
    states segs a n = states segs' a' n := by
  refine List.ext_getElem (by simp) ?_
  intro i hi hi'
  simp only [states, List.getElem_map, List.getElem_range', Nat.one_mul]
  exact h i (by simpa using hi)

theorem states_eq_iff {segs' : List SegImage} {a' : ℕ} :
    states segs a n = states segs' a' n ↔
      ∀ i < n, stateAt segs (a + i) = stateAt segs' (a' + i) := by
  constructor
  · intro h i hi
    have hi' : i < (states segs a n).length := by simpa using hi
    have hget := List.getElem_of_eq h hi'
    simpa only [states, List.getElem_map, List.getElem_range', Nat.one_mul] using hget
  · exact states_congr

end States

/-! ## The form of a list of states -/

/-- The marker and the length of a run that is not mapped. -/
def runForm (n : ℕ) : Bytes := if n = 0 then [] else 0 :: leU64 (.ofNat n)

/-- The marker of a mapped byte, with its value if it is loaded. -/
def byteForm : ByteState → Bytes
  | .unmapped => []
  | .unloaded => [1]
  | .loaded value => [2, value]

/-- The form of states, with `run` addresses that are not mapped in front. -/
def statesFormFrom (run : ℕ) : List ByteState → Bytes
  | [] => runForm run
  | .unmapped :: rest => statesFormFrom (run + 1) rest
  | state :: rest => runForm run ++ (byteForm state ++ statesFormFrom 0 rest)

def statesForm (l : List ByteState) : Bytes := statesFormFrom 0 l

section Form

variable {l t u : List ByteState}

theorem statesFormFrom_replicate (k : ℕ) : ∀ run,
    statesFormFrom run (List.replicate k .unmapped ++ t) = statesFormFrom (run + k) t := by
  induction k with
  | zero =>
    intro run
    rfl
  | succ k ih =>
    intro run
    rw [List.replicate_succ, List.cons_append, statesFormFrom, ih, Nat.add_right_comm,
      Nat.add_assoc]

/-- No run reaches over what does not go on with it. -/
theorem statesFormFrom_eq (ht : t.head? ≠ some .unmapped) (run : ℕ) :
    statesFormFrom run t = runForm run ++ statesForm t := by
  rcases t with _ | ⟨_ | _ | value, rest⟩
  · rw [statesFormFrom, statesForm, statesFormFrom, runForm, runForm, if_pos rfl, List.append_nil]
  · exact absurd rfl ht
  · rfl
  · rfl

theorem statesForm_run (ht : t.head? ≠ some .unmapped) (k : ℕ) :
    statesForm (List.replicate k .unmapped ++ t) = runForm k ++ statesForm t := by
  rw [statesForm, statesFormFrom_replicate, Nat.zero_add, statesFormFrom_eq ht]

/-- Every list is a run that is not mapped and something that does not go on with it. -/
theorem exists_run_split (l : List ByteState) :
    ∃ k t, l = List.replicate k .unmapped ++ t ∧ t.head? ≠ some .unmapped := by
  induction l with
  | nil => exact ⟨0, [], rfl, by decide⟩
  | cons x l ih =>
    by_cases hx : x = .unmapped
    · obtain ⟨k, t, rfl, ht⟩ := ih
      exact ⟨k + 1, t, by rw [hx, List.replicate_succ, List.cons_append], ht⟩
    · exact ⟨0, x :: l, rfl, fun h => hx (Option.some.inj h)⟩

theorem statesForm_cons {x : ByteState} (hx : x ≠ .unmapped) :
    statesForm (x :: t) = byteForm x ++ statesForm t := by
  cases x with
  | unmapped => exact absurd rfl hx
  | unloaded => rfl
  | loaded value => rfl

/-- The form of a mapped byte tells the byte, and where it ends. -/
theorem byteForm_append_inj {x y : ByteState} {r s : Bytes} (hx : x ≠ .unmapped)
    (hy : y ≠ .unmapped) (h : byteForm x ++ r = byteForm y ++ s) : x = y ∧ r = s := by
  cases x with
  | unmapped => exact absurd rfl hx
  | unloaded =>
    cases y with
    | unmapped => exact absurd rfl hy
    | unloaded => exact ⟨rfl, (List.cons.inj h).2⟩
    | loaded value => exact absurd (List.cons.inj h).1 (by decide)
  | loaded value =>
    cases y with
    | unmapped => exact absurd rfl hy
    | unloaded => exact absurd (List.cons.inj h).1 (by decide)
    | loaded value' =>
      obtain ⟨hvalue, hrest⟩ := List.cons.inj (List.cons.inj h).2
      exact ⟨congrArg ByteState.loaded hvalue, hrest⟩

/-- After a run, the form starts with a marker of a mapped byte. -/
theorem statesForm_head (ht : t.head? ≠ some .unmapped) (hne : t ≠ []) (r : Bytes) :
    ∃ marker rest, statesForm t ++ r = marker :: rest ∧ marker ≠ 0 := by
  rcases t with _ | ⟨_ | _ | value, rest⟩
  · exact absurd rfl hne
  · exact absurd rfl ht
  · exact ⟨1, _, rfl, by decide⟩
  · exact ⟨2, _, rfl, by decide⟩

theorem runForm_cons {k : ℕ} (hk : 0 < k) (r : Bytes) :
    runForm k ++ r = 0 :: (leU64 (.ofNat k) ++ r) := by
  rw [runForm, if_neg (Nat.ne_of_gt hk), List.cons_append]

/-- A form that starts with a run tells how long it is. -/
theorem run_unique {p q : ℕ} {r s : Bytes} (ht : t.head? ≠ some .unmapped)
    (hu : u.head? ≠ some .unmapped) (hp : p + t.length < 2 ^ 64)
    (hlength : p + t.length = q + u.length)
    (h : runForm p ++ (statesForm t ++ r) = runForm q ++ (statesForm u ++ s)) :
    p = q ∧ statesForm t ++ r = statesForm u ++ s := by
  have hzero : ∀ {p q : ℕ} {t u : List ByteState} {r s : Bytes}, t.head? ≠ some .unmapped →
      p = 0 → 0 < q → p + t.length = q + u.length →
        runForm p ++ (statesForm t ++ r) ≠ runForm q ++ (statesForm u ++ s) := by
    intro p q t u r s ht hp hq hlength heq
    have hne : t ≠ [] := by
      rintro rfl
      simp only [List.length_nil] at hlength
      omega
    obtain ⟨marker, rest, hhead, hmarker⟩ := statesForm_head ht hne r
    rw [hp, runForm, if_pos rfl, List.nil_append, hhead, runForm_cons hq] at heq
    exact hmarker (List.cons.inj heq).1
  rcases Nat.eq_zero_or_pos p with hp0 | hp0 <;> rcases Nat.eq_zero_or_pos q with hq0 | hq0
  · rw [hp0, hq0] at h ⊢
    exact ⟨rfl, h⟩
  · exact absurd h (hzero ht hp0 hq0 hlength)
  · exact absurd h.symm (hzero hu hq0 hp0 hlength.symm)
  · rw [runForm_cons hp0, runForm_cons hq0, List.cons.injEq, delimits_leU64] at h
    obtain ⟨-, hcount, hrest⟩ := h
    have hnat := congrArg UInt64.toNat hcount
    rw [UInt64.toNat_ofNat_of_lt' (by omega : p < 2 ^ 64),
      UInt64.toNat_ofNat_of_lt' (by omega : q < 2 ^ 64)] at hnat
    exact ⟨hnat, hrest⟩

/-- The form of a list of states of known length tells the states, and where it ends. -/
theorem statesForm_append_inj (n : ℕ) : ∀ {l m : List ByteState} {r s : Bytes}, l.length = n →
    m.length = n → n < 2 ^ 64 → statesForm l ++ r = statesForm m ++ s → l = m ∧ r = s := by
  induction n using Nat.strong_induction_on with
  | _ n ih =>
    intro l m r s hl hm hn h
    obtain ⟨p, t, rfl, ht⟩ := exists_run_split l
    obtain ⟨q, u, rfl, hu⟩ := exists_run_split m
    rw [List.length_append, List.length_replicate] at hl hm
    rw [statesForm_run ht, statesForm_run hu, List.append_assoc, List.append_assoc] at h
    obtain ⟨rfl, hrest⟩ := run_unique ht hu (by omega) (by omega) h
    have htail : t = u ∧ r = s := by
      rcases t with _ | ⟨x, t⟩ <;> rcases u with _ | ⟨y, u⟩
      · exact ⟨rfl, hrest⟩
      · simp only [List.length_nil, List.length_cons] at hl hm
        omega
      · simp only [List.length_nil, List.length_cons] at hl hm
        omega
      · have hx : x ≠ .unmapped := fun hx => ht (congrArg some hx)
        have hy : y ≠ .unmapped := fun hy => hu (congrArg some hy)
        rw [List.length_cons] at hl hm
        rw [statesForm_cons hx, statesForm_cons hy, List.append_assoc, List.append_assoc] at hrest
        obtain ⟨rfl, hforms⟩ := byteForm_append_inj hx hy hrest
        obtain ⟨rfl, hrs⟩ := ih t.length (by omega) rfl (by omega) (by omega) hforms
        exact ⟨rfl, hrs⟩
    exact ⟨by rw [htail.1], htail.2⟩

theorem statesForm_mapped (h : ∀ x ∈ l, x ≠ .unmapped) :
    statesForm (l ++ t) = l.flatMap byteForm ++ statesForm t := by
  induction l with
  | nil => rfl
  | cons x l ih =>
    rw [List.cons_append, statesForm_cons (h x List.mem_cons_self),
      ih fun y hy => h y (List.mem_cons_of_mem _ hy), List.flatMap_cons, List.append_assoc]

variable {segs : List SegImage} {a k n : ℕ}

/-- A hole and what follows it. -/
theorem statesForm_hole (hk : 0 < k) (hhole : ∀ i < k, stateAt segs (a + i) = .unmapped)
    (hstop : 0 < n → stateAt segs (a + k) ≠ .unmapped) :
    statesForm (states segs a (k + n)) =
      0 :: leU64 (.ofNat k) ++ statesForm (states segs (a + k) n) := by
  have hrun : states segs a k = List.replicate k .unmapped := by
    refine List.eq_replicate_iff.2 ⟨length_states, fun x hx => ?_⟩
    obtain ⟨b, hb, rfl⟩ := List.mem_map.1 hx
    obtain ⟨hle, hlt⟩ := List.mem_range'_1.1 hb
    obtain ⟨i, rfl⟩ := Nat.exists_eq_add_of_le hle
    exact hhole i (by omega)
  have hhead : (states segs (a + k) n).head? ≠ some .unmapped := by
    cases n with
    | zero => exact (by decide : (none : Option ByteState) ≠ some .unmapped)
    | succ n => exact fun h => hstop (Nat.succ_pos n) (Option.some.inj h)
  rw [states_add, hrun, statesForm_run hhead, runForm_cons hk, List.cons_append]

/-- A stretch of one segment and what follows it. -/
theorem statesForm_covered {s : SegImage} (h : ∀ i < k, covers s (a + i) = true) :
    statesForm (states (s :: segs) a (k + n)) =
      ((List.range' a k).map (segmentState s)).flatMap byteForm ++
        statesForm (states (s :: segs) (a + k) n) := by
  have hstretch : states (s :: segs) a k = (List.range' a k).map (segmentState s) := by
    refine List.map_congr_left fun b hb => ?_
    obtain ⟨hle, hlt⟩ := List.mem_range'_1.1 hb
    obtain ⟨i, rfl⟩ := Nat.exists_eq_add_of_le hle
    exact stateAt_cons (h i (by omega))
  rw [states_add, hstretch, statesForm_mapped]
  intro x hx
  obtain ⟨b, -, rfl⟩ := List.mem_map.1 hx
  exact segmentState_ne s b

end Form

/-! ## The walk feeds the form of the states -/

section Sink

variable {σ : Type} (feed : σ → UInt8 → σ)

theorem feedU64_eq (hash : σ) (value : UInt64) :
    feedU64 feed hash value = (leU64 value).foldl feed hash := by
  rw [leU64, scatter, List.foldl_map]
  rfl

theorem feedRun_eq (s : SegImage) (count : ℕ) : ∀ {a : ℕ} (hash : σ), s.start.toNat ≤ a →
    feedRun feed s count (a - s.start.toNat) hash =
      (((List.range' a count).map (segmentState s)).flatMap byteForm).foldl feed hash := by
  induction count with
  | zero =>
    intro a hash _
    rfl
  | succ count ih =>
    intro a hash ha
    have hnext : a - s.start.toNat + 1 = a + 1 - s.start.toNat := by omega
    rw [feedRun, hnext, ih _ (by omega), List.range'_succ, List.map_cons, List.flatMap_cons,
      List.foldl_append, segmentState]
    by_cases hloaded : maskBit s.mask (a - s.start.toNat) = true
    · rw [if_pos hloaded, if_pos hloaded]
      rfl
    · rw [if_neg hloaded, if_neg hloaded]
      rfl

/-- Segments in order of their addresses, none of them empty. -/
structure Ordered (segs : List SegImage) : Prop where
  sorted : segs.Pairwise fun s t => s.end_ ≤ t.start
  solid : ∀ s ∈ segs, s.start < s.end_

theorem Ordered.suffix {before segs : List SegImage} (h : Ordered (before ++ segs)) :
    Ordered segs :=
  ⟨(List.pairwise_append.1 h.sorted).2.1, fun s hs => h.solid s (List.mem_append_right _ hs)⟩

/-- All segments start at the first one or behind it. -/
theorem Ordered.start_le {s t : SegImage} {segs : List SegImage} (h : Ordered (s :: segs))
    (ht : t ∈ s :: segs) : s.start.toNat ≤ t.start.toNat := by
  rcases List.mem_cons.1 ht with rfl | hmem
  · exact Nat.le_refl _
  · have hlt := UInt64.lt_iff_toNat_lt.1 (h.solid s List.mem_cons_self)
    have hle := UInt64.le_iff_toNat_le.1 ((List.pairwise_cons.1 h.sorted).1 t hmem)
    omega

/-- A turn from `ea` moves forward, and feeds the form of the states it passes. -/
structure Passes (end_ ea : UInt64) (segs : List SegImage) (hash : σ)
    (turn : UInt64 × List SegImage × σ) : Prop where
  lt : ea.toNat < turn.1.toNat
  le_end : turn.1.toNat ≤ end_.toNat
  ordered : Ordered turn.2.1
  feeds : ∃ form : Bytes, turn.2.2 = form.foldl feed hash ∧
    statesForm (states segs ea.toNat (end_.toNat - ea.toNat)) =
      form ++ statesForm (states turn.2.1 turn.1.toNat (end_.toNat - turn.1.toNat))

section Turn

variable {end_ ea next : UInt64} {segs : List SegImage} {s : SegImage} {hash : σ}

/-- The hole goes up to `next`: to the end of the chunk, or to a segment. -/
theorem passes_hole (hsegs : Ordered segs) (hlt : ea.toNat < next.toNat)
    (hle : next.toNat ≤ end_.toNat)
    (hhole : ∀ a, a < next.toNat → stateAt segs a = .unmapped)
    (hstop : next.toNat < end_.toNat → stateAt segs next.toNat ≠ .unmapped) :
    Passes feed end_ ea segs hash (next, segs, feedU64 feed (feed hash 0) (next - ea)) := by
  refine ⟨hlt, hle, hsegs, 0 :: leU64 (next - ea), feedU64_eq .., ?_⟩
  have hcount : next - ea = .ofNat (next.toNat - ea.toNat) := by
    have hnat := UInt64.toNat_sub_of_le _ _ (UInt64.le_iff_toNat_le.2 hlt.le)
    rw [← hnat, UInt64.ofNat_toNat]
  have hsplit : end_.toNat - ea.toNat = next.toNat - ea.toNat + (end_.toNat - next.toNat) := by
    omega
  have hnext : ea.toNat + (next.toNat - ea.toNat) = next.toNat := by omega
  rw [hsplit, statesForm_hole (by omega) ?_ ?_, hnext, hcount]
  · intro i hi
    exact hhole _ (by omega)
  · intro hpos
    rw [hnext]
    exact hstop (by omega)

/-- A stretch of the first segment, up to its end or the end of the chunk. -/
theorem passes_stretch (hsegs : Ordered (s :: segs)) (hcontains : s.contains ea = true)
    (hlt : ea.toNat < next.toNat) (hle : next.toNat ≤ end_.toNat)
    (hin : next.toNat ≤ s.end_.toNat) :
    Passes feed end_ ea (s :: segs) hash (next, s :: segs,
      feedRun feed s (next - ea).toNat (ea - s.start).toNat hash) := by
  obtain ⟨hstart, -⟩ := SegImage.contains_eq_true_iff.1 hcontains
  have hcount := UInt64.toNat_sub_of_le _ _ (UInt64.le_iff_toNat_le.2 hlt.le)
  have hoff := UInt64.toNat_sub_of_le _ _ (UInt64.le_iff_toNat_le.2 hstart)
  have hsplit : end_.toNat - ea.toNat = next.toNat - ea.toNat + (end_.toNat - next.toNat) := by
    omega
  have hnext : ea.toNat + (next.toNat - ea.toNat) = next.toNat := by omega
  refine ⟨hlt, hle, hsegs, ((List.range' ea.toNat (next.toNat - ea.toNat)).map
    (segmentState s)).flatMap byteForm, ?_, ?_⟩
  · show feedRun feed s (next - ea).toNat (ea - s.start).toNat hash = _
    rw [hcount, hoff, feedRun_eq feed s _ hash hstart]
  · rw [hsplit, statesForm_covered, hnext]
    intro i hi
    rw [covers_eq_true_iff]
    omega

/-- The first segment ends behind `ea`, or there is none. -/
theorem cursorTurn_passes (hash : σ) (hsegs : Ordered segs) (hlt : ea.toNat < end_.toNat)
    (hhead : ∀ t ∈ segs.head?, ea.toNat < t.end_.toNat) :
    Passes feed end_ ea segs hash (cursorTurn feed end_ ea segs hash) := by
  cases segs with
  | nil =>
    exact passes_hole feed hsegs hlt (Nat.le_refl _) (fun a _ => rfl) fun h => absurd h (by omega)
  | cons s segs =>
    have hend := hhead s rfl
    have hsolid := UInt64.lt_iff_toNat_lt.1 (hsegs.solid s List.mem_cons_self)
    by_cases hcontains : s.contains ea = true
    · rw [cursorTurn, if_pos hcontains]
      have hnat := toNat_min_u64 end_ s.end_
      exact passes_stretch feed hsegs hcontains (by omega) (by omega) (by omega)
    · rw [cursorTurn, if_neg hcontains]
      rw [SegImage.contains_eq_true_iff] at hcontains
      have hnat := toNat_min_u64 end_ s.start
      refine passes_hole feed hsegs (by omega) (by omega) ?_ ?_
      · intro a ha
        refine stateAt_eq_unmapped fun t ht => ?_
        have hstart := hsegs.start_le ht
        rw [← Bool.not_eq_true, covers_eq_true_iff]
        omega
      · intro hless
        have hnext : (min end_ s.start).toNat = s.start.toNat := by omega
        have hcovers : covers s s.start.toNat = true :=
          covers_eq_true_iff.2 ⟨Nat.le_refl _, hsolid⟩
        rw [hnext, stateAt_cons hcovers]
        exact segmentState_ne s _

theorem chunkTurn_passes (hash : σ) (hsegs : Ordered segs) (hlt : ea.toNat < end_.toNat) :
    Passes feed end_ ea segs hash (chunkTurn feed end_ ea segs hash) := by
  rw [chunkTurn]
  set gone := segs.takeWhile fun s => decide (s.end_ ≤ ea) with hgone
  set left := segs.dropWhile fun s => decide (s.end_ ≤ ea) with hleft
  have hsplit : segs = gone ++ left := List.takeWhile_append_dropWhile.symm
  have hhead : ∀ t ∈ left.head?, ea.toNat < t.end_.toNat := by
    intro t ht
    have hfail := List.head?_dropWhile_not (fun s : SegImage => decide (s.end_ ≤ ea)) segs
    rw [← hleft, ht] at hfail
    exact UInt64.lt_iff_toNat_lt.1 (UInt64.not_le.1 (of_decide_eq_false hfail))
  obtain ⟨hforward, hle, hordered, form, hfeeds, hform⟩ :=
    cursorTurn_passes feed hash (Ordered.suffix (hsplit ▸ hsegs)) hlt hhead
  refine ⟨hforward, hle, hordered, form, hfeeds, ?_⟩
  -- the segments that the cursor goes over end before `ea`
  have hstates : states segs ea.toNat (end_.toNat - ea.toNat) =
      states left ea.toNat (end_.toNat - ea.toNat) := by
    refine states_congr fun i _ => ?_
    rw [hsplit]
    refine stateAt_append fun t ht => Nat.le_add_right_of_le ?_
    have hends := List.all_eq_true.1 (List.all_takeWhile (p := fun s => decide (s.end_ ≤ ea))
      (l := segs)) t (hgone ▸ ht)
    exact UInt64.le_iff_toNat_le.1 (of_decide_eq_true hends)
  rw [hstates]
  exact hform

end Turn

/-- The loop ends within one turn per byte, and has fed the form of the states. -/
theorem chunkLoop_eq (end_ : UInt64) (fuel : ℕ) : ∀ {ea : UInt64} {segs : List SegImage} (hash : σ),
    Ordered segs → end_.toNat - ea.toNat ≤ fuel → chunkLoop feed end_ fuel ea segs hash =
      some ((statesForm (states segs ea.toNat (end_.toNat - ea.toNat))).foldl feed hash) := by
  induction fuel with
  | zero =>
    intro ea segs hash _ hfuel
    have hdone : ¬ ea < end_ := fun hlt => by
      have hnat := UInt64.lt_iff_toNat_lt.1 hlt
      omega
    have hnone : end_.toNat - ea.toNat = 0 := by omega
    rw [chunkLoop, if_neg hdone, hnone]
    rfl
  | succ fuel ih =>
    intro ea segs hash hsegs hfuel
    rw [chunkLoop]
    by_cases hlt : ea < end_
    · rw [if_pos hlt]
      obtain ⟨hforward, hle, hordered, form, hfeeds, hform⟩ :=
        chunkTurn_passes feed hash hsegs (UInt64.lt_iff_toNat_lt.1 hlt)
      dsimp only
      rw [ih _ hordered (by omega), hfeeds, hform, List.foldl_append]
    · have hnone : end_.toNat - ea.toNat = 0 := by
        have hnat := UInt64.le_iff_toNat_le.1 (UInt64.not_lt.1 hlt)
        omega
      rw [if_neg hlt, hnone]
      rfl

end Sink

section Chunks

variable (img : SolidImage)

theorem ordered_segs : Ordered img.segs := ⟨img.sorted, img.solid⟩

/-- The segments in front of the first one end before the chunk. -/
theorem firstSegments_spec (ea : UInt64) :
    ∃ before, img.segs = before ++ firstSegments img.segs ea ∧
    ∀ s ∈ before, s.end_.toNat ≤ ea.toNat := by
  have hout : ∀ i, img.segs.length ≤ i →
      (img.segs[i]?.any fun s => decide (s.start ≤ ea)) = false := by
    intro i hi
    rw [List.getElem?_eq_none hi]
    rfl
  obtain ⟨hbefore, -⟩ := Cxx.bisect_spec (fun i j hij => ProgramImage.start_le_of_le hij)
    img.segs.length (Nat.zero_le _) (Nat.sub_le _ 0) (fun i hi => absurd hi (Nat.not_lt_zero i))
    hout
  rw [firstSegments]
  generalize Cxx.bisect _ img.segs.length 0 img.segs.length = first at hbefore ⊢
  refine ⟨img.segs.take (first - 1), (List.take_append_drop ..).symm, ?_⟩
  intro s hs
  obtain ⟨i, hi, hget⟩ := List.mem_take_iff_getElem.1 hs
  have hfirst : i < first - 1 := by omega
  obtain ⟨t, ht, hle⟩ := (Option.any_eq_true _ _).1 (hbefore (first - 1) (by omega))
  have hend := ProgramImage.end_le_start hfirst
    ((List.getElem?_eq_getElem (by omega)).trans (congrArg some hget)) ht
  exact UInt64.le_iff_toNat_le.1 (UInt64.le_trans hend (of_decide_eq_true hle))

/-- What the stream says of a chunk: its place, its size and the state of its bytes. -/
structure ChunkView where
  relative : UInt64
  size : UInt64
  states : List ByteState
  length_states : states.length = size.toNat

def ChunkView.form (view : ChunkView) : Bytes :=
  leU64 view.relative ++ leU64 view.size ++ statesForm view.states

def chunkView (func : Emu.FuncRange) (chunk : FuncChunk) : ChunkView where
  relative := chunk.start - func.start
  size := chunk.size
  states := states img.segs chunk.start.toNat chunk.size.toNat
  length_states := length_states

theorem toNat_size (chunk : FuncChunk) :
    chunk.size.toNat = chunk.end_.toNat - chunk.start.toNat := by
  rw [FuncChunk.size]
  split_ifs with h
  · exact UInt64.toNat_sub_of_le _ _ (UInt64.le_of_lt h)
  · have hle := UInt64.le_iff_toNat_le.1 (UInt64.not_lt.1 h)
    exact (Nat.sub_eq_zero_of_le hle).symm

theorem hashChunkBytes_eq {σ : Type} (feed : σ → UInt8 → σ) (func : Emu.FuncRange) (hash : σ)
    (chunk : FuncChunk) : hashChunkBytes feed img func hash chunk =
      some ((chunkView img func chunk).form.foldl feed hash) := by
  obtain ⟨before, hsplit, hends⟩ := firstSegments_spec img chunk.start
  have hordered : Ordered (firstSegments img.segs chunk.start) :=
    Ordered.suffix (hsplit ▸ ordered_segs img)
  have hstates : states (firstSegments img.segs chunk.start) chunk.start.toNat chunk.size.toNat =
      states img.segs chunk.start.toNat chunk.size.toNat := by
    refine states_congr fun i _ => ?_
    conv_rhs => rw [hsplit]
    exact (stateAt_append fun s hs => Nat.le_add_right_of_le (hends s hs)).symm
  rw [hashChunkBytes, chunkLoop_eq feed _ _ _ hordered (toNat_size chunk).ge, ← toNat_size, hstates,
    feedU64_eq, feedU64_eq, ← List.foldl_append, ← List.foldl_append, ← List.append_assoc]
  rfl

/-- The stream: the version, the number of chunks and the chunks. -/
def functionForm (func : Emu.FuncRange) : Bytes :=
  leU64 kFunctionHashVersion ++ leU64 (.ofNat func.hashedChunks.length) ++
    func.hashedChunks.flatMap fun chunk => (chunkView img func chunk).form

theorem hashFunction_eq {σ : Type} (feed : σ → UInt8 → σ) (func : Emu.FuncRange) (hash : σ) :
    hashFunction feed img func hash = some ((functionForm img func).foldl feed hash) := by
  have hcount : (if func.chunks.isEmpty then 1 else func.chunks.length) =
      func.hashedChunks.length := by
    rw [Emu.FuncRange.hashedChunks]
    split_ifs
    · rfl
    · rfl
  have hchunks : ∀ (chunks : List FuncChunk) (hash : σ),
      chunks.foldlM (hashChunkBytes feed img func) hash =
        some ((chunks.flatMap fun chunk => (chunkView img func chunk).form).foldl feed hash) := by
    intro chunks
    induction chunks with
    | nil =>
      intro hash
      rfl
    | cons chunk chunks ih =>
      intro hash
      rw [List.foldlM_cons, hashChunkBytes_eq, List.flatMap_cons, List.foldl_append]
      exact ih _
  rw [hashFunction, hcount, hchunks, feedU64_eq, feedU64_eq, functionForm, List.foldl_append,
    List.foldl_append]

theorem foldl_snoc (l : Bytes) : ∀ stream : Bytes,
    l.foldl (fun stream b => stream ++ [b]) stream = stream ++ l := by
  induction l with
  | nil =>
    intro stream
    rw [List.foldl_nil, List.append_nil]
  | cons b l ih =>
    intro stream
    rw [List.foldl_cons, ih, List.append_assoc, List.singleton_append]

theorem functionStream_eq (func : Emu.FuncRange) :
    functionStream img func = some (functionForm img func) := by
  rw [functionStream, hashFunction_eq, foldl_snoc, List.nil_append]

end Chunks

end Viy.Program
