import Viy.Program.FunctionHash

/-!
# What the byte hash of a function depends on

Two functions feed the hash the same stream exactly if their chunks agree one by one in place, size
and the state of every byte. So the hash does not see where the image is loaded, and not how its
bytes are divided into segments.
-/

namespace Viy.Program

open Wire Emu

/-! ## Equal streams -/

/-- Two chunks at the same place of their functions, with the same bytes. -/
structure SameChunk (img img' : SolidImage) (func func' : Emu.FuncRange) (c c' : FuncChunk) :
    Prop where
  relative : c.start - func.start = c'.start - func'.start
  size : c.size = c'.size
  state : ∀ i < c.size.toNat,
    stateAt img.segs (c.start.toNat + i) = stateAt img'.segs (c'.start.toNat + i)

/-- As many chunks, the same one by one. -/
def SameContent (img img' : SolidImage) (func func' : Emu.FuncRange) : Prop :=
  List.Forall₂ (SameChunk img img' func func') func.hashedChunks func'.hashedChunks

theorem ChunkView.eq_iff {v w : ChunkView} :
    v = w ↔ (v.relative = w.relative ∧ v.size = w.size) ∧ v.states = w.states := by
  constructor
  · rintro rfl
    exact ⟨⟨rfl, rfl⟩, rfl⟩
  · rintro ⟨⟨hrelative, hsize⟩, hstates⟩
    cases v
    cases w
    cases hrelative
    cases hsize
    cases hstates
    rfl

/-- The size in front of the states tells where they end. -/
theorem delimits_chunkView : Delimits ChunkView.form Eq := by
  have hwords : Delimits (fun v : ChunkView => leU64 v.relative ++ leU64 v.size)
      fun v w => v.relative = w.relative ∧ v.size = w.size :=
    (delimits_leU64.comap ChunkView.relative).append (delimits_leU64.comap ChunkView.size)
  have hform := hwords.append_of (g := fun v : ChunkView => statesForm v.states)
    (S := fun v w => v.states = w.states) ?_
  · intro v w r s
    rw [ChunkView.eq_iff]
    exact @hform v w r s
  · rintro v w r s ⟨-, hsize⟩
    constructor
    · exact statesForm_append_inj v.size.toNat v.length_states (hsize ▸ w.length_states)
        v.size.toNat_lt
    · rintro ⟨hstates, rfl⟩
      rw [hstates]

section Content

variable {img img' : SolidImage} {func func' : Emu.FuncRange}

theorem chunkView_eq_iff {c c' : FuncChunk} :
    chunkView img func c = chunkView img' func' c' ↔ SameChunk img img' func func' c c' := by
  rw [ChunkView.eq_iff]
  constructor
  · rintro ⟨⟨hrelative, hsize⟩, hstates⟩
    have hsize' : c.size = c'.size := hsize
    refine ⟨hrelative, hsize', states_eq_iff.1 (hstates.trans ?_)⟩
    exact congrArg (fun n : UInt64 => states img'.segs c'.start.toNat n.toNat) hsize'.symm
  · rintro ⟨hrelative, hsize, hstate⟩
    refine ⟨⟨hrelative, hsize⟩, ?_⟩
    show states img.segs c.start.toNat c.size.toNat = states img'.segs c'.start.toNat c'.size.toNat
    rw [← hsize]
    exact states_eq_iff.2 hstate

theorem functionForm_eq_iff :
    functionForm img func = functionForm img' func' ↔ SameContent img img' func func' := by
  have hne : ∀ v : ChunkView, v.form ≠ [] := by
    intro v h
    have hlength := congrArg List.length h
    rw [ChunkView.form, List.length_append, List.length_append, leU64, length_scatter,
      List.length_nil] at hlength
    omega
  have hchunks := delimits_chunkView.flatMap_eq_iff hne
    (l := func.hashedChunks.map (chunkView img func))
    (m := func'.hashedChunks.map (chunkView img' func'))
  rw [List.flatMap_map, List.flatMap_map, List.forall₂_map_left_iff, List.forall₂_map_right_iff]
    at hchunks
  have hsame : (List.Forall₂ (fun c c' => chunkView img func c = chunkView img' func' c')
      func.hashedChunks func'.hashedChunks) ↔ SameContent img img' func func' :=
    iff_of_eq (congrArg (List.Forall₂ · func.hashedChunks func'.hashedChunks)
      (funext₂ fun c c' => propext chunkView_eq_iff))
  rw [functionForm, functionForm, List.append_assoc, List.append_assoc, delimits_leU64,
    delimits_leU64, hchunks, hsame]
  constructor
  · rintro ⟨-, -, h⟩
    exact h
  · intro h
    exact ⟨rfl, congrArg UInt64.ofNat h.length_eq, h⟩

/-- Functions with the same content have the same hash. -/
theorem SameContent.byteHash_eq (h : SameContent img img' func func') :
    viyFunctionByteHash img func = viyFunctionByteHash img' func' := by
  rw [viyFunctionByteHash, viyFunctionByteHash, hashFunction_eq, hashFunction_eq,
    functionForm_eq_iff.2 h]

end Content

/-! ## Rebasing -/

/-- The address after a move of the image by `delta`. -/
def Moved (delta : ℤ) (a b : UInt64) : Prop := (b.toNat : ℤ) = a.toNat + delta

structure MovedSegment (delta : ℤ) (s t : SegImage) : Prop where
  start : Moved delta s.start t.start
  end_ : Moved delta s.end_ t.end_
  bytes : t.bytes = s.bytes
  mask : t.mask = s.mask

def MovedChunk (delta : ℤ) (c d : FuncChunk) : Prop :=
  Moved delta c.start d.start ∧ Moved delta c.end_ d.end_

/-- The same image and the same function somewhere else. -/
structure Rebased (delta : ℤ) (img img' : SolidImage) (func func' : Emu.FuncRange) : Prop where
  segs : List.Forall₂ (MovedSegment delta) img.segs img'.segs
  start : Moved delta func.start func'.start
  end_ : Moved delta func.end_ func'.end_
  chunks : List.Forall₂ (MovedChunk delta) func.chunks func'.chunks

section Rebase

variable {delta : ℤ} {segs segs' : List SegImage} {a b : ℕ}

theorem MovedSegment.covers_eq {s t : SegImage} (h : MovedSegment delta s t)
    (hb : (b : ℤ) = a + delta) : covers t b = covers s a := by
  have hstart : (t.start.toNat : ℤ) = s.start.toNat + delta := h.start
  have hend : (t.end_.toNat : ℤ) = s.end_.toNat + delta := h.end_
  rw [Bool.eq_iff_iff, covers_eq_true_iff, covers_eq_true_iff]
  omega

theorem MovedSegment.segmentState_eq {s t : SegImage} (h : MovedSegment delta s t)
    (hb : (b : ℤ) = a + delta) (ha : covers s a = true) : segmentState t b = segmentState s a := by
  have hstart : (t.start.toNat : ℤ) = s.start.toNat + delta := h.start
  have hle := (covers_eq_true_iff.1 ha).1
  have hoff : b - t.start.toNat = a - s.start.toNat := by omega
  rw [segmentState, segmentState, hoff, h.bytes, h.mask]

theorem stateAt_moved (h : List.Forall₂ (MovedSegment delta) segs segs')
    (hb : (b : ℤ) = a + delta) : stateAt segs' b = stateAt segs a := by
  induction h with
  | nil => rfl
  | @cons s t segs segs' hst _ ih =>
    cases hcovers : covers s a with
    | true => rw [stateAt_cons hcovers, stateAt_cons ((hst.covers_eq hb).trans hcovers),
        hst.segmentState_eq hb hcovers]
    | false => rw [stateAt_cons_of_not hcovers,
        stateAt_cons_of_not ((hst.covers_eq hb).trans hcovers), ih]

theorem Moved.sub_eq {c c' d d' : UInt64} (hc : Moved delta c c') (hd : Moved delta d d') :
    c' - d' = c - d := by
  have hcnat : (c'.toNat : ℤ) = c.toNat + delta := hc
  have hdnat : (d'.toNat : ℤ) = d.toNat + delta := hd
  rw [← UInt64.toNat_inj, UInt64.toNat_sub, UInt64.toNat_sub]
  have hlt := d.toNat_lt
  have hlt' := d'.toNat_lt
  have hsame : 2 ^ 64 - d'.toNat + c'.toNat = 2 ^ 64 - d.toNat + c.toNat := by omega
  rw [hsame]

theorem MovedChunk.size_eq {c d : FuncChunk} (h : MovedChunk delta c d) : d.size = c.size := by
  have hstart : (d.start.toNat : ℤ) = c.start.toNat + delta := h.1
  have hend : (d.end_.toNat : ℤ) = c.end_.toNat + delta := h.2
  rw [← UInt64.toNat_inj, toNat_size, toNat_size]
  omega

variable {img img' : SolidImage} {func func' : Emu.FuncRange}

theorem Rebased.hashedChunks (h : Rebased delta img img' func func') :
    List.Forall₂ (MovedChunk delta) func.hashedChunks func'.hashedChunks := by
  have hchunks := h.chunks
  rw [Emu.FuncRange.hashedChunks, Emu.FuncRange.hashedChunks]
  cases hfunc : func.chunks with
  | nil =>
    rw [hfunc, List.forall₂_nil_left_iff] at hchunks
    rw [hchunks]
    exact .cons ⟨h.start, h.end_⟩ .nil
  | cons c chunks =>
    rw [hfunc] at hchunks
    obtain ⟨d, chunks', hd, hrest, hfunc'⟩ := List.forall₂_cons_left_iff.1 hchunks
    rw [hfunc']
    exact .cons hd hrest

/-- A move of the image leaves the content of its functions as it is. -/
theorem Rebased.sameContent (h : Rebased delta img img' func func') :
    SameContent img img' func func' := by
  refine h.hashedChunks.imp fun c c' hc => ⟨(hc.1.sub_eq h.start).symm, hc.size_eq.symm, ?_⟩
  intro i _
  have hstart : (c'.start.toNat : ℤ) = c.start.toNat + delta := hc.1
  exact (stateAt_moved h.segs (by push_cast; omega)).symm

end Rebase

/-! ## Splitting and joining segments -/

/-- Two adjacent segments have the bytes of one. -/
structure Joins (s₁ s₂ s : SegImage) : Prop where
  start : s₁.start = s.start
  adjacent : s₁.end_ = s₂.start
  end_ : s₂.end_ = s.end_
  left : ∀ a, covers s₁ a = true → segmentState s₁ a = segmentState s a
  right : ∀ a, covers s₂ a = true → segmentState s₂ a = segmentState s a

section Split

variable {before after : List SegImage} {s₁ s₂ s : SegImage}

theorem Joins.stateAt_eq (h : Joins s₁ s₂ s) (hfirst : s₁.start < s₁.end_)
    (hsecond : s₂.start < s₂.end_) (a : ℕ) :
    stateAt (before ++ s₁ :: s₂ :: after) a = stateAt (before ++ s :: after) a := by
  have hlt := UInt64.lt_iff_toNat_lt.1 hfirst
  have hlt' := UInt64.lt_iff_toNat_lt.1 hsecond
  have hcovers : covers s a = (covers s₁ a || covers s₂ a) := by
    rw [Bool.eq_iff_iff, Bool.or_eq_true, covers_eq_true_iff, covers_eq_true_iff,
      covers_eq_true_iff, ← h.start, ← h.end_]
    rw [h.adjacent] at hlt ⊢
    omega
  have hrest : stateAt (s₁ :: s₂ :: after) a = stateAt (s :: after) a := by
    cases hc₁ : covers s₁ a with
    | true =>
      have hc : covers s a = true := by rw [hcovers, hc₁, Bool.true_or]
      rw [stateAt_cons hc₁, stateAt_cons hc, h.left a hc₁]
    | false =>
      rw [hc₁, Bool.false_or] at hcovers
      rw [stateAt_cons_of_not hc₁]
      cases hc₂ : covers s₂ a with
      | true => rw [stateAt_cons hc₂, stateAt_cons (hcovers.trans hc₂), h.right a hc₂]
      | false => rw [stateAt_cons_of_not hc₂, stateAt_cons_of_not (hcovers.trans hc₂)]
  induction before with
  | nil => exact hrest
  | cons t before ih =>
    cases ht : covers t a with
    | true => rw [List.cons_append, List.cons_append, stateAt_cons ht, stateAt_cons ht]
    | false =>
      rw [List.cons_append, List.cons_append, stateAt_cons_of_not ht, stateAt_cons_of_not ht, ih]

/-- The segments in which the bytes come do not matter. -/
theorem Joins.sameContent {img img' : SolidImage} (h : Joins s₁ s₂ s)
    (hsplit : img.segs = before ++ s₁ :: s₂ :: after) (hjoined : img'.segs = before ++ s :: after)
    (func : Emu.FuncRange) : SameContent img img' func func := by
  have hmem : ∀ t ∈ [s₁, s₂], t.start < t.end_ := by
    intro t ht
    refine img.solid t (hsplit ▸ List.mem_append_right _ ?_)
    exact List.mem_append_left after ht
  refine List.forall₂_same.2 fun c _ => ⟨rfl, rfl, fun i _ => ?_⟩
  rw [hsplit, hjoined]
  exact h.stateAt_eq (hmem s₁ (by simp)) (hmem s₂ (by simp)) _

end Split

/-- **Function hashes.** The walk over a function ends. The streams of two functions are equal
exactly if their chunks agree in number and one by one in place, size and the state of every byte;
the hash is FNV over the stream. So a rebase does not change it, nor does splitting or joining
segments. -/
theorem function_streams_eq_iff (img img' : SolidImage) (func func' : Emu.FuncRange) :
    (∃ stream, functionStream img func = some stream ∧
      viyFunctionByteHash img func = some (stream.foldl hashByte kFnvOffset)) ∧
    (functionStream img func = functionStream img' func' ↔ SameContent img img' func func') ∧
    (∀ delta, Rebased delta img img' func func' →
      viyFunctionByteHash img func = viyFunctionByteHash img' func') ∧
    ∀ before after s₁ s₂ s, Joins s₁ s₂ s → img.segs = before ++ s₁ :: s₂ :: after →
      img'.segs = before ++ s :: after →
        viyFunctionByteHash img func = viyFunctionByteHash img' func := by
  refine ⟨⟨functionForm img func, functionStream_eq img func, hashFunction_eq ..⟩, ?_, ?_, ?_⟩
  · rw [functionStream_eq, functionStream_eq, Option.some.injEq, functionForm_eq_iff]
  · intro delta h
    exact h.sameContent.byteHash_eq
  · intro before after s₁ s₂ s h hsplit hjoined
    exact (h.sameContent hsplit hjoined func).byteHash_eq

/-- Four bytes, the third of them not loaded, and the two halves. -/
def wholeSegment : SegImage := ⟨4096, 4100, 5, [144, 7, 0, 195], [11]⟩
def firstHalf : SegImage := ⟨4096, 4098, 5, [144, 7], [3]⟩
def secondHalf : SegImage := ⟨4098, 4100, 5, [0, 195], [2]⟩

theorem joins_halves : Joins firstHalf secondHalf wholeSegment := by
  refine ⟨rfl, rfl, rfl, ?_, ?_⟩
  · intro a ha
    obtain ⟨hle, hlt⟩ := covers_eq_true_iff.1 ha
    change 4096 ≤ a at hle
    change a < 4098 at hlt
    interval_cases a <;> decide +kernel
  · intro a ha
    obtain ⟨hle, hlt⟩ := covers_eq_true_iff.1 ha
    change 4098 ≤ a at hle
    change a < 4100 at hlt
    interval_cases a <;> decide +kernel

theorem function_hash_of_halves : ∃ img img' : SolidImage,
    img.segs = [firstHalf, secondHalf] ∧ img'.segs = [wholeSegment] ∧
      viyFunctionByteHash img ⟨4096, 4100, []⟩ = viyFunctionByteHash img' ⟨4096, 4100, []⟩ := by
  let img : SolidImage :=
    ⟨⟨4096, 4100, [firstHalf, secondHalf], by decide, by decide⟩, by decide⟩
  let img' : SolidImage := ⟨⟨4096, 4100, [wholeSegment], by decide, by decide⟩, by decide⟩
  exact ⟨img, img', rfl, rfl, (function_streams_eq_iff img img' ⟨4096, 4100, []⟩
    ⟨4096, 4100, []⟩).2.2.2 [] [] firstHalf secondHalf wholeSegment joins_halves rfl rfl⟩

end Viy.Program
