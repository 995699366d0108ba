import Viy.Emu.LoadedView
import Viy.Emu.Machine

/-!
# Decoding through the cache

The code hook classifies a transfer by decoding the instruction before it. `decode_at` reads the
loaded bytes of the image, which no run changes, and keeps its answers, failures included, in a
direct-mapped cache with the address as the tag. An occupied entry always has the whole answer for
its tag, so a run of queries cannot tell the cache from a decoder that is asked every time. This is
what lets the hook context have the decoder's answer as a plain function.
-/

namespace Viy.Emu

open Wire

/-! ## The decoder -/

/-- `RAX_FLOW_*` -/
inductive Flow where
  | none | call | indirectCall | branch | condBranch | indirectJump | return_ | other
  deriving DecidableEq

def Flow.kind : Flow → EdgeKind
  | .call | .indirectCall => .call
  | .branch | .condBranch | .indirectJump => .jump
  | .return_ => .return_
  | .none | .other => .unknown

/-- The fields of `rax_decoded` that are read. -/
structure Decoded where
  valid : Bool
  size : UInt32
  flow : Flow

/-- The decode function of the engine for the architecture and mode of the run; nothing if its
status is not `RAX_OK`. -/
abbrev Decoder : Type := UInt64 → Bytes → Option Decoded

/-- What `decode_at` reads of the context besides the cache; nothing for a null pointer. -/
structure DecodeCtx where
  decode : Option Decoder
  image : Option (List SegImage)

/-- A call of `decode_at`: the address, and which out-parameters are not null. -/
structure DecodeQuery where
  pc : UInt64
  wantsSize : Bool := true
  wantsKind : Bool := true

/-- What a call returns and what it leaves in its out-parameters. -/
structure DecodeAnswer where
  result : Bool
  size : Option UInt32
  kind : Option EdgeKind
  deriving DecidableEq

def DecodeQuery.answer (q : DecodeQuery) (result : Bool) (size : UInt32) (kind : EdgeKind) :
    DecodeAnswer where
  result := result
  size := if q.wantsSize then some size else none
  kind := if q.wantsKind then some kind else none

/-- The out-parameters as every call first sets them. -/
def DecodeQuery.failed (q : DecodeQuery) : DecodeAnswer := q.answer false 0 .unknown

/-- A decode without a cache. -/
def DecodeCtx.decodeUncached (c : DecodeCtx) (q : DecodeQuery) : DecodeAnswer :=
  match c.decode, c.image with
  | some decode, some image =>
    match loadedView image q.pc 15 with
    | [] => q.failed
    | bytes =>
      match decode q.pc bytes with
      | none => q.failed
      | some decoded =>
        if decoded.valid = false ∨ decoded.size = 0 then q.failed
        else q.answer true decoded.size decoded.flow.kind
  | _, _ => q.failed

/-! ## The cache -/

structure DecodeEntry where
  pc : UInt64 := 0
  size : UInt32 := 0
  kind : EdgeKind := .unknown
  occupied : Bool := false
  valid : Bool := false

/-- `std::array<DecodeEntry, 1024>`, by index. -/
abbrev DecodeCache : Type := ℕ → DecodeEntry

def DecodeCache.empty : DecodeCache := fun _ => {}

def decodeIndex (pc : UInt64) : ℕ := ((pc ^^^ (pc >>> 10)) % 1024).toNat

def DecodeCtx.decodeAt (c : DecodeCtx) (cache : DecodeCache) (q : DecodeQuery) :
    DecodeCache × DecodeAnswer :=
  match c.decode, c.image with
  | some decode, some image =>
    let cached := cache (decodeIndex q.pc)
    if cached.occupied && cached.pc == q.pc then
      (cache, q.answer cached.valid cached.size cached.kind)
    else
      let cached : DecodeEntry := { pc := q.pc, occupied := true }
      let missed := (Function.update cache (decodeIndex q.pc) cached, q.failed)
      match loadedView image q.pc 15 with
      | [] => missed
      | bytes =>
        match decode q.pc bytes with
        | none => missed
        | some decoded =>
          if decoded.valid = false ∨ decoded.size = 0 then missed
          else
            let cached :=
              { cached with valid := true, size := decoded.size, kind := decoded.flow.kind }
            (Function.update cache (decodeIndex q.pc) cached, q.answer true cached.size cached.kind)
  | _, _ => (cache, q.failed)

/-- The queries of a run, one after the other. -/
def DecodeCtx.decodeRun (c : DecodeCtx) : DecodeCache → List DecodeQuery →
    DecodeCache × List DecodeAnswer
  | cache, [] => (cache, [])
  | cache, q :: queries =>
    let step := c.decodeAt cache q
    let rest := c.decodeRun step.1 queries
    (rest.1, step.2 :: rest.2)

section Cache

variable {c : DecodeCtx}

/-- The entry has the whole answer to every query for its tag. -/
def DecodeEntry.Answers (c : DecodeCtx) (e : DecodeEntry) : Prop :=
  ∀ q : DecodeQuery, q.pc = e.pc → c.decodeUncached q = q.answer e.valid e.size e.kind

def DecodeCache.Sound (c : DecodeCtx) (cache : DecodeCache) : Prop :=
  ∀ i, (cache i).occupied = true → (cache i).Answers c

theorem DecodeCache.empty_sound : DecodeCache.empty.Sound c := by
  intro i hi
  cases hi

theorem DecodeCache.Sound.update {cache : DecodeCache} (h : cache.Sound c) {e : DecodeEntry}
    (he : e.Answers c) (i : ℕ) : DecodeCache.Sound c (Function.update cache i e) := by
  intro j hj
  by_cases hji : j = i
  · rw [hji, Function.update_self]
    exact he
  · rw [Function.update_of_ne hji] at hj ⊢
    exact h j hj

/-- The entry that a decode leaves, also if it failed. -/
def decodedEntry (decode : Decoder) (image : List SegImage) (pc : UInt64) : DecodeEntry :=
  match loadedView image pc 15 with
  | [] => { pc := pc, occupied := true }
  | bytes =>
    match decode pc bytes with
    | none => { pc := pc, occupied := true }
    | some decoded =>
      if decoded.valid = false ∨ decoded.size = 0 then { pc := pc, occupied := true }
      else
        { pc := pc, occupied := true, valid := true, size := decoded.size
          kind := decoded.flow.kind }

section Decoded

variable {decode : Decoder} {image : List SegImage} (hdecode : c.decode = some decode)
  (himage : c.image = some image)

include hdecode himage

/-- The uncached answer and the one behind a miss are both read off that entry. -/
theorem DecodeCtx.decode_eq_entry (q : DecodeQuery) :
    c.decodeUncached q = q.answer (decodedEntry decode image q.pc).valid
        (decodedEntry decode image q.pc).size (decodedEntry decode image q.pc).kind ∧
      ∀ cache : DecodeCache,
        ((cache (decodeIndex q.pc)).occupied && (cache (decodeIndex q.pc)).pc == q.pc) = false →
        c.decodeAt cache q =
          (Function.update cache (decodeIndex q.pc) (decodedEntry decode image q.pc),
            c.decodeUncached q) := by
  simp only [decodeUncached, decodeAt, decodedEntry, hdecode, himage]
  cases loadedView image q.pc 15 with
  | nil => exact ⟨rfl, fun cache hmiss => if_neg (Bool.eq_false_iff.1 hmiss)⟩
  | cons byte bytes =>
    dsimp only
    cases decode q.pc (byte :: bytes) with
    | none => exact ⟨rfl, fun cache hmiss => if_neg (Bool.eq_false_iff.1 hmiss)⟩
    | some decoded =>
      dsimp only
      by_cases hbad : decoded.valid = false ∨ decoded.size = 0
      · simp only [if_pos hbad]
        exact ⟨rfl, fun cache hmiss => if_neg (Bool.eq_false_iff.1 hmiss)⟩
      · simp only [if_neg hbad]
        exact ⟨trivial, fun cache hmiss => if_neg (Bool.eq_false_iff.1 hmiss)⟩

theorem decodedEntry_answers (pc : UInt64) : (decodedEntry decode image pc).Answers c := by
  have hpc : (decodedEntry decode image pc).pc = pc := by
    unfold decodedEntry
    cases loadedView image pc 15 with
    | nil => rfl
    | cons byte bytes =>
      dsimp only
      cases decode pc (byte :: bytes) with
      | none => rfl
      | some decoded =>
        dsimp only
        split_ifs <;> rfl
  intro q hq
  rw [hpc] at hq
  rw [(DecodeCtx.decode_eq_entry hdecode himage q).1, hq]

end Decoded

/-- A query is answered as without the cache, from an entry or by a decode, and what a decode leaves
in the cache is the whole answer. -/
theorem DecodeCtx.decodeAt_step {cache : DecodeCache} (h : cache.Sound c) (q : DecodeQuery) :
    (c.decodeAt cache q).2 = c.decodeUncached q ∧ (c.decodeAt cache q).1.Sound c := by
  cases hdecode : c.decode with
  | none =>
    simp only [decodeAt, decodeUncached, hdecode]
    exact ⟨trivial, h⟩
  | some decode =>
  cases himage : c.image with
  | none =>
    simp only [decodeAt, decodeUncached, hdecode, himage]
    exact ⟨trivial, h⟩
  | some image =>
  cases hhit : (cache (decodeIndex q.pc)).occupied && (cache (decodeIndex q.pc)).pc == q.pc with
  | true =>
    simp only [decodeAt, hdecode, himage, if_pos hhit]
    rw [Bool.and_eq_true, beq_iff_eq] at hhit
    exact ⟨(h _ hhit.1 q hhit.2.symm).symm, h⟩
  | false =>
    rw [(decode_eq_entry hdecode himage q).2 cache hhit]
    exact ⟨rfl, h.update (decodedEntry_answers hdecode himage q.pc) _⟩

theorem DecodeCtx.decodeRun_sound (queries : List DecodeQuery) : ∀ {cache : DecodeCache},
    cache.Sound c → (c.decodeRun cache queries).2 = queries.map c.decodeUncached ∧
      (c.decodeRun cache queries).1.Sound c := by
  induction queries with
  | nil =>
    intro cache h
    exact ⟨rfl, h⟩
  | cons q queries ih =>
    intro cache h
    obtain ⟨hanswer, hstep⟩ := DecodeCtx.decodeAt_step h q
    obtain ⟨hrest, hend⟩ := ih hstep
    exact ⟨congrArg₂ List.cons hanswer hrest, hend⟩

end Cache

/-- **The cache cannot be seen.** In a run of queries, with whatever addresses share an entry, fail
or come again, every call returns and writes what a decode without the cache does. -/
theorem decode_cache_unseen (c : DecodeCtx) (queries : List DecodeQuery) :
    (c.decodeRun DecodeCache.empty queries).2 = queries.map c.decodeUncached :=
  (DecodeCtx.decodeRun_sound queries DecodeCache.empty_sound).1

/-- Two addresses of one entry, where only the first decodes. -/
example :
    let segment : SegImage :=
      { start := 0, end_ := 0x500, bytes := [0xe8, 0, 0, 0, 0], mask := [0x1f] }
    let call : Decoder := fun _ bytes => if bytes.length = 5 then some ⟨true, 5, .call⟩ else none
    (DecodeCtx.decodeRun ⟨some call, some [segment]⟩ DecodeCache.empty
      [⟨0, true, true⟩, ⟨0x401, true, true⟩, ⟨0, false, true⟩]).2 =
      [⟨true, some 5, some .call⟩, ⟨false, some 0, some .unknown⟩, ⟨true, none, some .call⟩] := by
  decide +kernel

end Viy.Emu
