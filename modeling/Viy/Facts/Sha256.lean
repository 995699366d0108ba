import Viy.Facts.Types
import Viy.Wire.Blocks

/-!
# SHA-256 in pieces

Evidence identities and the integrity of stored facts rest on a SHA-256 of its own: bytes are copied
into a block of 64, a full block is transformed into the state, and `finish` pads what is left in
one or two blocks. The digest depends on the bytes only and not on how they were cut, and it is the
fold of `transform` over the blocks of the padded message.
-/

namespace Viy.Analysis

open Wire

namespace Sha256

/-! ## The compression function -/

/-- `state_` -/
abbrev State := Vector UInt32 8

def initialState : State :=
  #v[0x6a09e667, 0xbb67ae85, 0x3c6ef372, 0xa54ff53a, 0x510e527f, 0x9b05688c, 0x1f83d9ab, 0x5be0cd19]

def k : List UInt32 := [
  0x428a2f98, 0x71374491, 0xb5c0fbcf, 0xe9b5dba5, 0x3956c25b, 0x59f111f1, 0x923f82a4, 0xab1c5ed5,
  0xd807aa98, 0x12835b01, 0x243185be, 0x550c7dc3, 0x72be5d74, 0x80deb1fe, 0x9bdc06a7, 0xc19bf174,
  0xe49b69c1, 0xefbe4786, 0x0fc19dc6, 0x240ca1cc, 0x2de92c6f, 0x4a7484aa, 0x5cb0a9dc, 0x76f988da,
  0x983e5152, 0xa831c66d, 0xb00327c8, 0xbf597fc7, 0xc6e00bf3, 0xd5a79147, 0x06ca6351, 0x14292967,
  0x27b70a85, 0x2e1b2138, 0x4d2c6dfc, 0x53380d13, 0x650a7354, 0x766a0abb, 0x81c2c92e, 0x92722c85,
  0xa2bfe8a1, 0xa81a664b, 0xc24b8b70, 0xc76c51a3, 0xd192e819, 0xd6990624, 0xf40e3585, 0x106aa070,
  0x19a4c116, 0x1e376c08, 0x2748774c, 0x34b0bcb5, 0x391c0cb3, 0x4ed8aa4a, 0x5b9cca4f, 0x682e6ff3,
  0x748f82ee, 0x78a5636f, 0x84c87814, 0x8cc70208, 0x90befffa, 0xa4506ceb, 0xbef9a3f7, 0xc67178f2]

def rotr (value count : UInt32) : UInt32 := (value >>> count) ||| (value <<< (32 - count))

/-- The words `w` of a block. -/
def schedule (block : Bytes) : List UInt32 :=
  let w := (List.range 16).foldl
    (fun w i => w.set i (ofU32 ((block.drop (i * 4)).take 4))) (List.replicate 64 0)
  (List.range' 16 48).foldl
    (fun w i =>
      let w15 := w.getD (i - 15) 0
      let w2 := w.getD (i - 2) 0
      let s0 := rotr w15 7 ^^^ rotr w15 18 ^^^ (w15 >>> 3)
      let s1 := rotr w2 17 ^^^ rotr w2 19 ^^^ (w2 >>> 10)
      w.set i (w.getD (i - 16) 0 + s0 + w.getD (i - 7) 0 + s1)) w

/-- The local variables of the rounds. -/
structure Variables where
  a : UInt32
  b : UInt32
  c : UInt32
  d : UInt32
  e : UInt32
  f : UInt32
  g : UInt32
  h : UInt32

def round (w : List UInt32) (v : Variables) (i : ℕ) : Variables :=
  let s1 := rotr v.e 6 ^^^ rotr v.e 11 ^^^ rotr v.e 25
  let ch := (v.e &&& v.f) ^^^ (~~~v.e &&& v.g)
  let temp1 := v.h + s1 + ch + k.getD i 0 + w.getD i 0
  let s0 := rotr v.a 2 ^^^ rotr v.a 13 ^^^ rotr v.a 22
  let maj := (v.a &&& v.b) ^^^ (v.a &&& v.c) ^^^ (v.b &&& v.c)
  let temp2 := s0 + maj
  { a := temp1 + temp2, b := v.a, c := v.b, d := v.c,
    e := v.d + temp1, f := v.e, g := v.f, h := v.g }

def transform (state : State) (block : Bytes) : State :=
  let v := (List.range 64).foldl (round (schedule block))
    ⟨state[0], state[1], state[2], state[3], state[4], state[5], state[6], state[7]⟩
  #v[state[0] + v.a, state[1] + v.b, state[2] + v.c, state[3] + v.d, state[4] + v.e,
    state[5] + v.f, state[6] + v.g, state[7] + v.h]

/-- The words of the state, most significant bytes first. -/
def digest (state : State) : FactDigest where
  bytes := state.toList.flatMap u32
  size := by simp

end Sha256

/-! ## The streaming object -/

/-- Between calls the block is never full. -/
structure Sha256 where
  state : Sha256.State := Sha256.initialState
  block : Bytes := List.replicate 64 0
  blockSize : ℕ := 0
  totalBytes : UInt64 := 0
  length_block : block.length = 64 := by exact List.length_replicate
  blockSize_lt : blockSize < 64 := by decide

namespace Sha256

/-- The body of the loop of `update`: copy, and transform a full block. -/
def copyIn (sha : Sha256) (data : Bytes) (hfits : sha.blockSize + data.length ≤ 64) : Sha256 :=
  let block := copyAt sha.block sha.blockSize data
  have hblock : block.length = 64 := by
    rw [length_copyAt (by rwa [sha.length_block]), sha.length_block]
  if hfull : sha.blockSize + data.length = 64 then
    { sha with
      state := transform sha.state block
      block := block
      blockSize := 0
      length_block := hblock
      blockSize_lt := by decide }
  else
    { sha with
      block := block
      blockSize := sha.blockSize + data.length
      length_block := hblock
      blockSize_lt := by omega }

/-- The loop of `update`; every turn takes at least one byte. -/
def updateLoop : ℕ → Sha256 → Bytes → Sha256
  | 0, sha, _ => sha
  | turns + 1, sha, data =>
    if data = [] then sha
    else
      let take := min data.length (64 - sha.blockSize)
      have hfits : sha.blockSize + (data.take take).length ≤ 64 := by
        have := sha.blockSize_lt
        rw [List.length_take]
        omega
      updateLoop turns (sha.copyIn (data.take take) hfits) (data.drop take)

def update (sha : Sha256) (data : Bytes) : Sha256 :=
  updateLoop data.length { sha with totalBytes := sha.totalBytes + .ofNat data.length } data

/-- `std::fill` with zeros. -/
def fillZeros (block : Bytes) (first last : ℕ) : Bytes :=
  copyAt block first (List.replicate (last - first) 0)

/-- The last eight bytes, from the end. -/
def putLength (block : Bytes) (totalBits : UInt64) : Bytes :=
  (List.range 8).foldl
    (fun block i => block.set (63 - i) (totalBits >>> (.ofNat (i * 8))).toUInt8) block

def finish (sha : Sha256) : FactDigest :=
  let totalBits := sha.totalBytes * 8
  let block := sha.block.set sha.blockSize 0x80
  let blockSize := sha.blockSize + 1
  let (state, block, blockSize) :=
    if blockSize > 56 then
      let block := fillZeros block blockSize 64
      (transform sha.state block, block, 0)
    else (sha.state, block, blockSize)
  digest (transform state (putLength (fillZeros block blockSize 56) totalBits))

end Sha256

def digestBytes (bytes : Bytes) : FactDigest :=
  let sha : Sha256 := {}
  (sha.update bytes).finish

/-! ## What has been taken in -/

namespace Sha256

/-- The state has taken up the message, up to what is pending. -/
abbrev Taken : Bytes → State → Bytes → Prop := Absorbed 64 transform initialState

/-- The part of the block that is in use. -/
def pending (sha : Sha256) : Bytes := sha.block.take sha.blockSize

/-- The bytes of the message are in the state or in the block, and counted. -/
structure Holds (sha : Sha256) (message : Bytes) : Prop where
  taken : Taken message sha.state sha.pending
  totalBytes : sha.totalBytes = .ofNat message.length

section Update

variable {sha : Sha256} {message data : Bytes}

theorem taken_copyIn (h : Taken message sha.state sha.pending)
    (hfits : sha.blockSize + data.length ≤ 64) :
    Taken (message ++ data) (sha.copyIn data hfits).state (sha.copyIn data hfits).pending := by
  have hblock := sha.length_block
  have hcopy : (copyAt sha.block sha.blockSize data).take (sha.blockSize + data.length) =
      sha.pending ++ data := take_copyAt (by omega)
  have hnext := h.append data
  rw [← hcopy] at hnext
  rw [copyIn]
  by_cases hfull : sha.blockSize + data.length = 64
  · -- the whole block is taken, and nothing is pending afterwards
    have hlength : (copyAt sha.block sha.blockSize data).length = 64 := by
      rw [length_copyAt (by omega), hblock]
    rw [hfull, List.take_of_length_le hlength.le] at hnext
    rw [dif_pos hfull]
    exact hnext.push hlength
  · rw [dif_neg hfull]
    exact hnext

theorem totalBytes_copyIn (hfits : sha.blockSize + data.length ≤ 64) :
    (sha.copyIn data hfits).totalBytes = sha.totalBytes := by
  rw [copyIn]
  by_cases hfull : sha.blockSize + data.length = 64
  · rw [dif_pos hfull]
  · rw [dif_neg hfull]

theorem totalBytes_updateLoop : ∀ {turns : ℕ} {sha : Sha256} {data : Bytes},
    (updateLoop turns sha data).totalBytes = sha.totalBytes
  | 0, _, _ => rfl
  | turns + 1, sha, data => by
    rw [updateLoop]
    split_ifs with hdata
    · rfl
    · rw [totalBytes_updateLoop, totalBytes_copyIn]

theorem taken_updateLoop {turns : ℕ} (hturns : data.length ≤ turns)
    (h : Taken message sha.state sha.pending) :
    Taken (message ++ data) (updateLoop turns sha data).state
      (updateLoop turns sha data).pending := by
  induction turns generalizing sha data message with
  | zero =>
    rw [List.length_eq_zero_iff.1 (Nat.le_zero.1 hturns), List.append_nil]
    exact h
  | succ turns ih =>
    rw [updateLoop]
    split_ifs with hdata
    · rwa [hdata, List.append_nil]
    · have hlength := List.length_pos_iff.2 hdata
      have hroom := sha.blockSize_lt
      have hsplit : message ++ data = message ++ data.take (min data.length (64 - sha.blockSize)) ++
          data.drop (min data.length (64 - sha.blockSize)) := by
        rw [List.append_assoc, List.take_append_drop]
      rw [hsplit]
      refine ih ?_ (taken_copyIn h _)
      rw [List.length_drop]
      omega

theorem holds_empty : Holds {} [] := ⟨.nil, rfl⟩

theorem Holds.update (h : Holds sha message) (data : Bytes) :
    Holds (sha.update data) (message ++ data) where
  taken := taken_updateLoop le_rfl h.taken
  totalBytes := by
    rw [Sha256.update, totalBytes_updateLoop, h.totalBytes, List.length_append, UInt64.ofNat_add]

theorem Holds.foldl_update (h : Holds sha message) (chunks : List Bytes) :
    Holds (chunks.foldl Sha256.update sha) (message ++ chunks.flatten) := by
  induction chunks generalizing sha message with
  | nil => rwa [List.flatten_nil, List.append_nil]
  | cons chunk chunks ih =>
    rw [List.flatten_cons, ← List.append_assoc]
    exact ih (h.update chunk)

end Update

/-! ## The padding -/

/-- The padded message of FIPS 180-4 for a message of whole bytes: the bit `1`, as few zeros as
make 56 bytes of the last block, and the bit length. -/
def Padded (message padded : Bytes) : Prop :=
  ∃ zeros : ℕ, ∃ length : Bytes,
    padded = message ++ [0x80] ++ List.replicate zeros 0 ++ length ∧
      (message.length + 1 + zeros) % 64 = 56 ∧ zeros < 64 ∧
      length.length = 8 ∧ Nat.ofDigits 256 (length.reverse.map UInt8.toNat) = 8 * message.length

/-- The only padded message, computed. -/
def pad (message : Bytes) : Bytes :=
  message ++ [0x80] ++ List.replicate ((119 - message.length % 64) % 64) 0 ++
    u64 (.ofNat (8 * message.length))

theorem pad_eq {message : Bytes} (zeros : ℕ) (hzeros : (message.length + 1 + zeros) % 64 = 56)
    (hlt : zeros < 64) : pad message =
      message ++ [0x80] ++ List.replicate zeros 0 ++ u64 (.ofNat (8 * message.length)) := by
  have hcount : (119 - message.length % 64) % 64 = zeros := by omega
  rw [pad, hcount]

theorem ofDigits_u64 (v : UInt64) :
    Nat.ofDigits 256 ((u64 v).reverse.map UInt8.toNat) = v.toNat := by
  have hlt := v.toNat_lt
  simp only [u64, List.map_cons, List.map_nil, List.reverse_cons, List.reverse_nil, List.nil_append,
    List.cons_append, Nat.ofDigits_cons, Nat.ofDigits_nil]
  rw [toNat_byte64 v 0 (by decide), toNat_byte64 v 8 (by decide), toNat_byte64 v 16 (by decide),
    toNat_byte64 v 24 (by decide), toNat_byte64 v 32 (by decide), toNat_byte64 v 40 (by decide),
    toNat_byte64 v 48 (by decide), toNat_byte64 v 56 (by decide)]
  simp only [UInt64.reduceToNat, Nat.reducePow]
  omega

/-- The value of bytes determines them, if their number is known. -/
theorem eq_of_ofDigits_eq {l m : Bytes} (hlength : l.length = m.length)
    (h : Nat.ofDigits 256 (l.reverse.map UInt8.toNat) =
      Nat.ofDigits 256 (m.reverse.map UInt8.toNat)) : l = m := by
  have hbytes : ∀ bytes : Bytes, ∀ d ∈ bytes.map UInt8.toNat, d < 256 := by
    intro bytes d hd
    obtain ⟨byte, -, rfl⟩ := List.mem_map.1 hd
    exact byte.toNat_lt
  have hdigits := Nat.ofDigits_inj_of_len_eq (by decide) (by simpa using hlength)
    (hbytes _) (hbytes _) h
  exact List.reverse_injective (List.map_injective_iff.2 (fun _ _ => UInt8.toNat_inj.1) hdigits)

theorem padded_iff {message padded : Bytes} (hlength : message.length < 2 ^ 61) :
    Padded message padded ↔ padded = pad message := by
  have hbits : (UInt64.ofNat (8 * message.length)).toNat = 8 * message.length :=
    UInt64.toNat_ofNat_of_lt' (by simpa using (by omega : 8 * message.length < 2 ^ 64))
  constructor
  · rintro ⟨zeros, length, rfl, hzeros, hlt, height, hvalue⟩
    have hfield : length = u64 (.ofNat (8 * message.length)) :=
      eq_of_ofDigits_eq (by rw [height, length_u64]) (by rw [hvalue, ofDigits_u64, hbits])
    rw [pad_eq zeros hzeros hlt, hfield]
  · rintro rfl
    have hcount : (message.length + 1 + (119 - message.length % 64) % 64) % 64 = 56 := by omega
    exact ⟨_, _, rfl, hcount, Nat.mod_lt _ (by decide), length_u64 _,
      by rw [ofDigits_u64, hbits]⟩

section Finish

variable {state : State} {block message pending : Bytes} {blockSize last : ℕ}

theorem take_fillZeros (hfirst : blockSize ≤ block.length) (hlast : blockSize ≤ last) :
    (fillZeros block blockSize last).take last =
      block.take blockSize ++ List.replicate (last - blockSize) 0 := by
  have htake : (fillZeros block blockSize last).take (blockSize + (List.replicate _ _).length) =
      block.take blockSize ++ List.replicate (last - blockSize) 0 := take_copyAt hfirst
  rwa [List.length_replicate, Nat.add_sub_cancel' hlast] at htake

theorem length_fillZeros (hfirst : blockSize ≤ last) (hlast : last ≤ block.length) :
    (fillZeros block blockSize last).length = block.length := by
  refine length_copyAt ?_
  rwa [List.length_replicate, Nat.add_sub_cancel' hfirst]

theorem putLength_eq (hblock : block.length = 64) (totalBits : UInt64) :
    putLength block totalBits = block.take 56 ++ u64 totalBits := by
  have hfront : (block.take 56).length = 56 := by
    rw [List.length_take]
    omega
  have htail : (block.drop 56).length = 8 := by
    rw [List.length_drop, hblock]
  conv_lhs => rw [← List.take_append_drop 56 block]
  generalize block.take 56 = front at hfront ⊢
  match block.drop 56, htail with
  | [_, _, _, _, _, _, _, _], _ =>
    simp [putLength, List.range, List.range.loop, hfront, u64]

/-- A block that ends in zeros. -/
theorem taken_fillZeros (h : Taken message state (block.take blockSize))
    (hblock : block.length = 64) (hsize : blockSize ≤ 64) :
    Taken (message ++ List.replicate (64 - blockSize) 0)
      (transform state (fillZeros block blockSize 64)) [] := by
  have hfill : (fillZeros block blockSize 64).length = 64 := by
    rw [length_fillZeros hsize hblock.ge, hblock]
  have hnext := h.append (List.replicate (64 - blockSize) 0)
  rw [← take_fillZeros (by omega) hsize, List.take_of_length_le hfill.le] at hnext
  exact hnext.push hfill

/-- The block with the length, after zeros. -/
theorem taken_putLength (h : Taken message state pending)
    (hpending : block.take blockSize = pending) (hblock : block.length = 64)
    (hsize : blockSize ≤ 56) (totalBits : UInt64) :
    Taken (message ++ List.replicate (56 - blockSize) 0 ++ u64 totalBits)
      (transform state (putLength (fillZeros block blockSize 56) totalBits)) [] := by
  have hfill : (fillZeros block blockSize 56).length = 64 := by
    rw [length_fillZeros hsize (by omega), hblock]
  have hlast : putLength (fillZeros block blockSize 56) totalBits =
      pending ++ List.replicate (56 - blockSize) 0 ++ u64 totalBits := by
    rw [putLength_eq hfill, take_fillZeros (by omega) hsize, hpending]
  rw [hlast]
  refine ((h.append _).append _).push ?_
  rw [List.length_append, List.length_append, List.length_replicate, length_u64, ← hpending,
    List.length_take]
  omega

end Finish

section Digest

variable {sha : Sha256} {message : Bytes}

theorem Holds.taken_marker (h : Holds sha message) :
    Taken (message ++ [0x80]) sha.state
      ((sha.block.set sha.blockSize 0x80).take (sha.blockSize + 1)) := by
  have hroom : sha.blockSize < sha.block.length := sha.length_block.symm ▸ sha.blockSize_lt
  have hmarked : (sha.block.set sha.blockSize 0x80).take (sha.blockSize + 1) =
      sha.pending ++ [0x80] := by
    rw [List.take_add_one, List.take_set_of_le le_rfl, List.getElem?_set_self hroom]
    rfl
  rw [hmarked]
  exact h.taken.append [0x80]

theorem Holds.length_mod (h : Holds sha message) : message.length % 64 = sha.blockSize := by
  have hroom := sha.blockSize_lt
  have hpending : sha.pending.length = sha.blockSize := by
    rw [pending, List.length_take, sha.length_block]
    omega
  exact (h.taken.length_mod (by omega)).trans hpending

/-- The last one or two blocks are those of the padding. -/
theorem Holds.exists_finish (h : Holds sha message) : ∃ state,
    Taken (pad message) state [] ∧ sha.finish = digest state := by
  have hroom := sha.blockSize_lt
  have hmod := h.length_mod
  have hbits : sha.totalBytes * 8 = .ofNat (8 * message.length) := by
    rw [h.totalBytes, UInt64.ofNat_mul, UInt64.mul_comm]
    rfl
  have hblock : (sha.block.set sha.blockSize 0x80).length = 64 := by
    rw [List.length_set, sha.length_block]
  rw [finish, hbits]
  by_cases hspill : sha.blockSize + 1 > 56
  · -- no room for the length behind the marker: the zeros go on in another block
    rw [if_pos hspill]
    have hfull := taken_fillZeros h.taken_marker hblock hroom
    have hpad := taken_putLength hfull List.take_zero
      ((length_fillZeros hroom hblock.ge).trans hblock) (by decide) (.ofNat (8 * message.length))
    rw [pad_eq (64 - (sha.blockSize + 1) + 56) (by omega) (by omega),
      ← List.replicate_append_replicate, ← List.append_assoc]
    exact ⟨_, hpad, rfl⟩
  · rw [if_neg hspill]
    have hpad := taken_putLength h.taken_marker rfl hblock (by omega)
      (.ofNat (8 * message.length))
    rw [pad_eq (56 - (sha.blockSize + 1)) (by omega) (by omega)]
    exact ⟨_, hpad, rfl⟩

theorem Holds.finish_eq (h : Holds sha message) :
    sha.finish = digest ((blocks 64 (pad message)).foldl transform initialState) := by
  obtain ⟨state, hstate, hfinish⟩ := h.exists_finish
  rw [hfinish, hstate.eq_foldl (by decide)]

end Digest

end Sha256

/-- **Streaming.** However the bytes are cut into calls of `update`, `finish` yields the fold of
`transform` over the blocks of the padded message. -/
theorem sha256_eq_foldl_blocks (chunks : List Bytes) (hlength : chunks.flatten.length < 2 ^ 61) :
    (∀ padded, Sha256.Padded chunks.flatten padded ↔ padded = Sha256.pad chunks.flatten) ∧
      (chunks.foldl Sha256.update {}).finish = Sha256.digest
        ((blocks 64 (Sha256.pad chunks.flatten)).foldl Sha256.transform Sha256.initialState) :=
  ⟨fun _ => Sha256.padded_iff hlength, (Sha256.holds_empty.foldl_update chunks).finish_eq⟩

/-- Two pieces that fill the block up to the marker. -/
theorem sha256_eq_foldl_blocks_two :
    [List.replicate 40 0x61, List.replicate 16 (0x61 : UInt8)].flatten.length < 2 ^ 61 ∧
      Sha256.finish ([List.replicate 40 0x61, List.replicate 16 0x61].foldl Sha256.update {}) =
        Sha256.digest ((blocks 64 (Sha256.pad
          [List.replicate 40 0x61, List.replicate 16 0x61].flatten)).foldl
            Sha256.transform Sha256.initialState) :=
  ⟨by decide, (sha256_eq_foldl_blocks _ (by decide)).2⟩

example : (digestBytes (text "abc")).bytes =
    [0xba, 0x78, 0x16, 0xbf, 0x8f, 0x01, 0xcf, 0xea, 0x41, 0x41, 0x40, 0xde, 0x5d, 0xae, 0x22, 0x23,
      0xb0, 0x03, 0x61, 0xa3, 0x96, 0x17, 0x7a, 0x9c, 0xb4, 0x10, 0xff, 0x61, 0xf2, 0x00, 0x15,
      0xad] := by
  decide +kernel

end Viy.Analysis
