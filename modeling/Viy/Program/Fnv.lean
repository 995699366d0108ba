import Viy.Wire.Endian
import Mathlib.Data.UInt

/-!
# FNV-1a over byte vectors

`hash_bytes` hashes a vector as `hash_byte` would, byte after byte, but a zero byte only multiplies
the hash by the prime: it looks for runs of zero words and multiplies by the power of the prime at
once, by repeated squaring. The hash is the same for every vector and every hash to start from.
-/

namespace Viy.Program

open Wire

/-! ## Repeated squaring -/

section Power

variable {M : Type*} [Monoid M]

/-- `while (words != 0)`: `hash` is multiplied by a power of `multiplier`. -/
def powerLoop : ℕ → M → M → ℕ → M
  | 0, hash, _, _ => hash
  | fuel + 1, hash, multiplier, words =>
    if words ≠ 0 then
      powerLoop fuel (if words % 2 ≠ 0 then hash * multiplier else hash) (multiplier * multiplier)
        (words / 2)
    else hash

theorem powerLoop_eq (fuel : ℕ) : ∀ {words : ℕ} (hash multiplier : M), words ≤ fuel →
    powerLoop fuel hash multiplier words = hash * multiplier ^ words := by
  induction fuel with
  | zero =>
    intro words hash multiplier hle
    obtain rfl : words = 0 := Nat.le_zero.1 hle
    rw [powerLoop, pow_zero, mul_one]
  | succ fuel ih =>
    intro words hash multiplier hle
    rw [powerLoop]
    by_cases hzero : words = 0
    · rw [if_neg (not_not.2 hzero), hzero, pow_zero, mul_one]
    · rw [if_pos hzero, ih _ _ (by omega), ← pow_two, ← pow_mul]
      by_cases hodd : words % 2 = 0
      · have heven : 2 * (words / 2) = words := by omega
        rw [if_neg (not_not.2 hodd), heven]
      · have hsplit : words = 1 + 2 * (words / 2) := by omega
        rw [if_pos hodd, mul_assoc, ← pow_succ', Nat.add_comm, ← hsplit]

end Power

/-! ## The hash -/

def kFnvOffset : UInt64 := 14695981039346656037
def kFnvPrime : UInt64 := 1099511628211

def hashByte (hash : UInt64) (value : UInt8) : UInt64 := (hash ^^^ value.toUInt64) * kFnvPrime

def zeroByteMultiplier (count : ℕ) : UInt64 :=
  (List.range count).foldl (fun multiplier _ => multiplier * kFnvPrime) 1

/-- The word at an offset, by `memcpy` on a host that keeps the least significant byte first; the
other byte order has the same zero words. -/
def wordAt (bytes : Bytes) (offset : ℕ) : UInt64 := gather false ((bytes.drop offset).take 8)

/-- `do … while (word == 0)`: the offset behind the run of zero words that starts here. -/
def zeroRun (bytes : Bytes) : ℕ → ℕ → ℕ
  | 0, offset => offset
  | fuel + 1, offset =>
    if bytes.length - (offset + 8) < 8 then offset + 8
    else if wordAt bytes (offset + 8) = 0 then zeroRun bytes fuel (offset + 8)
    else offset + 8

/-- `while (bytes.size() - offset >= sizeof(uint64_t))`: the hash and the offset it ends with. -/
def wordLoop (bytes : Bytes) : ℕ → UInt64 → ℕ → UInt64 × ℕ
  | 0, hash, offset => (hash, offset)
  | fuel + 1, hash, offset =>
    if 8 ≤ bytes.length - offset then
      if wordAt bytes offset = 0 then
        let begin_ := offset
        let offset := zeroRun bytes bytes.length offset
        let words := (offset - begin_) / 8
        wordLoop bytes fuel (powerLoop words hash (zeroByteMultiplier 8) words) offset
      else wordLoop bytes fuel (((bytes.drop offset).take 8).foldl hashByte hash) (offset + 8)
    else (hash, offset)

def hashBytes (hash : UInt64) (bytes : Bytes) : UInt64 :=
  let (hash, offset) := wordLoop bytes bytes.length hash 0
  (bytes.drop offset).foldl hashByte hash

/-! ## Zero bytes -/

theorem hashByte_zero (hash : UInt64) : hashByte hash 0 = hash * kFnvPrime := by
  have hzero : (0 : UInt8).toUInt64 = 0 := rfl
  rw [hashByte, hzero, UInt64.xor_zero]

theorem foldl_hashByte_zeros (n : ℕ) : ∀ hash : UInt64,
    (List.replicate n 0).foldl hashByte hash = hash * kFnvPrime ^ n := by
  induction n with
  | zero =>
    intro hash
    rw [List.replicate_zero, List.foldl_nil, pow_zero, mul_one]
  | succ n ih =>
    intro hash
    rw [List.replicate_succ, List.foldl_cons, hashByte_zero, ih, pow_succ', mul_assoc]

theorem zeroByteMultiplier_eq (count : ℕ) : zeroByteMultiplier count = kFnvPrime ^ count := by
  induction count with
  | zero => rfl
  | succ count ih =>
    have hsnoc : zeroByteMultiplier (count + 1) = zeroByteMultiplier count * kFnvPrime := by
      simp only [zeroByteMultiplier, List.range_succ, List.foldl_append, List.foldl_cons,
        List.foldl_nil]
    rw [hsnoc, ih, pow_succ]

/-- A word is zero exactly if all its bytes are. -/
theorem wordAt_eq_zero_iff {bytes : Bytes} {offset : ℕ} (h : 8 ≤ bytes.length - offset) :
    wordAt bytes offset = 0 ↔ (bytes.drop offset).take 8 = List.replicate 8 0 := by
  have hlength : ((bytes.drop offset).take 8).length = 8 := by
    rw [List.length_take, List.length_drop]
    omega
  have hzeros : numeral (List.replicate 8 0) = 0 := by decide
  rw [wordAt, ← UInt64.toNat_inj, toNat_gather_false hlength.le]
  constructor
  · intro hzero
    exact numeral_injective hlength (hzero.trans hzeros.symm)
  · intro hzero
    rw [hzero, hzeros]
    rfl

/-! ## The loops -/

section Loops

variable {bytes : Bytes}

/-- `words` zero words are next. -/
def ZeroWords (bytes : Bytes) (offset words : ℕ) : Prop :=
  offset + 8 * words ≤ bytes.length ∧
    (bytes.drop offset).take (8 * words) = List.replicate (8 * words) 0

theorem ZeroWords.cons {offset words : ℕ} (hroom : 8 ≤ bytes.length - offset)
    (hword : wordAt bytes offset = 0) (h : ZeroWords bytes (offset + 8) words) :
    ZeroWords bytes offset (words + 1) := by
  have hsplit : 8 * (words + 1) = 8 + 8 * words := by omega
  refine ⟨by have := h.1; omega, ?_⟩
  rw [hsplit, List.take_add, List.replicate_add, (wordAt_eq_zero_iff hroom).1 hword,
    List.drop_drop, h.2]

/-- The loop stops behind the zero words: at a word that is not zero, or too near to the end. -/
theorem zeroRun_spec (fuel : ℕ) : ∀ {offset : ℕ}, 8 ≤ bytes.length - offset →
    bytes.length - offset ≤ fuel → wordAt bytes offset = 0 →
      ∃ words, 0 < words ∧ zeroRun bytes fuel offset = offset + 8 * words ∧
        ZeroWords bytes offset words ∧ (bytes.length - zeroRun bytes fuel offset < 8 ∨
          wordAt bytes (zeroRun bytes fuel offset) ≠ 0) := by
  induction fuel with
  | zero =>
    intro offset hroom hfuel hword
    omega
  | succ fuel ih =>
    intro offset hroom hfuel hword
    have hone : ZeroWords bytes offset 1 :=
      ZeroWords.cons hroom hword ⟨by omega, rfl⟩
    rw [zeroRun]
    by_cases hshort : bytes.length - (offset + 8) < 8
    · rw [if_pos hshort]
      exact ⟨1, Nat.one_pos, rfl, hone, Or.inl hshort⟩
    · rw [if_neg hshort]
      by_cases hnext : wordAt bytes (offset + 8) = 0
      · rw [if_pos hnext]
        obtain ⟨words, -, hend, hzeros, hstop⟩ := ih (Nat.not_lt.1 hshort) (by omega) hnext
        exact ⟨words + 1, Nat.succ_pos _, by omega, hzeros.cons hroom hword, hstop⟩
      · rw [if_neg hnext]
        exact ⟨1, Nat.one_pos, rfl, hone, Or.inr hnext⟩

/-- Zero words are hashed by a power of the multiplier. -/
theorem ZeroWords.foldl_hashByte {offset words : ℕ} (h : ZeroWords bytes offset words)
    (hash : UInt64) : (bytes.drop (offset + 8 * words)).foldl hashByte
      (powerLoop words hash (zeroByteMultiplier 8) words) =
        (bytes.drop offset).foldl hashByte hash := by
  have hsplit : bytes.drop offset =
      List.replicate (8 * words) 0 ++ bytes.drop (offset + 8 * words) := by
    rw [← h.2, ← List.drop_drop, List.take_append_drop]
  rw [powerLoop_eq words _ _ (Nat.le_refl _), zeroByteMultiplier_eq, ← pow_mul, hsplit,
    List.foldl_append, foldl_hashByte_zeros]

/-- What is left to hash after the loop gives the same as all there was to hash before it. The loop
leaves less than a word. -/
theorem wordLoop_spec (fuel : ℕ) : ∀ {offset : ℕ} (hash : UInt64), bytes.length - offset ≤ fuel →
    (bytes.drop (wordLoop bytes fuel hash offset).2).foldl hashByte
        (wordLoop bytes fuel hash offset).1 = (bytes.drop offset).foldl hashByte hash ∧
      bytes.length - (wordLoop bytes fuel hash offset).2 < 8 := by
  induction fuel with
  | zero =>
    intro offset hash hfuel
    rw [wordLoop]
    exact ⟨rfl, by omega⟩
  | succ fuel ih =>
    intro offset hash hfuel
    rw [wordLoop]
    by_cases hroom : 8 ≤ bytes.length - offset
    · rw [if_pos hroom]
      by_cases hword : wordAt bytes offset = 0
      · rw [if_pos hword]
        obtain ⟨words, hpos, hend, hzeros, -⟩ :=
          zeroRun_spec bytes.length hroom (Nat.sub_le _ _) hword
        have hwords : (offset + 8 * words - offset) / 8 = words := by omega
        rw [hend]
        dsimp only
        rw [hwords]
        obtain ⟨hsame, hless⟩ := ih (powerLoop words hash (zeroByteMultiplier 8) words)
          (by omega : bytes.length - (offset + 8 * words) ≤ fuel)
        exact ⟨hsame.trans (hzeros.foldl_hashByte hash), hless⟩
      · rw [if_neg hword]
        obtain ⟨hsame, hless⟩ := ih (((bytes.drop offset).take 8).foldl hashByte hash)
          (by omega : bytes.length - (offset + 8) ≤ fuel)
        refine ⟨hsame.trans ?_, hless⟩
        rw [← List.drop_drop, ← List.foldl_append, List.take_append_drop]
    · rw [if_neg hroom]
      exact ⟨rfl, Nat.not_le.1 hroom⟩

end Loops

/-- **Hashing by words.** Folding zero runs at once gives the hash of the bytes one by one. -/
theorem hash_bytes_eq_foldl (hash : UInt64) (bytes : Bytes) :
    hashBytes hash bytes = bytes.foldl hashByte hash := by
  have hloop := (wordLoop_spec bytes.length hash (Nat.le_refl (bytes.length - 0))).1
  rwa [List.drop_zero] at hloop

end Viy.Program
