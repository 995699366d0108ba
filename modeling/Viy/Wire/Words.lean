import Mathlib.Data.Nat.Bitwise
import Mathlib.Tactic

/-!
# Big-endian words

The byte forms of unsigned words and of two's-complement 64-bit integers, most significant byte
first, and the words assembled back from their bytes by shifts.
-/

namespace Wire

abbrev Bytes := List UInt8

/-- The bytes of a text. -/
def text (s : String) : Bytes := s.toUTF8.data.toList

/-! ## Writing -/

def u16 (v : UInt16) : Bytes := [(v >>> 8).toUInt8, v.toUInt8]

def u32 (v : UInt32) : Bytes :=
  [(v >>> 24).toUInt8, (v >>> 16).toUInt8, (v >>> 8).toUInt8, v.toUInt8]

def u64 (v : UInt64) : Bytes :=
  ([56, 48, 40, 32, 24, 16, 8, 0] : List UInt64).map fun shift => (v >>> shift).toUInt8

def i64 (v : Int64) : Bytes := u64 v.toUInt64

def boolean (b : Bool) : Bytes := [if b then 1 else 0]

@[simp] theorem length_u16 (v : UInt16) : (u16 v).length = 2 := rfl
@[simp] theorem length_u32 (v : UInt32) : (u32 v).length = 4 := rfl
@[simp] theorem length_u64 (v : UInt64) : (u64 v).length = 8 := rfl
@[simp] theorem length_i64 (v : Int64) : (i64 v).length = 8 := rfl
@[simp] theorem length_boolean (b : Bool) : (boolean b).length = 1 := rfl

/-! ## Assembling -/

def ofU16 (a b : UInt8) : UInt16 := (a.toUInt16 <<< 8) ||| b.toUInt16

def ofU32 : Bytes → UInt32
  | [a, b, c, d] =>
    (a.toUInt32 <<< 24) ||| (b.toUInt32 <<< 16) ||| (c.toUInt32 <<< 8) ||| d.toUInt32
  | _ => 0

/-- Shift the bytes in one after the other. -/
def ofU64 (bytes : Bytes) : UInt64 :=
  bytes.foldl (fun out byte => (out <<< 8) ||| byte.toUInt64) 0

/-- Reading a two's-complement value without an implementation-defined conversion. -/
def ofI64 (raw : UInt64) : Int64 :=
  if raw ≤ 0x7fffffffffffffff then raw.toInt64 else -(0xffffffffffffffff - raw).toInt64 - 1

/-- Disjoint bits add up. -/
theorem or_eq_add {x y k : ℕ} (hx : 2 ^ k ∣ x) (hy : y < 2 ^ k) : x ||| y = x + y := by
  obtain ⟨q, rfl⟩ := hx
  exact (Nat.two_pow_add_eq_or_of_lt hy q).symm

/-- The byte of a word at a bit offset. -/
theorem toNat_byte64 (v s : UInt64) (hs : s.toNat < 64) :
    (v >>> s).toUInt8.toNat = v.toNat / 2 ^ s.toNat % 256 := by
  rw [UInt64.toNat_toUInt8, UInt64.toNat_shiftRight, Nat.mod_eq_of_lt hs,
    Nat.shiftRight_eq_div_pow]

theorem toNat_byte32 (v s : UInt32) (hs : s.toNat < 32) :
    (v >>> s).toUInt8.toNat = v.toNat / 2 ^ s.toNat % 256 := by
  rw [UInt32.toNat_toUInt8, UInt32.toNat_shiftRight, Nat.mod_eq_of_lt hs,
    Nat.shiftRight_eq_div_pow]

/-- A byte shifted into a 32-bit word at an offset it fits in. -/
theorem toNat_shift32 (b : UInt8) (s : UInt32) (hs : s.toNat ≤ 24) :
    (b.toUInt32 <<< s).toNat = b.toNat * 2 ^ s.toNat := by
  have hs32 : s.toNat % 32 = s.toNat := Nat.mod_eq_of_lt (by omega)
  rw [UInt32.toNat_shiftLeft, UInt8.toNat_toUInt32, hs32, Nat.shiftLeft_eq]
  apply Nat.mod_eq_of_lt
  calc b.toNat * 2 ^ s.toNat < 2 ^ 8 * 2 ^ s.toNat :=
        Nat.mul_lt_mul_of_pos_right b.toNat_lt (by positivity)
    _ = 2 ^ (8 + s.toNat) := (pow_add 2 8 s.toNat).symm
    _ ≤ 2 ^ 32 := Nat.pow_le_pow_right (by norm_num) (by omega)

/-- A byte shifted into a 64-bit word from below. -/
theorem toNat_shiftIn64 (a : UInt64) (b : UInt8) (ha : a.toNat < 2 ^ 56) :
    ((a <<< 8) ||| b.toUInt64).toNat = a.toNat * 256 + b.toNat := by
  have hlt : a.toNat <<< 8 < 2 ^ 64 := by rw [Nat.shiftLeft_eq]; omega
  rw [UInt64.toNat_or, UInt64.toNat_shiftLeft, UInt8.toNat_toUInt64,
    show (8 : UInt64).toNat % 64 = 8 from rfl, Nat.mod_eq_of_lt hlt,
    ← Nat.shiftLeft_add_eq_or_of_lt b.toNat_lt, Nat.shiftLeft_eq]

theorem ofU16_u16 (v : UInt16) : ofU16 (v >>> 8).toUInt8 v.toUInt8 = v := by
  apply UInt16.toNat_inj.1
  have hv := v.toNat_lt
  have hhi : (v >>> 8).toUInt8.toNat = v.toNat / 256 := by
    rw [UInt16.toNat_toUInt8, UInt16.toNat_shiftRight, Nat.shiftRight_eq_div_pow]
    show v.toNat / 2 ^ 8 % 2 ^ 8 = v.toNat / 256
    omega
  have hshift : ((v >>> 8).toUInt8.toUInt16 <<< 8).toNat = v.toNat / 256 * 2 ^ 8 := by
    rw [UInt16.toNat_shiftLeft, UInt8.toNat_toUInt16, hhi, Nat.shiftLeft_eq]
    show v.toNat / 256 * 2 ^ 8 % 2 ^ 16 = v.toNat / 256 * 2 ^ 8
    omega
  rw [ofU16, UInt16.toNat_or, hshift, UInt8.toNat_toUInt16, UInt16.toNat_toUInt8,
    or_eq_add (dvd_mul_left _ _) (Nat.mod_lt _ (by norm_num))]
  omega

theorem ofU32_u32 (v : UInt32) : ofU32 (u32 v) = v := by
  apply UInt32.toNat_inj.1
  have hv := v.toNat_lt
  have h24 : (v >>> 24).toUInt8.toNat = v.toNat / 2 ^ 24 % 256 := toNat_byte32 v 24 (by decide)
  have h16 : (v >>> 16).toUInt8.toNat = v.toNat / 2 ^ 16 % 256 := toNat_byte32 v 16 (by decide)
  have h8 : (v >>> 8).toUInt8.toNat = v.toNat / 2 ^ 8 % 256 := toNat_byte32 v 8 (by decide)
  have s24 := toNat_shift32 (v >>> 24).toUInt8 24 (by decide)
  have s16 := toNat_shift32 (v >>> 16).toUInt8 16 (by decide)
  have s8 := toNat_shift32 (v >>> 8).toUInt8 8 (by decide)
  rw [h24, show (24 : UInt32).toNat = 24 from rfl] at s24
  rw [h16, show (16 : UInt32).toNat = 16 from rfl] at s16
  rw [h8, show (8 : UInt32).toNat = 8 from rfl] at s8
  simp only [u32, ofU32, UInt32.toNat_or, s24, s16, s8, UInt8.toNat_toUInt32,
    UInt32.toNat_toUInt8]
  -- from the top byte down, each byte lies below the bits already set
  have hor : ∀ a b c d : ℕ, b < 256 → c < 256 → d < 256 →
      a * 2 ^ 24 ||| b * 2 ^ 16 ||| c * 2 ^ 8 ||| d =
        a * 2 ^ 24 + b * 2 ^ 16 + c * 2 ^ 8 + d := by
    intro a b c d hb hc hd
    rw [or_eq_add (x := a * 2 ^ 24) (k := 24) (by omega) (by omega),
      or_eq_add (x := a * 2 ^ 24 + b * 2 ^ 16) (k := 16) (by omega) (by omega),
      or_eq_add (x := a * 2 ^ 24 + b * 2 ^ 16 + c * 2 ^ 8) (k := 8) (by omega) (by omega)]
  rw [hor _ _ _ _ (by omega) (by omega) (by omega)]
  omega

/-- If the bytes read so far are the top of a word, so are they after the next byte. -/
theorem shiftIn_top (v a s : UInt64) (hs : s.toNat ≤ 56)
    (ha : a.toNat = v.toNat / 2 ^ (s.toNat + 8)) :
    ((a <<< 8) ||| (v >>> s).toUInt8.toUInt64).toNat = v.toNat / 2 ^ s.toNat := by
  have hv := v.toNat_lt
  have hdiv : v.toNat / 2 ^ (s.toNat + 8) = v.toNat / 2 ^ s.toNat / 256 := by
    rw [Nat.div_div_eq_div_mul, pow_add]
    norm_num
  have hle : v.toNat / 2 ^ s.toNat ≤ v.toNat := Nat.div_le_self _ _
  rw [toNat_shiftIn64 _ _ (by omega), toNat_byte64 v s (by omega), ha, hdiv]
  omega

theorem ofU64_u64 (v : UInt64) : ofU64 (u64 v) = v := by
  apply UInt64.toNat_inj.1
  have hv := v.toNat_lt
  have h0 : (0 : UInt64).toNat = v.toNat / 2 ^ ((56 : UInt64).toNat + 8) :=
    (Nat.div_eq_of_lt hv).symm
  have h := shiftIn_top v _ 56 (by decide) h0
  replace h := shiftIn_top v _ 48 (by decide) h
  replace h := shiftIn_top v _ 40 (by decide) h
  replace h := shiftIn_top v _ 32 (by decide) h
  replace h := shiftIn_top v _ 24 (by decide) h
  replace h := shiftIn_top v _ 16 (by decide) h
  replace h := shiftIn_top v _ 8 (by decide) h
  replace h := shiftIn_top v _ 0 (by decide) h
  exact h.trans (Nat.div_one _)

theorem ofI64_toUInt64 (v : Int64) : ofI64 v.toUInt64 = v := by
  unfold ofI64
  split_ifs
  · rfl
  · -- `-(~x) - 1 = x` in two's complement
    have hnot : (0xffffffffffffffff - v.toUInt64).toInt64 = ~~~v := by
      apply Int64.toBitVec_inj.1
      exact BitVec.allOnes_sub_eq_not v.toBitVec
    rw [hnot, ← Int64.not_eq_neg_add, Int64.not_not]

/-! ## Comparing -/

/-- The room above an address. -/
theorem toNat_max_sub (a : UInt64) : (~~~0 - a).toNat = 2 ^ 64 - 1 - a.toNat := by
  have ha := a.toNat_lt
  have hmax : (~~~0 : UInt64).toNat = 2 ^ 64 - 1 := by decide
  rw [UInt64.toNat_sub, hmax]
  omega

theorem toNat_max_u64 (a b : UInt64) : (max a b).toNat = max a.toNat b.toNat := by
  show (if a ≤ b then b else a).toNat = _
  split_ifs with h <;> rw [UInt64.le_iff_toNat_le] at h <;> omega

/-- `std::min` and `std::max`, spelled out. -/
theorem toNat_ite_min (a b : UInt64) : (if a < b then a else b).toNat = min a.toNat b.toNat := by
  split_ifs with h
  · exact (Nat.min_eq_left (UInt64.lt_iff_toNat_lt.1 h).le).symm
  · exact (Nat.min_eq_right (UInt64.le_iff_toNat_le.1 (UInt64.not_lt.1 h))).symm

theorem toNat_ite_max (a b : UInt64) : (if a < b then b else a).toNat = max a.toNat b.toNat := by
  split_ifs with h
  · exact (Nat.max_eq_right (UInt64.lt_iff_toNat_lt.1 h).le).symm
  · exact (Nat.max_eq_left (UInt64.le_iff_toNat_le.1 (UInt64.not_lt.1 h))).symm

theorem toNat_min_u64 (a b : UInt64) : (min a b).toNat = min a.toNat b.toNat := by
  show (if a ≤ b then a else b).toNat = _
  split_ifs with h <;> rw [UInt64.le_iff_toNat_le] at h <;> omega

end Wire
