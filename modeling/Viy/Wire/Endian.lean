import Viy.Wire.Words
import Mathlib.Data.Nat.Digits.Lemmas

/-!
# Scalars in either byte order

A scalar of at most eight bytes is assembled from memory by a loop that shifts every byte to its
place, and laid out again by the loop that takes the bytes from their places. The two are inverse to
each other for both byte orders, and a scalar is a numeral to base 256.
-/

namespace Wire

/-- The place of byte `i` of `n`, counted from the least significant one. -/
def shiftIndex (bigEndian : Bool) (n i : ℕ) : ℕ := if bigEndian then n - 1 - i else i

/-- `value |= uint64_t(bytes[i]) << (8 * shift_index)` for every byte. -/
def gather (bigEndian : Bool) (bytes : Bytes) : UInt64 :=
  (List.range bytes.length).foldl (fun value i => value |||
    (bytes.getD i 0).toUInt64 <<< UInt64.ofNat (8 * shiftIndex bigEndian bytes.length i)) 0

/-- `bytes[i] = uint8_t(value >> (8 * shift_index))` for every byte. -/
def scatter (bigEndian : Bool) (value : UInt64) (n : ℕ) : Bytes :=
  (List.range n).map fun i => (value >>> UInt64.ofNat (8 * shiftIndex bigEndian n i)).toUInt8

@[simp] theorem length_scatter (bigEndian : Bool) (value : UInt64) (n : ℕ) :
    (scatter bigEndian value n).length = n := by
  simp [scatter]

/-- The numeral whose digits are the bytes, least significant first. -/
def numeral (bytes : Bytes) : ℕ := Nat.ofDigits 256 (bytes.map UInt8.toNat)

theorem numeral_append (a b : Bytes) :
    numeral (a ++ b) = numeral a + 256 ^ a.length * numeral b := by
  simp [numeral, Nat.ofDigits_append]

theorem numeral_lt (bytes : Bytes) : numeral bytes < 256 ^ bytes.length := by
  have h : ∀ d ∈ bytes.map UInt8.toNat, d < 256 := by
    intro d hd
    obtain ⟨b, -, rfl⟩ := List.mem_map.1 hd
    exact b.toNat_lt
  simpa [numeral] using Nat.ofDigits_lt_base_pow_length (by norm_num : 1 < 256) h

theorem numeral_injective {a b : Bytes} (hlength : a.length = b.length)
    (h : numeral a = numeral b) : a = b := by
  have hdigits : a.map UInt8.toNat = b.map UInt8.toNat := by
    refine Nat.ofDigits_inj_of_len_eq (by norm_num : 1 < 256) (by simpa using hlength) ?_ ?_ h
    · intro d hd
      obtain ⟨b, -, rfl⟩ := List.mem_map.1 hd
      exact b.toNat_lt
    · intro d hd
      obtain ⟨b, -, rfl⟩ := List.mem_map.1 hd
      exact b.toNat_lt
  exact List.map_injective_iff.2 (fun x y => UInt8.toNat_inj.1) hdigits

/-! ## Both orders -/

/-- The shifted bytes do not overlap, so their order is of no account. -/
theorem gather_true (bytes : Bytes) : gather true bytes = gather false bytes.reverse := by
  let place (bigEndian : Bool) (bytes : Bytes) (i : ℕ) : UInt64 :=
    (bytes.getD i 0).toUInt64 <<< UInt64.ofNat (8 * shiftIndex bigEndian bytes.length i)
  have hfold : ∀ bigEndian bytes, gather bigEndian bytes =
      ((List.range bytes.length).map (place bigEndian bytes)).foldl (· ||| ·) 0 := by
    intro bigEndian bytes
    rw [List.foldl_map]
    rfl
  have hplaces : (List.range bytes.reverse.length).map (place false bytes.reverse) =
      ((List.range bytes.length).map (place true bytes)).reverse := by
    refine List.ext_getElem (by simp) ?_
    intro i hi hi'
    have hlt : i < bytes.length := by simpa using hi
    have hback : bytes.length - 1 - (bytes.length - 1 - i) = i := by omega
    simp only [List.getElem_map, List.getElem_range, List.getElem_reverse, List.length_map,
      List.length_range, place, shiftIndex, List.length_reverse, if_true, if_false, hback,
      Bool.false_eq_true]
    rw [List.getD_eq_getElem _ _ (by simpa using hlt), List.getD_eq_getElem _ _ (by omega),
      List.getElem_reverse]
  rw [hfold, hfold, hplaces]
  exact (List.reverse_perm _).symm.foldl_eq' (fun x _ y _ z => by
    rw [UInt64.or_assoc, UInt64.or_assoc, UInt64.or_comm x y]) 0

theorem scatter_true (value : UInt64) (n : ℕ) :
    scatter true value n = (scatter false value n).reverse := by
  refine List.ext_getElem (by simp) ?_
  intro i hi hi'
  simp [scatter, shiftIndex, List.getElem_reverse]

/-! ## The least significant byte first -/

theorem toNat_shift {i : ℕ} (hi : i < 8) : (UInt64.ofNat (8 * i)).toNat = 8 * i :=
  UInt64.toNat_ofNat_of_lt' (Nat.lt_trans (by omega : 8 * i < 64) (by decide))

theorem toNat_place (b : UInt8) {i : ℕ} (hi : i < 8) :
    (b.toUInt64 <<< UInt64.ofNat (8 * i)).toNat = 256 ^ i * b.toNat := by
  have hpow : 2 ^ (8 * i) = 256 ^ i := by rw [pow_mul]; norm_num
  have hlt : b.toNat * 256 ^ i < 2 ^ 64 := by
    calc b.toNat * 256 ^ i < 256 * 256 ^ i :=
          Nat.mul_lt_mul_of_pos_right b.toNat_lt (by positivity)
      _ = 256 ^ (i + 1) := by rw [pow_succ, mul_comm]
      _ ≤ 256 ^ 8 := Nat.pow_le_pow_right (by norm_num) (by omega)
      _ = 2 ^ 64 := by norm_num
  rw [UInt64.toNat_shiftLeft, UInt8.toNat_toUInt64, toNat_shift hi,
    Nat.mod_eq_of_lt (by omega : 8 * i < 64), Nat.shiftLeft_eq, hpow, Nat.mod_eq_of_lt hlt,
    mul_comm]

theorem toNat_gather_false {bytes : Bytes} (hlength : bytes.length ≤ 8) :
    (gather false bytes).toNat = numeral bytes := by
  have hprefix : ∀ k ≤ bytes.length, ((List.range k).foldl (fun value i => value |||
      (bytes.getD i 0).toUInt64 <<< UInt64.ofNat (8 * i)) 0).toNat = numeral (bytes.take k) := by
    intro k
    induction k with
    | zero =>
      intro hk
      simp [numeral]
    | succ k ih =>
      intro hk
      have htake : bytes.take (k + 1) = bytes.take k ++ [bytes.getD k 0] := by
        rw [List.take_add_one, List.getD_eq_getElem _ _ hk, List.getElem?_eq_getElem hk]
        rfl
      have hsofar : (bytes.take k).length = k := List.length_take_of_le (by omega)
      have hlt : numeral (bytes.take k) < 2 ^ (8 * k) := by
        have h := numeral_lt (bytes.take k)
        rw [hsofar] at h
        rwa [pow_mul]
      rw [List.range_succ, List.foldl_append, htake, numeral_append, hsofar]
      show (_ ||| _ : UInt64).toNat = _
      rw [UInt64.toNat_or, ih (by omega), toNat_place _ (by omega), Nat.or_comm,
        or_eq_add (k := 8 * k) (by rw [pow_mul]; exact dvd_mul_right _ _) hlt, add_comm]
      simp [numeral]
  have h := hprefix bytes.length le_rfl
  rwa [List.take_length] at h

theorem toNat_gather_true {bytes : Bytes} (hlength : bytes.length ≤ 8) :
    (gather true bytes).toNat = numeral bytes.reverse := by
  rw [gather_true, toNat_gather_false (by simpa using hlength)]

theorem numeral_scatter_false (value : UInt64) {n : ℕ} (hn : n ≤ 8) :
    numeral (scatter false value n) = value.toNat % 256 ^ n := by
  induction n with
  | zero => simp [numeral, scatter, Nat.mod_one]
  | succ n ih =>
    have hbyte : (value >>> UInt64.ofNat (8 * n)).toUInt8.toNat = value.toNat / 256 ^ n % 256 := by
      have hshift := toNat_shift (by omega : n < 8)
      rw [toNat_byte64 _ _ (by omega), hshift, pow_mul]
      norm_num
    have hsnoc : scatter false value (n + 1) =
        scatter false value n ++ [(value >>> UInt64.ofNat (8 * n)).toUInt8] := by
      simp [scatter, List.range_succ, shiftIndex]
    rw [hsnoc, numeral_append, ih (by omega), length_scatter, Nat.mod_pow_succ, ← hbyte]
    simp [numeral]

/-! ## Round trips -/

theorem scatter_gather (bigEndian : Bool) {bytes : Bytes} (hlength : bytes.length ≤ 8) :
    scatter bigEndian (gather bigEndian bytes) bytes.length = bytes := by
  have hlittle : ∀ l : Bytes, l.length ≤ 8 → scatter false (gather false l) l.length = l := by
    intro l hl
    apply numeral_injective (length_scatter _ _ _)
    rw [numeral_scatter_false _ hl, toNat_gather_false hl, Nat.mod_eq_of_lt (numeral_lt l)]
  cases bigEndian with
  | false => exact hlittle bytes hlength
  | true =>
    have h := hlittle bytes.reverse (by simpa using hlength)
    rw [List.length_reverse] at h
    rw [scatter_true, gather_true, h, List.reverse_reverse]

theorem toNat_gather_scatter (bigEndian : Bool) (value : UInt64) {n : ℕ} (hn : n ≤ 8) :
    (gather bigEndian (scatter bigEndian value n)).toNat = value.toNat % 256 ^ n := by
  cases bigEndian with
  | false => rw [toNat_gather_false (by simpa using hn), numeral_scatter_false value hn]
  | true =>
    rw [toNat_gather_true (by simpa using hn), scatter_true, List.reverse_reverse,
      numeral_scatter_false value hn]

/-! ## Shifting in from below -/

theorem toNat_ofU64 {bytes : Bytes} (hlength : bytes.length ≤ 8) :
    (ofU64 bytes).toNat = numeral bytes.reverse := by
  induction bytes using List.reverseRecOn with
  | nil => rfl
  | append_singleton bytes b ih =>
    rw [List.length_append] at hlength
    have hlast : ofU64 (bytes ++ [b]) = (ofU64 bytes <<< 8) ||| b.toUInt64 := by
      simp [ofU64, List.foldl_append]
    have hsofar := ih (by simp at hlength; omega)
    have hlt : (ofU64 bytes).toNat < 2 ^ 56 := by
      calc (ofU64 bytes).toNat = numeral bytes.reverse := hsofar
        _ < 256 ^ bytes.reverse.length := numeral_lt _
        _ ≤ 256 ^ 7 := Nat.pow_le_pow_right (by norm_num) (by simp at hlength ⊢; omega)
        _ = 2 ^ 56 := by norm_num
    rw [hlast, toNat_shiftIn64 _ _ hlt, hsofar, List.reverse_append, numeral_append]
    simp [numeral]
    ring

end Wire
