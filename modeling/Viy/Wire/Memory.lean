import Viy.Wire.Endian

/-!
# Byte memories

A memory gives a byte for every 64-bit address. Ranges are a start and a number of bytes, modulo
`2 ^ 64`; whether a byte is in a range is seen from its distance to the start.
-/

namespace Wire

abbrev Memory := UInt64 → UInt8

/-- Clearing the `k` low bits of an address rounds it down. -/
theorem toNat_and_high (x : UInt64) {mask : UInt64} {k : ℕ} (hk : k ≤ 64)
    (hmask : mask.toNat = (2 ^ (64 - k) - 1) * 2 ^ k) :
    (x &&& mask).toNat = x.toNat / 2 ^ k * 2 ^ k := by
  rw [UInt64.toNat_and, hmask]
  apply Nat.eq_of_testBit_eq
  intro i
  rw [Nat.testBit_and, Nat.testBit_mul_two_pow, Nat.testBit_mul_two_pow,
    Nat.testBit_two_pow_sub_one, Nat.testBit_div_two_pow]
  by_cases hlow : k ≤ i
  · have hback : i - k + k = i := by omega
    simp only [hlow, decide_true, Bool.true_and, hback]
    by_cases hhigh : i - k < 64 - k
    · simp [hhigh]
    · -- the word has no such bit
      have hbit : x.toNat.testBit i = false := by
        apply Nat.testBit_lt_two_pow
        exact x.toNat_lt.trans_le (Nat.pow_le_pow_right (by norm_num) (by omega))
      simp [hbit]
  · simp [hlow]

/-- The bytes of a range, in address order. -/
def load (mem : Memory) (a : UInt64) (n : ℕ) : Bytes :=
  (List.range n).map fun i => mem (a + .ofNat i)

def store (mem : Memory) (a : UInt64) (bytes : Bytes) : Memory := fun x =>
  bytes.getD (x - a).toNat (mem x)

@[simp] theorem length_load (mem : Memory) (a : UInt64) (n : ℕ) : (load mem a n).length = n := by
  simp [load]

@[simp] theorem load_zero (mem : Memory) (a : UInt64) : load mem a 0 = [] := rfl

@[simp] theorem store_nil (mem : Memory) (a : UInt64) : store mem a [] = mem := rfl

theorem load_succ (mem : Memory) (a : UInt64) (n : ℕ) :
    load mem a (n + 1) = load mem a n ++ [mem (a + .ofNat n)] := by
  simp [load, List.range_succ]

theorem getElem_load (mem : Memory) (a : UInt64) {n i : ℕ} (hi : i < (load mem a n).length) :
    (load mem a n)[i] = mem (a + .ofNat i) := by
  simp [load]

theorem take_load (mem : Memory) (a : UInt64) {k n : ℕ} (h : k ≤ n) :
    (load mem a n).take k = load mem a k := by
  unfold load
  rw [← List.map_take, List.take_range, Nat.min_eq_left h]

/-- A sum that stays in the address space. -/
theorem toNat_add_ofNat {a : UInt64} {i : ℕ} (h : a.toNat + i < 2 ^ 64) :
    (a + .ofNat i).toNat = a.toNat + i := by
  have hi : i < 2 ^ 64 := by omega
  rw [UInt64.toNat_add, UInt64.toNat_ofNat_of_lt' hi, Nat.mod_eq_of_lt h]

/-- The distance of a byte of a range to its start. -/
theorem toNat_add_ofNat_sub (a : UInt64) {i : ℕ} (hi : i < 2 ^ 64) :
    (a + .ofNat i - a).toNat = i := by
  rw [UInt64.add_comm, UInt64.add_sub_cancel]
  exact UInt64.toNat_ofNat_of_lt' hi

theorem add_ofNat_toNat_sub (a x : UInt64) : a + .ofNat (x - a).toNat = x := by
  rw [UInt64.ofNat_toNat, UInt64.add_comm, UInt64.sub_add_cancel]

/-- The distance to a later start, for a byte behind it and for one in front of it. -/
theorem toNat_sub_add_of_le {a x : UInt64} {n : ℕ} (h : n ≤ (x - a).toNat) :
    (x - (a + .ofNat n)).toNat = (x - a).toNat - n := by
  have hx := x.toNat_lt
  have ha := a.toNat_lt
  have hn : n < 2 ^ 64 := by
    have hlt := (x - a).toNat_lt
    omega
  rw [UInt64.toNat_sub] at h
  rw [UInt64.toNat_sub, UInt64.toNat_sub, UInt64.toNat_add, UInt64.toNat_ofNat_of_lt' hn]
  omega

theorem toNat_sub_add_of_lt {a x : UInt64} {n : ℕ} (hn : n < 2 ^ 64) (h : (x - a).toNat < n) :
    (x - (a + .ofNat n)).toNat = 2 ^ 64 - n + (x - a).toNat := by
  have hx := x.toNat_lt
  have ha := a.toNat_lt
  rw [UInt64.toNat_sub] at h
  rw [UInt64.toNat_sub, UInt64.toNat_sub, UInt64.toNat_add, UInt64.toNat_ofNat_of_lt' hn]
  omega

section Store

variable {mem : Memory} {a x : UInt64} {bytes : Bytes}

theorem store_apply_of_lt (h : (x - a).toNat < bytes.length) :
    store mem a bytes x = bytes[(x - a).toNat] :=
  List.getD_eq_getElem _ _ h

/-- Bytes outside the range stay. -/
theorem store_apply_of_le (h : bytes.length ≤ (x - a).toNat) : store mem a bytes x = mem x :=
  List.getD_eq_default _ _ h

theorem store_apply_add {i : ℕ} (hi : i < bytes.length) (hlength : bytes.length ≤ 2 ^ 64) :
    store mem a bytes (a + .ofNat i) = bytes[i] := by
  have hsub := toNat_add_ofNat_sub a (by omega : i < 2 ^ 64)
  have hlt : (a + .ofNat i - a).toNat < bytes.length := by
    rw [hsub]
    exact hi
  rw [store_apply_of_lt hlt]
  exact getElem_congr_idx hsub

/-- A range that is loaded back holds what was stored. -/
theorem load_store (hlength : bytes.length ≤ 2 ^ 64) :
    load (store mem a bytes) a bytes.length = bytes := by
  refine List.ext_getElem (length_load _ _ _) ?_
  intro i hi hi'
  rw [getElem_load, store_apply_add hi' hlength]

theorem load_congr {mem' : Memory} {n : ℕ} (h : ∀ i < n, mem' (a + .ofNat i) = mem (a + .ofNat i)) :
    load mem' a n = load mem a n := by
  unfold load
  refine List.map_congr_left ?_
  intro i hi
  exact h i (List.mem_range.1 hi)

/-- Storing what is there already changes nothing. -/
theorem store_load (n : ℕ) : store mem a (load mem a n) = mem := by
  funext x
  by_cases h : (x - a).toNat < (load mem a n).length
  · rw [store_apply_of_lt h, getElem_load, add_ofNat_toNat_sub]
  · exact store_apply_of_le (Nat.not_lt.1 h)

/-- A store changes nothing exactly if it stores what is there. -/
theorem store_eq_self_iff (hlength : bytes.length ≤ 2 ^ 64) :
    store mem a bytes = mem ↔ load mem a bytes.length = bytes := by
  constructor
  · intro h
    rw [← h, load_store hlength]
  · intro h
    rw [← h]
    exact store_load _

end Store

end Wire
