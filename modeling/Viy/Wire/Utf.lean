import Viy.Wire.Stream

/-!
# Unicode text in bytes

A text is a list of `Char`, each a Unicode scalar value. Its UTF-8 bytes are those of the standard
library; UTF-16 and UTF-32 lay out code units in either byte order. `Spells` relates the code points
that a decoder yields to the bytes it has read. What decoders know about lead and continuation
bytes, surrogates and ranges is turned into encodings of single characters here.

A check that looks at one character after the other `Recognizes` an encoding if it goes on behind
every character and starts with one wherever it succeeds.
-/

namespace Wire

/-! ## Encodings -/

/-- A code unit in memory. -/
def codeUnit (bigEndian : Bool) (width unit : ℕ) : Bytes :=
  scatter bigEndian (UInt64.ofNat unit) width

/-- UTF-16: a surrogate pair above the basic plane. -/
def utf16Encode (c : Char) : List ℕ :=
  if c.toNat < 0x10000 then [c.toNat]
  else [0xD800 + (c.toNat - 0x10000) / 0x400, 0xDC00 + (c.toNat - 0x10000) % 0x400]

def utf16EncodeChar (bigEndian : Bool) (c : Char) : Bytes :=
  (utf16Encode c).flatMap (codeUnit bigEndian 2)

def utf32EncodeChar (bigEndian : Bool) (c : Char) : Bytes := codeUnit bigEndian 4 c.toNat

/-- The code points are those of a text with these bytes. -/
def Spells (encode : Char → Bytes) (codepoints : List UInt32) (bytes : Bytes) : Prop :=
  ∃ text : List Char, text.map Char.val = codepoints ∧ text.flatMap encode = bytes

section Spells

variable {encode : Char → Bytes} {codepoints : List UInt32} {bytes : Bytes}

theorem Spells.nil : Spells encode [] [] := ⟨[], rfl, rfl⟩

theorem Spells.cons (c : Char) (h : Spells encode codepoints bytes) :
    Spells encode (c.val :: codepoints) (encode c ++ bytes) := by
  obtain ⟨text, rfl, rfl⟩ := h
  exact ⟨c :: text, rfl, rfl⟩

/-- Encodings that agree on the characters of a text. -/
theorem Spells.congr {encode' : Char → Bytes} (h : Spells encode codepoints bytes)
    (heq : ∀ c : Char, c.val ∈ codepoints → encode c = encode' c) :
    Spells encode' codepoints bytes := by
  obtain ⟨text, rfl, rfl⟩ := h
  refine ⟨text, rfl, ?_⟩
  rw [List.flatMap_congr fun c hc => (heq c (List.mem_map_of_mem hc)).symm]

end Spells

/-! ## Code units -/

theorem codeUnit_gather (bigEndian : Bool) (bytes : Bytes) (hlength : bytes.length ≤ 8) :
    codeUnit bigEndian bytes.length (gather bigEndian bytes).toNat = bytes := by
  unfold codeUnit
  rw [UInt64.ofNat_toNat, scatter_gather bigEndian hlength]

theorem toNat_gather_lt (bigEndian : Bool) {bytes : Bytes} (hlength : bytes.length ≤ 8) :
    (gather bigEndian bytes).toNat < 256 ^ bytes.length := by
  cases bigEndian with
  | false =>
    rw [toNat_gather_false hlength]
    exact numeral_lt bytes
  | true =>
    rw [toNat_gather_true hlength, ← List.length_reverse]
    exact numeral_lt bytes.reverse

theorem codeUnit_zero (bigEndian : Bool) (width : ℕ) :
    codeUnit bigEndian width 0 = List.replicate width 0 := by
  simp [codeUnit, scatter]

theorem eq_zeros_of_gather (bigEndian : Bool) {bytes : Bytes} (hlength : bytes.length ≤ 8)
    (hzero : (gather bigEndian bytes).toNat = 0) : bytes = List.replicate bytes.length 0 := by
  calc bytes = codeUnit bigEndian bytes.length (gather bigEndian bytes).toNat :=
        (codeUnit_gather bigEndian bytes hlength).symm
    _ = List.replicate bytes.length 0 := by rw [hzero, codeUnit_zero]

theorem toNat_ofU16 (a b : UInt8) : (ofU16 a b).toNat = (gather true [a, b]).toNat := by
  have hshift : (a.toUInt16 <<< 8).toNat = a.toNat * 2 ^ 8 := by
    rw [UInt16.toNat_shiftLeft, UInt8.toNat_toUInt16, show (8 : UInt16).toNat % 16 = 8 from rfl,
      Nat.shiftLeft_eq]
    exact Nat.mod_eq_of_lt (by have := a.toNat_lt; omega)
  rw [toNat_gather_true (by simp), ofU16, UInt16.toNat_or, hshift, UInt8.toNat_toUInt16,
    or_eq_add (dvd_mul_left _ _) b.toNat_lt]
  simp [numeral, Nat.ofDigits]
  ring

/-- The low byte first. -/
theorem toNat_littleU16 (a b : UInt8) :
    (a.toUInt16 ||| (b.toUInt16 <<< 8)).toNat = (gather false [a, b]).toNat := by
  have hgather : gather false [a, b] = gather true [b, a] := (gather_true [b, a]).symm
  rw [UInt16.or_comm, hgather]
  exact toNat_ofU16 b a

theorem toNat_ofU32 (a b d e : UInt8) :
    (ofU32 [a, b, d, e]).toNat = (gather true [a, b, d, e]).toNat := by
  have hb := b.toNat_lt
  have hd := d.toNat_lt
  have he := e.toNat_lt
  have ha24 : (a.toUInt32 <<< 24).toNat = a.toNat * 2 ^ 24 := toNat_shift32 a 24 (by decide)
  have hb16 : (b.toUInt32 <<< 16).toNat = b.toNat * 2 ^ 16 := toNat_shift32 b 16 (by decide)
  have hd8 : (d.toUInt32 <<< 8).toNat = d.toNat * 2 ^ 8 := toNat_shift32 d 8 (by decide)
  rw [toNat_gather_true (by simp), ofU32, UInt32.toNat_or, UInt32.toNat_or, UInt32.toNat_or, ha24,
    hb16, hd8, UInt8.toNat_toUInt32, Nat.or_assoc, Nat.or_assoc, or_eq_add (dvd_mul_left _ _) he,
    or_eq_add (k := 16) (dvd_mul_left _ _) (by omega),
    or_eq_add (k := 24) (dvd_mul_left _ _) (by omega)]
  simp [numeral, Nat.ofDigits]
  ring

theorem toNat_littleU32 (a b d e : UInt8) :
    (a.toUInt32 ||| (b.toUInt32 <<< 8) ||| (d.toUInt32 <<< 16) ||| (e.toUInt32 <<< 24)).toNat =
      (gather false [a, b, d, e]).toNat := by
  have hgather : gather false [a, b, d, e] = gather true [e, d, b, a] :=
    (gather_true [e, d, b, a]).symm
  have hreverse : ∀ x y z w : UInt32, x ||| y ||| z ||| w = w ||| z ||| y ||| x := by
    intro x y z w
    rw [UInt32.or_comm _ w, UInt32.or_comm _ z, UInt32.or_comm x y, UInt32.or_assoc w,
      UInt32.or_assoc w, UInt32.or_assoc z]
  rw [hgather, hreverse]
  exact toNat_ofU32 e d b a

/-- Two surrogates. -/
theorem utf16Encode_pair {c : Char} {first second : ℕ} (hfirst : 0xD800 ≤ first)
    (hsecond : 0xDC00 ≤ second) (hlast : second ≤ 0xDFFF)
    (hc : c.toNat = 0x10000 + ((first - 0xD800) * 0x400 + (second - 0xDC00))) :
    utf16Encode c = [first, second] := by
  unfold utf16Encode
  rw [if_neg (by omega), hc]
  have hhigh : 0xD800 + (0x10000 + ((first - 0xD800) * 0x400 + (second - 0xDC00)) - 0x10000) /
      0x400 = first := by omega
  have hlow : 0xDC00 + (0x10000 + ((first - 0xD800) * 0x400 + (second - 0xDC00)) - 0x10000) %
      0x400 = second := by omega
  rw [hhigh, hlow]

/-! ## Bytes of UTF-8 -/

theorem continuation_iff {b : UInt8} : b &&& 0xC0 = 0x80 ↔ 0x80 ≤ b.toNat ∧ b.toNat < 0xC0 := by
  have hall : ∀ v : BitVec 8, v &&& 0xC0#8 = 0x80#8 ↔ 0x80 ≤ v.toNat ∧ v.toNat < 0xC0 := by
    decide +kernel
  rw [← UInt8.toBitVec_inj]
  exact hall b.toBitVec

/-- Six more bits of a code point. -/
theorem toNat_shiftIn6 (cp : UInt32) (b : UInt8) (h : cp.toNat < 2 ^ 26) :
    ((cp <<< 6) ||| (b &&& 0x3F).toUInt32).toNat = cp.toNat * 64 + b.toNat % 64 := by
  have hbits : (b &&& 0x3F).toNat = b.toNat % 64 := by
    rw [UInt8.toNat_and]
    exact Nat.and_two_pow_sub_one_eq_mod _ 6
  have hshift : (cp <<< 6).toNat = cp.toNat * 64 := by
    rw [UInt32.toNat_shiftLeft, show (6 : UInt32).toNat % 32 = 6 from rfl, Nat.shiftLeft_eq]
    omega
  rw [UInt32.toNat_or, UInt8.toNat_toUInt32, hshift, hbits,
    or_eq_add (k := 6) (by omega) (by omega)]

/-- Room for the bits of `n + 1` more bytes is room for those of the next one and of `n` others. -/
theorem shiftIn6_fits {cp : UInt32} {n : ℕ} (h : (cp.toNat + 1) * 64 ^ (n + 1) ≤ 2 ^ 32)
    (b : UInt8) :
    ((cp <<< 6) ||| (b &&& 0x3F).toUInt32).toNat = cp.toNat * 64 + b.toNat % 64 ∧
      (cp.toNat * 64 + b.toNat % 64 + 1) * 64 ^ n ≤ 2 ^ 32 := by
  have hpos : 0 < 64 ^ n := by positivity
  have hstep : (cp.toNat + 1) * 64 * 64 ^ n ≤ 2 ^ 32 := by
    rw [pow_succ'] at h
    linarith
  have hcp : (cp.toNat + 1) * 64 ≤ 2 ^ 32 := le_trans (Nat.le_mul_of_pos_right _ hpos) hstep
  exact ⟨toNat_shiftIn6 cp b (by omega), le_trans (Nat.mul_le_mul_right _ (by omega)) hstep⟩

theorem toNat_and_low (b mask : UInt8) (k : ℕ) (hmask : mask.toNat = 2 ^ k - 1) :
    (b &&& mask).toUInt32.toNat = b.toNat % 2 ^ k := by
  rw [UInt8.toNat_toUInt32, UInt8.toNat_and, hmask, Nat.and_two_pow_sub_one_eq_mod]

theorem inRange_iff {first low high : UInt8} :
    (decide (first ≥ low) && decide (first ≤ high)) = true ↔
      low.toNat ≤ first.toNat ∧ first.toNat ≤ high.toNat := by
  rw [Bool.and_eq_true, decide_eq_true_eq, decide_eq_true_eq]
  exact and_congr UInt8.le_iff_toNat_le UInt8.le_iff_toNat_le

/-! ### Sequences of one to four bytes -/

section Sequences

variable {c : Char} {first a b d : UInt8}

theorem ofNat_eq {n : ℕ} {b : UInt8} (h : n = b.toNat) : UInt8.ofNat n = b := by
  rw [h, UInt8.ofNat_toNat]

theorem utf8EncodeChar_one (hfirst : first.toNat < 0x80) (hc : c.val.toNat = first.toNat) :
    String.utf8EncodeChar c = [first] := by
  unfold String.utf8EncodeChar
  simp only [hc]
  rw [if_pos (by omega), UInt8.ofNat_toNat]

theorem utf8EncodeChar_two (hfirst : 0xC2 ≤ first.toNat) (hlast : first.toNat ≤ 0xDF)
    (ha : a &&& 0xC0 = 0x80) (hc : c.val.toNat = first.toNat % 32 * 64 + a.toNat % 64) :
    String.utf8EncodeChar c = [first, a] := by
  rw [continuation_iff] at ha
  unfold String.utf8EncodeChar
  simp only [hc]
  rw [if_neg (by omega), if_pos (by omega), ofNat_eq (b := first) (by omega),
    ofNat_eq (b := a) (by omega)]

theorem utf8EncodeChar_three (hfirst : 0xE0 ≤ first.toNat) (hlast : first.toNat ≤ 0xEF)
    (ha : a &&& 0xC0 = 0x80) (hb : b &&& 0xC0 = 0x80)
    (hc : c.val.toNat = (first.toNat % 16 * 64 + a.toNat % 64) * 64 + b.toNat % 64)
    (hmin : 0x800 ≤ c.val.toNat) : String.utf8EncodeChar c = [first, a, b] := by
  rw [continuation_iff] at ha hb
  unfold String.utf8EncodeChar
  simp only [hc] at hmin ⊢
  rw [if_neg (by omega), if_neg (by omega), if_pos (by omega), ofNat_eq (b := first) (by omega),
    ofNat_eq (b := a) (by omega), ofNat_eq (b := b) (by omega)]

theorem utf8EncodeChar_four (hfirst : 0xF0 ≤ first.toNat) (hlast : first.toNat ≤ 0xF4)
    (ha : a &&& 0xC0 = 0x80) (hb : b &&& 0xC0 = 0x80) (hd : d &&& 0xC0 = 0x80)
    (hc : c.val.toNat =
      ((first.toNat % 8 * 64 + a.toNat % 64) * 64 + b.toNat % 64) * 64 + d.toNat % 64)
    (hmin : 0x10000 ≤ c.val.toNat) : String.utf8EncodeChar c = [first, a, b, d] := by
  rw [continuation_iff] at ha hb hd
  unfold String.utf8EncodeChar
  simp only [hc] at hmin ⊢
  rw [if_neg (by omega), if_neg (by omega), if_neg (by omega), ofNat_eq (b := first) (by omega),
    ofNat_eq (b := a) (by omega), ofNat_eq (b := b) (by omega), ofNat_eq (b := d) (by omega)]

/-- The bytes of a character, by their number. -/
inductive Utf8Sequence (c : Char) : Bytes → Prop
  | one {first : UInt8} (hfirst : first.toNat < 0x80) (hc : c.val.toNat = first.toNat) :
      Utf8Sequence c [first]
  | two {first a : UInt8} (hfirst : 0xC2 ≤ first.toNat) (hlast : first.toNat ≤ 0xDF)
      (ha : a &&& 0xC0 = 0x80) (hc : c.val.toNat = first.toNat % 32 * 64 + a.toNat % 64) :
      Utf8Sequence c [first, a]
  | three {first a b : UInt8} (hfirst : 0xE0 ≤ first.toNat) (hlast : first.toNat ≤ 0xEF)
      (ha : a &&& 0xC0 = 0x80) (hb : b &&& 0xC0 = 0x80)
      (hc : c.val.toNat = (first.toNat % 16 * 64 + a.toNat % 64) * 64 + b.toNat % 64)
      (hmin : 0x800 ≤ c.val.toNat) : Utf8Sequence c [first, a, b]
  | four {first a b d : UInt8} (hfirst : 0xF0 ≤ first.toNat) (hlast : first.toNat ≤ 0xF4)
      (ha : a &&& 0xC0 = 0x80) (hb : b &&& 0xC0 = 0x80) (hd : d &&& 0xC0 = 0x80)
      (hc : c.val.toNat =
        ((first.toNat % 8 * 64 + a.toNat % 64) * 64 + b.toNat % 64) * 64 + d.toNat % 64)
      (hmin : 0x10000 ≤ c.val.toNat) : Utf8Sequence c [first, a, b, d]

theorem exists_char {n : ℕ} (h : n < 0xD800 ∨ 0xDFFF < n ∧ n < 0x110000) :
    ∃ c : Char, c.val.toNat = n := ⟨Char.ofNatAux n h, rfl⟩

/-- A character is a scalar value. -/
theorem isValidChar_toNat (c : Char) :
    c.val.toNat < 0xD800 ∨ 0xDFFF < c.val.toNat ∧ c.val.toNat < 0x110000 := c.valid

theorem continuation_ofNat (n : ℕ) : UInt8.ofNat (n % 64 + 128) &&& 0xC0 = 0x80 := by
  rw [continuation_iff, UInt8.toNat_ofNat']
  omega

theorem utf8Sequence_iff {bytes : Bytes} :
    Utf8Sequence c bytes ↔ String.utf8EncodeChar c = bytes := by
  constructor
  · intro h
    cases h with
    | one hfirst hc => exact utf8EncodeChar_one hfirst hc
    | two hfirst hlast ha hc => exact utf8EncodeChar_two hfirst hlast ha hc
    | three hfirst hlast ha hb hc hmin => exact utf8EncodeChar_three hfirst hlast ha hb hc hmin
    | four hfirst hlast ha hb hd hc hmin =>
      exact utf8EncodeChar_four hfirst hlast ha hb hd hc hmin
  · rintro rfl
    have hvalid := isValidChar_toNat c
    unfold String.utf8EncodeChar
    dsimp only
    split_ifs with hone htwo hthree
    · refine .one ?_ ?_ <;> rw [UInt8.toNat_ofNat'] <;> omega
    · refine .two ?_ ?_ (continuation_ofNat _) ?_ <;> simp only [UInt8.toNat_ofNat'] <;> omega
    · refine .three ?_ ?_ (continuation_ofNat _) (continuation_ofNat _) ?_ (by omega) <;>
        simp only [UInt8.toNat_ofNat'] <;> omega
    · refine .four ?_ ?_ (continuation_ofNat _) (continuation_ofNat _) (continuation_ofNat _) ?_
        (by omega) <;> simp only [UInt8.toNat_ofNat'] <;> omega

end Sequences

/-! ## Characters in front of other bytes -/

/-- The standard library reads a character back, whatever follows it. -/
theorem delimits_utf8EncodeChar : Delimits String.utf8EncodeChar Eq := by
  intro c d r s
  constructor
  · intro h
    have hdecode : ∀ (c : Char) (rest : Bytes),
        (String.utf8EncodeChar c ++ rest).toByteArray.utf8DecodeChar? 0 = some c := by
      intro c rest
      rw [List.toByteArray_append]
      exact ByteArray.utf8DecodeChar?_utf8EncodeChar_append
    have hc := hdecode c r
    rw [h, hdecode d s] at hc
    obtain rfl := Option.some.inj hc
    exact ⟨rfl, List.append_cancel_left h⟩
  · rintro ⟨rfl, rfl⟩
    rfl

section Units

variable {bigEndian : Bool} {width n m : ℕ} {r s : Bytes}

@[simp] theorem length_codeUnit : (codeUnit bigEndian width n).length = width :=
  length_scatter _ _ _

theorem toNat_gather_codeUnit (hwidth : width ≤ 8) (hn : n < 256 ^ width) :
    (gather bigEndian (codeUnit bigEndian width n)).toNat = n := by
  have hle : 256 ^ width ≤ 2 ^ 64 := by
    calc 256 ^ width ≤ 256 ^ 8 := Nat.pow_le_pow_right (by norm_num) hwidth
      _ = 2 ^ 64 := by norm_num
  rw [codeUnit, toNat_gather_scatter bigEndian _ hwidth,
    UInt64.toNat_ofNat_of_lt' (lt_of_lt_of_le hn hle), Nat.mod_eq_of_lt hn]

theorem codeUnit_injective (hwidth : width ≤ 8) (hn : n < 256 ^ width) (hm : m < 256 ^ width)
    (h : codeUnit bigEndian width n = codeUnit bigEndian width m) : n = m := by
  calc n = (gather bigEndian (codeUnit bigEndian width n)).toNat :=
        (toNat_gather_codeUnit hwidth hn).symm
    _ = (gather bigEndian (codeUnit bigEndian width m)).toNat := by rw [h]
    _ = m := toNat_gather_codeUnit hwidth hm

theorem codeUnit_append_eq (hwidth : width ≤ 8) (hn : n < 256 ^ width) (hm : m < 256 ^ width) :
    codeUnit bigEndian width n ++ r = codeUnit bigEndian width m ++ s ↔ n = m ∧ r = s := by
  constructor
  · intro h
    obtain ⟨hunit, hrest⟩ := List.append_inj h (by simp)
    exact ⟨codeUnit_injective hwidth hn hm hunit, hrest⟩
  · rintro ⟨rfl, rfl⟩
    rfl

end Units

theorem utf16EncodeChar_of_lt {c : Char} (bigEndian : Bool) (h : c.toNat < 0x10000) :
    utf16EncodeChar bigEndian c = codeUnit bigEndian 2 c.toNat := by
  rw [utf16EncodeChar, utf16Encode, if_pos h, List.flatMap_singleton]

theorem utf16EncodeChar_of_le {c : Char} (bigEndian : Bool) (h : 0x10000 ≤ c.toNat) :
    utf16EncodeChar bigEndian c = codeUnit bigEndian 2 (0xD800 + (c.toNat - 0x10000) / 0x400) ++
      codeUnit bigEndian 2 (0xDC00 + (c.toNat - 0x10000) % 0x400) := by
  rw [utf16EncodeChar, utf16Encode, if_neg (Nat.not_lt.2 h), List.flatMap_cons,
    List.flatMap_singleton]

/-- A unit that is no surrogate is a character; a high surrogate is followed by a low one. -/
theorem delimits_utf16EncodeChar (bigEndian : Bool) :
    Delimits (utf16EncodeChar bigEndian) Eq := by
  intro c d r s
  have hc : c.toNat < 0xD800 ∨ 0xDFFF < c.toNat ∧ c.toNat < 0x110000 := isValidChar_toNat c
  have hd : d.toNat < 0xD800 ∨ 0xDFFF < d.toNat ∧ d.toNat < 0x110000 := isValidChar_toNat d
  constructor
  · intro h
    rcases Nat.lt_or_ge c.toNat 0x10000 with hsmall | hlarge <;>
      rcases Nat.lt_or_ge d.toNat 0x10000 with hsmall' | hlarge'
    · rw [utf16EncodeChar_of_lt _ hsmall, utf16EncodeChar_of_lt _ hsmall',
        codeUnit_append_eq (by omega) (by omega) (by omega)] at h
      exact ⟨Char.toNat_inj.1 h.1, h.2⟩
    · rw [utf16EncodeChar_of_lt _ hsmall, utf16EncodeChar_of_le _ hlarge', List.append_assoc,
        codeUnit_append_eq (by omega) (by omega) (by omega)] at h
      omega
    · rw [utf16EncodeChar_of_le _ hlarge, utf16EncodeChar_of_lt _ hsmall', List.append_assoc,
        codeUnit_append_eq (by omega) (by omega) (by omega)] at h
      omega
    · rw [utf16EncodeChar_of_le _ hlarge, utf16EncodeChar_of_le _ hlarge', List.append_assoc,
        List.append_assoc, codeUnit_append_eq (by omega) (by omega) (by omega),
        codeUnit_append_eq (by omega) (by omega) (by omega)] at h
      exact ⟨Char.toNat_inj.1 (by omega), h.2.2⟩
  · rintro ⟨rfl, rfl⟩
    rfl

theorem delimits_utf32EncodeChar (bigEndian : Bool) :
    Delimits (utf32EncodeChar bigEndian) Eq := by
  have hlt : ∀ c : Char, c.toNat < 256 ^ 4 := by
    intro c
    have hvalid : c.toNat < 0xD800 ∨ 0xDFFF < c.toNat ∧ c.toNat < 0x110000 := isValidChar_toNat c
    omega
  intro c d r s
  rw [utf32EncodeChar, utf32EncodeChar, codeUnit_append_eq (by omega) (hlt c) (hlt d),
    Char.toNat_inj]

/-! ## Checks -/

/-- The check accepts exactly the bytes of texts, and the bytes determine the text. -/
def Recognizes (encode : Char → Bytes) (valid : Bytes → Bool) : Prop :=
  ∀ bytes, (valid bytes = true ↔ ∃ text : List Char, text.flatMap encode = bytes) ∧
    ∀ text text' : List Char, text.flatMap encode = bytes → text'.flatMap encode = bytes →
      text = text'

/-- A check that looks at one character after the other. -/
theorem recognizes_of_chars {encode : Char → Bytes} {valid : Bytes → Bool}
    (hdelimits : Delimits encode Eq) (hne : ∀ c, encode c ≠ []) (hnil : valid [] = true)
    (hnext : ∀ c rest, valid (encode c ++ rest) = valid rest)
    (hfirst : ∀ bytes, bytes ≠ [] → valid bytes = true → ∃ c rest, bytes = encode c ++ rest) :
    Recognizes encode valid := by
  intro bytes
  refine ⟨⟨?_, ?_⟩, ?_⟩
  · -- the text is found from the front; what is left gets shorter
    induction hlength : bytes.length using Nat.strong_induction_on generalizing bytes with
    | _ n ih =>
      intro hvalid
      by_cases hempty : bytes = []
      · exact ⟨[], hempty.symm⟩
      · obtain ⟨c, rest, rfl⟩ := hfirst bytes hempty hvalid
        have hpos := List.length_pos_iff.2 (hne c)
        rw [List.length_append] at hlength
        rw [hnext] at hvalid
        obtain ⟨text, rfl⟩ := ih rest.length (by omega) rest rfl hvalid
        exact ⟨c :: text, rfl⟩
  · rintro ⟨text, rfl⟩
    induction text with
    | nil => exact hnil
    | cons c text ih => rw [List.flatMap_cons, hnext, ih]
  · rintro text text' rfl heq
    have hsame := (hdelimits.flatMap_eq_iff hne).1 heq
    rw [List.forall₂_eq_eq_eq] at hsame
    exact hsame.symm

end Wire
