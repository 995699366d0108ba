import Viy.Wire.Utf

/-!
# Decoding text exactly

`decode_utf8_exact`, `decode_utf16_exact` and `decode_utf32_exact` read a whole payload as text, or
fail. A payload that is read is the encoding of the code points (`Payload`).

A pointer with a size is the list of the bytes it points to.
-/

namespace Viy.Runtime

open Wire

inductive RuntimeEncoding where
  | ascii | utf8 | utf16LE | utf16BE | utf32LE | utf32BE
  deriving DecidableEq

/-! ## Code points -/

def scalarIsText (cp : UInt32) : Bool :=
  if cp == 0x09 || cp == 0x0A || cp == 0x0D then true
  else if cp < 0x20 || (cp ≥ 0x7F && cp ≤ 0x9F) then false
  -- private use and noncharacters
  else if (cp ≥ 0xE000 && cp ≤ 0xF8FF) || (cp ≥ 0xF0000 && cp ≤ 0xFFFFD) ||
      (cp ≥ 0x100000 && cp ≤ 0x10FFFD) || (cp ≥ 0xFDD0 && cp ≤ 0xFDEF) ||
      cp &&& 0xFFFF ≥ 0xFFFE then false
  else cp ≤ 0x10FFFF && !(cp ≥ 0xD800 && cp ≤ 0xDFFF)

def readU16 (p : Bytes) (bigEndian : Bool) : UInt16 :=
  if bigEndian then ((p.getD 0 0).toUInt16 <<< 8) ||| (p.getD 1 0).toUInt16
  else (p.getD 0 0).toUInt16 ||| ((p.getD 1 0).toUInt16 <<< 8)

def readU32 (p : Bytes) (bigEndian : Bool) : UInt32 :=
  if bigEndian then
    ((p.getD 0 0).toUInt32 <<< 24) ||| ((p.getD 1 0).toUInt32 <<< 16) |||
      ((p.getD 2 0).toUInt32 <<< 8) ||| (p.getD 3 0).toUInt32
  else
    (p.getD 0 0).toUInt32 ||| ((p.getD 1 0).toUInt32 <<< 8) |||
      ((p.getD 2 0).toUInt32 <<< 16) ||| ((p.getD 3 0).toUInt32 <<< 24)

/-! ## Payloads -/

/-- `result.push_back(cp)`, and the rest of the loop. -/
def pushBack (cp : UInt32) (rest : Option (List UInt32)) : Option (List UInt32) :=
  if scalarIsText cp then rest.map (cp :: ·) else none

/-- The continuation bytes of a sequence with `extra` of them, then the check for overlong forms. -/
def utf8Scalar (extra : ℕ) : UInt32 → Bytes → Option UInt32
  | cp, [] => if (extra == 2 && cp < 0x800) || (extra == 3 && cp < 0x10000) then none else some cp
  | cp, continuation :: rest =>
    if continuation &&& 0xC0 != 0x80 then none
    else utf8Scalar extra ((cp <<< 6) ||| (continuation &&& 0x3F).toUInt32) rest

/-- The loop of `decode_utf8_exact`. -/
def utf8Loop : Bytes → Option (List UInt32)
  | [] => some []
  | first :: rest =>
    if first < 0x80 then pushBack first.toUInt32 (utf8Loop rest)
    else if first ≥ 0xC2 && first ≤ 0xDF then
      match rest with
      | a :: rest =>
        (utf8Scalar 1 (first &&& 0x1F).toUInt32 [a]).bind fun cp => pushBack cp (utf8Loop rest)
      | _ => none
    else if first ≥ 0xE0 && first ≤ 0xEF then
      match rest with
      | a :: b :: rest =>
        (utf8Scalar 2 (first &&& 0x0F).toUInt32 [a, b]).bind fun cp => pushBack cp (utf8Loop rest)
      | _ => none
    else if first ≥ 0xF0 && first ≤ 0xF4 then
      match rest with
      | a :: b :: d :: rest =>
        (utf8Scalar 3 (first &&& 0x07).toUInt32 [a, b, d]).bind fun cp =>
          pushBack cp (utf8Loop rest)
      | _ => none
    else none

/-- The loop of `decode_utf16_exact`. -/
def utf16Loop (bigEndian : Bool) : Bytes → Option (List UInt32)
  | a :: b :: rest =>
    let first := readU16 [a, b] bigEndian
    if first ≥ 0xD800 && first ≤ 0xDBFF then
      match rest with
      | d :: e :: rest =>
        let second := readU16 [d, e] bigEndian
        if second < 0xDC00 || second > 0xDFFF then none
        else pushBack ((0x10000 : UInt32) + (((first - 0xD800).toUInt32 <<< 10) |||
          (second - 0xDC00).toUInt32)) (utf16Loop bigEndian rest)
      | _ => none
    else if first ≥ 0xDC00 && first ≤ 0xDFFF then none
    else pushBack first.toUInt32 (utf16Loop bigEndian rest)
  | _ => some []

/-- The loop of `decode_utf32_exact`. -/
def utf32Loop (bigEndian : Bool) : Bytes → Option (List UInt32)
  | a :: b :: d :: e :: rest =>
    pushBack (readU32 [a, b, d, e] bigEndian) (utf32Loop bigEndian rest)
  | _ => some []

/-- `if (result.size() < minimum_characters) return false` -/
def atLeast (minimumCharacters : ℕ) (result : Option (List UInt32)) : Option (List UInt32) :=
  result.filter fun codepoints => !(codepoints.length < minimumCharacters)

/-- The encoding is ASCII when all code points are. -/
def decodeUtf8Exact (bytes : Bytes) (minimumCharacters : ℕ) :
    Option (RuntimeEncoding × List UInt32) :=
  (atLeast minimumCharacters (utf8Loop bytes)).map fun codepoints =>
    (if codepoints.all (· < 0x80) then .ascii else .utf8, codepoints)

/-- A payload of fixed-width code units; both callers give the result this encoding. -/
def decodeUnitsExact (width : ℕ) (loop : Bytes → Option (List UInt32)) (encoding : RuntimeEncoding)
    (bytes : Bytes) (minimumCharacters : ℕ) : Option (RuntimeEncoding × List UInt32) :=
  if bytes.length == 0 || bytes.length % width != 0 then none
  else (atLeast minimumCharacters (loop bytes)).map fun codepoints => (encoding, codepoints)

def decodeUtf16Exact (bytes : Bytes) (bigEndian : Bool) (minimumCharacters : ℕ) :
    Option (RuntimeEncoding × List UInt32) :=
  decodeUnitsExact 2 (utf16Loop bigEndian) (if bigEndian then .utf16BE else .utf16LE) bytes
    minimumCharacters

def decodeUtf32Exact (bytes : Bytes) (bigEndian : Bool) (minimumCharacters : ℕ) :
    Option (RuntimeEncoding × List UInt32) :=
  decodeUnitsExact 4 (utf32Loop bigEndian) (if bigEndian then .utf32BE else .utf32LE) bytes
    minimumCharacters

/-! ## Decoders are exact -/

/-- The code points are text and are spelled by the bytes. -/
structure TextOf (encode : Char → Bytes) (codepoints : List UInt32) (bytes : Bytes) : Prop where
  spells : Spells encode codepoints bytes
  text : ∀ cp ∈ codepoints, scalarIsText cp = true

theorem isValidChar_of_scalarIsText {cp : UInt32} (h : scalarIsText cp = true) :
    cp.isValidChar := by
  unfold scalarIsText at h
  split_ifs at h with htab
  · simp only [Bool.or_eq_true, beq_iff_eq] at htab
    rcases htab with (rfl | rfl) | rfl <;> exact Or.inl (by decide)
  · simp only [Bool.and_eq_true, Bool.not_eq_true', Bool.and_eq_false_iff, decide_eq_true_eq,
      decide_eq_false_iff_not, UInt32.le_iff_toNat_le, ge_iff_le] at h
    have hmax : (0x10FFFF : UInt32).toNat = 0x10FFFF := rfl
    have hlow : (0xD800 : UInt32).toNat = 0xD800 := rfl
    have hhigh : (0xDFFF : UInt32).toNat = 0xDFFF := rfl
    show cp.toNat.isValidChar
    unfold Nat.isValidChar
    omega

section Decoders

variable {encode : Char → Bytes} {codepoints : List UInt32} {bytes rest : Bytes} {cp : UInt32}

theorem pushBack_eq_some {tail : Option (List UInt32)} (h : pushBack cp tail = some codepoints) :
    scalarIsText cp = true ∧ ∃ l, tail = some l ∧ codepoints = cp :: l := by
  unfold pushBack at h
  split_ifs at h with htext
  obtain ⟨l, hl, rfl⟩ := Option.map_eq_some_iff.1 h
  exact ⟨htext, l, hl, rfl⟩

/-- One turn: a code point that is text, and the bytes of its character. -/
theorem TextOf.pushBack {tail : Option (List UInt32)}
    (h : pushBack cp tail = some codepoints) (htail : ∀ l, tail = some l → TextOf encode l rest)
    (hbytes : ∀ c : Char, c.val = cp → encode c ++ rest = bytes) :
    TextOf encode codepoints bytes := by
  obtain ⟨htext, l, hl, rfl⟩ := pushBack_eq_some h
  have hspells := (htail l hl).spells.cons ⟨cp, isValidChar_of_scalarIsText htext⟩
  rw [hbytes _ rfl] at hspells
  refine ⟨hspells, fun x hx => ?_⟩
  rcases List.mem_cons.1 hx with rfl | hx
  · exact htext
  · exact (htail l hl).text x hx

theorem utf8Scalar_eq_some {extra : ℕ} {tail : Bytes} {lead : UInt32}
    (h : utf8Scalar extra lead tail = some cp)
    (hfits : (lead.toNat + 1) * 64 ^ tail.length ≤ 2 ^ 32) :
    (∀ b ∈ tail, b &&& 0xC0 = 0x80) ∧
      cp.toNat = tail.foldl (fun n b => n * 64 + b.toNat % 64) lead.toNat ∧
      (extra = 2 → 0x800 ≤ cp.toNat) ∧ (extra = 3 → 0x10000 ≤ cp.toNat) := by
  induction tail generalizing lead with
  | nil =>
    unfold utf8Scalar at h
    split_ifs at h with hshort
    obtain rfl := Option.some.inj h
    simp only [Bool.or_eq_true, Bool.and_eq_true, beq_iff_eq, decide_eq_true_eq, not_or, not_and,
      UInt32.lt_iff_toNat_lt, Nat.not_lt] at hshort
    exact ⟨by simp, rfl, hshort.1, hshort.2⟩
  | cons b tail ih =>
    unfold utf8Scalar at h
    split_ifs at h with hb
    obtain ⟨hnext, hfits'⟩ := shiftIn6_fits hfits b
    obtain ⟨htail, hcp, hmin⟩ := ih h (by rwa [hnext])
    rw [hnext] at hcp
    refine ⟨fun x hx => ?_, hcp, hmin⟩
    rcases List.mem_cons.1 hx with rfl | hx
    · simpa using hb
    · exact htail x hx

/-- A sequence of more than one byte. -/
theorem TextOf.sequence {extra : ℕ} {lead : UInt32} {first : UInt8} {tail : Bytes}
    (h : ((utf8Scalar extra lead tail).bind fun cp => Runtime.pushBack cp (utf8Loop rest)) =
      some codepoints)
    (hfits : (lead.toNat + 1) * 64 ^ tail.length ≤ 2 ^ 32)
    (hrest : ∀ l, utf8Loop rest = some l → TextOf String.utf8EncodeChar l rest)
    (hbytes : ∀ c : Char, (∀ b ∈ tail, b &&& 0xC0 = 0x80) →
      c.val.toNat = tail.foldl (fun n b => n * 64 + b.toNat % 64) lead.toNat →
      (extra = 2 → 0x800 ≤ c.val.toNat) → (extra = 3 → 0x10000 ≤ c.val.toNat) →
        String.utf8EncodeChar c = first :: tail) :
    TextOf String.utf8EncodeChar codepoints (first :: tail ++ rest) := by
  obtain ⟨cp, hcp, hpush⟩ := Option.bind_eq_some_iff.1 h
  obtain ⟨htail, hvalue, htwo, hthree⟩ := utf8Scalar_eq_some hcp hfits
  refine .pushBack hpush hrest ?_
  rintro c rfl
  rw [hbytes c htail hvalue htwo hthree]

theorem utf8Loop_sound (bytes : Bytes) : ∀ {codepoints : List UInt32},
    utf8Loop bytes = some codepoints → TextOf String.utf8EncodeChar codepoints bytes := by
  fun_induction utf8Loop bytes with
  | case1 =>
    intro codepoints h
    obtain rfl := Option.some.inj h
    exact ⟨.nil, by simp⟩
  | case2 first rest hfirst ih =>
    intro codepoints h
    refine .pushBack h (fun l hl => ih hl) fun c hc => ?_
    have hc : c.val.toNat = first.toNat := by rw [hc, UInt8.toNat_toUInt32]
    rw [utf8EncodeChar_one (UInt8.lt_iff_toNat_lt.1 hfirst) hc]
    rfl
  | case3 first _ hfirst a rest ih =>
    intro codepoints h
    obtain ⟨hlow, hhigh⟩ := inRange_iff.1 hfirst
    have hlead := toNat_and_low first 0x1F 5 rfl
    refine .sequence h ?_ (fun l hl => ih hl) fun c htail hvalue _ _ => ?_
    · rw [hlead, List.length_singleton]
      omega
    · rw [hlead] at hvalue
      exact utf8EncodeChar_two hlow hhigh (htail a (by simp)) hvalue
  | case5 first _ _ hfirst a b rest ih =>
    intro codepoints h
    obtain ⟨hlow, hhigh⟩ := inRange_iff.1 hfirst
    have hlead := toNat_and_low first 0x0F 4 rfl
    refine .sequence h ?_ (fun l hl => ih hl) fun c htail hvalue hmin _ => ?_
    · rw [hlead]
      show (first.toNat % 2 ^ 4 + 1) * 64 ^ 2 ≤ 2 ^ 32
      omega
    · rw [hlead] at hvalue
      exact utf8EncodeChar_three hlow hhigh (htail a (by simp)) (htail b (by simp)) hvalue
        (hmin rfl)
  | case7 first _ _ _ hfirst a b d rest ih =>
    intro codepoints h
    obtain ⟨hlow, hhigh⟩ := inRange_iff.1 hfirst
    have hlead := toNat_and_low first 0x07 3 rfl
    refine .sequence h ?_ (fun l hl => ih hl) fun c htail hvalue _ hmin => ?_
    · rw [hlead]
      show (first.toNat % 2 ^ 3 + 1) * 64 ^ 3 ≤ 2 ^ 32
      omega
    · rw [hlead] at hvalue
      exact utf8EncodeChar_four hlow hhigh (htail a (by simp)) (htail b (by simp))
        (htail d (by simp)) hvalue (hmin rfl)
  | case4 | case6 | case8 | case9 =>
    intro codepoints h
    cases h

/-! ### Fixed-width code units -/

theorem toNat_readU16 (bigEndian : Bool) (a b : UInt8) (rest : Bytes) :
    (readU16 (a :: b :: rest) bigEndian).toNat = (gather bigEndian [a, b]).toNat := by
  cases bigEndian with
  | true => exact toNat_ofU16 a b
  | false => exact toNat_littleU16 a b

theorem toNat_readU32 (bigEndian : Bool) (a b d e : UInt8) (rest : Bytes) :
    (readU32 (a :: b :: d :: e :: rest) bigEndian).toNat =
      (gather bigEndian [a, b, d, e]).toNat := by
  cases bigEndian with
  | true => exact toNat_ofU32 a b d e
  | false => exact toNat_littleU32 a b d e

theorem codeUnit_readU16 (bigEndian : Bool) (a b : UInt8) :
    codeUnit bigEndian 2 (readU16 [a, b] bigEndian).toNat = [a, b] := by
  rw [toNat_readU16]
  exact codeUnit_gather bigEndian [a, b] (by simp)

theorem codeUnit_readU32 (bigEndian : Bool) (a b d e : UInt8) :
    codeUnit bigEndian 4 (readU32 [a, b, d, e] bigEndian).toNat = [a, b, d, e] := by
  rw [toNat_readU32]
  exact codeUnit_gather bigEndian [a, b, d, e] (by simp)

/-- The code point of a surrogate pair. -/
theorem toNat_pair {first second : UInt16} (hlow : 0xD800 ≤ first.toNat)
    (hhigh : first.toNat ≤ 0xDBFF) (hlow' : 0xDC00 ≤ second.toNat)
    (hhigh' : second.toNat ≤ 0xDFFF) :
    ((0x10000 : UInt32) + (((first - 0xD800).toUInt32 <<< 10) |||
      (second - 0xDC00).toUInt32)).toNat =
        0x10000 + ((first.toNat - 0xD800) * 0x400 + (second.toNat - 0xDC00)) := by
  have hfirst : (first - 0xD800).toNat = first.toNat - 0xD800 :=
    UInt16.toNat_sub_of_le _ _ (UInt16.le_iff_toNat_le.2 hlow)
  have hsecond : (second - 0xDC00).toNat = second.toNat - 0xDC00 :=
    UInt16.toNat_sub_of_le _ _ (UInt16.le_iff_toNat_le.2 hlow')
  have hshift : ((first - 0xD800).toUInt32 <<< 10).toNat = (first.toNat - 0xD800) * 2 ^ 10 := by
    rw [UInt32.toNat_shiftLeft, UInt16.toNat_toUInt32, hfirst,
      show (10 : UInt32).toNat % 32 = 10 from rfl, Nat.shiftLeft_eq]
    exact Nat.mod_eq_of_lt (by omega)
  rw [UInt32.toNat_add, UInt32.toNat_or, hshift, UInt16.toNat_toUInt32, hsecond,
    or_eq_add (dvd_mul_left _ _) (by omega)]
  show (0x10000 + _) % 2 ^ 32 = _
  omega

theorem utf16Loop_sound (bigEndian : Bool) (bytes : Bytes) : ∀ {codepoints : List UInt32},
    bytes.length % 2 = 0 → utf16Loop bigEndian bytes = some codepoints →
      TextOf (utf16EncodeChar bigEndian) codepoints bytes := by
  fun_induction utf16Loop bigEndian bytes with
  | case2 a b first hfirst d e rest second hsecond =>
    rename_i ih
    intro codepoints heven h
    simp only [Bool.and_eq_true, decide_eq_true_eq, ge_iff_le, UInt16.le_iff_toNat_le] at hfirst
    simp only [Bool.or_eq_true, decide_eq_true_eq, gt_iff_lt, not_or, UInt16.not_lt,
      UInt16.le_iff_toNat_le] at hsecond
    have hrest : rest.length % 2 = 0 := by
      simp only [List.length_cons] at heven
      omega
    refine .pushBack h (fun l hl => ih hrest hl) fun c hc => ?_
    have hpair : utf16Encode c = [first.toNat, second.toNat] := by
      refine utf16Encode_pair hfirst.1 hsecond.1 hsecond.2 ?_
      rw [← toNat_pair hfirst.1 hfirst.2 hsecond.1 hsecond.2, ← hc]
      rfl
    unfold utf16EncodeChar
    rw [hpair, List.flatMap_cons, List.flatMap_singleton, codeUnit_readU16, codeUnit_readU16]
    rfl
  | case5 a b rest first hhigh hlow =>
    rename_i ih
    intro codepoints heven h
    have hrest : rest.length % 2 = 0 := by
      simp only [List.length_cons] at heven
      omega
    refine .pushBack h (fun l hl => ih hrest hl) fun c hc => ?_
    have hvalue : c.toNat = first.toNat := by
      show c.val.toNat = _
      rw [hc, UInt16.toNat_toUInt32]
    unfold utf16EncodeChar utf16Encode
    rw [hvalue, if_pos first.toNat_lt, List.flatMap_singleton, codeUnit_readU16]
    rfl
  | case6 bytes hshort =>
    intro codepoints heven h
    obtain rfl := Option.some.inj h
    obtain rfl : bytes = [] := by
      rcases bytes with _ | ⟨a, _ | ⟨b, rest⟩⟩
      · rfl
      · cases heven
      · exact (hshort a b rest rfl).elim
    exact ⟨.nil, by simp⟩
  | case1 | case3 | case4 =>
    intro codepoints heven h
    cases h

theorem utf32Loop_sound (bigEndian : Bool) (bytes : Bytes) : ∀ {codepoints : List UInt32},
    bytes.length % 4 = 0 → utf32Loop bigEndian bytes = some codepoints →
      TextOf (utf32EncodeChar bigEndian) codepoints bytes := by
  fun_induction utf32Loop bigEndian bytes with
  | case1 a b d e rest ih =>
    intro codepoints hfour h
    have hrest : rest.length % 4 = 0 := by
      simp only [List.length_cons] at hfour
      omega
    refine .pushBack h (fun l hl => ih hrest hl) fun c hc => ?_
    have hvalue : c.toNat = (readU32 [a, b, d, e] bigEndian).toNat := congrArg UInt32.toNat hc
    unfold utf32EncodeChar
    rw [hvalue, codeUnit_readU32]
    rfl
  | case2 bytes hshort =>
    intro codepoints hfour h
    obtain rfl := Option.some.inj h
    obtain rfl : bytes = [] := by
      rcases bytes with _ | ⟨a, _ | ⟨b, _ | ⟨d, _ | ⟨e, rest⟩⟩⟩⟩
      · rfl
      · cases hfour
      · cases hfour
      · cases hfour
      · exact (hshort a b d e rest rfl).elim
    exact ⟨.nil, by simp⟩

end Decoders

/-! ## Payloads are exact -/

/-- The bytes of a character. -/
def RuntimeEncoding.encodeChar : RuntimeEncoding → Char → Bytes
  | .ascii => fun c => [c.val.toUInt8]
  | .utf8 => String.utf8EncodeChar
  | .utf16LE => utf16EncodeChar false
  | .utf16BE => utf16EncodeChar true
  | .utf32LE => utf32EncodeChar false
  | .utf32BE => utf32EncodeChar true

/-- The bytes of a code unit. -/
def RuntimeEncoding.unitWidth : RuntimeEncoding → ℕ
  | .ascii | .utf8 => 1
  | .utf16LE | .utf16BE => 2
  | .utf32LE | .utf32BE => 4

/-- What a decoder has read: the encoding of enough text, called ASCII whenever it can be. -/
structure Payload (minimumCharacters : ℕ) (encoding : RuntimeEncoding) (codepoints : List UInt32)
    (bytes : Bytes) : Prop extends TextOf encoding.encodeChar codepoints bytes where
  ascii : encoding.unitWidth = 1 → (encoding = .ascii ↔ ∀ cp ∈ codepoints, cp < 0x80)
  atLeast : minimumCharacters ≤ codepoints.length

section Payloads

variable {minimumCharacters : ℕ} {encoding : RuntimeEncoding} {codepoints : List UInt32}
  {bytes : Bytes} {bigEndian : Bool}

theorem atLeast_eq_some {result : Option (List UInt32)}
    (h : atLeast minimumCharacters result = some codepoints) :
    result = some codepoints ∧ minimumCharacters ≤ codepoints.length := by
  obtain ⟨hresult, hlength⟩ := Option.filter_eq_some_iff.1 h
  exact ⟨hresult, by simpa using hlength⟩

theorem decodeUtf8Exact_payload
    (h : decodeUtf8Exact bytes minimumCharacters = some (encoding, codepoints)) :
    encoding.unitWidth = 1 ∧ Payload minimumCharacters encoding codepoints bytes := by
  obtain ⟨l, hl, hpair⟩ := Option.map_eq_some_iff.1 h
  obtain ⟨hloop, hlength⟩ := atLeast_eq_some hl
  obtain ⟨rfl, rfl⟩ := Prod.mk.inj hpair
  obtain ⟨hspells, htext⟩ := utf8Loop_sound bytes hloop
  by_cases hascii : l.all (· < 0x80) = true
  · rw [if_pos hascii]
    rw [List.all_eq_true] at hascii
    have hsmall : ∀ cp ∈ l, cp < 0x80 := fun cp hcp => by simpa using hascii cp hcp
    refine ⟨rfl, ⟨hspells.congr fun c hc => ?_, htext⟩, fun _ => ⟨fun _ => hsmall, fun _ => rfl⟩,
      hlength⟩
    have hlt : c.val.toNat < 0x80 := UInt32.lt_iff_toNat_lt.1 (hsmall _ hc)
    have hbyte : c.val.toNat = c.val.toUInt8.toNat := by
      rw [UInt32.toNat_toUInt8]
      omega
    exact utf8EncodeChar_one (hbyte ▸ hlt) hbyte
  · rw [if_neg hascii]
    refine ⟨rfl, ⟨hspells, htext⟩, fun _ => ⟨fun h => (by cases h), fun hsmall => ?_⟩, hlength⟩
    exact (hascii (List.all_eq_true.2 fun cp hcp => decide_eq_true (hsmall cp hcp))).elim

theorem decodeUnitsExact_payload {width : ℕ} {loop : Bytes → Option (List UInt32)}
    {unitEncoding : RuntimeEncoding} (hwidth : unitEncoding.unitWidth = width) (hone : width ≠ 1)
    (hloop : bytes.length % width = 0 → loop bytes = some codepoints →
      TextOf unitEncoding.encodeChar codepoints bytes)
    (h : decodeUnitsExact width loop unitEncoding bytes minimumCharacters =
      some (encoding, codepoints)) :
    encoding.unitWidth = width ∧ Payload minimumCharacters encoding codepoints bytes := by
  unfold decodeUnitsExact at h
  split_ifs at h with hsize
  simp only [Bool.or_eq_true, beq_iff_eq, bne_iff_ne, not_or, not_not] at hsize
  obtain ⟨l, hl, hpair⟩ := Option.map_eq_some_iff.1 h
  obtain ⟨rfl, rfl⟩ := Prod.mk.inj hpair
  obtain ⟨hresult, hlength⟩ := atLeast_eq_some hl
  exact ⟨hwidth, hloop hsize.2 hresult, fun h => absurd (hwidth.symm.trans h) hone, hlength⟩

theorem decodeUtf16Exact_payload
    (h : decodeUtf16Exact bytes bigEndian minimumCharacters = some (encoding, codepoints)) :
    encoding.unitWidth = 2 ∧ Payload minimumCharacters encoding codepoints bytes := by
  cases bigEndian with
  | false => exact decodeUnitsExact_payload rfl (by decide) (utf16Loop_sound false bytes) h
  | true => exact decodeUnitsExact_payload rfl (by decide) (utf16Loop_sound true bytes) h

theorem decodeUtf32Exact_payload
    (h : decodeUtf32Exact bytes bigEndian minimumCharacters = some (encoding, codepoints)) :
    encoding.unitWidth = 4 ∧ Payload minimumCharacters encoding codepoints bytes := by
  cases bigEndian with
  | false => exact decodeUnitsExact_payload rfl (by decide) (utf32Loop_sound false bytes) h
  | true => exact decodeUnitsExact_payload rfl (by decide) (utf32Loop_sound true bytes) h

end Payloads

end Viy.Runtime
