import Viy.Facts.Utf
import Viy.Wire.Utf

/-!
# The text checks accept exactly text

A string candidate is stored with its encoding, and a fact is valid only if its bytes are text in
that encoding. Each check recognizes its encoding: it accepts the bytes of every list of Unicode
scalar values and nothing else, and the list is determined by the bytes. One lemma per encoding says
that the check goes on behind a character, another one that it finds a character in front.
-/

namespace Viy.Analysis

open Wire

/-! ## UTF-8 -/

/-- The continuation bytes are checked first, then the scalar value that they complete. -/
theorem utf8Continue_eq_true_iff {minimum : UInt32} {tail : Bytes} : ∀ {lead : UInt32},
    (lead.toNat + 1) * 64 ^ tail.length ≤ 2 ^ 32 →
      (utf8Continue minimum lead tail = true ↔ (∀ b ∈ tail, b &&& 0xC0 = 0x80) ∧
        ∃ c : Char, c.val.toNat = tail.foldl (fun n b => n * 64 + b.toNat % 64) lead.toNat ∧
          minimum.toNat ≤ c.val.toNat) := by
  induction tail with
  | nil =>
    intro lead _
    have hrange : utf8Continue minimum lead [] = true ↔ minimum.toNat ≤ lead.toNat ∧
        (lead.toNat < 0xD800 ∨ 0xDFFF < lead.toNat ∧ lead.toNat < 0x110000) := by
      simp only [utf8Continue, Bool.not_eq_true', Bool.or_eq_false_iff, Bool.and_eq_false_imp,
        decide_eq_false_iff_not, decide_eq_true_eq, UInt32.le_iff_toNat_le,
        UInt32.lt_iff_toNat_lt, gt_iff_lt, ge_iff_le, UInt32.reduceToNat]
      omega
    rw [hrange, List.foldl_nil]
    constructor
    · rintro ⟨hmin, hvalid⟩
      obtain ⟨c, hc⟩ := exists_char hvalid
      exact ⟨by simp, c, hc, hc.symm ▸ hmin⟩
    · rintro ⟨-, c, hc, hmin⟩
      exact hc ▸ ⟨hmin, isValidChar_toNat c⟩
  | cons b tail ih =>
    intro lead hfits
    obtain ⟨hnext, hfits'⟩ := shiftIn6_fits hfits b
    rw [utf8Continue, List.foldl_cons, List.forall_mem_cons]
    by_cases hb : b &&& 0xC0 = 0x80
    · rw [if_neg (by simpa using hb), ih (by rwa [hnext]), hnext]
      simp only [hb, true_and]
    · rw [if_pos (by simpa using hb)]
      exact iff_of_false Bool.false_ne_true fun h => hb h.1.1

section Sequences

variable {first a b d : UInt8}

theorem utf8Continue_two (hlow : 0xC2 ≤ first.toNat) (hhigh : first.toNat ≤ 0xDF) :
    utf8Continue 0x80 (first &&& 0x1f).toUInt32 [a] = true ↔ ∃ c, Utf8Sequence c [first, a] := by
  have hlead := toNat_and_low first 0x1F 5 rfl
  have hfits : (first.toNat % 2 ^ 5 + 1) * 64 ^ [a].length ≤ 2 ^ 32 := by
    rw [List.length_singleton]
    omega
  rw [utf8Continue_eq_true_iff (by rwa [hlead]), hlead]
  constructor
  · rintro ⟨htail, c, hc, -⟩
    exact ⟨c, .two hlow hhigh (htail a (by simp)) hc⟩
  · rintro ⟨c, hsequence⟩
    cases hsequence with
    | two _ _ ha hc =>
      -- the lead byte is above 0xC1, so the form is not overlong
      refine ⟨by simpa using ha, c, hc, ?_⟩
      show 0x80 ≤ c.val.toNat
      omega

theorem utf8Continue_three (hlow : 0xE0 ≤ first.toNat) (hhigh : first.toNat ≤ 0xEF) :
    utf8Continue 0x800 (first &&& 0x0f).toUInt32 [a, b] = true ↔
      ∃ c, Utf8Sequence c [first, a, b] := by
  have hlead := toNat_and_low first 0x0F 4 rfl
  have hfits : (first.toNat % 2 ^ 4 + 1) * 64 ^ [a, b].length ≤ 2 ^ 32 := by
    show (first.toNat % 2 ^ 4 + 1) * 64 ^ 2 ≤ 2 ^ 32
    omega
  rw [utf8Continue_eq_true_iff (by rwa [hlead]), hlead]
  constructor
  · rintro ⟨htail, c, hc, hmin⟩
    exact ⟨c, .three hlow hhigh (htail a (by simp)) (htail b (by simp)) hc hmin⟩
  · rintro ⟨c, hsequence⟩
    cases hsequence with
    | three _ _ ha hb hc hmin => exact ⟨by simpa using ⟨ha, hb⟩, c, hc, hmin⟩

theorem utf8Continue_four (hlow : 0xF0 ≤ first.toNat) (hhigh : first.toNat ≤ 0xF4) :
    utf8Continue 0x10000 (first &&& 0x07).toUInt32 [a, b, d] = true ↔
      ∃ c, Utf8Sequence c [first, a, b, d] := by
  have hlead := toNat_and_low first 0x07 3 rfl
  have hfits : (first.toNat % 2 ^ 3 + 1) * 64 ^ [a, b, d].length ≤ 2 ^ 32 := by
    show (first.toNat % 2 ^ 3 + 1) * 64 ^ 3 ≤ 2 ^ 32
    omega
  rw [utf8Continue_eq_true_iff (by rwa [hlead]), hlead]
  constructor
  · rintro ⟨htail, c, hc, hmin⟩
    exact ⟨c, .four hlow hhigh (htail a (by simp)) (htail b (by simp)) (htail d (by simp)) hc hmin⟩
  · rintro ⟨c, hsequence⟩
    cases hsequence with
    | four _ _ ha hb hd hc hmin => exact ⟨by simpa using ⟨ha, hb, hd⟩, c, hc, hmin⟩

/-! ### One turn of the loop -/

theorem validUtf8_cons (first : UInt8) (rest : Bytes) : validUtf8 (first :: rest) =
    if first ≤ 0x7f then validUtf8 rest
    else if first ≥ 0xc2 && first ≤ 0xdf then
      match rest with
      | a :: rest => utf8Continue 0x80 (first &&& 0x1f).toUInt32 [a] && validUtf8 rest
      | _ => false
    else if first ≥ 0xe0 && first ≤ 0xef then
      match rest with
      | a :: b :: rest =>
        utf8Continue 0x800 (first &&& 0x0f).toUInt32 [a, b] && validUtf8 rest
      | _ => false
    else if first ≥ 0xf0 && first ≤ 0xf4 then
      match rest with
      | a :: b :: c :: rest =>
        utf8Continue 0x10000 (first &&& 0x07).toUInt32 [a, b, c] && validUtf8 rest
      | _ => false
    else false := by
  conv_lhs => unfold validUtf8
  rfl

variable {rest : Bytes}

theorem not_le_of_gt {high : UInt8} (h : high.toNat < first.toNat) : ¬ first ≤ high :=
  fun hle => Nat.not_le.2 h (UInt8.le_iff_toNat_le.1 hle)

theorem not_inRange_of_gt {low high : UInt8} (h : high.toNat < first.toNat) :
    ¬ (decide (first ≥ low) && decide (first ≤ high)) = true :=
  fun hrange => Nat.not_le.2 h (inRange_iff.1 hrange).2

theorem validUtf8_one (h : first.toNat < 0x80) :
    validUtf8 (first :: rest) = validUtf8 rest := by
  rw [validUtf8_cons, if_pos]
  exact UInt8.le_iff_toNat_le.2 (Nat.le_of_lt_succ h)

theorem validUtf8_two (hlow : 0xC2 ≤ first.toNat) (hhigh : first.toNat ≤ 0xDF) :
    validUtf8 (first :: a :: rest) =
      (utf8Continue 0x80 (first &&& 0x1f).toUInt32 [a] && validUtf8 rest) := by
  rw [validUtf8_cons, if_neg, if_pos]
  · exact inRange_iff.2 ⟨hlow, hhigh⟩
  · exact not_le_of_gt (lt_of_lt_of_le (by decide) hlow)

theorem validUtf8_three (hlow : 0xE0 ≤ first.toNat) (hhigh : first.toNat ≤ 0xEF) :
    validUtf8 (first :: a :: b :: rest) =
      (utf8Continue 0x800 (first &&& 0x0f).toUInt32 [a, b] && validUtf8 rest) := by
  rw [validUtf8_cons, if_neg, if_neg, if_pos]
  · exact inRange_iff.2 ⟨hlow, hhigh⟩
  · exact not_inRange_of_gt (lt_of_lt_of_le (by decide) hlow)
  · exact not_le_of_gt (lt_of_lt_of_le (by decide) hlow)

theorem validUtf8_four (hlow : 0xF0 ≤ first.toNat) (hhigh : first.toNat ≤ 0xF4) :
    validUtf8 (first :: a :: b :: d :: rest) =
      (utf8Continue 0x10000 (first &&& 0x07).toUInt32 [a, b, d] && validUtf8 rest) := by
  rw [validUtf8_cons, if_neg, if_neg, if_neg, if_pos]
  · exact inRange_iff.2 ⟨hlow, hhigh⟩
  · exact not_inRange_of_gt (lt_of_lt_of_le (by decide) hlow)
  · exact not_inRange_of_gt (lt_of_lt_of_le (by decide) hlow)
  · exact not_le_of_gt (lt_of_lt_of_le (by decide) hlow)

end Sequences

theorem validUtf8_encodeChar_append (c : Char) (rest : Bytes) :
    validUtf8 (String.utf8EncodeChar c ++ rest) = validUtf8 rest := by
  have hsequence : Utf8Sequence c (String.utf8EncodeChar c) := utf8Sequence_iff.2 rfl
  generalize String.utf8EncodeChar c = bytes at hsequence ⊢
  cases hsequence with
  | one hfirst hc => exact validUtf8_one hfirst
  | two hfirst hlast ha hc =>
    have hcontinue := (utf8Continue_two hfirst hlast).2 ⟨c, .two hfirst hlast ha hc⟩
    simp only [List.cons_append, List.nil_append, validUtf8_two hfirst hlast, hcontinue,
      Bool.true_and]
  | three hfirst hlast ha hb hc hmin =>
    have hcontinue := (utf8Continue_three hfirst hlast).2 ⟨c, .three hfirst hlast ha hb hc hmin⟩
    simp only [List.cons_append, List.nil_append, validUtf8_three hfirst hlast, hcontinue,
      Bool.true_and]
  | four hfirst hlast ha hb hd hc hmin =>
    have hcontinue :=
      (utf8Continue_four hfirst hlast).2 ⟨c, .four hfirst hlast ha hb hd hc hmin⟩
    simp only [List.cons_append, List.nil_append, validUtf8_four hfirst hlast, hcontinue,
      Bool.true_and]

/-- The first bytes of accepted bytes are those of a character. -/
theorem exists_utf8EncodeChar_append (bytes : Bytes) (hne : bytes ≠ [])
    (hvalid : validUtf8 bytes = true) : ∃ c rest, bytes = String.utf8EncodeChar c ++ rest := by
  -- what is left to find is the sequence
  suffices h : ∃ c sequence rest, Utf8Sequence c sequence ∧ bytes = sequence ++ rest by
    obtain ⟨c, sequence, rest, hsequence, rfl⟩ := h
    exact ⟨c, rest, by rw [utf8Sequence_iff.1 hsequence]⟩
  cases bytes with
  | nil => exact absurd rfl hne
  | cons first rest =>
    rw [validUtf8_cons] at hvalid
    split_ifs at hvalid with hone htwo hthree hfour
    · have hfirst := UInt8.le_iff_toNat_le.1 hone
      obtain ⟨c, hc⟩ := exists_char (Or.inl (lt_of_le_of_lt hfirst (by decide)))
      exact ⟨c, [first], rest, .one (Nat.lt_succ_of_le hfirst) hc, rfl⟩
    · obtain ⟨hlow, hhigh⟩ := inRange_iff.1 htwo
      rcases rest with _ | ⟨a, rest⟩
      · cases hvalid
      · obtain ⟨c, hc⟩ := (utf8Continue_two hlow hhigh).1 (Bool.and_eq_true_iff.1 hvalid).1
        exact ⟨c, [first, a], rest, hc, rfl⟩
    · obtain ⟨hlow, hhigh⟩ := inRange_iff.1 hthree
      rcases rest with _ | ⟨a, _ | ⟨b, rest⟩⟩
      · cases hvalid
      · cases hvalid
      · obtain ⟨c, hc⟩ := (utf8Continue_three hlow hhigh).1 (Bool.and_eq_true_iff.1 hvalid).1
        exact ⟨c, [first, a, b], rest, hc, rfl⟩
    · obtain ⟨hlow, hhigh⟩ := inRange_iff.1 hfour
      rcases rest with _ | ⟨a, _ | ⟨b, _ | ⟨d, rest⟩⟩⟩
      · cases hvalid
      · cases hvalid
      · cases hvalid
      · obtain ⟨c, hc⟩ := (utf8Continue_four hlow hhigh).1 (Bool.and_eq_true_iff.1 hvalid).1
        exact ⟨c, [first, a, b, d], rest, hc, rfl⟩

theorem recognizes_validUtf8 : Recognizes String.utf8EncodeChar validUtf8 :=
  recognizes_of_chars delimits_utf8EncodeChar (fun _ => String.utf8EncodeChar_ne_nil) rfl
    validUtf8_encodeChar_append exists_utf8EncodeChar_append

/-! ## Code units -/

section Units

variable {littleEndian : Bool} {a b d e : UInt8} {rest : Bytes}

theorem codeUnit_readU16CodeUnit :
    codeUnit (!littleEndian) 2 (readU16CodeUnit a b littleEndian).toNat = [a, b] := by
  have hread : (readU16CodeUnit a b littleEndian).toNat =
      (gather (!littleEndian) [a, b]).toNat := by
    cases littleEndian with
    | true => exact toNat_littleU16 a b
    | false => exact toNat_ofU16 a b
  rw [hread]
  exact codeUnit_gather _ [a, b] (by simp)

theorem codeUnit_readU32CodeUnit :
    codeUnit (!littleEndian) 4 (readU32CodeUnit a b d e littleEndian).toNat = [a, b, d, e] := by
  have hread : (readU32CodeUnit a b d e littleEndian).toNat =
      (gather (!littleEndian) [a, b, d, e]).toNat := by
    cases littleEndian with
    | true => exact toNat_littleU32 a b d e
    | false => exact toNat_ofU32 a b d e
  rw [hread]
  exact codeUnit_gather _ [a, b, d, e] (by simp)

/-- The bytes of a unit are read back. -/
theorem exists_readU16CodeUnit (littleEndian : Bool) {n : ℕ} (hn : n < 0x10000) :
    ∃ a b : UInt8, codeUnit (!littleEndian) 2 n = [a, b] ∧
      (readU16CodeUnit a b littleEndian).toNat = n := by
  obtain ⟨a, b, hbytes⟩ : ∃ a b, codeUnit (!littleEndian) 2 n = [a, b] :=
    List.length_eq_two.1 length_codeUnit
  have hread : codeUnit (!littleEndian) 2 (readU16CodeUnit a b littleEndian).toNat =
      codeUnit (!littleEndian) 2 n := codeUnit_readU16CodeUnit.trans hbytes.symm
  exact ⟨a, b, hbytes, codeUnit_injective (by decide) (UInt16.toNat_lt _) hn hread⟩

/-! ### UTF-16 -/

theorem utf16Units_cons : utf16Units littleEndian (a :: b :: rest) =
    let unit := readU16CodeUnit a b littleEndian
    if unit ≥ 0xd800 && unit ≤ 0xdbff then
      match rest with
      | c :: d :: rest =>
        let low := readU16CodeUnit c d littleEndian
        if low < 0xdc00 || low > 0xdfff then false else utf16Units littleEndian rest
      | _ => false
    else if unit ≥ 0xdc00 && unit ≤ 0xdfff then false
    else utf16Units littleEndian rest := by
  conv_lhs => unfold utf16Units
  rfl

theorem unitInRange_iff {unit low high : UInt16} :
    (decide (unit ≥ low) && decide (unit ≤ high)) = true ↔
      low.toNat ≤ unit.toNat ∧ unit.toNat ≤ high.toNat := by
  rw [Bool.and_eq_true, decide_eq_true_eq, decide_eq_true_eq]
  exact and_congr UInt16.le_iff_toNat_le UInt16.le_iff_toNat_le

theorem highSurrogate_iff {unit : UInt16} :
    (decide (unit ≥ 0xd800) && decide (unit ≤ 0xdbff)) = true ↔
      0xD800 ≤ unit.toNat ∧ unit.toNat ≤ 0xDBFF := unitInRange_iff

theorem lowSurrogate_iff {unit : UInt16} :
    (decide (unit ≥ 0xdc00) && decide (unit ≤ 0xdfff)) = true ↔
      0xDC00 ≤ unit.toNat ∧ unit.toNat ≤ 0xDFFF := unitInRange_iff

theorem notLowSurrogate_iff {unit : UInt16} :
    (decide (unit < 0xdc00) || decide (unit > 0xdfff)) = true ↔
      ¬ (0xDC00 ≤ unit.toNat ∧ unit.toNat ≤ 0xDFFF) := by
  rw [Bool.or_eq_true, decide_eq_true_eq, decide_eq_true_eq, not_and_or, Nat.not_le, Nat.not_le]
  exact or_congr UInt16.lt_iff_toNat_lt UInt16.lt_iff_toNat_lt

theorem utf16Units_single
    (h : ¬ (0xD800 ≤ (readU16CodeUnit a b littleEndian).toNat ∧
      (readU16CodeUnit a b littleEndian).toNat ≤ 0xDFFF)) :
    utf16Units littleEndian (a :: b :: rest) = utf16Units littleEndian rest := by
  rw [utf16Units_cons]
  dsimp only
  rw [if_neg, if_neg]
  · rw [lowSurrogate_iff]
    omega
  · rw [highSurrogate_iff]
    omega

theorem utf16Units_pair
    (hhigh : 0xD800 ≤ (readU16CodeUnit a b littleEndian).toNat ∧
      (readU16CodeUnit a b littleEndian).toNat ≤ 0xDBFF)
    (hlow : 0xDC00 ≤ (readU16CodeUnit d e littleEndian).toNat ∧
      (readU16CodeUnit d e littleEndian).toNat ≤ 0xDFFF) :
    utf16Units littleEndian (a :: b :: d :: e :: rest) = utf16Units littleEndian rest := by
  rw [utf16Units_cons]
  dsimp only
  rw [if_pos (highSurrogate_iff.2 hhigh), if_neg]
  rw [notLowSurrogate_iff]
  exact not_not.2 hlow

theorem utf16Units_encodeChar_append (c : Char) (rest : Bytes) :
    utf16Units littleEndian (utf16EncodeChar (!littleEndian) c ++ rest) =
      utf16Units littleEndian rest := by
  have hvalid : c.toNat < 0xD800 ∨ 0xDFFF < c.toNat ∧ c.toNat < 0x110000 := isValidChar_toNat c
  rcases Nat.lt_or_ge c.toNat 0x10000 with hsmall | hlarge
  · obtain ⟨a, b, hbytes, hread⟩ := exists_readU16CodeUnit littleEndian hsmall
    rw [utf16EncodeChar_of_lt _ hsmall, hbytes]
    exact utf16Units_single (by omega)
  · obtain ⟨a, b, hhigh, hread⟩ := exists_readU16CodeUnit littleEndian
      (by omega : 0xD800 + (c.toNat - 0x10000) / 0x400 < 0x10000)
    obtain ⟨d, e, hlow, hread'⟩ := exists_readU16CodeUnit littleEndian
      (by omega : 0xDC00 + (c.toNat - 0x10000) % 0x400 < 0x10000)
    rw [utf16EncodeChar_of_le _ hlarge, hhigh, hlow]
    exact utf16Units_pair (by omega) (by omega)

/-- Two bytes are a character, or four are. -/
theorem exists_utf16EncodeChar_append (bytes : Bytes) (hne : bytes ≠ [])
    (hvalid : validUtf16 bytes littleEndian = true) :
    ∃ c rest, bytes = utf16EncodeChar (!littleEndian) c ++ rest := by
  rw [validUtf16] at hvalid
  split_ifs at hvalid with hodd
  rcases bytes with _ | ⟨a, _ | ⟨b, rest⟩⟩
  · exact absurd rfl hne
  · exact absurd rfl hodd
  · rw [utf16Units_cons] at hvalid
    dsimp only at hvalid
    split_ifs at hvalid with hhigh hlow
    · rcases rest with _ | ⟨d, _ | ⟨e, rest⟩⟩
      · cases hvalid
      · cases hvalid
      · dsimp only at hvalid
        split_ifs at hvalid with hnot
        rw [notLowSurrogate_iff, not_not] at hnot
        rw [highSurrogate_iff] at hhigh
        obtain ⟨c, hc⟩ : ∃ c : Char, c.toNat = 0x10000 +
            (((readU16CodeUnit a b littleEndian).toNat - 0xD800) * 0x400 +
              ((readU16CodeUnit d e littleEndian).toNat - 0xDC00)) := exists_char (by omega)
        refine ⟨c, rest, ?_⟩
        rw [utf16EncodeChar, utf16Encode_pair hhigh.1 hnot.1 hnot.2 hc, List.flatMap_cons,
          List.flatMap_singleton, codeUnit_readU16CodeUnit, codeUnit_readU16CodeUnit]
        rfl
    · rw [highSurrogate_iff] at hhigh
      rw [lowSurrogate_iff] at hlow
      have hlt := (readU16CodeUnit a b littleEndian).toNat_lt
      obtain ⟨c, hc⟩ : ∃ c : Char, c.toNat = (readU16CodeUnit a b littleEndian).toNat :=
        exists_char (by omega)
      refine ⟨c, rest, ?_⟩
      rw [utf16EncodeChar_of_lt _ (hc.symm ▸ hlt), hc, codeUnit_readU16CodeUnit]
      rfl

theorem recognizes_validUtf16 (littleEndian : Bool) :
    Recognizes (utf16EncodeChar (!littleEndian)) (validUtf16 · littleEndian) := by
  have hlength : ∀ c : Char, (utf16EncodeChar (!littleEndian) c).length % 2 = 0 ∧
      utf16EncodeChar (!littleEndian) c ≠ [] := by
    intro c
    rw [← List.length_pos_iff]
    rcases Nat.lt_or_ge c.toNat 0x10000 with hsmall | hlarge
    · rw [utf16EncodeChar_of_lt _ hsmall, length_codeUnit]
      decide
    · rw [utf16EncodeChar_of_le _ hlarge, List.length_append, length_codeUnit, length_codeUnit]
      decide
  refine recognizes_of_chars (delimits_utf16EncodeChar _) (fun c => (hlength c).2) rfl ?_
    exists_utf16EncodeChar_append
  intro c rest
  have heven : (utf16EncodeChar (!littleEndian) c ++ rest).length % 2 = rest.length % 2 := by
    rw [List.length_append, Nat.add_mod, (hlength c).1, Nat.zero_add, Nat.mod_mod]
  simp only [validUtf16, heven, utf16Units_encodeChar_append]

/-! ### UTF-32 -/

theorem utf32Units_cons : utf32Units littleEndian (a :: b :: d :: e :: rest) =
    if readU32CodeUnit a b d e littleEndian > 0x10ffff ||
        (readU32CodeUnit a b d e littleEndian ≥ 0xd800 &&
          readU32CodeUnit a b d e littleEndian ≤ 0xdfff) then false
    else utf32Units littleEndian rest := by
  rw [utf32Units]

theorem notScalar_iff {codepoint : UInt32} :
    (decide (codepoint > 0x10ffff) ||
      (decide (codepoint ≥ 0xd800) && decide (codepoint ≤ 0xdfff))) = true ↔
        ¬ (codepoint.toNat < 0xD800 ∨ 0xDFFF < codepoint.toNat ∧ codepoint.toNat < 0x110000) := by
  simp only [Bool.or_eq_true, Bool.and_eq_true, decide_eq_true_eq, gt_iff_lt, ge_iff_le,
    UInt32.lt_iff_toNat_lt, UInt32.le_iff_toNat_le, UInt32.reduceToNat]
  omega

theorem exists_readU32CodeUnit (littleEndian : Bool) {n : ℕ} (hn : n < 2 ^ 32) :
    ∃ a b d e : UInt8, codeUnit (!littleEndian) 4 n = [a, b, d, e] ∧
      (readU32CodeUnit a b d e littleEndian).toNat = n := by
  obtain ⟨a, b, d, e, hbytes⟩ : ∃ a b d e, codeUnit (!littleEndian) 4 n = [a, b, d, e] :=
    List.length_eq_four.1 length_codeUnit
  have hread : codeUnit (!littleEndian) 4 (readU32CodeUnit a b d e littleEndian).toNat =
      codeUnit (!littleEndian) 4 n := codeUnit_readU32CodeUnit.trans hbytes.symm
  exact ⟨a, b, d, e, hbytes, codeUnit_injective (by decide) (UInt32.toNat_lt _) hn hread⟩

theorem utf32Units_encodeChar_append (c : Char) (rest : Bytes) :
    utf32Units littleEndian (utf32EncodeChar (!littleEndian) c ++ rest) =
      utf32Units littleEndian rest := by
  have hvalid : c.toNat < 0xD800 ∨ 0xDFFF < c.toNat ∧ c.toNat < 0x110000 := isValidChar_toNat c
  obtain ⟨a, b, d, e, hbytes, hread⟩ :=
    exists_readU32CodeUnit littleEndian (by omega : c.toNat < 2 ^ 32)
  rw [utf32EncodeChar, hbytes]
  refine utf32Units_cons.trans (if_neg ?_)
  rw [notScalar_iff, hread]
  exact not_not.2 hvalid

theorem exists_utf32EncodeChar_append (bytes : Bytes) (hne : bytes ≠ [])
    (hvalid : validUtf32 bytes littleEndian = true) :
    ∃ c rest, bytes = utf32EncodeChar (!littleEndian) c ++ rest := by
  rw [validUtf32] at hvalid
  split_ifs at hvalid with hpart
  rcases bytes with _ | ⟨a, _ | ⟨b, _ | ⟨d, _ | ⟨e, rest⟩⟩⟩⟩
  · exact absurd rfl hne
  · exact absurd rfl hpart
  · exact absurd rfl hpart
  · exact absurd rfl hpart
  · rw [utf32Units_cons] at hvalid
    split_ifs at hvalid with hnot
    rw [notScalar_iff, not_not] at hnot
    obtain ⟨c, hc⟩ : ∃ c : Char, c.toNat = (readU32CodeUnit a b d e littleEndian).toNat :=
      exists_char hnot
    refine ⟨c, rest, ?_⟩
    rw [utf32EncodeChar, hc, codeUnit_readU32CodeUnit]
    rfl

theorem recognizes_validUtf32 (littleEndian : Bool) :
    Recognizes (utf32EncodeChar (!littleEndian)) (validUtf32 · littleEndian) := by
  have hlength : ∀ c : Char, (utf32EncodeChar (!littleEndian) c).length = 4 :=
    fun _ => length_codeUnit
  have hne : ∀ c : Char, utf32EncodeChar (!littleEndian) c ≠ [] := fun c =>
    List.length_pos_iff.1 (by rw [hlength]; decide)
  refine recognizes_of_chars (delimits_utf32EncodeChar _) hne rfl ?_ exists_utf32EncodeChar_append
  intro c rest
  have hfour : (utf32EncodeChar (!littleEndian) c ++ rest).length % 4 = rest.length % 4 := by
    rw [List.length_append, hlength, Nat.add_mod_left]
  simp only [validUtf32, hfour, utf32Units_encodeChar_append]

end Units

/-- **Text.** Every check accepts exactly the bytes of the lists of scalar values in its encoding,
and the bytes determine the list. -/
theorem valid_utf_exact : Recognizes String.utf8EncodeChar validUtf8 ∧ ∀ littleEndian,
    Recognizes (utf16EncodeChar !littleEndian) (validUtf16 · littleEndian) ∧
      Recognizes (utf32EncodeChar !littleEndian) (validUtf32 · littleEndian) :=
  ⟨recognizes_validUtf8, fun littleEndian =>
    ⟨recognizes_validUtf16 littleEndian, recognizes_validUtf32 littleEndian⟩⟩

end Viy.Analysis
