import Viy.Cxx.Algorithm
import Viy.Runtime.Strings

/-!
# Strings at the start of a buffer

A string ends with a zero code unit, or it starts with the number of its code units. The first kind
is read in every encoding and the reading with most characters is taken; the second kind is taken
only if it can be read in one way. Whichever decoder has found a string, its bytes are those of its
code points in its encoding and layout (`Candidate`).
-/

namespace Viy.Runtime

open Wire

inductive StringLayout where
  | nulTerminated | pascal8 | pascal16 | pascal32
  deriving DecidableEq

structure DecodedString where
  encoding : RuntimeEncoding
  layout : StringLayout
  rawSize : ℕ
  codepoints : List UInt32
  raw : Bytes

structure StringScanOptions where
  imageBigEndian : Bool := false
  allowUnicode : Bool := true
  allowLengthPrefixed : Bool := true
  minimumCharacters : ℕ := 4
  maxCandidateBytes : ℕ := 4096
  maxCandidatesPerWrite : ℕ := 64
  pointerWidth : ℕ := 8
  pointerRanges : List (UInt64 × UInt64) := []

/-! ## Strings that end with a zero code unit -/

def assignCandidate (start : Bytes) (rawSize : ℕ) (encoding : RuntimeEncoding)
    (layout : StringLayout) (codepoints : List UInt32) : DecodedString :=
  ⟨encoding, layout, rawSize, codepoints, start.take rawSize⟩

def decodeNulUtf8 (bytes : Bytes) (minimumCharacters : ℕ) : Option DecodedString :=
  let payloadSize := bytes.findIdx (· == 0)
  if payloadSize == bytes.length then none
  else (decodeUtf8Exact (bytes.take payloadSize) minimumCharacters).map fun result =>
    assignCandidate bytes (payloadSize + 1) result.1 .nulTerminated result.2

/-- Payload sizes are multiples of the width of a code unit, with room for one more; the first one
with a zero behind it decides. -/
def decodeNulUnits (width : ℕ) (isZero : Bytes → Bool)
    (decode : Bytes → Option (RuntimeEncoding × List UInt32)) (bytes : Bytes) :
    Option DecodedString :=
  (((List.range (bytes.length / width)).map (· * width)).find? fun payloadSize =>
    isZero (bytes.drop payloadSize)).bind fun payloadSize =>
      (decode (bytes.take payloadSize)).map fun result =>
        assignCandidate bytes (payloadSize + width) result.1 .nulTerminated result.2

def decodeNulUtf16 (bytes : Bytes) (bigEndian : Bool) (minimumCharacters : ℕ) :
    Option DecodedString :=
  decodeNulUnits 2 (fun p => readU16 p bigEndian == 0)
    (fun payload => decodeUtf16Exact payload bigEndian minimumCharacters) bytes

def decodeNulUtf32 (bytes : Bytes) (bigEndian : Bool) (minimumCharacters : ℕ) :
    Option DecodedString :=
  decodeNulUnits 4 (fun p => readU32 p bigEndian == 0)
    (fun payload => decodeUtf32Exact payload bigEndian minimumCharacters) bytes

/-- `std::make_pair(codepoints.size(), raw_size)` -/
def DecodedString.extent (d : DecodedString) : ℕ × ℕ := (d.codepoints.length, d.rawSize)

def bestNulCandidate (bytes : Bytes) (options : StringScanOptions) : Option DecodedString :=
  let unicode := if options.allowUnicode then
      (decodeNulUtf32 bytes options.imageBigEndian options.minimumCharacters).toList ++
        (decodeNulUtf16 bytes options.imageBigEndian options.minimumCharacters).toList
    else []
  let candidates := unicode ++ (decodeNulUtf8 bytes options.minimumCharacters).toList
  Cxx.maxElement (fun a b => (Cxx.Comparator.tie .nat .nat).less a.extent b.extent) candidates

/-! ## Strings that start with their length -/

def readPrefix (bytes : Bytes) (width : ℕ) (bigEndian : Bool) : UInt64 :=
  match width with
  | 1 => (bytes.getD 0 0).toUInt64
  | 2 => (readU16 bytes bigEndian).toUInt64
  | 4 => (readU32 bytes bigEndian).toUInt64
  | _ => 0

/-- The sizes of the payload and of the whole string. -/
def checkedPayloadSize (units : UInt64) (unitWidth prefixWidth maximum : ℕ) : Option (ℕ × ℕ) :=
  if units == 0 || units.toNat > (2 ^ 64 - 1) / unitWidth then none
  else
    let payload := units.toNat * unitWidth
    if payload > maximum || prefixWidth > maximum - payload then none
    else some (payload, prefixWidth + payload)

/-- One of the three interpretations of a length. -/
def pascalInterpretation (bytes : Bytes) (prefixWidth : ℕ) (layout : StringLayout)
    (options : StringScanOptions) (unitWidth : ℕ)
    (decode : Bytes → Option (RuntimeEncoding × List UInt32)) : Option DecodedString :=
  let units := readPrefix bytes prefixWidth options.imageBigEndian
  (checkedPayloadSize units unitWidth prefixWidth options.maxCandidateBytes).bind fun sizes =>
    if sizes.1 ≤ bytes.length - prefixWidth then
      (decode ((bytes.drop prefixWidth).take sizes.1)).map fun result =>
        assignCandidate bytes sizes.2 result.1 layout result.2
    else none

def addPascalInterpretations (bytes : Bytes) (prefixWidth : ℕ) (layout : StringLayout)
    (options : StringScanOptions) : List DecodedString :=
  let bigEndian := options.imageBigEndian
  let minimumCharacters := options.minimumCharacters
  let interpretation := pascalInterpretation bytes prefixWidth layout options
  if prefixWidth > bytes.length then []
  else
    (interpretation 1 fun payload => decodeUtf8Exact payload minimumCharacters).toList ++
      if options.allowUnicode then
        (interpretation 2 fun payload =>
          decodeUtf16Exact payload bigEndian minimumCharacters).toList ++
        (interpretation 4 fun payload =>
          decodeUtf32Exact payload bigEndian minimumCharacters).toList
      else []

/-- None if the start can be read as a string in two ways. -/
def uniquePascalCandidate (bytes : Bytes) (options : StringScanOptions) : Option DecodedString :=
  if !options.allowLengthPrefixed then none
  else
    match addPascalInterpretations bytes 1 .pascal8 options ++
        addPascalInterpretations bytes 2 .pascal16 options ++
        addPascalInterpretations bytes 4 .pascal32 options with
    | [candidate] => some candidate
    | _ => none

def sameCandidate (a b : DecodedString) : Bool :=
  a.encoding == b.encoding && a.layout == b.layout && a.raw == b.raw &&
    a.codepoints == b.codepoints

/-! ## The bytes of a string -/

/-- `layout_prefix_size` -/
def StringLayout.prefixSize : StringLayout → ℕ
  | .nulTerminated => 0
  | .pascal8 => 1
  | .pascal16 => 2
  | .pascal32 => 4

/-- A text in its layout, if the number of its code units fits into the length. -/
def encodeString (bigEndian : Bool) (encoding : RuntimeEncoding) (layout : StringLayout)
    (text : List Char) : Option Bytes :=
  let payload := text.flatMap encoding.encodeChar
  let units := payload.length / encoding.unitWidth
  match layout with
  | .nulTerminated => some (payload ++ List.replicate encoding.unitWidth 0)
  | layout =>
    if units < 256 ^ layout.prefixSize then
      some (codeUnit bigEndian layout.prefixSize units ++ payload)
    else none

/-- A string that the bytes start with. -/
structure Candidate (bigEndian : Bool) (minimumCharacters : ℕ) (bytes : Bytes) (d : DecodedString) :
    Prop where
  fits : d.rawSize ≤ bytes.length
  raw : d.raw = bytes.take d.rawSize
  encodes : ∃ text : List Char, text.map Char.val = d.codepoints ∧
    encodeString bigEndian d.encoding d.layout text = some d.raw
  text : ∀ cp ∈ d.codepoints, scalarIsText cp = true
  ascii : d.encoding.unitWidth = 1 → (d.encoding = .ascii ↔ ∀ cp ∈ d.codepoints, cp < 0x80)
  atLeast : minimumCharacters ≤ d.codepoints.length

section Candidates

variable {bigEndian : Bool} {minimumCharacters : ℕ} {encoding : RuntimeEncoding}
  {codepoints : List UInt32} {bytes : Bytes} {d : DecodedString}

/-! ### Zero code units -/

theorem Payload.nulTerminated {payloadSize : ℕ}
    (h : Payload minimumCharacters encoding codepoints (bytes.take payloadSize))
    (hfits : payloadSize + encoding.unitWidth ≤ bytes.length)
    (hzero : (bytes.drop payloadSize).take encoding.unitWidth =
      List.replicate encoding.unitWidth 0) :
    Candidate bigEndian minimumCharacters bytes
      (assignCandidate bytes (payloadSize + encoding.unitWidth) encoding .nulTerminated
        codepoints) where
  fits := hfits
  raw := rfl
  encodes := by
    obtain ⟨text, hcodepoints, hpayload⟩ := h.spells
    refine ⟨text, hcodepoints, ?_⟩
    show some (text.flatMap encoding.encodeChar ++ List.replicate encoding.unitWidth 0) =
      some (bytes.take (payloadSize + encoding.unitWidth))
    rw [hpayload, List.take_add, hzero]
  text := h.text
  ascii := h.ascii
  atLeast := h.atLeast

theorem decodeNulUtf8_candidate (h : decodeNulUtf8 bytes minimumCharacters = some d) :
    Candidate bigEndian minimumCharacters bytes d := by
  dsimp only [decodeNulUtf8] at h
  split_ifs at h with hnone
  obtain ⟨⟨encoding, codepoints⟩, hdecode, rfl⟩ := Option.map_eq_some_iff.1 h
  obtain ⟨hwidth, hpayload⟩ := decodeUtf8Exact_payload hdecode
  have hlt : bytes.findIdx (· == 0) < bytes.length :=
    lt_of_le_of_ne List.findIdx_le_length (by simpa using hnone)
  have hzero : bytes[bytes.findIdx (· == 0)] = 0 := by
    simpa using List.findIdx_getElem (p := (· == 0)) (w := hlt)
  have hfits : bytes.findIdx (· == 0) + encoding.unitWidth ≤ bytes.length := by
    rw [hwidth]
    exact hlt
  have hunit : (bytes.drop (bytes.findIdx (· == 0))).take encoding.unitWidth =
      List.replicate encoding.unitWidth 0 := by
    rw [hwidth, List.drop_eq_getElem_cons hlt, hzero]
    rfl
  have hcandidate : Candidate bigEndian minimumCharacters bytes _ :=
    hpayload.nulTerminated hfits hunit
  rwa [hwidth] at hcandidate

theorem decodeNulUnits_candidate {width : ℕ} {isZero : Bytes → Bool}
    {decode : Bytes → Option (RuntimeEncoding × List UInt32)}
    (hzero : ∀ p : Bytes, width ≤ p.length → isZero p = true →
      p.take width = List.replicate width 0)
    (hdecode : ∀ {payload encoding codepoints}, decode payload = some (encoding, codepoints) →
      encoding.unitWidth = width ∧ Payload minimumCharacters encoding codepoints payload)
    (h : decodeNulUnits width isZero decode bytes = some d) :
    Candidate bigEndian minimumCharacters bytes d := by
  obtain ⟨payloadSize, hfind, hmap⟩ := Option.bind_eq_some_iff.1 h
  obtain ⟨⟨encoding, codepoints⟩, hresult, rfl⟩ := Option.map_eq_some_iff.1 hmap
  obtain ⟨rfl, hpayload⟩ := hdecode hresult
  have hfits : payloadSize + encoding.unitWidth ≤ bytes.length := by
    obtain ⟨k, hk, rfl⟩ := List.mem_map.1 (List.mem_of_find?_eq_some hfind)
    have hle := Nat.mul_le_of_le_div _ _ _ (Nat.succ_le_of_lt (List.mem_range.1 hk))
    rwa [Nat.succ_mul] at hle
  refine hpayload.nulTerminated hfits (hzero _ ?_ (by simpa using List.find?_some hfind))
  rw [List.length_drop]
  omega

theorem zero_of_readU16 {p : Bytes} (hlength : 2 ≤ p.length)
    (h : (readU16 p bigEndian == 0) = true) : p.take 2 = List.replicate 2 0 := by
  rcases p with _ | ⟨a, _ | ⟨b, rest⟩⟩
  · cases hlength
  · simp at hlength
  · have hvalue : (gather bigEndian [a, b]).toNat = 0 := by
      rw [← toNat_readU16 bigEndian a b rest, beq_iff_eq.1 h]
      rfl
    exact eq_zeros_of_gather bigEndian (by simp) hvalue

theorem zero_of_readU32 {p : Bytes} (hlength : 4 ≤ p.length)
    (h : (readU32 p bigEndian == 0) = true) : p.take 4 = List.replicate 4 0 := by
  rcases p with _ | ⟨a, _ | ⟨b, _ | ⟨d, _ | ⟨e, rest⟩⟩⟩⟩
  · cases hlength
  · simp at hlength
  · simp at hlength
  · simp at hlength
  · have hvalue : (gather bigEndian [a, b, d, e]).toNat = 0 := by
      rw [← toNat_readU32 bigEndian a b d e rest, beq_iff_eq.1 h]
      rfl
    exact eq_zeros_of_gather bigEndian (by simp) hvalue

/-! ### Lengths -/

theorem encodeString_pascal {layout : StringLayout} (hlayout : layout ≠ .nulTerminated)
    (text : List Char) :
    encodeString bigEndian encoding layout text =
      if (text.flatMap encoding.encodeChar).length / encoding.unitWidth <
          256 ^ layout.prefixSize then
        some (codeUnit bigEndian layout.prefixSize
          ((text.flatMap encoding.encodeChar).length / encoding.unitWidth) ++
            text.flatMap encoding.encodeChar)
      else none := by
  cases layout with
  | nulTerminated => exact absurd rfl hlayout
  | pascal8 => rfl
  | pascal16 => rfl
  | pascal32 => rfl

theorem toNat_readPrefix {layout : StringLayout} (hlayout : layout ≠ .nulTerminated)
    (hlength : layout.prefixSize ≤ bytes.length) :
    (readPrefix bytes layout.prefixSize bigEndian).toNat =
      (gather bigEndian (bytes.take layout.prefixSize)).toNat := by
  cases layout with
  | nulTerminated => exact absurd rfl hlayout
  | pascal8 =>
    rcases bytes with _ | ⟨a, rest⟩
    · cases hlength
    · have hbyte : (gather bigEndian [a]).toNat = a.toNat := by
        cases bigEndian with
        | false => simp [toNat_gather_false, numeral]
        | true => simp [toNat_gather_true, numeral]
      show a.toUInt64.toNat = (gather bigEndian [a]).toNat
      rw [hbyte, UInt8.toNat_toUInt64]
  | pascal16 =>
    rcases bytes with _ | ⟨a, _ | ⟨b, rest⟩⟩
    · cases hlength
    · simp [StringLayout.prefixSize] at hlength
    · show (readU16 (a :: b :: rest) bigEndian).toUInt64.toNat = (gather bigEndian [a, b]).toNat
      rw [UInt16.toNat_toUInt64, toNat_readU16]
  | pascal32 =>
    rcases bytes with _ | ⟨a, _ | ⟨b, _ | ⟨d, _ | ⟨e, rest⟩⟩⟩⟩
    · cases hlength
    · simp [StringLayout.prefixSize] at hlength
    · simp [StringLayout.prefixSize] at hlength
    · simp [StringLayout.prefixSize] at hlength
    · show (readU32 (a :: b :: d :: e :: rest) bigEndian).toUInt64.toNat =
        (gather bigEndian [a, b, d, e]).toNat
      rw [UInt32.toNat_toUInt64, toNat_readU32]

theorem prefixSize_le (layout : StringLayout) : layout.prefixSize ≤ 8 := by
  cases layout <;> decide

theorem unitWidth_pos (encoding : RuntimeEncoding) : 0 < encoding.unitWidth := by
  cases encoding <;> decide

theorem Payload.pascal {layout : StringLayout} {units : ℕ} (hlayout : layout ≠ .nulTerminated)
    (h : Payload minimumCharacters encoding codepoints
      ((bytes.drop layout.prefixSize).take (units * encoding.unitWidth)))
    (hfits : layout.prefixSize + units * encoding.unitWidth ≤ bytes.length)
    (hunits : units = (readPrefix bytes layout.prefixSize bigEndian).toNat) :
    Candidate bigEndian minimumCharacters bytes
      (assignCandidate bytes (layout.prefixSize + units * encoding.unitWidth) encoding layout
        codepoints) where
  fits := hfits
  raw := rfl
  encodes := by
    obtain ⟨text, hcodepoints, hpayload⟩ := h.spells
    have hwidth : (bytes.take layout.prefixSize).length = layout.prefixSize := by
      rw [List.length_take]
      omega
    have hsmall : (bytes.take layout.prefixSize).length ≤ 8 := by
      rw [hwidth]
      exact prefixSize_le layout
    have hcount : (text.flatMap encoding.encodeChar).length / encoding.unitWidth = units := by
      have hlength : (text.flatMap encoding.encodeChar).length = units * encoding.unitWidth := by
        rw [hpayload, List.length_take, List.length_drop]
        omega
      rw [hlength, Nat.mul_div_cancel _ (unitWidth_pos encoding)]
    rw [toNat_readPrefix hlayout (by omega)] at hunits
    have hlt : units < 256 ^ layout.prefixSize := by
      have hgather := toNat_gather_lt bigEndian hsmall
      rwa [hwidth, ← hunits] at hgather
    have hunit : codeUnit bigEndian layout.prefixSize units = bytes.take layout.prefixSize := by
      have hgather := codeUnit_gather bigEndian _ hsmall
      rwa [hwidth, ← hunits] at hgather
    refine ⟨text, hcodepoints, ?_⟩
    show encodeString bigEndian encoding layout text =
      some (bytes.take (layout.prefixSize + units * encoding.unitWidth))
    rw [encodeString_pascal hlayout, hcount, if_pos hlt, hunit, hpayload, ← List.take_add]
  text := h.text
  ascii := h.ascii
  atLeast := h.atLeast

theorem checkedPayloadSize_eq_some {units : UInt64} {unitWidth prefixWidth maximum : ℕ}
    {sizes : ℕ × ℕ} (h : checkedPayloadSize units unitWidth prefixWidth maximum = some sizes) :
    sizes = (units.toNat * unitWidth, prefixWidth + units.toNat * unitWidth) := by
  dsimp only [checkedPayloadSize] at h
  split_ifs at h
  exact (Option.some.inj h).symm

theorem pascalInterpretation_candidate {options : StringScanOptions} {layout : StringLayout}
    {unitWidth : ℕ} {decode : Bytes → Option (RuntimeEncoding × List UInt32)}
    (hlayout : layout ≠ .nulTerminated) (hsize : layout.prefixSize ≤ bytes.length)
    (hdecode : ∀ {payload encoding codepoints}, decode payload = some (encoding, codepoints) →
      encoding.unitWidth = unitWidth ∧
        Payload options.minimumCharacters encoding codepoints payload)
    (h : pascalInterpretation bytes layout.prefixSize layout options unitWidth decode = some d) :
    Candidate options.imageBigEndian options.minimumCharacters bytes d := by
  obtain ⟨sizes, hsizes, hresult⟩ := Option.bind_eq_some_iff.1 h
  obtain rfl := checkedPayloadSize_eq_some hsizes
  split_ifs at hresult with hfits
  obtain ⟨⟨encoding, codepoints⟩, hpayload, rfl⟩ := Option.map_eq_some_iff.1 hresult
  obtain ⟨rfl, hpayload⟩ := hdecode hpayload
  exact hpayload.pascal hlayout (by omega) rfl

theorem addPascalInterpretations_candidate {options : StringScanOptions} (layout : StringLayout)
    (hlayout : layout ≠ .nulTerminated)
    (h : d ∈ addPascalInterpretations bytes layout.prefixSize layout options) :
    Candidate options.imageBigEndian options.minimumCharacters bytes d := by
  dsimp only [addPascalInterpretations] at h
  by_cases hsize : layout.prefixSize > bytes.length
  · rw [if_pos hsize] at h
    cases h
  · rw [if_neg hsize, List.mem_append] at h
    have hsize : layout.prefixSize ≤ bytes.length := Nat.le_of_not_gt hsize
    rcases h with h | h
    · exact pascalInterpretation_candidate hlayout hsize decodeUtf8Exact_payload
        (Option.mem_toList.1 h)
    · split_ifs at h
      · rcases List.mem_append.1 h with h | h
        · exact pascalInterpretation_candidate hlayout hsize decodeUtf16Exact_payload
            (Option.mem_toList.1 h)
        · exact pascalInterpretation_candidate hlayout hsize decodeUtf32Exact_payload
            (Option.mem_toList.1 h)
      · cases h

/-! ### The chosen string -/

theorem uniquePascalCandidate_candidate {options : StringScanOptions}
    (h : uniquePascalCandidate bytes options = some d) :
    Candidate options.imageBigEndian options.minimumCharacters bytes d := by
  unfold uniquePascalCandidate at h
  split_ifs at h
  split at h
  · rename_i candidate hcandidates
    obtain rfl := Option.some.inj h
    have hmem : candidate ∈ addPascalInterpretations bytes 1 .pascal8 options ++
        addPascalInterpretations bytes 2 .pascal16 options ++
        addPascalInterpretations bytes 4 .pascal32 options := by
      rw [hcandidates]
      exact List.mem_singleton_self _
    rcases List.mem_append.1 hmem with hmem | hmem
    · rcases List.mem_append.1 hmem with hmem | hmem
      · exact addPascalInterpretations_candidate .pascal8 (by decide) hmem
      · exact addPascalInterpretations_candidate .pascal16 (by decide) hmem
    · exact addPascalInterpretations_candidate .pascal32 (by decide) hmem
  · cases h

theorem bestNulCandidate_candidate {options : StringScanOptions}
    (h : bestNulCandidate bytes options = some d) :
    Candidate options.imageBigEndian options.minimumCharacters bytes d := by
  have hmem := Cxx.mem_of_minElement h
  rcases List.mem_append.1 hmem with hmem | hmem
  · split_ifs at hmem
    · rcases List.mem_append.1 hmem with hmem | hmem
      · exact decodeNulUnits_candidate (fun _ => zero_of_readU32) decodeUtf32Exact_payload
          (Option.mem_toList.1 hmem)
      · exact decodeNulUnits_candidate (fun _ => zero_of_readU16) decodeUtf16Exact_payload
          (Option.mem_toList.1 hmem)
    · cases hmem
  · exact decodeNulUtf8_candidate (Option.mem_toList.1 hmem)

end Candidates

end Viy.Runtime
