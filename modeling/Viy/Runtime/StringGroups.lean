import Viy.Runtime.PointerWords

/-!
# String groups

`collect_string_groups` scans every observation from left to right. At an offset it takes the one
string it can read there and goes on behind it, or it moves on by one byte; strings that are read at
the same place with the same bytes are one group. `slices` lists what the scan of an observation
takes. Every group is such a slice, and is the encoding of its code points.
-/

namespace Viy.Runtime

open Wire Cxx Emu

/-! ## Groups -/

structure StringKey where
  addr : UInt64
  scope : DataScope
  encoding : RuntimeEncoding
  layout : StringLayout
  raw : Bytes
  deriving DecidableEq

def encodingNumber : RuntimeEncoding → ℕ
  | .ascii => 0
  | .utf8 => 1
  | .utf16LE => 2
  | .utf16BE => 3
  | .utf32LE => 4
  | .utf32BE => 5

def encodingOrder : Comparator RuntimeEncoding :=
  Comparator.nat.comap encodingNumber fun a b h => by
    cases a <;> cases b <;> first | rfl | cases h

def layoutNumber : StringLayout → ℕ
  | .nulTerminated => 0
  | .pascal8 => 1
  | .pascal16 => 2
  | .pascal32 => 3

def layoutOrder : Comparator StringLayout :=
  Comparator.nat.comap layoutNumber fun a b h => by
    cases a <;> cases b <;> first | rfl | cases h

/-- `std::tie(scope, addr, encoding, layout, raw)` -/
def stringKeyOrder : Comparator StringKey :=
  (Comparator.tie Events.scopeOrder (Comparator.tie .u64 (Comparator.tie encodingOrder
    (Comparator.tie layoutOrder (Comparator.lex .u8))))).comap
      (fun k => (k.scope, k.addr, k.encoding, k.layout, k.raw)) fun a b h => by
        cases a
        cases b
        simp_all

structure StringGroup where
  key : StringKey
  codepoints : List UInt32
  runs : Map runKeyOrder Unit := Map.empty

structure StringCollection where
  groups : Map stringKeyOrder StringGroup := Map.empty
  observations : ℕ := 0

def stringKey (observation : MemoryBytes) (offset : ℕ) (selected : DecodedString) : StringKey :=
  ⟨observation.addr + .ofNat offset, observation.scope, selected.encoding, selected.layout,
    selected.raw⟩

/-- `result.groups[key]` gets the string and the run. -/
def noteString (observation : MemoryBytes) (result : StringCollection) (offset : ℕ)
    (selected : DecodedString) : StringCollection where
  groups := result.groups.upsert (stringKey observation offset selected) fun old =>
    ⟨stringKey observation offset selected, selected.codepoints,
      ((old.map StringGroup.runs).getD Map.empty).set ⟨observation.runId, observation.seed⟩ ()⟩
  observations := result.observations + 1

/-! ## The scan -/

/-- The string of a start; none if it can be read in both layouts. -/
def selectCandidate (probe : Bytes) (options : StringScanOptions) : Option DecodedString :=
  match bestNulCandidate probe options, uniquePascalCandidate probe options with
  | some nul, some pascal => if sameCandidate nul pascal then some nul else none
  | some nul, none => some nul
  | none, pascal => pascal

/-- The string that the loop takes at an offset; without one it goes on with the next byte. -/
def stringAt (options : StringScanOptions) (offsets : List ℕ) (observation : MemoryBytes)
    (offset : ℕ) : Option DecodedString :=
  let remaining := observation.bytes.length - offset
  let probe := (observation.bytes.drop offset).take (min options.maxCandidateBytes remaining)
  if overlapsPointer offsets options.pointerWidth offset 1 then none
  else (selectCandidate probe options).filter fun selected =>
    !(selected.rawSize == 0 || selected.rawSize > remaining ||
      offset > (~~~0 - observation.addr).toNat) &&
    (checkedEnd (observation.addr + .ofNat offset) selected.rawSize).isSome &&
    !overlapsPointer offsets options.pointerWidth offset selected.rawSize

theorem stringAt_eq_some {options : StringScanOptions} {offsets : List ℕ}
    {observation : MemoryBytes} {offset : ℕ} {selected : DecodedString}
    (h : stringAt options offsets observation offset = some selected) :
    selectCandidate ((observation.bytes.drop offset).take
        (min options.maxCandidateBytes (observation.bytes.length - offset))) options =
      some selected ∧ 0 < selected.rawSize ∧ observation.addr.toNat + offset < 2 ^ 64 ∧
      overlapsPointer offsets options.pointerWidth offset selected.rawSize = false := by
  dsimp only [stringAt] at h
  split_ifs at h
  obtain ⟨hselected, hchecks⟩ := Option.filter_eq_some_iff.1 h
  simp only [Bool.and_eq_true, Bool.not_eq_true', Bool.or_eq_false_iff, beq_eq_false_iff_ne,
    decide_eq_false_iff_not] at hchecks
  obtain ⟨⟨⟨⟨hpos, -⟩, haddr⟩, -⟩, hclear⟩ := hchecks
  rw [toNat_max_sub] at haddr
  have hlt := observation.addr.toNat_lt
  exact ⟨hselected, Nat.pos_of_ne_zero hpos, by omega, hclear⟩

/-- The loop over the offsets of an observation. -/
def scanLoop (options : StringScanOptions) (offsets : List ℕ) (observation : MemoryBytes)
    (offset count : ℕ) (result : StringCollection) : StringCollection :=
  if offset < observation.bytes.length ∧ count < options.maxCandidatesPerWrite then
    match hstring : stringAt options offsets observation offset with
    | none => scanLoop options offsets observation (offset + 1) count result
    | some selected =>
      scanLoop options offsets observation (offset + selected.rawSize) (count + 1)
        (noteString observation result offset selected)
  else result
termination_by observation.bytes.length - offset
decreasing_by
  · omega
  · have hpos := (stringAt_eq_some hstring).2.1
    omega

def collectStringGroups (observations : List MemoryBytes) (options : StringScanOptions) :
    StringCollection :=
  if options.minimumCharacters == 0 || options.maxCandidateBytes == 0 ||
      options.maxCandidatesPerWrite == 0 then {}
  else
    let mapped := mappedRanges options.pointerRanges
    observations.foldl (fun result observation =>
      scanLoop options (pointerOffsets options mapped observation) observation 0 0 result) {}

/-! ## Slices -/

/-- A string and where it is taken from. -/
structure Slice where
  offset : ℕ
  string : DecodedString

/-- The slices that the loop takes. -/
def slicesFrom (options : StringScanOptions) (offsets : List ℕ) (observation : MemoryBytes)
    (offset count : ℕ) : List Slice :=
  if offset < observation.bytes.length ∧ count < options.maxCandidatesPerWrite then
    match hstring : stringAt options offsets observation offset with
    | none => slicesFrom options offsets observation (offset + 1) count
    | some selected =>
      ⟨offset, selected⟩ ::
        slicesFrom options offsets observation (offset + selected.rawSize) (count + 1)
  else []
termination_by observation.bytes.length - offset
decreasing_by
  · omega
  · have hpos := (stringAt_eq_some hstring).2.1
    omega

/-- The slices of an observation. -/
def slices (options : StringScanOptions) (observation : MemoryBytes) : List Slice :=
  slicesFrom options (pointerOffsets options (mappedRanges options.pointerRanges) observation)
    observation 0 0

section Slices

variable {options : StringScanOptions} {offsets : List ℕ} {observation : MemoryBytes}

/-- The groups only record what is taken. -/
theorem scanLoop_eq (offset count : ℕ) (result : StringCollection) :
    scanLoop options offsets observation offset count result =
      (slicesFrom options offsets observation offset count).foldl
        (fun result slice => noteString observation result slice.offset slice.string) result := by
  fun_induction slicesFrom options offsets observation offset count generalizing result with
  | case1 offset count hmore hnone ih =>
    rw [scanLoop, if_pos hmore]
    split
    · exact ih result
    · rename_i hsome
      cases hnone.symm.trans hsome
  | case2 offset count hmore selected hsome ih =>
    rw [scanLoop, if_pos hmore, List.foldl_cons]
    split
    · rename_i hnone
      cases hsome.symm.trans hnone
    · rename_i selected' hsome'
      obtain rfl := Option.some.inj (hsome.symm.trans hsome')
      exact ih _
  | case3 offset count hdone =>
    rw [scanLoop, if_neg hdone]
    rfl

/-- Every slice is the string of its offset, which is no earlier than the start of the loop. -/
theorem mem_slicesFrom {slice : Slice} {offset count : ℕ}
    (h : slice ∈ slicesFrom options offsets observation offset count) :
    offset ≤ slice.offset ∧
      stringAt options offsets observation slice.offset = some slice.string := by
  fun_induction slicesFrom options offsets observation offset count with
  | case1 offset count hmore hnone ih =>
    obtain ⟨hle, hstring⟩ := ih h
    exact ⟨by omega, hstring⟩
  | case2 offset count hmore selected hsome ih =>
    rcases List.mem_cons.1 h with rfl | h
    · exact ⟨Nat.le_refl _, hsome⟩
    · obtain ⟨hle, hstring⟩ := ih h
      exact ⟨by omega, hstring⟩
  | case3 offset count hdone => cases h

theorem slicesFrom_pairwise (offset count : ℕ) :
    (slicesFrom options offsets observation offset count).Pairwise fun s t =>
      s.offset + s.string.rawSize ≤ t.offset := by
  fun_induction slicesFrom options offsets observation offset count with
  | case1 offset count hmore hnone ih => exact ih
  | case2 offset count hmore selected hsome ih =>
    exact List.pairwise_cons.2 ⟨fun t ht => (mem_slicesFrom ht).1, ih⟩
  | case3 offset count hdone => exact List.Pairwise.nil

theorem length_slicesFrom_le (offset count : ℕ) (hcount : count ≤ options.maxCandidatesPerWrite) :
    (slicesFrom options offsets observation offset count).length + count ≤
      options.maxCandidatesPerWrite := by
  fun_induction slicesFrom options offsets observation offset count with
  | case1 offset count hmore hnone ih => exact ih hcount
  | case2 offset count hmore selected hsome ih =>
    have hrest := ih hmore.2
    rw [List.length_cons]
    omega
  | case3 offset count hdone =>
    rw [List.length_nil]
    omega

theorem selectCandidate_candidate {probe : Bytes} {selected : DecodedString}
    (h : selectCandidate probe options = some selected) :
    Candidate options.imageBigEndian options.minimumCharacters probe selected := by
  unfold selectCandidate at h
  split at h
  · rename_i nul pascal hnul hpascal
    split_ifs at h
    obtain rfl := Option.some.inj h
    exact bestNulCandidate_candidate hnul
  · rename_i nul hnul hpascal
    obtain rfl := Option.some.inj h
    exact bestNulCandidate_candidate hnul
  · exact uniquePascalCandidate_candidate h

/-! ## Groups are slices -/

/-- A string with its code points, cut from an observation. -/
structure IsString (options : StringScanOptions) (observation : MemoryBytes) (offset : ℕ)
    (key : StringKey) (codepoints : List UInt32) : Prop where
  fits : offset + key.raw.length ≤ observation.bytes.length
  addr : key.addr.toNat = observation.addr.toNat + offset
  scope : key.scope = observation.scope
  raw : key.raw = (observation.bytes.drop offset).take key.raw.length
  encodes : ∃ text : List Char, text.map Char.val = codepoints ∧
    encodeString options.imageBigEndian key.encoding key.layout text = some key.raw
  ascii : key.encoding.unitWidth = 1 → (key.encoding = .ascii ↔ ∀ cp ∈ codepoints, cp < 0x80)
  text : ∀ cp ∈ codepoints, scalarIsText cp = true
  atLeast : options.minimumCharacters ≤ codepoints.length
  atMost : key.raw.length ≤ options.maxCandidateBytes

/-- What holds of the slices of one observation together. -/
structure Scanned (options : StringScanOptions) (observation : MemoryBytes) (slices : List Slice) :
    Prop where
  disjoint : slices.Pairwise fun s t => s.offset + s.string.raw.length ≤ t.offset
  count : slices.length ≤ options.maxCandidatesPerWrite
  /-- No slice overlaps an aligned word of the observation that points into a range. -/
  pointers : options.pointerWidth = 4 ∨ options.pointerWidth = 8 →
    ∀ slice ∈ slices, ∀ off, (observation.addr.toNat + off) % options.pointerWidth = 0 →
      off + options.pointerWidth ≤ observation.bytes.length →
      PointsInto options.pointerRanges (gather options.imageBigEndian
        ((observation.bytes.drop off).take options.pointerWidth)) →
      off + options.pointerWidth ≤ slice.offset ∨
        slice.offset + slice.string.raw.length ≤ off

theorem stringAt_candidate {offset : ℕ} {selected : DecodedString}
    (h : stringAt options offsets observation offset = some selected) :
    Candidate options.imageBigEndian options.minimumCharacters ((observation.bytes.drop offset).take
      (min options.maxCandidateBytes (observation.bytes.length - offset))) selected :=
  selectCandidate_candidate (stringAt_eq_some h).1

theorem Candidate.length_raw {bigEndian : Bool} {minimumCharacters : ℕ} {bytes : Bytes}
    {d : DecodedString} (h : Candidate bigEndian minimumCharacters bytes d) :
    d.raw.length = d.rawSize := by
  rw [h.raw, List.length_take, Nat.min_eq_left h.fits]

theorem stringAt_isString {offset : ℕ} {selected : DecodedString}
    (h : stringAt options offsets observation offset = some selected) :
    IsString options observation offset (stringKey observation offset selected)
      selected.codepoints := by
  obtain ⟨-, hpos, haddr, -⟩ := stringAt_eq_some h
  have hcandidate := stringAt_candidate h
  have hlength := hcandidate.length_raw
  have hfits := hcandidate.fits
  rw [List.length_take, List.length_drop] at hfits
  refine ⟨?_, toNat_add_ofNat haddr, rfl, ?_, hcandidate.encodes, hcandidate.ascii,
    hcandidate.text, hcandidate.atLeast, ?_⟩
  · show offset + selected.raw.length ≤ _
    omega
  · show selected.raw = (observation.bytes.drop offset).take selected.raw.length
    rw [hlength]
    refine hcandidate.raw.trans ?_
    rw [List.take_take, Nat.min_eq_left (by omega)]
  · show selected.raw.length ≤ _
    omega

theorem slices_scanned (options : StringScanOptions) (observation : MemoryBytes) :
    Scanned options observation (slices options observation) := by
  have hlength : ∀ slice ∈ slices options observation,
      slice.string.raw.length = slice.string.rawSize :=
    fun slice hslice => (stringAt_candidate (mem_slicesFrom hslice).2).length_raw
  refine ⟨?_, length_slicesFrom_le 0 0 (Nat.zero_le _), fun hwidth slice hslice off => ?_⟩
  · refine (slicesFrom_pairwise 0 0).imp_of_mem fun {s t} hs _ hst => ?_
    rw [hlength s hs]
    exact hst
  · have hclear := (stringAt_eq_some (mem_slicesFrom hslice).2).2.2.2
    rw [hlength slice hslice]
    exact clear_of_pointers hclear hwidth

/-- Every group comes from a slice of one of the observations. -/
def Sourced (options : StringScanOptions) (observations : List MemoryBytes)
    (result : StringCollection) : Prop :=
  ∀ key group, result.groups.find key = some group →
    group.key = key ∧ ∃ observation ∈ observations, ∃ slice ∈ slices options observation,
      key = stringKey observation slice.offset slice.string ∧
        group.codepoints = slice.string.codepoints

theorem Sourced.noteString {observations : List MemoryBytes} {result : StringCollection}
    {slice : Slice} (h : Sourced options observations result) (hmem : observation ∈ observations)
    (hslice : slice ∈ slices options observation) :
    Sourced options observations (noteString observation result slice.offset slice.string) := by
  intro key group hfind
  unfold Runtime.noteString at hfind
  rw [Map.find_upsert] at hfind
  split_ifs at hfind with hkey
  · obtain rfl := Option.some.inj hfind
    exact ⟨hkey, observation, hmem, slice, hslice, hkey.symm, rfl⟩
  · exact h key group hfind

theorem collectStringGroups_sourced (observations : List MemoryBytes)
    (options : StringScanOptions) :
    Sourced options observations (collectStringGroups observations options) := by
  have hempty : Sourced options observations {} := by
    intro key group hfind
    cases hfind
  dsimp only [collectStringGroups]
  split_ifs
  · exact hempty
  · refine List.foldlRecOn (motive := Sourced options observations) observations _ hempty
      fun result hresult observation hmem => ?_
    rw [scanLoop_eq]
    exact List.foldlRecOn (motive := Sourced options observations) (slices options observation) _
      hresult fun result hresult slice hslice => hresult.noteString hmem hslice

/-- **Strings.** Every group is cut from an observation and is the encoding of its code points; the
slices of an observation are disjoint, few, and apart from pointers. -/
theorem string_groups_exact (observations : List MemoryBytes) (options : StringScanOptions) :
    (∀ key group, (collectStringGroups observations options).groups.find key = some group →
      group.key = key ∧ ∃ observation ∈ observations, ∃ slice ∈ slices options observation,
        key = stringKey observation slice.offset slice.string ∧
          IsString options observation slice.offset key group.codepoints) ∧
      ∀ observation ∈ observations, Scanned options observation (slices options observation) := by
  refine ⟨fun key group hfind => ?_, fun observation _ => slices_scanned options observation⟩
  obtain ⟨hkey, observation, hmem, slice, hslice, rfl, hcodepoints⟩ :=
    collectStringGroups_sourced observations options key group hfind
  refine ⟨hkey, observation, hmem, slice, hslice, rfl, ?_⟩
  rw [hcodepoints]
  exact stringAt_isString (mem_slicesFrom hslice).2

example : (slices {} ⟨0x1000, text "ABCD" ++ [0, 0xFF, 4] ++ text "EFGH", .image, 1, 7⟩).map
    (fun slice => (slice.offset, slice.string.layout, slice.string.codepoints)) =
      [(0, .nulTerminated, [0x41, 0x42, 0x43, 0x44]), (6, .pascal8, [0x45, 0x46, 0x47, 0x48])] := by
  decide +kernel

end Slices

end Viy.Runtime
