import Viy.Native.OppositePairs
import Viy.Runtime.Pointers
import Viy.Store.Conflict

/-!
# Two witnesses of one memory slot

An indirect branch through a read-only slot is resolved by the native analysis and may also be seen
by the emulator. Both report the value of the slot as a memory value, whose bytes are in the order
of their addresses. The evidence bridge lays the number out in the byte order of the image, the
native adapter with the lowest byte first. In a big-endian image the two reports of one slot differ,
unless its bytes read the same backwards, and the ledger records a divergent value.
-/

namespace Viy.Native

open Wire Analysis Emu
open Viy.Runtime (RuntimeImage onePage scalarBytes)

/-! ## The native adapter -/

inductive NativeControlFlowKind where
  | call | jump
  deriving DecidableEq

inductive NativeIndirectResolutionKind where
  | registerValue | readOnlyMemoryValue
  deriving DecidableEq

structure NativeIndirectTargetFact where
  instructionEa : UInt64 := badaddr
  targetEa : UInt64 := badaddr
  pointerEa : UInt64 := badaddr
  kind : NativeControlFlowKind := .jump
  resolution : NativeIndirectResolutionKind := .registerValue
  registerName : Bytes := []
  valueWidth : UInt8 := 0

def littleEndianBytes (value : UInt64) (width : UInt8) : Bytes :=
  let width := if width = 0 ∨ width > 8 then 8 else width
  scatter false value width.toNat

/-- The payloads that `NativeAnalysisFactAdapter::emit` makes of an indirect target. -/
def emitIndirectTarget (fact : NativeIndirectTargetFact) : List FactPayload :=
  [.codeTarget ⟨fact.instructionEa, fact.targetEa,
    if fact.kind = .call then .call else .jump, true⟩] ++
  (if fact.resolution = .registerValue ∧ fact.registerName ≠ [] then
    [.registerValue ⟨fact.instructionEa, .beforeInstruction, fact.registerName,
      littleEndianBytes fact.targetEa fact.valueWidth⟩]
  else if fact.resolution = .readOnlyMemoryValue ∧ fact.pointerEa ≠ badaddr then
    [.memoryValue ⟨fact.instructionEa, fact.pointerEa, .read,
      littleEndianBytes fact.targetEa fact.valueWidth⟩]
  else []) ++
  if fact.kind = .call then
    [.callObservation ⟨fact.instructionEa, some fact.targetEa, .call, .unknown, [], []⟩]
  else []

/-! ## The evidence bridge -/

def accessKind (kind : MemKind) : MemoryAccessKind :=
  if kind = .write then .write else .read

def validImageRange (segs : List SegImage) (address : UInt64) (size : ℕ) : Bool :=
  if size = 0 ∨ UInt64.ofNat size > ~~~0 - address then false
  else
    let end_ := address + .ofNat size
    segs.any fun segment =>
      decide (segment.start ≤ address) && decide (address < segment.end_) &&
        decide (end_ ≤ segment.end_)

/-- The payloads that `viy_record_emulation_evidence` makes of a data access. -/
def recordAccess (img : RuntimeImage) (access : DataAcc) : List FactPayload :=
  if access.scope ≠ .image ∨ access.size = 0 ∨ (access.kind ≠ .read ∧ access.kind ≠ .write) ∨
      validImageRange img.segs access.addr access.size.toNat = false then []
  else
    [.memoryAccess ⟨access.from_, access.addr, access.size, accessKind access.kind⟩] ++
    if access.size ≤ 8 then
      [.memoryValue ⟨access.from_, access.addr, accessKind access.kind,
        scalarBytes access.value access.size img.bigEndian⟩]
    else []

/-! ## Both at one slot -/

def memoryValues (payloads : List FactPayload) : List MemoryValueFact :=
  payloads.filterMap fun
    | .memoryValue fact => some fact
    | _ => none

/-- The branch at `i` loads the slot at `p` with the bytes `b`: the analysis has resolved it, and
the emulator has seen the read. Both have the number that the bytes are in the image's byte order.
-/
structure LoadsSlot (img : RuntimeImage) (i p : UInt64) (b : Bytes)
    (fact : NativeIndirectTargetFact) (access : DataAcc) : Prop where
  width : b.length = 2 ∨ b.length = 4 ∨ b.length = 8
  mapped : validImageRange img.segs p b.length = true
  resolution : fact.resolution = .readOnlyMemoryValue
  instructionEa : fact.instructionEa = i
  pointerEa : fact.pointerEa = p
  targetEa : fact.targetEa = gather img.bigEndian b
  valueWidth : fact.valueWidth = .ofNat b.length
  scope : access.scope = .image
  kind : access.kind = .read
  from_ : access.from_ = i
  addr : access.addr = p
  value : access.value = gather img.bigEndian b
  size : access.size = .ofNat b.length

/-- Both report the same value, and it has the bytes of the slot. -/
def Corroborates (img : RuntimeImage) (b : Bytes) (fact : NativeIndirectTargetFact)
    (access : DataAcc) : Prop :=
  ∃ v, memoryValues (emitIndirectTarget fact) = [v] ∧ memoryValues (recordAccess img access) = [v] ∧
    v.bytes = b

/-- The two values that are reported lead to one finding, a divergent memory value. -/
def Diverges (img : RuntimeImage) (fact : NativeIndirectTargetFact) (access : DataAcc) : Prop :=
  ∃ v w finding, memoryValues (emitIndirectTarget fact) = [v] ∧
    memoryValues (recordAccess img access) = [w] ∧
    findings (.memoryValue v) (.memoryValue w) = [finding] ∧
    finding.type = .divergentMemoryValue

namespace LoadsSlot

variable {img : RuntimeImage} {i p : UInt64} {b : Bytes} {fact : NativeIndirectTargetFact}
  {access : DataAcc}

/-- A slot of several bytes cannot start at the last address. -/
theorem ne_badaddr (h : LoadsSlot img i p b fact access) : p ≠ badaddr := by
  rintro rfl
  have hmapped := h.mapped
  have hwrap : UInt64.ofNat b.length > ~~~0 - badaddr := by
    rcases h.width with hb | hb | hb <;> rw [hb] <;> decide
  rw [validImageRange, if_pos (Or.inr hwrap)] at hmapped
  cases hmapped

theorem memoryValues_native (h : LoadsSlot img i p b fact access) :
    memoryValues (emitIndirectTarget fact) =
      [⟨i, p, .read, scatter false (gather img.bigEndian b) b.length⟩] := by
  have hbytes : littleEndianBytes (gather img.bigEndian b) (.ofNat b.length) =
      scatter false (gather img.bigEndian b) b.length := by
    rcases h.width with hb | hb | hb <;> rw [hb] <;> rfl
  have hmemory : fact.resolution = .readOnlyMemoryValue ∧ fact.pointerEa ≠ badaddr :=
    ⟨h.resolution, h.pointerEa ▸ h.ne_badaddr⟩
  have hregister : ¬ (fact.resolution = .registerValue ∧ fact.registerName ≠ []) := by
    rw [h.resolution]
    exact fun hreg => NativeIndirectResolutionKind.noConfusion hreg.1
  rw [emitIndirectTarget, if_neg hregister, if_pos hmemory, h.instructionEa, h.pointerEa,
    h.targetEa, h.valueWidth, hbytes]
  by_cases hcall : fact.kind = .call
  · rw [if_pos hcall, if_pos hcall]
    rfl
  · rw [if_neg hcall, if_neg hcall]
    rfl

theorem memoryValues_emulated (h : LoadsSlot img i p b fact access) :
    memoryValues (recordAccess img access) = [⟨i, p, .read, b⟩] := by
  have hle : b.length ≤ 8 := by
    rcases h.width with hb | hb | hb <;> omega
  have hnat : (UInt32.ofNat b.length).toNat = b.length := by
    rcases h.width with hb | hb | hb <;> rw [hb] <;> rfl
  have hsize : (UInt32.ofNat b.length ≠ 0 ∧ UInt32.ofNat b.length ≤ 8) ∧
      min (UInt32.ofNat b.length) 8 = UInt32.ofNat b.length := by
    rcases h.width with hb | hb | hb <;> rw [hb] <;> decide
  have hrecorded : ¬ (access.scope ≠ .image ∨ access.size = 0 ∨
      (access.kind ≠ .read ∧ access.kind ≠ .write) ∨
        validImageRange img.segs access.addr access.size.toNat = false) := by
    rw [h.scope, h.kind, h.addr, h.size, hnat, h.mapped]
    rintro (hscope | hzero | hkind | hrange)
    · exact hscope rfl
    · exact hsize.1.1 hzero
    · exact hkind.1 rfl
    · cases hrange
  have hbytes : scalarBytes (gather img.bigEndian b) (.ofNat b.length) img.bigEndian = b := by
    rw [scalarBytes, hsize.2, hnat, scatter_gather img.bigEndian hle]
  rw [recordAccess, if_neg hrecorded, h.size, if_pos hsize.1.2, h.kind, h.value, h.from_, h.addr,
    hbytes]
  rfl

/-- The native value has the bytes of the slot, or they come out reversed. -/
theorem scatter_false_eq_iff (h : LoadsSlot img i p b fact access) :
    scatter false (gather img.bigEndian b) b.length = b ↔
      img.bigEndian = false ∨ b.reverse = b := by
  have hle : b.length ≤ 8 := by
    rcases h.width with hb | hb | hb <;> omega
  have hround := scatter_gather img.bigEndian hle
  cases hbe : img.bigEndian with
  | false =>
    rw [hbe] at hround
    exact iff_of_true hround (Or.inl rfl)
  | true =>
    rw [hbe, scatter_true] at hround
    rw [← List.reverse_inj, hround, or_iff_right (by decide)]
    exact eq_comm

theorem corroborates_iff (h : LoadsSlot img i p b fact access) :
    Corroborates img b fact access ↔ scatter false (gather img.bigEndian b) b.length = b := by
  rw [Corroborates, h.memoryValues_native, h.memoryValues_emulated]
  constructor
  · rintro ⟨v, hnative, -, hbytes⟩
    rw [← (List.cons.inj hnative).1] at hbytes
    exact hbytes
  · intro hbytes
    exact ⟨⟨i, p, .read, b⟩, by rw [hbytes], rfl, rfl⟩

/-- Two values that do not corroborate each other are in conflict. -/
theorem diverges (h : LoadsSlot img i p b fact access) (hnot : ¬ Corroborates img b fact access) :
    Diverges img fact access := by
  rw [h.corroborates_iff] at hnot
  refine ⟨_, _, ⟨.divergentMemoryValue, .variation, p, some i,
    text "memory value varies at " ++ hexAddress p⟩, h.memoryValues_native,
    h.memoryValues_emulated, ?_, rfl⟩
  simp [findings, hnot]

end LoadsSlot

/-- **Two witnesses.** They agree on the bytes of the slot exactly if the image has the lowest byte
first, or the bytes read the same backwards. -/
theorem slot_corroborated_iff {img : RuntimeImage} {i p : UInt64} {b : Bytes}
    {fact : NativeIndirectTargetFact} {access : DataAcc} (h : LoadsSlot img i p b fact access) :
    Corroborates img b fact access ↔ img.bigEndian = false ∨ b.reverse = b :=
  h.corroborates_iff.trans h.scatter_false_eq_iff

/-- A jump at `0x1000` through the slot at `0x2000`, resolved to `0x2040`. -/
def slotTarget : NativeIndirectTargetFact where
  instructionEa := 0x1000
  targetEa := 0x2040
  pointerEa := 0x2000
  resolution := .readOnlyMemoryValue
  valueWidth := 4

/-- The same jump in the emulator. -/
def slotRead : DataAcc where
  from_ := 0x1000
  addr := 0x2000
  value := 0x2040
  size := 4
  kind := .read
  scope := .image
  sequence := 0
  runId := 0
  seed := 0

theorem little_endian_slot_corroborated :
    LoadsSlot (onePage false) 0x1000 0x2000 [0x40, 0x20, 0, 0] slotTarget slotRead ∧
      Corroborates (onePage false) [0x40, 0x20, 0, 0] slotTarget slotRead := by
  have hloads : LoadsSlot (onePage false) 0x1000 0x2000 [0x40, 0x20, 0, 0] slotTarget slotRead :=
    ⟨by decide, by decide, rfl, rfl, rfl, by decide +kernel, rfl, rfl, rfl, rfl, rfl,
      by decide +kernel, rfl⟩
  exact ⟨hloads, (slot_corroborated_iff hloads).2 (Or.inl rfl)⟩

/-- In a big-endian image the jump's slot is reported with two different values. -/
theorem big_endian_slot_diverges :
    LoadsSlot (onePage true) 0x1000 0x2000 [0, 0, 0x20, 0x40] slotTarget slotRead ∧
      memoryValues (emitIndirectTarget slotTarget) =
        [⟨0x1000, 0x2000, .read, [0x40, 0x20, 0, 0]⟩] ∧
      memoryValues (recordAccess (onePage true) slotRead) =
        [⟨0x1000, 0x2000, .read, [0, 0, 0x20, 0x40]⟩] ∧
      ¬ Corroborates (onePage true) [0, 0, 0x20, 0x40] slotTarget slotRead ∧
      Diverges (onePage true) slotTarget slotRead := by
  have hloads : LoadsSlot (onePage true) 0x1000 0x2000 [0, 0, 0x20, 0x40] slotTarget slotRead :=
    ⟨by decide, by decide, rfl, rfl, rfl, by decide +kernel, rfl, rfl, rfl, rfl, rfl,
      by decide +kernel, rfl⟩
  have hnot : ¬ Corroborates (onePage true) [0, 0, 0x20, 0x40] slotTarget slotRead := by
    rw [hloads.corroborates_iff]
    decide +kernel
  exact ⟨hloads, by decide +kernel, by decide +kernel, hnot, hloads.diverges hnot⟩

end Viy.Native
