import Viy.Cxx.Map
import Viy.Emu.FailedCalls

/-!
# Pointers in the recorded values

A recorded access has its value as a number. The driver gathers it from the bytes in the byte order
of the guest, and two consumers take it apart again. The evidence bridge lays it out in the guest's
byte order. The search for pointer slots lays it out with the lowest byte first whatever that order
is, and decodes the result in the guest's order: in a big-endian image the target it sees has its
bytes reversed.
-/

namespace Viy.Runtime

open Wire Emu Cxx

/-- The bytes of a scalar in memory order. -/
def scalarBytes (value : UInt64) (size : UInt32) (bigEndianMemory : Bool) : Bytes :=
  scatter bigEndianMemory value (min size 8).toNat

/-- `value = (value << 8) | bytes[index]`, from the first byte on or from the last. -/
def decodePointer (bytes : Bytes) (be : Bool) : UInt64 :=
  ofU64 (if be then bytes else bytes.reverse)

/-- The part of `ProgramImage` that runtime enrichment uses. -/
structure RuntimeImage extends ProgramImage where
  bigEndian : Bool := false
  entries : List Emu.FuncRange := []

namespace RuntimeImage

variable (img : RuntimeImage)

def functionAt (ea : UInt64) : Option Emu.FuncRange :=
  let position := lowerBound (fun func value => decide (func.start < value)) img.entries ea
  (position.2.head?.filter fun func => func.start == ea) <|>
    (position.1.getLast?.filter fun candidate => candidate.contains ea) <|>
    img.entries.find? fun func => func.contains ea

/-- The target that a recorded read of a pointer is taken for. -/
def observedTarget (ptrSize : ℕ) (value : UInt64) : UInt64 :=
  decodePointer ((List.range ptrSize).map fun i => (value >>> .ofNat (8 * i)).toUInt8) img.bigEndian

end RuntimeImage

/-! ## Events and runs -/

structure MemoryBytes where
  addr : UInt64
  bytes : Bytes
  scope : DataScope
  runId : UInt32
  seed : UInt64

/-- The events that enrichment looks at. -/
structure EmuEvents where
  data : List DataAcc := []
  edges : List ExecEdge := []
  finalWrites : List MemoryBytes := []

structure RunKey where
  runId : UInt32
  seed : UInt64

def runKeyOrder : Comparator RunKey :=
  (Comparator.tie .u32 .u64).comap (fun k => (k.runId, k.seed)) fun a b h => by
    cases a
    cases b
    simpa using h

/-! ## Byte orders -/

variable {img : RuntimeImage} {bytes : Bytes}

theorem observedTarget_eq (ptrSize : ℕ) (value : UInt64) :
    img.observedTarget ptrSize value = decodePointer (scatter false value ptrSize) img.bigEndian :=
  rfl

theorem decodePointer_inj {a b : Bytes} {be : Bool} (hlength : a.length = b.length)
    (hle : a.length ≤ 8) : decodePointer a be = decodePointer b be ↔ a = b := by
  constructor
  · intro h
    have hnat := congrArg UInt64.toNat h
    unfold decodePointer at hnat
    cases be with
    | false =>
      simp only [Bool.false_eq_true, if_false] at hnat
      rw [toNat_ofU64 (by simpa using hle), toNat_ofU64 (by simpa using hlength ▸ hle),
        List.reverse_reverse, List.reverse_reverse] at hnat
      exact numeral_injective hlength hnat
    | true =>
      simp only [if_true] at hnat
      rw [toNat_ofU64 hle, toNat_ofU64 (hlength ▸ hle)] at hnat
      exact List.reverse_injective (numeral_injective (by simpa using hlength) hnat)
  · rintro rfl
    rfl

/-- **Recorded values.** The evidence bridge gets the bytes of a recorded read back, and the search
for pointers sees the pointer that they are, exactly if the image is little-endian or the bytes read
the same both ways. -/
theorem recorded_value_understood_iff {c : HookCtx} (horder : c.bigEndian = img.bigEndian)
    (hlength : bytes.length = 4 ∨ bytes.length = 8) :
    (scalarBytes (c.scalarFromMemory bytes) (.ofNat bytes.length) img.bigEndian = bytes ∧
        img.observedTarget bytes.length (c.scalarFromMemory bytes) =
          decodePointer bytes img.bigEndian) ↔
      img.bigEndian = false ∨ bytes.reverse = bytes := by
  have hle : bytes.length ≤ 8 := by omega
  have hsize : (min (UInt32.ofNat bytes.length) 8).toNat = bytes.length := by
    rcases hlength with h | h <;> rw [h] <;> decide
  have hvalue : c.scalarFromMemory bytes = gather img.bigEndian bytes := by
    unfold HookCtx.scalarFromMemory
    rw [List.take_of_length_le hle, horder]
  have hround := scatter_gather img.bigEndian hle
  rw [hvalue, observedTarget_eq, decodePointer_inj (by simp) (by simpa using hle)]
  unfold scalarBytes
  rw [hsize, and_iff_right hround]
  cases hbe : img.bigEndian with
  | false =>
    rw [hbe] at hround
    exact iff_of_true hround (Or.inl rfl)
  | true =>
    -- the lowest byte comes first, so the bytes come out reversed
    rw [hbe, scatter_true] at hround
    rw [← List.reverse_inj, hround, or_iff_right (by decide)]
    exact eq_comm

/-- An image with one segment at `0x2000`, of either byte order. -/
def onePage (bigEndian : Bool) : RuntimeImage where
  segs := [{ start := 0x2000, end_ := 0x3000 }]
  ordered := by
    intro s hs
    obtain rfl := List.mem_singleton.1 hs
    decide
  sorted := List.pairwise_singleton _ _
  bigEndian := bigEndian

/-- The bytes of the pointer `0x2010`, lowest byte first. -/
def pointerBytes : Bytes := [0x10, 0x20, 0, 0, 0, 0, 0, 0]

theorem little_endian_pointer_understood :
    scalarBytes (sysvCtx.scalarFromMemory pointerBytes) 8 false = pointerBytes ∧
      (onePage false).observedTarget 8 (sysvCtx.scalarFromMemory pointerBytes) =
        decodePointer pointerBytes false := by
  have horder : sysvCtx.bigEndian = (onePage false).bigEndian := rfl
  exact (recorded_value_understood_iff horder (Or.inr rfl)).2 (Or.inl rfl)

/-- In a big-endian image the pointer is taken for one far outside the segment. -/
theorem big_endian_pointer_reversed :
    let value := { sysvCtx with bigEndian := true }.scalarFromMemory pointerBytes.reverse
    decodePointer pointerBytes.reverse true = 0x2010 ∧
      (onePage true).observedTarget 8 value = 0x1020000000000000 := by
  decide +kernel

end Viy.Runtime
