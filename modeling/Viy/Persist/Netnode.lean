import Viy.Fault.Proc
import Viy.Store.Persist

/-!
# The netnode adapter

The envelope of the ledger lives in two slot nodes, and the evidence node holds a marker that names
the active one. A write stages the envelope in the other slot, reads it back, and then moves the
marker. A read takes the active slot, falls back to the other one, and repairs what it can.

Netnodes are the host's. A primitive does what it is documented to do, or reports a failure, or the
process stops in it; a blob write that fails or stops can leave other bytes behind.
-/

namespace Viy

open Analysis Fault Wire

/-! ## Netnodes -/

inductive Slot where
  | a | b
  deriving DecidableEq

namespace Slot

/-- The value of the marker for a slot. -/
def index : Slot → UInt64
  | .a => 1
  | .b => 2

def other : Slot → Slot
  | .a => .b
  | .b => .a

def ofIndex? (index : UInt64) : Option Slot :=
  if index = Slot.a.index then some .a else if index = Slot.b.index then some .b else none

end Slot

/-- The node of the marker, which is zero when unset. The former layout kept blobs here. -/
structure EvidenceNode where
  marker : UInt64 := 0
  legacy : Slot → Option Bytes := fun _ => none

/-- All nodes; a slot node that exists can be without a blob. -/
structure Nodes where
  evidence : Option EvidenceNode
  slot : Slot → Option (Option Bytes)

namespace Nodes

def empty : Nodes := ⟨none, fun _ => none⟩

def setSlot (nodes : Nodes) (slot : Slot) (content : Option (Option Bytes)) : Nodes :=
  { nodes with slot := fun other => if other = slot then content else nodes.slot other }

/-- The marker of an existing node. -/
def setMarker (nodes : Nodes) (slot : Slot) : Nodes :=
  { nodes with evidence := nodes.evidence.map fun node => { node with marker := slot.index } }

end Nodes

/-! ## Primitives -/

/-- What a primitive that does not finish leaves behind. -/
inductive Left where
  | unchanged | complete | torn (bytes : Bytes)

inductive Event where
  | done | fails (left : Left) | cut (left : Left)

abbrev NodeProc := Proc Nodes Event

def Left.apply (left : Left) (complete : Nodes → Nodes) (torn : Bytes → Nodes → Nodes)
    (nodes : Nodes) : Nodes :=
  match left with
  | .unchanged => nodes
  | .complete => complete nodes
  | .torn bytes => torn bytes nodes

/-- A primitive that reads the nodes. -/
def query {α : Type} (answer : Nodes → α) : NodeProc α :=
  Proc.prim (fun nodes => (answer nodes, nodes)) fun event nodes =>
    match event with
    | .cut _ => (none, nodes)
    | .done | .fails _ => (some (answer nodes), nodes)

/-- A primitive that changes the nodes and reports whether it did. -/
def change (complete : Nodes → Nodes) (torn : Bytes → Nodes → Nodes) : NodeProc Bool :=
  Proc.prim (fun nodes => (true, complete nodes)) fun event nodes =>
    match event with
    | .done => (some true, complete nodes)
    | .fails left => (some false, left.apply complete torn nodes)
    | .cut left => (none, left.apply complete torn nodes)

namespace Netnode

def existEvidence : NodeProc Bool := query fun nodes => nodes.evidence.isSome

def existSlot (slot : Slot) : NodeProc Bool := query fun nodes => (nodes.slot slot).isSome

/-- `create` on a node that exists. -/
def attach : NodeProc Unit := query fun _ => ()

def createEvidence : NodeProc Bool :=
  change (fun nodes => { nodes with evidence := some {} }) fun _ nodes => nodes

def createSlot (slot : Slot) : NodeProc Bool :=
  change (fun nodes => nodes.setSlot slot (some none)) fun _ nodes => nodes

def altval : NodeProc UInt64 := query fun nodes => (nodes.evidence.map EvidenceNode.marker).getD 0

def altset (slot : Slot) : NodeProc Bool :=
  change (fun nodes => nodes.setMarker slot) fun _ nodes => nodes

/-- The blob of a slot node; a failing read finds none. -/
def getblob (slot : Slot) : NodeProc (Option Bytes) :=
  Proc.prim (fun nodes => ((nodes.slot slot).join, nodes)) fun event nodes =>
    match event with
    | .cut _ => (none, nodes)
    | .done => (some (nodes.slot slot).join, nodes)
    | .fails _ => (some none, nodes)

def getLegacyBlob (slot : Slot) : NodeProc (Option Bytes) :=
  query fun nodes => nodes.evidence.bind fun node => node.legacy slot

def setblob (slot : Slot) (blob : Bytes) : NodeProc Bool :=
  change (fun nodes => nodes.setSlot slot (some (some blob))) fun bytes nodes =>
    nodes.setSlot slot (some (some bytes))

/-- `kill` reports nothing, so it does not fail. -/
def kill (slot : Slot) : NodeProc Unit :=
  Proc.prim (fun nodes => ((), nodes.setSlot slot none)) fun event nodes =>
    match event with
    | .cut left => (none, left.apply (fun nodes => nodes.setSlot slot none)
        (fun bytes nodes => nodes.setSlot slot (some (some bytes))) nodes)
    | .done | .fails _ => (some (), nodes.setSlot slot none)

end Netnode

/-! ## Slots -/

open Netnode

def readSlot (slot : Slot) : NodeProc (Except Bytes Bytes) := do
  if ← existSlot slot then
    attach
    match ← getblob slot with
    | none => return .error (text "viy evidence blob not found")
    | some bytes => return .ok bytes
  else return .error (text "viy evidence slot netnode not found")

def readLegacySlot (slot : Slot) : NodeProc (Except Bytes Bytes) := do
  match ← getLegacyBlob slot with
  | none => return .error (text "legacy viy evidence slot not found")
  | some bytes => return .ok bytes

/-- Attach to a node or create it. -/
def ensure (exist create : NodeProc Bool) : NodeProc Bool := do
  if ← exist then
    attach
    return true
  else create

def stageSlot (slot : Slot) (blob : Bytes) : NodeProc (Except Bytes Unit) := do
  if ← ensure (existSlot slot) (createSlot slot) then
    if ← setblob slot blob then return .ok ()
    else return .error (text "could not write viy evidence staging slot")
  else return .error (text "could not create viy evidence staging slot")

/-- Remove a slot that failed. -/
def killSlot (slot : Slot) : NodeProc Unit := do
  if ← existSlot slot then
    attach
    kill slot
  else return ()

/-! ## Writing -/

section Adapter

variable (sha : Bytes → FactDigest)

/-- Decoding under the default limits. -/
def decodeEnvelope (blob : Bytes) : Except Bytes EvidenceStore :=
  EvidenceStore.deserialize sha {} blob

/-- The slot behind the active one. -/
def nextSlot (active : UInt64) : Slot := if active = Slot.a.index then .b else .a

/-- Whether the staged bytes are the envelope; the error text is empty when the bytes differ. -/
def verifyStaged (blob : Bytes) : Except Bytes Bytes → Except Bytes Unit
  | .error error => .error error
  | .ok verify =>
    if verify ≠ blob then .error []
    else (decodeEnvelope sha verify).map fun _ => ()

/-- Stage, verify, commit. -/
def commitBlob (next : Slot) (blob : Bytes) : NodeProc (Except Bytes Unit) := do
  match ← stageSlot next blob with
  | .error error => return .error error
  | .ok () =>
    match verifyStaged sha blob (← readSlot next) with
    | .error error =>
      killSlot next
      return .error (if error = [] then text "viy evidence staging verification failed" else error)
    | .ok () =>
      if ← altset next then return .ok ()
      else
        killSlot next
        return .error (text "could not commit viy evidence slot")

def writeBlob (blob : Bytes) : NodeProc (Except Bytes Unit) :=
  if blob = [] then return .error (text "refusing to persist an empty evidence envelope")
  else
    match decodeEnvelope sha blob with
    | .error error =>
      return .error (text "refusing to persist an invalid evidence envelope: " ++ error)
    | .ok _ => do
      if ← ensure existEvidence createEvidence then
        commitBlob sha (nextSlot (← altval)) blob
      else return .error (text "could not create viy evidence netnode")

/-! ## Reading -/

/-- The envelope in a slot, if it decodes. -/
def validSlot (slot : Slot) : NodeProc (Except Bytes Bytes) := do
  match ← readSlot slot with
  | .error error => return .error error
  | .ok bytes => return (decodeEnvelope sha bytes).map fun _ => bytes

/-- Two valid envelopes without a marker: their union, staged in slot A. -/
def mergeSlots (aBytes bBytes : Bytes) : NodeProc (Except Bytes Bytes) :=
  let merged : Except Bytes Bytes := do
    let recovered ← (decodeEnvelope sha aBytes).mapError fun error =>
      text "validated evidence slot failed second decode: " ++ error
    let other ← (decodeEnvelope sha bBytes).mapError fun error =>
      text "validated evidence slot failed second decode: " ++ error
    (recovered.merge sha other false).1.serialize sha
  match merged with
  | .error error => return .error error
  | .ok out => do
    match ← stageSlot .a out with
    | .error error => return .error error
    | .ok () =>
      let _ ← altset .a
      return .ok out

/-- The marker names no slot. -/
def recoverMarker : NodeProc (Except Bytes Bytes) := do
  let a ← validSlot sha .a
  let b ← validSlot sha .b
  match a, b with
  | .error aError, .error bError =>
    return .error (text "viy evidence commit marker invalid; slot A invalid: " ++ aError ++
      text "; slot B invalid: " ++ bError)
  | .ok aBytes, .ok bBytes => mergeSlots sha aBytes bBytes
  | .ok bytes, .error _ =>
    let _ ← altset .a
    return .ok bytes
  | .error _, .ok bytes =>
    let _ ← altset .b
    return .ok bytes

/-- Move the first valid envelope of the former layout to its slot node. -/
def migrateLegacy : List Slot → NodeProc (Option Bytes)
  | [] => return none
  | slot :: rest => do
    match ← readLegacySlot slot with
    | .error _ => migrateLegacy rest
    | .ok bytes =>
      match decodeEnvelope sha bytes with
      | .error _ => migrateLegacy rest
      | .ok _ =>
        match ← stageSlot slot bytes with
        | .error _ => migrateLegacy rest
        | .ok () =>
          let _ ← altset slot
          return some bytes

/-- The marker names a slot. -/
def readActive (active : Slot) : NodeProc (Except Bytes Bytes) := do
  match ← validSlot sha active with
  | .ok bytes => return .ok bytes
  | .error activeError =>
    match ← validSlot sha active.other with
    | .ok bytes =>
      let _ ← altset active.other
      return .ok bytes
    | .error fallbackError =>
      match ← migrateLegacy sha [active, active.other] with
      | some bytes => return .ok bytes
      | none =>
        return .error (text "active evidence slot invalid: " ++ activeError ++
          text "; fallback invalid: " ++ fallbackError)

def readBlob : NodeProc (Except Bytes Bytes) := do
  if ← existEvidence then
    attach
    match Slot.ofIndex? (← altval) with
    | some active => readActive sha active
    | none => recoverMarker sha
  else return .error (text "viy evidence netnode not found")

end Adapter

end Viy
