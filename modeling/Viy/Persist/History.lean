import Viy.Persist.Commit

/-!
# Histories of writes

Any number of writes that return, then one that is interrupted, then a read. The state between the
writes is `Holds` throughout, so the read finds the committed envelope or that of the last call.
-/

namespace Viy

open Analysis Fault Wire Netnode

section History

variable {sha : Bytes → FactDigest} {nodes : Nodes} {slot : Slot} {blob bytes : Bytes}
  {committed : Option Bytes}

/-! ## Undisturbed reads -/

theorem run_readSlot_of_some (h : nodes.slot slot = some (some bytes)) :
    (readSlot slot).run nodes [] = (some (.ok bytes), nodes, []) := by
  simp [readSlot, existSlot, attach, query, getblob, Proc.run_bind, h]

theorem run_validSlot_of_envelope (h : nodes.slot slot = some (some bytes))
    (henvelope : Envelope sha bytes) :
    (validSlot sha slot).run nodes [] = (some (.ok bytes), nodes, []) := by
  obtain ⟨s, hs⟩ := henvelope
  simp [validSlot, Proc.run_bind, run_readSlot_of_some h, hs, Except.map]

theorem run_validSlot_of_vacant (h : nodes.Vacant sha slot) :
    ∃ error, (validSlot sha slot).run nodes [] = (some (.error error), nodes, []) := by
  rcases hslot : nodes.slot slot with _ | _ | bytes
  · simp [validSlot, readSlot, existSlot, query, Proc.run_bind, hslot]
  · simp [validSlot, readSlot, existSlot, attach, query, getblob, Proc.run_bind, hslot]
  · rcases hdecode : decodeEnvelope sha bytes with error | s
    · simp [validSlot, Proc.run_bind, run_readSlot_of_some hslot, hdecode, Except.map]
    · exact absurd ⟨s, hdecode⟩ (h bytes hslot)

/-- The marker leads to the committed envelope. -/
theorem Nodes.Holds.run_readBlob (h : nodes.Holds sha (some blob)) :
    (readBlob sha).run nodes [] = (some (.ok blob), nodes, []) := by
  obtain ⟨henvelope, node, slot, hnode, hmarker, hslot⟩ := h
  have hactive : Slot.ofIndex? node.marker = some slot := by
    rw [hmarker]
    cases slot <;> rfl
  simp [readBlob, readActive, existEvidence, attach, altval, query, Proc.run_bind, hnode, hactive,
    run_validSlot_of_envelope hslot henvelope]

/-- With nothing committed and nothing staged there is nothing to read. -/
theorem Nodes.Holds.run_readBlob_none (h : nodes.Holds sha none) :
    ∃ error, (readBlob sha).run nodes [] = (some (.error error), nodes, []) := by
  obtain ⟨hmarker, hvacant⟩ := h
  rcases hnode : nodes.evidence with _ | node
  · simp [readBlob, existEvidence, query, Proc.run_bind, hnode]
  · obtain ⟨aError, ha⟩ := run_validSlot_of_vacant (hvacant .a)
    obtain ⟨bError, hb⟩ := run_validSlot_of_vacant (hvacant .b)
    simp [readBlob, recoverMarker, existEvidence, attach, altval, query, Proc.run_bind, hnode,
      hmarker node hnode, Slot.ofIndex?, Slot.index, ha, hb]

/-- An envelope without a marker is found and gets one. -/
theorem Nodes.Staged.run_readBlob (h : nodes.Staged sha blob) :
    ∃ nodes', (readBlob sha).run nodes [] = (some (.ok blob), nodes', []) := by
  obtain ⟨⟨node, hnode, hmarker, -, hvacant⟩, henvelope, hslot⟩ := h
  have ha := run_validSlot_of_envelope hslot henvelope
  obtain ⟨bError, hb⟩ := run_validSlot_of_vacant hvacant
  simp [readBlob, recoverMarker, existEvidence, attach, altval, altset, query, change,
    Proc.run_bind, hnode, hmarker, Slot.ofIndex?, Slot.index, ha, hb]

/-! ## Whole histories -/

/-- The nodes after writes that returned, and the blob of the last one that succeeded. -/
inductive History (sha : Bytes → FactDigest) : Nodes → Option Bytes → Prop
  | empty : History sha Nodes.empty none
  | call {nodes nodes' : Nodes} {committed : Option Bytes} {blob : Bytes}
      {result : Except Bytes Unit} {script rest : List Event} :
      History sha nodes committed → (∀ event ∈ script, event.Sound sha) →
      (writeBlob sha blob).run nodes script = (some result, nodes', rest) →
      History sha nodes' (if result.isOk then some blob else committed)

theorem Nodes.holds_empty : Nodes.empty.Holds sha none :=
  ⟨nofun, fun _ _ hbytes => nomatch hbytes⟩

theorem History.holds (h : History sha nodes committed) : nodes.Holds sha committed := by
  induction h with
  | empty => exact Nodes.holds_empty
  | call _ hscript hrun ih => exact (writeBlob_triple.returned ih hscript hrun).1

/-- Reading after an interruption. -/
theorem Nodes.AfterCut.run_readBlob (h : nodes.AfterCut sha committed blob) :
    ∃ result nodes', (readBlob sha).run nodes [] = (some result, nodes', []) ∧
      match result with
      | .ok bytes => committed = some bytes ∨ bytes = blob
      | .error _ => committed = none ∧ ∀ slot, nodes.Vacant sha slot := by
  rcases h with h | h | ⟨-, h⟩
  · cases committed with
    | some c => exact ⟨.ok c, nodes, h.run_readBlob, Or.inl rfl⟩
    | none =>
      obtain ⟨error, hrun⟩ := h.run_readBlob_none
      exact ⟨.error error, nodes, hrun, rfl, h.2⟩
  · exact ⟨.ok blob, nodes, h.run_readBlob, Or.inr rfl⟩
  · obtain ⟨nodes', hrun⟩ := h.run_readBlob
    exact ⟨.ok blob, nodes', hrun, Or.inr rfl⟩

end History

/-- **Interrupted writes.** After any writes that returned, let one more run under any events. If it
is interrupted, a read returns the committed blob or the blob of this call, and fails only if
nothing was committed and no slot has a complete envelope. If it fails, the committed blob stays
readable; if it succeeds, its own blob is. -/
theorem interrupted_writes_stay_readable (sha : Bytes → FactDigest) {nodes nodes' : Nodes}
    {committed : Option Bytes} (hhistory : History sha nodes committed) (blob : Bytes)
    {script rest : List Event} {outcome : Option (Except Bytes Unit)}
    (hscript : ∀ event ∈ script, event.Sound sha)
    (hrun : (writeBlob sha blob).run nodes script = (outcome, nodes', rest)) :
    match outcome with
    | none => ∃ result nodes'', (readBlob sha).run nodes' [] = (some result, nodes'', []) ∧
        match result with
        | .ok bytes => committed = some bytes ∨ bytes = blob
        | .error _ => committed = none ∧ ∀ slot, nodes'.Vacant sha slot
    | some (.error _) => ∀ bytes, committed = some bytes →
        (readBlob sha).run nodes' [] = (some (.ok bytes), nodes', [])
    | some (.ok ()) => (readBlob sha).run nodes' [] = (some (.ok blob), nodes', []) := by
  have hholds := hhistory.holds
  match outcome with
  | none => exact (writeBlob_triple.interrupted hholds hscript hrun).run_readBlob
  | some (.error _) =>
    have hwritten := (writeBlob_triple.returned hholds hscript hrun).1
    rintro bytes rfl
    exact Nodes.Holds.run_readBlob hwritten
  | some (.ok ()) =>
    exact Nodes.Holds.run_readBlob (writeBlob_triple.returned hholds hscript hrun).1

/-- The envelope of the empty ledger, under a constant digest. -/
def emptyEnvelope : Bytes :=
  (EvidenceStore.empty.serialize fun _ => FactDigest.zero).toOption.getD []

/-- The envelope of a ledger with one fact. -/
def factEnvelope (fact : AnalysisFact) : Bytes :=
  ((EvidenceStore.empty.add (fun _ => FactDigest.zero) fact).1.serialize
    fun _ => FactDigest.zero).toOption.getD []

/-- The second write is cut when its envelope is complete and the marker is not set: the first
envelope is read. -/
theorem second_write_interrupted :
    let write blob := (writeBlob (fun _ => FactDigest.zero) blob).run
    let first := write emptyEnvelope Nodes.empty []
    let second := write (factEnvelope sampleFact) first.2.1
      (List.replicate 9 .done ++ [.cut .unchanged])
    first.1 = some (.ok ()) ∧ second.1 = none ∧
      second.2.1.slot .b = some (some (factEnvelope sampleFact)) ∧
      factEnvelope sampleFact ≠ emptyEnvelope ∧
      ∃ nodes, (readBlob fun _ => FactDigest.zero).run second.2.1 [] =
        (some (.ok emptyEnvelope), nodes, []) := by
  intro write first second
  have hok : first.1 = some (.ok ()) := by decide +kernel
  have hcut : second.1 = none := by decide +kernel
  have hfirst : (writeBlob (fun _ => FactDigest.zero) emptyEnvelope).run Nodes.empty [] =
      (some (.ok ()), first.2.1, first.2.2) := by
    rw [← hok]
  have hsecond : (writeBlob (fun _ => FactDigest.zero) (factEnvelope sampleFact)).run first.2.1
      (List.replicate 9 .done ++ [.cut .unchanged]) = (none, second.2.1, second.2.2) := by
    rw [← hcut]
  obtain ⟨result, nodes, hread, -⟩ := interrupted_writes_stay_readable _
    (.call .empty (by simp) hfirst) _ (by simp [Event.Sound, Left.Torn]) hsecond
  refine ⟨hok, hcut, by decide +kernel, by decide +kernel, nodes, ?_⟩
  have hvalue : ((readBlob fun _ => FactDigest.zero).run second.2.1 []).1 =
      some (.ok emptyEnvelope) := by decide +kernel
  rw [hread] at hvalue ⊢
  exact Prod.ext hvalue rfl

/-- A write whose marker cannot be set removes its own envelope: cut before the marker, the first
write leaves its envelope in the slot; if setting the marker fails and the removal is cut when done,
a read finds nothing. -/
theorem failed_commit_removes_envelope :
    let write := (writeBlob (fun _ => FactDigest.zero) emptyEnvelope).run Nodes.empty
    let staged := List.replicate 9 Event.done ++ [.cut .unchanged]
    let failed := List.replicate 9 Event.done ++ [.fails .unchanged, .done, .done, .cut .complete]
    (∀ event ∈ failed, event.Sound fun _ => FactDigest.zero) ∧
      (write staged).2.1.slot .a = some (some emptyEnvelope) ∧
      ((decodeEnvelope (fun _ => FactDigest.zero) emptyEnvelope).isOk) ∧
      (write failed).1 = none ∧
      (((readBlob fun _ => FactDigest.zero).run (write failed).2.1 []).1.map Except.isOk =
        some false) :=
  ⟨by simp [Event.Sound, Left.Torn], by decide +kernel, by decide +kernel, by decide +kernel,
    by decide +kernel⟩

end Viy
