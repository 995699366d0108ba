import Viy.Persist.Netnode

/-!
# The two-slot commit is crash safe

A write stages its envelope in the slot the marker does not name and moves the marker last. So at
every primitive the last committed envelope stays readable, and the envelope of an interrupted write
is either committed or not. `Holds` is the state between calls; the triples below carry it through
one write, and the history theorem through any number of them.
-/

namespace Viy

open Analysis Fault Wire Netnode

section Commit

variable (sha : Bytes → FactDigest)

/-- A complete envelope. -/
def Envelope (blob : Bytes) : Prop := ∃ s, decodeEnvelope sha blob = .ok s

/-- What a primitive leaves unfinished is no envelope. -/
def Left.Torn : Left → Prop
  | .torn bytes => ¬ Envelope sha bytes
  | .unchanged | .complete => True

/-- The events of the host: a failed change is not complete, torn bytes form no envelope. -/
def Event.Sound : Event → Prop
  | .done => True
  | .fails left => left ≠ .complete ∧ left.Torn sha
  | .cut left => left.Torn sha

/-! ## States of the nodes -/

/-- A slot without a complete envelope. -/
def Nodes.Vacant (nodes : Nodes) (slot : Slot) : Prop :=
  ∀ bytes, nodes.slot slot = some (some bytes) → ¬ Envelope sha bytes

/-- The committed envelope does not depend on a slot: the marker names the other one, or nothing was
committed, and the slot is the first to be used. -/
def Nodes.Spare (committed : Option Bytes) (slot : Slot) (nodes : Nodes) : Prop :=
  ∃ node, nodes.evidence = some node ∧
    match committed with
    | some blob => Envelope sha blob ∧ node.marker = slot.other.index ∧
        nodes.slot slot.other = some (some blob)
    | none => node.marker = 0 ∧ slot = .a ∧ nodes.Vacant sha .b

/-- Between calls: the marker names the slot with the committed envelope, or nothing is committed
and no envelope is left behind. -/
def Nodes.Holds (committed : Option Bytes) (nodes : Nodes) : Prop :=
  match committed with
  | some blob => Envelope sha blob ∧ ∃ node slot, nodes.evidence = some node ∧
      node.marker = slot.index ∧ nodes.slot slot = some (some blob)
  | none => (∀ node, nodes.evidence = some node → node.marker = 0) ∧
      ∀ slot, nodes.Vacant sha slot

/-- A complete envelope without a marker. -/
def Nodes.Staged (blob : Bytes) (nodes : Nodes) : Prop :=
  nodes.Spare sha none .a ∧ Envelope sha blob ∧ nodes.slot .a = some (some blob)

/-- What an interrupted write can leave. -/
def Nodes.AfterCut (committed : Option Bytes) (blob : Bytes) (nodes : Nodes) : Prop :=
  nodes.Holds sha committed ∨ nodes.Holds sha (some blob) ∨
    (committed = none ∧ nodes.Staged sha blob)

/-- The new envelope in a spare slot. -/
def Nodes.Loaded (committed : Option Bytes) (slot : Slot) (blob : Bytes) (nodes : Nodes) : Prop :=
  nodes.Spare sha committed slot ∧ nodes.slot slot = some (some blob)

/-- What a write that returns leaves. -/
def Nodes.Written (committed : Option Bytes) (blob : Bytes) (result : Except Bytes Unit)
    (nodes : Nodes) : Prop :=
  nodes.Holds sha (if result.isOk then some blob else committed)

variable {sha} {nodes : Nodes} {committed : Option Bytes} {slot : Slot} {blob : Bytes}

theorem Nodes.Spare.setSlot (h : nodes.Spare sha committed slot) (content : Option (Option Bytes)) :
    (nodes.setSlot slot content).Spare sha committed slot := by
  obtain ⟨node, hnode, h⟩ := h
  refine ⟨node, hnode, ?_⟩
  cases committed with
  | some blob =>
    obtain ⟨henvelope, hmarker, hslot⟩ := h
    refine ⟨henvelope, hmarker, ?_⟩
    have hne : slot.other ≠ slot := by cases slot <;> decide
    simpa [Nodes.setSlot, hne] using hslot
  | none =>
    obtain ⟨hmarker, rfl, hvacant⟩ := h
    exact ⟨hmarker, rfl, fun bytes hbytes => hvacant bytes (by simpa [Nodes.setSlot] using hbytes)⟩

/-- A vacant spare slot is one state between calls. -/
theorem Nodes.Spare.holds (h : nodes.Spare sha committed slot)
    (hvacant : committed = none → nodes.Vacant sha slot) : nodes.Holds sha committed := by
  obtain ⟨node, hnode, h⟩ := h
  cases committed with
  | some blob => exact ⟨h.1, node, slot.other, hnode, h.2.1, h.2.2⟩
  | none =>
    obtain ⟨hmarker, rfl, hb⟩ := h
    refine ⟨fun node' hnode' => ?_, fun slot => ?_⟩
    · obtain rfl := Option.some.inj (hnode.symm.trans hnode')
      exact hmarker
    · cases slot
      · exact hvacant rfl
      · exact hb

theorem Nodes.Loaded.afterCut (h : nodes.Loaded sha committed slot blob)
    (henvelope : Envelope sha blob) : nodes.AfterCut sha committed blob := by
  obtain ⟨hspare, hslot⟩ := h
  cases committed with
  | some c => exact Or.inl (hspare.holds fun hnone => nomatch hnone)
  | none =>
    obtain ⟨-, -, -, rfl, -⟩ := id hspare
    exact Or.inr (Or.inr ⟨rfl, hspare, henvelope, hslot⟩)

/-- Moving the marker to the new envelope commits it. -/
theorem Nodes.Loaded.setMarker (h : nodes.Loaded sha committed slot blob)
    (henvelope : Envelope sha blob) : (nodes.setMarker slot).Holds sha (some blob) := by
  obtain ⟨⟨node, hnode, -⟩, hslot⟩ := h
  exact ⟨henvelope, { node with marker := slot.index }, slot, by simp [Nodes.setMarker, hnode], rfl,
    hslot⟩

/-- A spare slot that holds no envelope unless an older one was committed. -/
def Nodes.Ready (sha : Bytes → FactDigest) (committed : Option Bytes) (slot : Slot)
    (nodes : Nodes) : Prop :=
  nodes.Spare sha committed slot ∧ (committed = none → nodes.Vacant sha slot)

theorem Nodes.Ready.afterCut (h : nodes.Ready sha committed slot) :
    nodes.AfterCut sha committed blob := Or.inl (h.1.holds h.2)

/-- Anything but an envelope can be put into a spare slot. -/
theorem Nodes.Spare.ready_setSlot (h : nodes.Spare sha committed slot)
    {content : Option (Option Bytes)}
    (hcontent : ∀ bytes, content = some (some bytes) → ¬ Envelope sha bytes) :
    (nodes.setSlot slot content).Ready sha committed slot :=
  ⟨h.setSlot content, fun _ bytes hbytes => hcontent bytes (by simpa [Nodes.setSlot] using hbytes)⟩

/-- The slot behind the marker is spare between calls. -/
theorem Nodes.Holds.ready (h : nodes.Holds sha committed) {node : EvidenceNode}
    (hnode : nodes.evidence = some node) :
    nodes.Ready sha committed (nextSlot node.marker) := by
  cases committed with
  | some blob =>
    obtain ⟨henvelope, node', active, hnode', hmarker, hslot⟩ := h
    obtain rfl := Option.some.inj (hnode.symm.trans hnode')
    refine ⟨⟨node, hnode, henvelope, ?_⟩, fun hnone => nomatch hnone⟩
    rw [hmarker]
    cases active <;> exact ⟨rfl, hslot⟩
  | none =>
    obtain ⟨hmarker, hvacant⟩ := h
    have hzero := hmarker node hnode
    rw [hzero]
    exact ⟨⟨node, hnode, hzero, rfl, hvacant .b⟩, fun _ => hvacant .a⟩

/-! ## Primitives -/

theorem query_triple {E : Event → Prop} {P C : Nodes → Prop} {α : Type} {answer : Nodes → α}
    (hC : ∀ nodes, P nodes → C nodes) :
    Triple E P (query answer) (fun a nodes => P nodes ∧ a = answer nodes) C := by
  refine Triple.prim (fun _ h => ⟨h, rfl⟩) (fun event nodes a nodes' _ h heq => ?_)
    fun event nodes nodes' _ h heq => ?_
  · cases event <;> simp only [Prod.mk.injEq, Option.some.injEq, reduceCtorEq, false_and] at heq
    all_goals
      obtain ⟨rfl, rfl⟩ := heq
      exact ⟨h, rfl⟩
  · cases event <;> simp only [Prod.mk.injEq, reduceCtorEq, false_and, true_and] at heq
    exact heq ▸ hC nodes h

/-- The cases of a change: it happens, it does not, or it leaves torn bytes. -/
theorem change_triple {E : Event → Prop} {P C : Nodes → Prop} {Q : Bool → Nodes → Prop}
    {complete : Nodes → Nodes} {torn : Bytes → Nodes → Nodes}
    (hE : ∀ event, E event → event.Sound sha) (hdone : ∀ nodes, P nodes → Q true (complete nodes))
    (hfail : ∀ nodes, P nodes → Q false nodes)
    (htorn : ∀ nodes bytes, P nodes → ¬ Envelope sha bytes → Q false (torn bytes nodes))
    (htrue : ∀ nodes, Q true nodes → C nodes) (hfalse : ∀ nodes, Q false nodes → C nodes) :
    Triple E P (change complete torn) Q C := by
  refine Triple.prim hdone (fun event nodes a nodes' hevent h heq => ?_)
    fun event nodes nodes' hevent h heq => ?_
  · cases event with
    | done =>
      obtain ⟨rfl, rfl⟩ : true = a ∧ complete nodes = nodes' := by simpa using heq
      exact hdone nodes h
    | fails left =>
      obtain ⟨rfl, rfl⟩ : false = a ∧ left.apply complete torn nodes = nodes' := by
        simpa using heq
      cases left with
      | unchanged => exact hfail nodes h
      | complete => exact absurd rfl (hE _ hevent).1
      | torn bytes => exact htorn nodes bytes h (hE _ hevent).2
    | cut left => simp at heq
  · cases event with
    | done => simp at heq
    | fails left => simp at heq
    | cut left =>
      obtain rfl : left.apply complete torn nodes = nodes' := by simpa using heq
      cases left with
      | unchanged => exact hfalse _ (hfail nodes h)
      | complete => exact htrue _ (hdone nodes h)
      | torn bytes => exact hfalse _ (htorn nodes bytes h (hE _ hevent))

/-! ## Steps of a write -/

/-- Attaching or creating keeps what both keep. -/
theorem ensure_triple {E : Event → Prop} {P C : Nodes → Prop} {Q : Bool → Nodes → Prop}
    {answer : Nodes → Bool} {create : NodeProc Bool} (hC : ∀ nodes, P nodes → C nodes)
    (hexist : ∀ nodes, P nodes → answer nodes = true → Q true nodes)
    (hcreate : Triple E (fun nodes => P nodes ∧ answer nodes = false) create Q C) :
    Triple E P (ensure (query answer) create) Q C := by
  refine (query_triple hC).bind fun exists? => ?_
  cases exists?
  · exact hcreate.conseq (fun _ h => ⟨h.1, h.2.symm⟩) (fun _ _ h => h) fun _ h => h
  · refine (query_triple fun nodes h => hC nodes h.1).bind fun _ => ?_
    exact Triple.pure fun nodes h => hexist nodes h.1.1 h.1.2.symm

theorem setblob_triple (henvelope : Envelope sha blob) :
    Triple (Event.Sound sha) (Nodes.Ready sha committed slot) (setblob slot blob)
      (fun ok nodes => if ok then nodes.Loaded sha committed slot blob
        else nodes.Ready sha committed slot)
      (Nodes.AfterCut sha committed blob) := by
  refine change_triple (fun _ h => h) (fun nodes h => ?_) (fun _ h => h)
    (fun nodes bytes h htorn => ?_) (fun _ h => h.afterCut henvelope) fun _ h => h.afterCut
  · exact ⟨h.1.setSlot _, by simp [Nodes.setSlot]⟩
  · refine h.1.ready_setSlot fun bytes' heq => ?_
    obtain rfl := Option.some.inj (Option.some.inj heq)
    exact htorn

theorem stageSlot_triple (henvelope : Envelope sha blob) :
    Triple (Event.Sound sha) (Nodes.Ready sha committed slot) (stageSlot slot blob)
      (fun result nodes => match result with
        | .ok () => nodes.Loaded sha committed slot blob
        | .error _ => nodes.Ready sha committed slot)
      (Nodes.AfterCut sha committed blob) := by
  have hready : ∀ nodes : Nodes, nodes.Ready sha committed slot →
      nodes.AfterCut sha committed blob := fun _ h => h.afterCut
  have hensure : Triple (Event.Sound sha) (Nodes.Ready sha committed slot)
      (ensure (existSlot slot) (createSlot slot)) (fun _ => Nodes.Ready sha committed slot)
      (Nodes.AfterCut sha committed blob) := by
    refine ensure_triple hready (fun _ h _ => h) ?_
    exact change_triple (fun _ h => h)
      (fun _ h => h.1.1.ready_setSlot fun _ hbytes => nomatch hbytes) (fun _ h => h.1)
      (fun _ _ h _ => h.1) hready hready
  refine hensure.bind fun created => ?_
  cases created
  · exact Triple.pure fun _ h => h
  · refine (setblob_triple henvelope).bind fun ok => ?_
    cases ok
    · exact Triple.pure fun _ h => by simpa using h
    · exact Triple.pure fun _ h => by simpa using h

theorem getblob_triple {E : Event → Prop} {P C : Nodes → Prop}
    (hC : ∀ nodes, P nodes → C nodes) : Triple E P (getblob slot) (fun _ => P) C := by
  refine Triple.prim (fun _ h => h) (fun event nodes a nodes' _ h heq => ?_)
    fun event nodes nodes' _ h heq => ?_
  · cases event <;> simp only [Prod.mk.injEq, reduceCtorEq, false_and] at heq
    all_goals exact heq.2 ▸ h
  · cases event <;> simp only [Prod.mk.injEq, reduceCtorEq, false_and, true_and] at heq
    exact heq ▸ hC nodes h

/-- Reading a slot changes nothing. -/
theorem readSlot_triple {E : Event → Prop} {P C : Nodes → Prop}
    (hC : ∀ nodes, P nodes → C nodes) : Triple E P (readSlot slot) (fun _ => P) C := by
  refine (query_triple hC).bind fun exists? => ?_
  cases exists?
  · exact Triple.pure fun _ h => h.1
  · refine (query_triple fun nodes h => hC nodes h.1).bind fun _ =>
      ((getblob_triple hC).conseq (fun _ h => h.1.1) (fun _ _ h => h) fun _ h => h).bind
        fun found => ?_
    cases found <;> exact Triple.pure fun _ h => h

theorem kill_triple (henvelope : Envelope sha blob) :
    Triple (Event.Sound sha) (Nodes.Loaded sha committed slot blob) (kill slot)
      (fun _ => Nodes.Ready sha committed slot) (Nodes.AfterCut sha committed blob) := by
  have hnone : ∀ nodes : Nodes, nodes.Spare sha committed slot →
      (nodes.setSlot slot none).Ready sha committed slot :=
    fun _ h => h.ready_setSlot fun _ hbytes => nomatch hbytes
  refine Triple.prim (fun nodes h => hnone nodes h.1)
    (fun event nodes a nodes' _ h heq => ?_) fun event nodes nodes' hsound h heq => ?_
  · cases event <;> simp only [Prod.mk.injEq, reduceCtorEq, false_and] at heq
    all_goals exact heq.2 ▸ hnone nodes h.1
  · cases event <;> simp only [Prod.mk.injEq, reduceCtorEq, false_and, true_and] at heq
    rename_i left
    subst heq
    cases left with
    | unchanged => exact h.afterCut henvelope
    | complete => exact (hnone nodes h.1).afterCut
    | torn bytes =>
      refine (h.1.ready_setSlot fun bytes' heq => ?_).afterCut
      obtain rfl := Option.some.inj (Option.some.inj heq)
      exact hsound

/-- Removing a staged envelope frees its slot. -/
theorem killSlot_triple (henvelope : Envelope sha blob) :
    Triple (Event.Sound sha) (Nodes.Loaded sha committed slot blob) (killSlot slot)
      (fun _ => Nodes.Ready sha committed slot) (Nodes.AfterCut sha committed blob) := by
  refine (query_triple fun _ h => h.afterCut henvelope).bind fun exists? => ?_
  cases exists?
  · -- the slot holds the envelope, so it exists
    exact Triple.pure fun nodes h => absurd h.2 (by simp [h.1.2])
  · exact (query_triple fun _ h => h.1.afterCut henvelope).bind fun _ =>
      (kill_triple henvelope).conseq (fun _ h => h.1.1) (fun _ _ h => h) fun _ h => h

theorem altset_triple (henvelope : Envelope sha blob) :
    Triple (Event.Sound sha) (Nodes.Loaded sha committed slot blob) (altset slot)
      (fun ok nodes => if ok then nodes.Holds sha (some blob)
        else nodes.Loaded sha committed slot blob)
      (Nodes.AfterCut sha committed blob) :=
  change_triple (fun _ h => h) (fun _ h => h.setMarker henvelope) (fun _ h => h)
    (fun _ _ h _ => h) (fun _ h => Or.inr (Or.inl h)) fun _ h => h.afterCut henvelope

/-- A removed envelope leaves what was committed. -/
theorem killSlot_error_triple (henvelope : Envelope sha blob) (error : Bytes) :
    Triple (Event.Sound sha) (Nodes.Loaded sha committed slot blob)
      (killSlot slot >>= fun _ => pure (.error error)) (Nodes.Written sha committed blob)
      (Nodes.AfterCut sha committed blob) :=
  (killSlot_triple henvelope).bind fun _ => Triple.pure fun _ h => h.1.holds h.2

/-- Stage, verify, commit: the marker moves or the committed envelope stays. -/
theorem commitBlob_triple (henvelope : Envelope sha blob) :
    Triple (Event.Sound sha) (Nodes.Ready sha committed slot) (commitBlob sha slot blob)
      (Nodes.Written sha committed blob)
      (Nodes.AfterCut sha committed blob) := by
  refine (stageSlot_triple henvelope).bind fun staged => ?_
  cases staged with
  | error => exact Triple.pure fun _ h => h.1.holds h.2
  | ok =>
    refine (readSlot_triple fun _ h => Nodes.Loaded.afterCut h henvelope).bind fun verify => ?_
    cases verifyStaged sha blob verify with
    | error =>
      exact killSlot_error_triple henvelope _
    | ok =>
      refine (altset_triple henvelope).bind fun ok => ?_
      cases ok
      · exact killSlot_error_triple henvelope _
      · exact Triple.pure fun _ h => h

/-- The evidence node exists before its marker is read. -/
theorem ensureEvidence_triple :
    Triple (Event.Sound sha) (Nodes.Holds sha committed) (ensure existEvidence createEvidence)
      (fun ok nodes => nodes.Holds sha committed ∧ (ok = true → nodes.evidence.isSome))
      (Nodes.AfterCut sha committed blob) := by
  have hcut : ∀ nodes : Nodes, nodes.Holds sha committed → nodes.AfterCut sha committed blob :=
    fun _ h => Or.inl h
  refine ensure_triple hcut (fun _ h hsome => ⟨h, fun _ => hsome⟩) ?_
  refine change_triple (fun _ h => h) (fun nodes h => ⟨?_, fun _ => rfl⟩)
    (fun _ h => ⟨h.1, nofun⟩) (fun _ _ h _ => ⟨h.1, nofun⟩) (fun _ h => hcut _ h.1)
    fun _ h => hcut _ h.1
  -- A committed envelope has its node; a fresh node has no marker.
  obtain ⟨h, habsent⟩ := h
  cases committed with
  | some c =>
    obtain ⟨-, node, -, hnode, -⟩ := h
    simp [hnode] at habsent
  | none =>
    refine ⟨fun node hnode => ?_, h.2⟩
    obtain rfl := Option.some.inj hnode
    rfl

/-- **One write.** It commits its blob or leaves the committed one, and an interruption leaves one
of the two. -/
theorem writeBlob_triple :
    Triple (Event.Sound sha) (Nodes.Holds sha committed) (writeBlob sha blob)
      (Nodes.Written sha committed blob)
      (Nodes.AfterCut sha committed blob) := by
  unfold writeBlob
  split_ifs with hempty
  · exact Triple.pure fun _ h => h
  rcases hdecode : decodeEnvelope sha blob with error | s
  · exact Triple.pure fun _ h => h
  refine ensureEvidence_triple.bind fun ok => ?_
  cases ok
  · exact Triple.pure fun _ h => h.1
  refine (query_triple fun _ h => Or.inl h.1).bind fun active => ?_
  refine (commitBlob_triple ⟨s, hdecode⟩).conseq (fun nodes h => ?_) (fun _ _ h => h) fun _ h => h
  obtain ⟨⟨hholds, hsome⟩, rfl⟩ := h
  obtain ⟨node, hnode⟩ := Option.isSome_iff_exists.1 (hsome rfl)
  simpa [hnode] using hholds.ready hnode

end Commit

end Viy
