import Viy.Persist.Admission

/-!
# Recovery of the marker

With an invalid marker and two valid envelopes `read_blob` stages their union over slot A and then
sets the marker. Slot A is one of the two sources, so the step is not like a commit.

1. `mergedStore_serializes`: the union of two decoded ledgers always has an envelope, which need not
   be within the limits it is decoded under.
2. `Nodes.Recovering` lists what reads that complete or are cut can leave: both sources, the union
   over slot A, or no envelope in slot A. `readBlob_recovering` carries it through one read.
3. A read of the first two returns the union, a read of the third only the ledger of slot B.
-/

namespace Viy

open Analysis Fault Wire Netnode

/-- A primitive completes or the process stops in it. -/
def Event.Interrupts (sha : Bytes → FactDigest) (event : Event) : Prop :=
  event.Sound sha ∧ ∀ left, event ≠ .fails left

section Merge

variable {sha : Bytes → FactDigest} {blob aBytes bBytes out : Bytes} {s t : EvidenceStore}

/-! ## The union of two envelopes -/

theorem storeOk_of_decodeEnvelope (h : decodeEnvelope sha blob = .ok s) : StoreOk s :=
  (EvidenceStore.Reachable.deserialize h).ok

theorem admits_of_decodeEnvelope (h : decodeEnvelope sha blob = .ok s) :
    ({} : StoreCodecLimits).Admits s :=
  admits_of_deserialize (storeOk_of_decodeEnvelope h) (serialize_of_deserialize h) h

/-- The union that `read_blob` stages. -/
abbrev mergedStore (sha : Bytes → FactDigest) (s t : EvidenceStore) : EvidenceStore :=
  (s.merge sha t false).1

section Decoded

variable (hs : decodeEnvelope sha aBytes = .ok s) (ht : decodeEnvelope sha bBytes = .ok t)

include hs ht

theorem storeOk_mergedStore : StoreOk (mergedStore sha s t) :=
  (EvidenceStore.Reachable.merge false (.deserialize hs) (.deserialize ht)).ok

theorem facts_mergedStore : (mergedStore sha s t).facts = s.facts ∪ t.facts :=
  facts_merge (storeOk_of_decodeEnvelope hs) (storeOk_of_decodeEnvelope ht) false

theorem mem_flattenedFacts_mergedStore {fact : AnalysisFact}
    (h : fact ∈ (mergedStore sha s t).flattenedFacts) :
    fact ∈ s.flattenedFacts ++ t.flattenedFacts := by
  rw [mem_flattenedFacts, facts_mergedStore hs ht] at h
  rw [List.mem_append, mem_flattenedFacts, mem_flattenedFacts]
  exact h

/-- The union fits the format: its facts are those of the two, at most twice the limit of one. -/
theorem mergedStore_serializes : ∃ out, (mergedStore sha s t).serialize sha = .ok out := by
  have hok := storeOk_mergedStore hs ht
  have hsAdmits := admits_of_decodeEnvelope hs
  have htAdmits := admits_of_decodeEnvelope ht
  have hcount : (mergedStore sha s t).flattenedFacts.length ≤ 1000000 + 1000000 := by
    have hle := (nodup_flattenedFacts hok.records).subperm
      (fun _ h => mem_flattenedFacts_mergedStore hs ht h) |>.length_le
    have hsCount : s.flattenedFacts.length ≤ 1000000 := hsAdmits.observations
    have htCount : t.flattenedFacts.length ≤ 1000000 := htAdmits.observations
    rw [List.length_append] at hle
    omega
  refine ⟨_, (serialize_eq_ok hok).2 ⟨⟨?_, fun fact hfact => ?_⟩, rfl⟩⟩
  · exact hcount.trans (by decide)
  · rcases List.mem_append.1 (mem_flattenedFacts_mergedStore hs ht hfact) with h | h
    · exact (hsAdmits.fits (by decide) (by decide)).frames fact h
    · exact (htAdmits.fits (by decide) (by decide)).frames fact h

/-- A union that adds nothing to the second ledger is its envelope again. -/
theorem serialize_mergedStore_of_subset (hsub : s.facts ⊆ t.facts) :
    (mergedStore sha s t).serialize sha = .ok bBytes := by
  have hfacts : (mergedStore sha s t).facts = t.facts := by
    rw [facts_mergedStore hs ht, Set.union_eq_self_of_subset_left hsub]
  have hrecords := records_eq_of_facts (storeOk_mergedStore hs ht).records
    (storeOk_of_decodeEnvelope ht).records hfacts
  rw [serialize_eq_of_records hrecords]
  exact serialize_of_deserialize ht

/-- Merging the staged union with the second ledger once more gives the same bytes. -/
theorem serialize_mergedStore_again (hout : (mergedStore sha s t).serialize sha = .ok out)
    {u : EvidenceStore} (hu : decodeEnvelope sha out = .ok u) :
    (mergedStore sha u t).serialize sha = .ok out := by
  have hok := storeOk_mergedStore hs ht
  have hcopy : u = (mergedStore sha s t).copy := by
    have hdecode := (deserialize_serialize_iff hok hout).2 (admits_of_deserialize hok hout hu)
    exact Except.ok.inj (hu.symm.trans hdecode)
  have hfacts : u.facts = s.facts ∪ t.facts := by
    rw [hcopy]
    exact facts_mergedStore hs ht
  have hrecords : (mergedStore sha u t).records = (mergedStore sha s t).records := by
    refine records_eq_of_facts (storeOk_mergedStore hu ht).records hok.records ?_
    rw [facts_mergedStore hu ht, facts_mergedStore hs ht, hfacts, Set.union_assoc, Set.union_self]
  exact (serialize_eq_of_records hrecords).trans hout

theorem mergeSlots_eq (hout : (mergedStore sha s t).serialize sha = .ok out) :
    mergeSlots sha aBytes bBytes = (do
      match ← stageSlot .a out with
      | .error error => return .error error
      | .ok () =>
        let _ ← altset .a
        return .ok out) := by
  have hmerged : (do
      let recovered ← (decodeEnvelope sha aBytes).mapError fun error =>
        text "validated evidence slot failed second decode: " ++ error
      let other ← (decodeEnvelope sha bBytes).mapError fun error =>
        text "validated evidence slot failed second decode: " ++ error
      (recovered.merge sha other false).1.serialize sha) = .ok out := by
    rw [hs, ht]
    exact hout
  unfold mergeSlots
  rewrite [hmerged]
  rfl

end Decoded

end Merge

/-! ## What a read leaves -/

section Recovery

variable (sha : Bytes → FactDigest) (aBytes bBytes out : Bytes)

/-- Both sources, or their union over slot A. -/
def Nodes.Intact (nodes : Nodes) : Prop :=
  ∃ node, nodes.evidence = some node ∧ nodes.slot .b = some (some bBytes) ∧
    ((Slot.ofIndex? node.marker = none ∧ nodes.slot .a = some (some aBytes)) ∨
      (Envelope sha out ∧ node.marker ≠ Slot.b.index ∧ nodes.slot .a = some (some out)))

/-- Only the envelope of slot B. -/
def Nodes.Lost (nodes : Nodes) : Prop :=
  nodes.evidence.isSome ∧ nodes.slot .b = some (some bBytes) ∧ nodes.Vacant sha .a

def Nodes.Recovering (nodes : Nodes) : Prop :=
  nodes.Intact sha aBytes bBytes out ∨ nodes.Lost sha bBytes

/-- What reading a slot tells about it. -/
def Nodes.Answers (nodes : Nodes) (slot : Slot) : Except Bytes Bytes → Prop
  | .ok bytes => nodes.slot slot = some (some bytes) ∧ Envelope sha bytes
  | .error _ => nodes.Vacant sha slot

variable {sha aBytes bBytes out} {nodes : Nodes} {slot : Slot} {P C : Nodes → Prop}

theorem readSlot_answers (hC : ∀ nodes, P nodes → C nodes) :
    Triple (Event.Interrupts sha) P (readSlot slot)
      (fun result nodes => P nodes ∧ result.toOption = (nodes.slot slot).join) C := by
  have hgetblob : Triple (Event.Interrupts sha) P (getblob slot)
      (fun found nodes => P nodes ∧ found = (nodes.slot slot).join) C := by
    refine Triple.prim (fun _ h => ⟨h, rfl⟩) (fun event nodes a nodes' hevent h heq => ?_)
      fun event nodes nodes' hevent h heq => ?_
    · cases event with
      | done =>
        obtain ⟨rfl, rfl⟩ : (nodes.slot slot).join = a ∧ nodes = nodes' := by simpa using heq
        exact ⟨h, rfl⟩
      | fails left => exact absurd rfl (hevent.2 left)
      | cut left => simp at heq
    · cases event with
      | done => simp at heq
      | fails left => simp at heq
      | cut left =>
        obtain rfl : nodes = nodes' := by simpa using heq
        exact hC nodes h
  refine (query_triple hC).bind fun exists? => ?_
  cases exists? with
  | false =>
    refine Triple.pure fun nodes h => ⟨h.1, ?_⟩
    have hnone : nodes.slot slot = none := by simpa using h.2
    rw [hnone]
    rfl
  | true =>
    refine (query_triple fun nodes h => hC nodes h.1).bind fun _ => ?_
    refine (hgetblob.conseq (fun _ h => h.1.1) (fun _ _ h => h) fun _ h => h).bind fun found => ?_
    cases found <;> exact Triple.pure fun _ h => h

theorem validSlot_answers (hC : ∀ nodes, P nodes → C nodes) :
    Triple (Event.Interrupts sha) P (validSlot sha slot)
      (fun result nodes => P nodes ∧ nodes.Answers sha slot result) C := by
  refine (readSlot_answers hC).bind fun read => ?_
  cases read with
  | error error =>
    refine Triple.pure fun nodes h => ⟨h.1, fun bytes hbytes => ?_⟩
    have hjoin := h.2
    rw [hbytes] at hjoin
    exact nomatch hjoin
  | ok bytes =>
    have hslot : ∀ nodes : Nodes, (Except.ok bytes : Except Bytes Bytes).toOption =
        (nodes.slot slot).join → nodes.slot slot = some (some bytes) := fun nodes hjoin =>
      Option.join_eq_some_iff.1 hjoin.symm
    refine Triple.pure fun nodes h => ⟨h.1, ?_⟩
    rcases hdecode : decodeEnvelope sha bytes with error | s
    · intro bytes' hbytes'
      obtain rfl : bytes = bytes' := by simpa [hslot nodes h.2] using hbytes'
      rintro ⟨s, hs⟩
      exact nomatch hdecode.symm.trans hs
    · exact ⟨hslot nodes h.2, s, hdecode⟩

/-! ### The repair -/

def Nodes.Unmarked (nodes : Nodes) : Prop :=
  ∃ node, nodes.evidence = some node ∧ Slot.ofIndex? node.marker = none

theorem Nodes.Recovering.evidence (h : nodes.Recovering sha aBytes bBytes out) :
    nodes.evidence.isSome := by
  rcases h with ⟨node, hnode, -⟩ | h
  · rw [hnode]
    rfl
  · exact h.1

theorem Nodes.Recovering.slot_b (h : nodes.Recovering sha aBytes bBytes out) :
    nodes.slot .b = some (some bBytes) := by
  rcases h with ⟨-, -, hb, -⟩ | h
  · exact hb
  · exact h.2.1

/-- Slot A loses its envelope. -/
theorem Nodes.Recovering.lost_setSlot (h : nodes.Recovering sha aBytes bBytes out)
    {content : Option (Option Bytes)}
    (hcontent : ∀ bytes, content = some (some bytes) → ¬ Envelope sha bytes) :
    (nodes.setSlot .a content).Lost sha bBytes := by
  refine ⟨h.evidence, ?_, fun bytes hbytes => hcontent bytes ?_⟩
  · simpa [Nodes.setSlot] using h.slot_b
  · simpa [Nodes.setSlot] using hbytes

/-- With the union in slot A, only a marker for slot B would be wrong. -/
theorem Nodes.recovering_of_out {node : EvidenceNode} (hnode : nodes.evidence = some node)
    (hmarker : node.marker ≠ Slot.b.index) (hb : nodes.slot .b = some (some bBytes))
    (ha : nodes.slot .a = some (some out)) : nodes.Recovering sha aBytes bBytes out := by
  by_cases henvelope : Envelope sha out
  · exact Or.inl ⟨node, hnode, hb, Or.inr ⟨henvelope, hmarker, ha⟩⟩
  · refine Or.inr ⟨by rw [hnode]; rfl, hb, fun bytes hbytes => ?_⟩
    obtain rfl : out = bytes := by simpa [ha] using hbytes
    exact henvelope

theorem ne_of_ofIndex?_eq_none {marker : UInt64} (h : Slot.ofIndex? marker = none) :
    marker ≠ Slot.b.index := by
  rintro rfl
  exact nomatch h

theorem Nodes.Lost.setMarker (h : nodes.Lost sha bBytes) (slot : Slot) :
    (nodes.setMarker slot).Lost sha bBytes := by
  refine ⟨?_, h.2⟩
  simpa [Nodes.setMarker] using h.1

/-- Staging the union: slot A holds it, or what it held, or nothing that decodes. -/
theorem stageUnion_triple :
    Triple (Event.Interrupts sha)
      (fun nodes => nodes.Recovering sha aBytes bBytes out ∧ nodes.Unmarked) (stageSlot .a out)
      (fun result nodes => nodes.Recovering sha aBytes bBytes out ∧ (result = .ok () →
        nodes.Unmarked ∧ nodes.slot .a = some (some out)))
      (Nodes.Recovering sha aBytes bBytes out) := by
  have hE : ∀ event : Event, event.Interrupts sha → event.Sound sha := fun _ h => h.1
  have hensure : Triple (Event.Interrupts sha)
      (fun nodes => nodes.Recovering sha aBytes bBytes out ∧ nodes.Unmarked)
      (ensure (existSlot .a) (createSlot .a))
      (fun _ nodes => nodes.Recovering sha aBytes bBytes out ∧ nodes.Unmarked)
      (Nodes.Recovering sha aBytes bBytes out) := by
    refine ensure_triple (fun _ h => h.1) (fun _ h _ => h) ?_
    refine change_triple hE (fun nodes h => ⟨Or.inr ?_, h.1.2⟩) (fun _ h => h.1)
      (fun _ _ h _ => h.1) (fun _ h => h.1) fun _ h => h.1
    exact h.1.1.lost_setSlot fun _ hbytes => nomatch hbytes
  refine hensure.bind fun created => ?_
  cases created with
  | false => exact Triple.pure fun _ h => ⟨h.1, fun hok => by cases hok⟩
  | true =>
    have hsetblob : Triple (Event.Interrupts sha)
        (fun nodes => nodes.Recovering sha aBytes bBytes out ∧ nodes.Unmarked) (setblob .a out)
        (fun ok nodes => nodes.Recovering sha aBytes bBytes out ∧ (ok = true →
          nodes.Unmarked ∧ nodes.slot .a = some (some out)))
        (Nodes.Recovering sha aBytes bBytes out) := by
      refine change_triple hE (fun nodes h => ?_)
        (fun _ h => ⟨h.1, fun hok => absurd hok Bool.false_ne_true⟩)
        (fun nodes bytes h htorn => ⟨Or.inr ?_, fun hok => absurd hok Bool.false_ne_true⟩)
        (fun _ h => h.1) fun _ h => h.1
      · obtain ⟨hrecovering, node, hnode, hmarker⟩ := h
        have hout : (nodes.setSlot .a (some (some out))).slot .a = some (some out) := by
          simp [Nodes.setSlot]
        refine ⟨?_, fun _ => ⟨⟨node, hnode, hmarker⟩, hout⟩⟩
        refine Nodes.recovering_of_out hnode (ne_of_ofIndex?_eq_none hmarker) ?_ hout
        simpa [Nodes.setSlot] using hrecovering.slot_b
      · refine h.1.lost_setSlot fun bytes' heq => ?_
        obtain rfl := Option.some.inj (Option.some.inj heq)
        exact htorn
    refine hsetblob.bind fun ok => ?_
    cases ok with
    | false => exact Triple.pure fun _ h => ⟨h.1, fun hok => by cases hok⟩
    | true => exact Triple.pure fun _ h => ⟨h.1, fun _ => h.2 rfl⟩

/-- Moving the marker to the union. -/
theorem altset_union_triple :
    Triple (Event.Interrupts sha)
      (fun nodes => nodes.Recovering sha aBytes bBytes out ∧ nodes.Unmarked ∧
        nodes.slot .a = some (some out)) (altset .a)
      (fun _ => Nodes.Recovering sha aBytes bBytes out)
      (Nodes.Recovering sha aBytes bBytes out) := by
  refine change_triple (fun _ h => h.1) (fun nodes h => ?_) (fun _ h => h.1) (fun _ _ h _ => h.1)
    (fun _ h => h) fun _ h => h
  obtain ⟨hrecovering, ⟨node, hnode, -⟩, hout⟩ := h
  have hmarked : (nodes.setMarker .a).evidence = some { node with marker := Slot.a.index } := by
    simp [Nodes.setMarker, hnode]
  exact Nodes.recovering_of_out hmarked (show Slot.a.index ≠ Slot.b.index by decide)
    hrecovering.slot_b hout

theorem altset_lost_triple (slot : Slot) :
    Triple (Event.Interrupts sha) (Nodes.Lost sha bBytes) (altset slot)
      (fun _ => Nodes.Lost sha bBytes) (Nodes.Lost sha bBytes) :=
  change_triple (fun _ h => h.1) (fun _ h => h.setMarker slot) (fun _ h => h) (fun _ _ h _ => h)
    (fun _ h => h) fun _ h => h

/-! ### One read -/

section Sources

variable {s t : EvidenceStore} (hs : decodeEnvelope sha aBytes = .ok s)
  (ht : decodeEnvelope sha bBytes = .ok t) (hout : (mergedStore sha s t).serialize sha = .ok out)

include hs ht hout

/-- Whatever valid envelope slot A holds, its union with slot B is the same. -/
theorem Nodes.Recovering.union_of_answers (h : nodes.Recovering sha aBytes bBytes out)
    {bytes : Bytes} (hbytes : nodes.slot .a = some (some bytes)) (henvelope : Envelope sha bytes) :
    ∃ u, decodeEnvelope sha bytes = .ok u ∧ (mergedStore sha u t).serialize sha = .ok out := by
  rcases h with ⟨-, -, -, ⟨-, ha⟩ | ⟨hunion, -, ha⟩⟩ | ⟨-, -, hvacant⟩
  · obtain rfl : aBytes = bytes := by simpa [ha] using hbytes
    exact ⟨s, hs, hout⟩
  · obtain rfl : out = bytes := by simpa [ha] using hbytes
    obtain ⟨u, hu⟩ := henvelope
    exact ⟨u, hu, serialize_mergedStore_again hs ht hout hu⟩
  · exact absurd henvelope (hvacant bytes hbytes)

omit hs hout in
theorem Nodes.Recovering.not_vacant_b (h : nodes.Recovering sha aBytes bBytes out) :
    ¬ nodes.Vacant sha .b := fun hvacant => hvacant bBytes h.slot_b ⟨t, ht⟩

omit hs ht hout in
theorem Nodes.Recovering.lost_of_vacant (h : nodes.Recovering sha aBytes bBytes out)
    (hvacant : nodes.Vacant sha .a) : nodes.Lost sha bBytes := ⟨h.evidence, h.slot_b, hvacant⟩

theorem recoverMarker_recovering :
    Triple (Event.Interrupts sha)
      (fun nodes => nodes.Recovering sha aBytes bBytes out ∧ nodes.Unmarked) (recoverMarker sha)
      (fun _ => Nodes.Recovering sha aBytes bBytes out)
      (Nodes.Recovering sha aBytes bBytes out) := by
  refine (validSlot_answers fun _ h => h.1).bind fun a => ?_
  refine (validSlot_answers fun _ h => h.1.1).bind fun b => ?_
  match a, b with
  | .error _, .error _ => exact Triple.pure fun _ h => h.1.1.1
  | .ok aFound, .ok bFound =>
    -- what the slots hold decides which program runs from here on
    refine Triple.of_pre (φ := bFound = bBytes ∧ ∃ u, decodeEnvelope sha aFound = .ok u ∧
      (mergedStore sha u t).serialize sha = .ok out) (fun nodes h => ?_) ?_
    · obtain ⟨⟨⟨hrecovering, -⟩, ha, henvelope⟩, hb, -⟩ := h
      refine ⟨?_, hrecovering.union_of_answers hs ht hout ha henvelope⟩
      simpa [hrecovering.slot_b, eq_comm] using hb
    · rintro ⟨rfl, u, hu, hunion⟩
      show Triple _ _ (mergeSlots sha aFound bFound) _ _
      rw [mergeSlots_eq hu ht hunion]
      refine (stageUnion_triple.conseq (fun _ h => h.1.1) (fun _ _ h => h) fun _ h => h).bind
        fun staged => ?_
      cases staged with
      | error error => exact Triple.pure fun _ h => h.1
      | ok =>
        refine (altset_union_triple.conseq (fun _ h => ⟨h.1, h.2 rfl⟩) (fun _ _ h => h)
          fun _ h => h).bind fun _ => ?_
        exact Triple.pure fun _ h => h
  | .ok _, .error _ =>
    exact Triple.of_pre (fun _ h => h.1.1.1.not_vacant_b ht h.2) fun h => h.elim
  | .error _, .ok _ =>
    refine ((altset_lost_triple .b).conseq (fun nodes h => ?_) (fun _ _ h => Or.inr h)
      fun _ h => Or.inr h).bind fun _ => Triple.pure fun _ h => h
    exact h.1.1.1.lost_of_vacant h.1.2

omit hs hout in
theorem readActive_recovering (active : Slot) :
    Triple (Event.Interrupts sha) (Nodes.Recovering sha aBytes bBytes out) (readActive sha active)
      (fun _ => Nodes.Recovering sha aBytes bBytes out)
      (Nodes.Recovering sha aBytes bBytes out) := by
  refine (validSlot_answers fun _ h => h).bind fun found => ?_
  cases found with
  | ok bytes => exact Triple.pure fun _ h => h.1
  | error error =>
    cases active with
    | b => exact Triple.of_pre (fun _ h => h.1.not_vacant_b ht h.2) fun h => h.elim
    | a =>
      refine (validSlot_answers fun _ h => h.1).bind fun fallback => ?_
      cases fallback with
      | ok bytes =>
        refine ((altset_lost_triple .b).conseq (fun nodes h => ?_) (fun _ _ h => Or.inr h)
          fun _ h => Or.inr h).bind fun _ => Triple.pure fun _ h => h
        exact h.1.1.lost_of_vacant h.1.2
      | error _ => exact Triple.of_pre (fun _ h => h.1.1.not_vacant_b ht h.2) fun h => h.elim

/-- A read, completed or cut, stays among the shapes. -/
theorem readBlob_recovering :
    Triple (Event.Interrupts sha) (Nodes.Recovering sha aBytes bBytes out) (readBlob sha)
      (fun _ => Nodes.Recovering sha aBytes bBytes out)
      (Nodes.Recovering sha aBytes bBytes out) := by
  refine (query_triple fun _ h => h).bind fun exists? => ?_
  cases exists? with
  | false => exact Triple.pure fun _ h => h.1
  | true =>
    refine (query_triple fun _ h => h.1).bind fun _ => ?_
    refine (query_triple fun _ h => h.1.1).bind fun marker => ?_
    cases hactive : Slot.ofIndex? marker with
    | some active =>
      exact (readActive_recovering ht active).conseq (fun _ h => h.1.1.1) (fun _ _ h => h)
        fun _ h => h
    | none =>
      refine (recoverMarker_recovering hs ht hout).conseq (fun nodes h => ⟨h.1.1.1, ?_⟩)
        (fun _ _ h => h) fun _ h => h
      obtain ⟨node, hnode⟩ := Option.isSome_iff_exists.1 h.1.1.1.evidence
      refine ⟨node, hnode, ?_⟩
      rw [← hactive, h.2, hnode]
      rfl

/-! ### The next read -/

omit hs hout in
/-- Two valid envelopes and no marker: the union is returned. -/
theorem run_readBlob_of_unmarked {bytes : Bytes} {u : EvidenceStore} (hmarker : nodes.Unmarked)
    (ha : nodes.slot .a = some (some bytes)) (hb : nodes.slot .b = some (some bBytes))
    (hu : decodeEnvelope sha bytes = .ok u)
    (hunion : (mergedStore sha u t).serialize sha = .ok out) :
    ∃ nodes', (readBlob sha).run nodes [] = (some (.ok out), nodes', []) := by
  obtain ⟨node, hnode, hnone⟩ := hmarker
  have hreadA := run_validSlot_of_envelope ha ⟨u, hu⟩
  have hreadB := run_validSlot_of_envelope hb ⟨t, ht⟩
  obtain ⟨staged, hstaged, -⟩ := run_stageSlot .a out nodes
  simp [readBlob, recoverMarker, existEvidence, attach, altval, altset, query, change,
    Proc.run_bind, hnode, hnone, hreadA, hreadB, mergeSlots_eq hu ht hunion, hstaged]

theorem Nodes.Intact.run_readBlob (h : nodes.Intact sha aBytes bBytes out) :
    ∃ nodes', (readBlob sha).run nodes [] = (some (.ok out), nodes', []) := by
  obtain ⟨node, hnode, hb, ⟨hnone, ha⟩ | ⟨⟨u, hu⟩, hmarker, ha⟩⟩ := h
  · exact run_readBlob_of_unmarked ht ⟨node, hnode, hnone⟩ ha hb hs hout
  · rcases hactive : Slot.ofIndex? node.marker with _ | _ | _
    · exact run_readBlob_of_unmarked ht ⟨node, hnode, hactive⟩ ha hb hu
        (serialize_mergedStore_again hs ht hout hu)
    · have hread := run_validSlot_of_envelope ha ⟨u, hu⟩
      simp [readBlob, readActive, existEvidence, attach, altval, query, Proc.run_bind, hnode,
        hactive, hread]
    · -- the marker for slot B was excluded
      unfold Slot.ofIndex? at hactive
      split_ifs at hactive
      contradiction

omit hs hout in
theorem Nodes.Lost.run_readBlob (h : nodes.Lost sha bBytes) :
    ∃ nodes', (readBlob sha).run nodes [] = (some (.ok bBytes), nodes', []) := by
  obtain ⟨hsome, hb, hvacant⟩ := h
  obtain ⟨node, hnode⟩ := Option.isSome_iff_exists.1 hsome
  have hreadB := run_validSlot_of_envelope hb ⟨t, ht⟩
  obtain ⟨aError, hreadA⟩ := run_validSlot_of_vacant hvacant
  rcases hactive : Slot.ofIndex? node.marker with _ | _ | _ <;>
    simp [readBlob, readActive, recoverMarker, existEvidence, attach, altval, altset, query,
      change, Proc.run_bind, hnode, hactive, hreadA, hreadB, Slot.other]

omit ht hout in
theorem Nodes.Intact.not_vacant (h : nodes.Intact sha aBytes bBytes out) :
    ¬ nodes.Vacant sha .a := by
  obtain ⟨-, -, -, ⟨-, ha⟩ | ⟨henvelope, -, ha⟩⟩ := h
  · exact fun hvacant => hvacant aBytes ha ⟨s, hs⟩
  · exact fun hvacant => hvacant out ha henvelope

/-- The staged union decodes exactly within the limits. -/
theorem union_decodes_iff :
    (∃ ledger, decodeEnvelope sha out = .ok ledger ∧ s.facts ∪ t.facts ⊆ ledger.facts) ↔
      ({} : StoreCodecLimits).Admits (mergedStore sha s t) := by
  have hok := storeOk_mergedStore hs ht
  refine ⟨fun ⟨ledger, hdecode, _⟩ => admits_of_deserialize hok hout hdecode, fun h => ?_⟩
  refine ⟨_, (deserialize_serialize_iff hok hout).2 h, ?_⟩
  exact (facts_mergedStore hs ht).symm.subset

end Sources

end Recovery

/-- The nodes after any number of reads, each completed or cut anywhere. -/
inductive Restarts (sha : Bytes → FactDigest) (start : Nodes) : Nodes → Prop
  | start : Restarts sha start start
  | read {nodes nodes' : Nodes} {outcome : Option (Except Bytes Bytes)}
      {script rest : List Event} :
      Restarts sha start nodes → (∀ event ∈ script, event.Interrupts sha) →
      (readBlob sha).run nodes script = (outcome, nodes', rest) → Restarts sha start nodes'

theorem Restarts.recovering {sha : Bytes → FactDigest} {start nodes : Nodes}
    {aBytes bBytes out : Bytes} {s t : EvidenceStore} (hs : decodeEnvelope sha aBytes = .ok s)
    (ht : decodeEnvelope sha bBytes = .ok t)
    (hout : (mergedStore sha s t).serialize sha = .ok out)
    (hstart : start.Recovering sha aBytes bBytes out) (h : Restarts sha start nodes) :
    nodes.Recovering sha aBytes bBytes out := by
  induction h with
  | start => exact hstart
  | @read nodes nodes' outcome script rest _ hscript hrun ih =>
    cases outcome with
    | none => exact (readBlob_recovering hs ht hout).interrupted ih hscript hrun
    | some result => exact ((readBlob_recovering hs ht hout).returned ih hscript hrun).1

/-- **Recovery of the marker.** With an invalid marker and valid envelopes in both slots, after any
reads that complete or are cut anywhere, the next read returns a ledger with every observation of
both exactly when the union is within the decode limits, and the reads did not leave slot A without
an envelope or the ledger of slot B had all observations anyway. -/
theorem marker_recovery_keeps_observations_iff (sha : Bytes → FactDigest) {nodes nodes' : Nodes}
    {aBytes bBytes : Bytes} {a b : EvidenceStore} (hmarker : nodes.Unmarked)
    (haSlot : nodes.slot .a = some (some aBytes)) (hbSlot : nodes.slot .b = some (some bBytes))
    (ha : decodeEnvelope sha aBytes = .ok a) (hb : decodeEnvelope sha bBytes = .ok b)
    (hreads : Restarts sha nodes nodes') :
    (∀ bytes nodes'', (readBlob sha).run nodes' [] = (some (.ok bytes), nodes'', []) →
        ∃ ledger, decodeEnvelope sha bytes = .ok ledger ∧ a.facts ∪ b.facts ⊆ ledger.facts) ↔
      ({} : StoreCodecLimits).Admits (mergedStore sha a b) ∧
        (¬ nodes'.Vacant sha .a ∨ a.facts ⊆ b.facts) := by
  obtain ⟨out, hout⟩ := mergedStore_serializes ha hb
  obtain ⟨node, hnode, hnone⟩ := hmarker
  have hrecovering := hreads.recovering ha hb hout
    (Or.inl ⟨node, hnode, hbSlot, Or.inl ⟨hnone, haSlot⟩⟩)
  -- the next read is determined, so the property is about one result
  have hnext : ∀ {bytes nodes''}, (readBlob sha).run nodes' [] = (some (.ok bytes), nodes'', []) →
      ((∀ bytes nodes'', (readBlob sha).run nodes' [] = (some (.ok bytes), nodes'', []) →
          ∃ ledger, decodeEnvelope sha bytes = .ok ledger ∧ a.facts ∪ b.facts ⊆ ledger.facts) ↔
        ∃ ledger, decodeEnvelope sha bytes = .ok ledger ∧ a.facts ∪ b.facts ⊆ ledger.facts) := by
    intro bytes nodes'' hrun
    refine ⟨fun h => h bytes nodes'' hrun, fun h bytes' nodes''' hrun' => ?_⟩
    obtain rfl : bytes = bytes' := by simpa using congrArg Prod.fst (hrun.symm.trans hrun')
    exact h
  rcases hrecovering with hintact | hlost
  · obtain ⟨nodes'', hrun⟩ := hintact.run_readBlob ha hb hout
    rw [hnext hrun, union_decodes_iff ha hb hout]
    exact (and_iff_left (Or.inl (hintact.not_vacant ha))).symm
  · obtain ⟨nodes'', hrun⟩ := hlost.run_readBlob hb
    rw [hnext hrun]
    constructor
    · rintro ⟨ledger, hledger, hsub⟩
      obtain rfl : b = ledger := Except.ok.inj (hb.symm.trans hledger)
      have hsubset : a.facts ⊆ b.facts := Set.subset_union_left.trans hsub
      have hsame := serialize_mergedStore_of_subset ha hb hsubset
      exact ⟨admits_of_deserialize (storeOk_mergedStore ha hb) hsame hb, Or.inr hsubset⟩
    · rintro ⟨-, hvacant | hsubset⟩
      · exact absurd hlost.2.2 hvacant
      · exact ⟨b, hb, Set.union_subset hsubset subset_rfl⟩

/-- Two envelopes and no marker. -/
def unmarkedNodes : Nodes where
  evidence := some {}
  slot
    | .a => some (some (factEnvelope sampleFact))
    | .b => some (some (factEnvelope rivalFact))

/-- What the envelope of one fact decodes to. -/
def factLedger (fact : AnalysisFact) : EvidenceStore :=
  (decodeEnvelope (fun _ => FactDigest.zero) (factEnvelope fact)).toOption.getD EvidenceStore.empty

theorem decodeEnvelope_factEnvelope {fact : AnalysisFact}
    (h : (decodeEnvelope (fun _ => FactDigest.zero) (factEnvelope fact)).isOk = true) :
    decodeEnvelope (fun _ => FactDigest.zero) (factEnvelope fact) = .ok (factLedger fact) := by
  unfold factLedger
  cases hdecode : decodeEnvelope (fun _ => FactDigest.zero) (factEnvelope fact) with
  | error error =>
    rw [hdecode] at h
    exact nomatch h
  | ok s => rfl

theorem admits_samples : ({} : StoreCodecLimits).Admits
    (mergedStore (fun _ => FactDigest.zero) (factLedger sampleFact) (factLedger rivalFact)) := by
  have hfacts : (mergedStore (fun _ => FactDigest.zero) (factLedger sampleFact)
      (factLedger rivalFact)).flattenedFacts = [sampleFact, rivalFact] := by decide +kernel
  refine ⟨?_, ?_, fun fact hfact => ?_⟩
  · rw [storeSize, hfacts]
    decide
  · rw [hfacts]
    decide
  · rw [hfacts] at hfact
    rcases List.mem_pair.1 hfact with rfl | rfl <;> exact ⟨by decide, by decide, by decide⟩

theorem interrupts_of_mem_replicate {sha : Bytes → FactDigest} {n : ℕ} {left : Left}
    (hleft : left.Torn sha) :
    ∀ event ∈ List.replicate n Event.done ++ [.cut left], event.Interrupts sha := by
  intro event hevent
  rcases List.mem_append.1 hevent with h | h
  · obtain rfl := List.eq_of_mem_replicate h
    exact ⟨trivial, nofun⟩
  · obtain rfl := List.mem_singleton.1 h
    exact ⟨hleft, nofun⟩

theorem cut_before_marker_keeps_observations : ∃ nodes' rest,
    (readBlob fun _ => FactDigest.zero).run unmarkedNodes
        (List.replicate 12 Event.done ++ [.cut .unchanged]) = (none, nodes', rest) ∧
      ∀ bytes nodes'', (readBlob fun _ => FactDigest.zero).run nodes' [] =
          (some (.ok bytes), nodes'', []) →
        ∃ ledger, decodeEnvelope (fun _ => FactDigest.zero) bytes = .ok ledger ∧
          (factLedger sampleFact).facts ∪ (factLedger rivalFact).facts ⊆ ledger.facts := by
  have hnone : ((readBlob fun _ => FactDigest.zero).run unmarkedNodes
      (List.replicate 12 Event.done ++ [.cut .unchanged])).1 = none := by decide +kernel
  have hslot : (((readBlob fun _ => FactDigest.zero).run unmarkedNodes
      (List.replicate 12 Event.done ++ [.cut .unchanged])).2.1.slot .a).join.any (fun bytes =>
        (decodeEnvelope (fun _ => FactDigest.zero) bytes).isOk) = true := by decide +kernel
  rcases hrun : (readBlob fun _ => FactDigest.zero).run unmarkedNodes
    (List.replicate 12 Event.done ++ [.cut .unchanged]) with ⟨outcome, nodes', rest⟩
  rw [hrun] at hnone hslot
  obtain rfl : outcome = none := hnone
  have hvacant : ¬ nodes'.Vacant (fun _ => FactDigest.zero) .a := by
    intro hvacant
    obtain ⟨bytes, hbytes, hok⟩ := (Option.any_eq_true _ _).1 hslot
    rcases hdecode : decodeEnvelope (fun _ => FactDigest.zero) bytes with error | s
    · rw [hdecode] at hok
      exact nomatch hok
    · exact hvacant bytes (Option.join_eq_some_iff.1 hbytes) ⟨s, hdecode⟩
  have hmarker : unmarkedNodes.Unmarked := ⟨{}, rfl, by decide⟩
  have hleft : Left.unchanged.Torn fun _ => FactDigest.zero := trivial
  exact ⟨nodes', rest, hrun, (marker_recovery_keeps_observations_iff _ hmarker rfl rfl
    (decodeEnvelope_factEnvelope (by decide +kernel))
    (decodeEnvelope_factEnvelope (by decide +kernel))
    (.read .start (interrupts_of_mem_replicate hleft) hrun)).2 ⟨admits_samples, Or.inl hvacant⟩⟩

/-- A cut in the middle of the staging write: the next read returns the ledger of slot B, without
the observation of slot A. -/
theorem torn_repair_discards_observation :
    let script := List.replicate 11 Event.done ++ [.cut (.torn [])]
    let repair := (readBlob fun _ => FactDigest.zero).run unmarkedNodes script
    (∀ event ∈ script, event.Interrupts fun _ => FactDigest.zero) ∧ unmarkedNodes.Unmarked ∧
      (decodeEnvelope (fun _ => FactDigest.zero) (factEnvelope sampleFact)).toOption.map
        EvidenceStore.flattenedFacts = some [sampleFact] ∧
      (decodeEnvelope (fun _ => FactDigest.zero) (factEnvelope rivalFact)).toOption.map
        EvidenceStore.flattenedFacts = some [rivalFact] ∧
      repair.1 = none ∧
      ((readBlob fun _ => FactDigest.zero).run repair.2.1 []).1 =
        some (.ok (factEnvelope rivalFact)) ∧ sampleFact ≠ rivalFact := by
  have htorn : ¬ Envelope (fun _ => FactDigest.zero) [] := fun h => h.ne_nil rfl
  exact ⟨interrupts_of_mem_replicate htorn, ⟨{}, rfl, by decide⟩, by decide +kernel,
    by decide +kernel, by decide +kernel, by decide +kernel, by decide +kernel⟩

end Viy
