import Viy.Events.Bridge
import Viy.Facts.Sha256
import Viy.Store.Ledger
import Viy.Store.Scan

/-!
# What emulation adds to the ledger

The facts that the bridge makes of events only tell what has been seen in one run. Two of them never
contradict each other: what two runs see differently is a variation. A contradiction in the ledger
always involves what another analysis has claimed.
-/

namespace Viy.Bridge

open Wire Analysis
open Viy.Emu (ExecEdge)
open Viy.Runtime (MemoryBytes)

/-! ## What the facts can be -/

/-- Payloads that assert nothing about other runs. -/
def Quiet : FactPayload → Prop
  | .codeTarget fact => fact.unique = false
  | .branchReachability fact => fact.state = .reached
  | .cfgCandidate fact => fact.state = .reached
  | .callObservation fact => fact.kind = .call
  | .memoryAccess _ | .memoryValue _ | .registerValue _ | .functionOutcome _ => True
  | _ => False

section Facts

variable {ids : BridgeIds} {img : BridgeImage} {function : FunctionRange}
  {events : Events.EmuEvents} {outcomes : List ObservedOutcome} {fact : AnalysisFact}

theorem quiet_edgeFacts {edge : ExecEdge} (h : fact ∈ edgeFacts img function edge) :
    Quiet fact.payload := by
  obtain ⟨-, h⟩ := List.mem_ite_nil_left.1 h
  rcases List.mem_append.1 h with h | h
  · simp only [List.mem_cons, List.not_mem_nil, or_false] at h
    rcases h with rfl | rfl | rfl <;> rfl
  · obtain ⟨-, h⟩ := List.mem_ite_nil_right.1 h
    rw [List.mem_singleton.1 h]
    rfl

theorem quiet_accessFacts {access : Events.DataAcc}
    (h : fact ∈ accessFacts ids img function access) : Quiet fact.payload := by
  obtain ⟨-, h⟩ := List.mem_ite_nil_left.1 h
  obtain ⟨payload, hpayload, rfl⟩ := List.mem_map.1 h
  obtain ⟨-, hpayload⟩ := List.mem_ite_nil_left.1 hpayload
  rcases List.mem_append.1 hpayload with h | h
  · rw [List.mem_singleton.1 h]
    trivial
  · obtain ⟨-, h⟩ := List.mem_ite_nil_right.1 h
    rw [List.mem_singleton.1 h]
    trivial

theorem quiet_finalWriteFacts {memory : MemoryBytes} {data : List Events.DataAcc}
    (h : fact ∈ finalWriteFacts ids img function data memory) : Quiet fact.payload := by
  obtain ⟨-, h⟩ := List.mem_ite_nil_left.1 h
  rw [List.mem_singleton.1 h]
  trivial

theorem mem_bridgeFacts : fact ∈ bridgeFacts ids img function events outcomes ↔
    (∃ edge ∈ events.edges, fact ∈ edgeFacts img function edge) ∨
    (∃ access ∈ events.data, fact ∈ accessFacts ids img function access) ∨
    (∃ point ∈ events.states, fact ∈ stateFacts ids img function point) ∨
    (∃ memory ∈ events.finalWrites, fact ∈ finalWriteFacts ids img function events.data memory) ∨
    ∃ observed ∈ outcomes, outcomeFact ids function observed = fact := by
  simp only [bridgeFacts, List.mem_append, List.mem_flatMap, List.mem_map, or_assoc]

theorem quiet_of_mem (h : fact ∈ bridgeFacts ids img function events outcomes) :
    Quiet fact.payload := by
  rcases mem_bridgeFacts.1 h with ⟨edge, -, h⟩ | ⟨access, -, h⟩ | ⟨point, -, h⟩ |
    ⟨memory, -, h⟩ | ⟨observed, -, rfl⟩
  · exact quiet_edgeFacts h
  · exact quiet_accessFacts h
  · obtain ⟨reg, -, rfl⟩ := List.mem_map.1 h
    trivial
  · exact quiet_finalWriteFacts h
  · trivial

end Facts

/-! ## Nothing contradicts -/

theorem severity_compareCalls {left right : CallObservationFact} (hl : left.kind = .call)
    (hr : right.kind = .call) {f : Finding} (hf : f ∈ compareCalls left right) :
    f.severity = .variation := by
  unfold compareCalls at hf
  obtain ⟨-, hf⟩ := List.mem_ite_nil_left.1 hf
  obtain ⟨-, hf⟩ := List.mem_ite_nil_right.1 hf
  rw [List.mem_singleton.1 hf]
  exact if_neg (by simp [hl, hr])

/-- Two quiet payloads can only vary. -/
theorem variation_of_quiet {p q : FactPayload} (hp : Quiet p) (hq : Quiet q) {f : Finding}
    (hf : f ∈ findings p q) : f.severity = .variation := by
  unfold findings at hf
  split at hf
  all_goals simp only [Quiet] at hp hq
  case h_1 => simp [hp, hq] at hf
  case h_2 | h_3 | h_4 | h_5 => simp [hp, hq, oppositeReachability] at hf
  case h_6 | h_12 | h_13 =>
    obtain ⟨-, hf⟩ := List.mem_ite_nil_right.1 hf
    rw [List.mem_singleton.1 hf]
  case h_14 => exact severity_compareCalls hp hq hf
  case h_17 => cases hf

section Recordings

variable (sha : Bytes → FactDigest) (ids : BridgeIds)

/-- The arguments of one recording. -/
structure Recording where
  img : BridgeImage
  function : FunctionRange
  events : Events.EmuEvents
  outcomes : List ObservedOutcome

def Recording.facts (r : Recording) : List AnalysisFact :=
  bridgeFacts ids r.img r.function r.events r.outcomes

/-- One recording after the other, as the functions are done. -/
def recordAll (store : EvidenceStore) (recordings : List Recording) : EvidenceStore :=
  recordings.foldl (fun store r =>
    (viyRecordEmulationEvidence sha ids store r.img r.function r.events r.outcomes).1) store

theorem foldl_recordFact_store (sha : Bytes → FactDigest) : ∀ (facts : List AnalysisFact)
    (state : EvidenceStore × EvidenceBridgeStats),
    (facts.foldl (recordFact sha) state).1 = addFacts sha state.1 facts
  | [], _ => rfl
  | fact :: facts, state => foldl_recordFact_store sha facts (recordFact sha state fact)

theorem recordAll_eq (recordings : List Recording) : ∀ store : EvidenceStore,
    recordAll sha ids store recordings =
      addFacts sha store (recordings.flatMap (Recording.facts ids)) := by
  induction recordings with
  | nil => exact fun _ => rfl
  | cons r recordings ih =>
    intro store
    have hfirst : (viyRecordEmulationEvidence sha ids store r.img r.function r.events
        r.outcomes).1 = addFacts sha store (r.facts ids) := foldl_recordFact_store sha _ _
    rw [recordAll, List.foldl_cons, hfirst, List.flatMap_cons]
    exact (ih _).trans (List.foldl_append ..).symm

variable {sha ids}

theorem quiet_normalForm {p : FactPayload} (h : Quiet p) : Quiet (normalForm p) := by
  cases p <;> exact h

/-- A record of the ledger has been there before, or it is quiet. -/
theorem has_recordAll {store : EvidenceStore} (hs : StoreOk store) {recordings : List Recording}
    {key : Bytes} {payload : FactPayload}
    (h : (recordAll sha ids store recordings).Has key payload) :
    store.Has key payload ∨ Quiet payload := by
  rw [recordAll_eq] at h
  have hafter : StoreOk (addFacts sha store (recordings.flatMap (Recording.facts ids))) :=
    StoreOk.addFacts _ hs
  obtain ⟨record, hfind, rfl⟩ := h
  have hrecord := hafter.records key record hfind
  obtain ⟨e, he⟩ := List.exists_mem_of_ne_nil _ hrecord.nonempty
  have hmem : ⟨record.payload, e⟩ ∈
      (addFacts sha store (recordings.flatMap (Recording.facts ids))).facts :=
    ⟨key, record, hfind, rfl, he⟩
  rcases (mem_facts_addFacts _ hs).1 hmem with ⟨fact, hfact, hadmitted⟩ | hold
  · right
    obtain ⟨r, -, hfact⟩ := List.mem_flatMap.1 hfact
    have hnormal := (normalizeFact_eq_ok.1 (admitted_eq_some.1 hadmitted).1).2.1
    have hquiet := quiet_normalForm (quiet_of_mem hfact)
    rwa [hnormal] at hquiet
  · left
    obtain ⟨key', record', hfind', hpayload, -⟩ := hold
    obtain rfl := (hs.records _ _ hfind').key_eq hrecord hpayload
    exact ⟨record', hfind', hpayload⟩

/-- **Runs do not contradict each other.** However many functions are recorded into a ledger, every
contradiction that is found afterwards has a part that has been in the ledger before. -/
theorem contradiction_needs_other_source (sha : Bytes → FactDigest) (ids : BridgeIds)
    {store : EvidenceStore} (hs : EvidenceStore.Reachable sha store)
    (recordings : List Recording) {c : EvidenceConflict}
    (hc : c ∈ (recordAll sha ids store recordings).detectConflicts sha)
    (hseverity : c.severity = .contradiction) :
    ∃ key payload, store.Has key payload ∧ (c.left = sha key ∨ c.right = sha key) := by
  have hafter : StoreOk (recordAll sha ids store recordings) := by
    rw [recordAll_eq]
    exact StoreOk.addFacts _ hs.ok
  obtain ⟨a, b, hpair, hc⟩ := mem_pairwiseConflicts.1 ((mem_detectConflicts hafter).1 hc)
  obtain ⟨ha, hb⟩ := Cxx.mem_of_mem_pairs hpair
  have hdigests := digests_of_mem hc
  rcases has_recordAll hs.ok (has_of_mem_ordered ha) with hold | hquiet
  · exact ⟨a.key, a.payload, hold, hdigests.imp And.left And.right⟩
  rcases has_recordAll hs.ok (has_of_mem_ordered hb) with hold | hquiet'
  · exact ⟨b.key, b.payload, hold, (hdigests.imp And.right And.left).symm⟩
  · -- both are quiet, so they only vary
    obtain ⟨f, hf, -, rfl⟩ := mem_comparePayloads.1 hc
    have hvariation : f.severity = .variation := variation_of_quiet hquiet hquiet' hf
    have hcontradiction : f.severity = .contradiction := hseverity
    rw [hvariation] at hcontradiction
    cases hcontradiction

end Recordings

/-! ## A jump into code that is proven unreachable -/

def sampleIds : BridgeIds where
  toRaxIds := Workers.oneInsnExecutor.ids
  armLr := 0
  stopTimeout := 1
  stopCount := 2
  stopException := 3
  noExit := .until_

/-- A run that jumps, writes a byte and returns. -/
def sampleRecording : Recording where
  img := { Runtime.onePage false with arch := .x86_64 }
  function := { start := 0x2000, end_ := 0x2020 }
  events :=
    { edges := [⟨0x2004, 0x2010, 0, 0, .jump, 0⟩]
      states := [⟨0x2004, 0x2010, [⟨0, 7, 8⟩], 0, 0⟩]
      data := [⟨0x2010, 0x2018, 5, 1, 2, .image, 1, 0, 0⟩]
      finalWrites := [⟨0x2018, [5], .image, 0, 0⟩] }
  outcomes := [⟨{ returned := true }, 0, 0⟩]

/-- The jump is proven impossible. -/
def provenFact : AnalysisFact where
  payload := .branchReachability ⟨0x2004, 0x2010, .provenUnreachable⟩
  evidence := { producer := [1], method := [1], proof := .staticProof }

def provenStore : EvidenceStore := (EvidenceStore.empty.add digestBytes provenFact).1

theorem proven_jump_contradicted :
    ∃ c ∈ (recordAll digestBytes sampleIds provenStore [sampleRecording]).detectConflicts
        digestBytes,
      c.severity = .contradiction ∧ c.left ≠ c.right ∧ ∃ key payload,
        provenStore.Has key payload ∧ (c.left = digestBytes key ∨ c.right = digestBytes key) := by
  have hfound : ((recordAll digestBytes sampleIds provenStore [sampleRecording]).detectConflicts
      digestBytes).any (fun c => c.severity == .contradiction && c.left != c.right) = true := by
    decide +kernel
  obtain ⟨c, hc, h⟩ := List.any_eq_true.1 hfound
  obtain ⟨hseverity, hne⟩ := Bool.and_eq_true_iff.1 h
  exact ⟨c, hc, eq_of_beq hseverity, bne_iff_ne.1 hne,
    contradiction_needs_other_source digestBytes sampleIds (.add provenFact .empty)
      [sampleRecording] hc (eq_of_beq hseverity)⟩

end Viy.Bridge
