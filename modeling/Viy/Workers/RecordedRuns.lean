import Viy.Events.BridgeSound
import Viy.Workers.MergedRuns

/-!
# Recording merged runs

A job hands the main thread the merged events of all its runs, and they are recorded at once. The
ledger is the one that recording the runs one by one would leave, in whatever order: no fact is
lost, made up or given to another run. Only the facts of the bytes that are left behind need more
than one event: they name the instruction that has written last. It is looked for among all events
of the job, and found among those of the run.
-/

namespace Viy.Bridge

open Analysis
open Viy.Runtime (MemoryBytes)
open Viy.Workers (RunResult)

/-! ## Facts of a run -/

section Facts

variable {ids : BridgeIds} {img : BridgeImage} {function : FunctionRange} {fact : AnalysisFact}

/-- The search for the last writer only looks at the run. -/
theorem lastWriter_filter (data : List Events.DataAcc) (memory : MemoryBytes) :
    lastWriter ids function (data.filter fun a => a.runId == memory.runId && a.seed == memory.seed)
      memory = lastWriter ids function data memory := by
  unfold lastWriter
  rw [List.foldl_filter]
  congr 2
  funext best access
  by_cases hrun : (access.runId == memory.runId && access.seed == memory.seed) = true
  · rw [if_pos hrun]
  · rw [if_neg hrun, noteWriter, isWriteOf, Bool.eq_false_of_not_eq_true hrun]
    rfl

/-- The order of the registers does not matter. -/
theorem mem_stateFacts_of_sameAs {s t : Events.StatePoint} (h : s.SameAs t) :
    fact ∈ stateFacts ids img function s ↔ fact ∈ stateFacts ids img function t := by
  obtain ⟨hkey, hregs⟩ := h
  obtain ⟨source, pc, regs, runId, seed⟩ := s
  obtain ⟨source', pc', regs', runId', seed'⟩ := t
  simp only [Events.StatePoint.key, Prod.mk.injEq] at hkey
  obtain ⟨rfl, rfl, rfl, rfl⟩ := hkey
  simp only [stateFacts, List.mem_map, List.mem_filter, hregs]
  rfl

theorem mem_stateFacts_collects {l : List Events.EmuEvents} {e : Events.EmuEvents}
    (h : Events.Collects l e) : (∃ point ∈ e.states, fact ∈ stateFacts ids img function point) ↔
      ∃ a ∈ l, ∃ point ∈ a.states, fact ∈ stateFacts ids img function point := by
  have hrefl (s : Events.StatePoint) : s.SameAs s := ⟨rfl, fun _ => Iff.rfl⟩
  constructor
  · rintro ⟨point, hpoint, hfact⟩
    obtain ⟨a, ha, s, hs, hsame⟩ := (h.states point).1 ⟨point, hpoint, hrefl point⟩
    exact ⟨a, ha, s, hs, (mem_stateFacts_of_sameAs hsame).1 hfact⟩
  · rintro ⟨a, ha, point, hpoint, hfact⟩
    obtain ⟨s, hs, hsame⟩ := (h.states point).2 ⟨a, ha, point, hpoint, hrefl point⟩
    exact ⟨s, hs, (mem_stateFacts_of_sameAs hsame).1 hfact⟩

/-- Facts that are made event by event. -/
theorem exists_mem_collects {α : Type} {field : Events.EmuEvents → List α}
    {l : List Events.EmuEvents} {e : Events.EmuEvents}
    (h : ∀ x, x ∈ field e ↔ ∃ a ∈ l, x ∈ field a) (P : α → Prop) :
    (∃ x ∈ field e, P x) ↔ ∃ a ∈ l, ∃ x ∈ field a, P x := by
  simp only [h]
  constructor
  · rintro ⟨x, ⟨a, ha, hx⟩, hP⟩
    exact ⟨a, ha, x, hx, hP⟩
  · rintro ⟨a, ha, x, hx, hP⟩
    exact ⟨x, ⟨a, ha, hx⟩, hP⟩

end Facts

/-! ## The main thread -/

section Main

variable (ids : BridgeIds) (img : BridgeImage) (function : FunctionRange)

/-- The outcomes of the runs that could be started. -/
def observedOutcomes (runs : List RunResult) : List ObservedOutcome :=
  runs.filterMap fun r => r.record.map fun record => ⟨record.outcome, r.runId, r.seed⟩

/-- What `process_function` records of a result. -/
def jobRecording {A : Type} (evidence : Workers.JobEvidence A) : Recording :=
  ⟨img, function, evidence.merged.normalize, observedOutcomes evidence.runs⟩

/-- One run by itself. -/
def runRecording (r : RunResult) : Recording :=
  ⟨img, function, r.events ids.toRaxIds, observedOutcomes [r]⟩

end Main

section Collected

variable {ids : BridgeIds} {img : BridgeImage} {function : FunctionRange} {fact : AnalysisFact}
  {runs : List RunResult} {merged : Events.EmuEvents}

theorem mem_outcomeFacts : (∃ observed ∈ observedOutcomes runs, outcomeFact ids function observed =
      fact) ↔
    ∃ r ∈ runs, ∃ observed ∈ observedOutcomes [r], outcomeFact ids function observed = fact := by
  simp only [observedOutcomes, List.mem_filterMap, List.mem_singleton]
  constructor
  · rintro ⟨observed, ⟨r, hr, hobserved⟩, hfact⟩
    exact ⟨r, hr, observed, ⟨r, rfl, hobserved⟩, hfact⟩
  · rintro ⟨r, hr, observed, ⟨_, rfl, hobserved⟩, hfact⟩
    exact ⟨observed, ⟨_, hr, hobserved⟩, hfact⟩

/-- Events that collect those of the runs give the facts of the runs, as long as the search for the
last writers does not confuse them. -/
theorem mem_bridgeFacts_collects
    (h : Events.Collects (runs.map fun r => r.events ids.toRaxIds) merged)
    (hlast : ∀ r ∈ runs, ∀ memory ∈ (r.events ids.toRaxIds).finalWrites,
      lastWriter ids function merged.data memory =
        lastWriter ids function (r.events ids.toRaxIds).data memory) :
    fact ∈ bridgeFacts ids img function merged (observedOutcomes runs) ↔
      ∃ r ∈ runs, fact ∈ bridgeFacts ids img function (r.events ids.toRaxIds)
        (observedOutcomes [r]) := by
  have hruns (P : Events.EmuEvents → Prop) :
      (∃ a ∈ runs.map fun r => r.events ids.toRaxIds, P a) ↔
        ∃ r ∈ runs, P (r.events ids.toRaxIds) := by
    simp only [List.mem_map, exists_exists_and_eq_and]
  have hfinal : (∃ memory ∈ merged.finalWrites,
        fact ∈ finalWriteFacts ids img function merged.data memory) ↔
      ∃ r ∈ runs, ∃ memory ∈ (r.events ids.toRaxIds).finalWrites,
        fact ∈ finalWriteFacts ids img function (r.events ids.toRaxIds).data memory := by
    refine (exists_mem_collects h.finalWrites _).trans ((hruns _).trans ?_)
    refine exists_congr fun r => and_congr_right fun hr => ?_
    refine exists_congr fun memory => and_congr_right fun hmemory => ?_
    rw [finalWriteFacts, finalWriteFacts, hlast r hr memory hmemory]
  simp only [mem_bridgeFacts, and_or_left, exists_or]
  exact or_congr ((exists_mem_collects h.edges _).trans (hruns _))
    (or_congr ((exists_mem_collects h.data _).trans (hruns _))
      (or_congr ((mem_stateFacts_collects h).trans (hruns _)) (or_congr hfinal mem_outcomeFacts)))

end Collected

section Job

variable {I A : Type} {job : Workers.ExecJob I} {w : Workers.Circumstances}
  {x : Workers.RaxExecutor I A} {e : Emu.EngineState} {ids : BridgeIds}

/-- The last writer in the job is the last writer in the run. -/
theorem lastWriter_of_run (hids : x.ids = ids.toRaxIds) (function : FunctionRange) {r : RunResult}
    (hr : r ∈ (x.execute job w e).1.evidence.runs)
    (hroom : ∀ record, r.record = some record →
      (Emu.EmuDriver.allCalls record.starts).length + job.config.maxInsns.toNat < 2 ^ 64)
    {memory : MemoryBytes} (hmemory : memory ∈ (r.events ids.toRaxIds).finalWrites) :
    lastWriter ids function (x.execute job w e).1.evidence.merged.data memory =
      lastWriter ids function (r.events ids.toRaxIds).data memory := by
  rcases hrecord : r.record with _ | record
  · rw [RunResult.events, hrecord] at hmemory
    cases hmemory
  have hevents : r.events ids.toRaxIds = x.ids.events record := by
    rw [RunResult.events, hrecord, hids]
    rfl
  rw [hevents] at hmemory ⊢
  have hof := (Workers.ofRun_of_evident (Workers.RaxExecutor.execute_evident e) hr
    hrecord).2 memory hmemory
  rw [← lastWriter_filter, hof.1, hof.2,
    Workers.RaxExecutor.data_recovered hr hrecord (hroom record hrecord)]
  rfl

/-- **Recording a job is recording its runs.** The merged events of a job, however it has ended,
leave the ledger that its runs would leave if they were recorded by themselves, one after the other
in any order, as long as no sequence numbers have come round. -/
theorem job_recording_eq_runs (sha : Wire.Bytes → FactDigest) (hids : x.ids = ids.toRaxIds)
    (hroom : ∀ r ∈ (x.execute job w e).1.evidence.runs, ∀ record, r.record = some record →
      (Emu.EmuDriver.allCalls record.starts).length + job.config.maxInsns.toNat < 2 ^ 64)
    {store : EvidenceStore} (hs : EvidenceStore.Reachable sha store) (img : BridgeImage)
    (function : FunctionRange) {order : List RunResult}
    (horder : ∀ r, r ∈ order ↔ r ∈ (x.execute job w e).1.evidence.runs) :
    (recordAll sha ids store
        [jobRecording img function (x.execute job w e).1.evidence]).records =
      (recordAll sha ids store (order.map (runRecording ids img function))).records := by
  have hevident : x.Evident job w (x.execute job w e).1.evidence :=
    Workers.RaxExecutor.execute_evident e
  have hlast : ∀ r ∈ (x.execute job w e).1.evidence.runs,
      ∀ memory ∈ (r.events ids.toRaxIds).finalWrites,
        lastWriter ids function (x.execute job w e).1.evidence.merged.data memory =
          lastWriter ids function (r.events ids.toRaxIds).data memory :=
    fun r hr _ hmemory => lastWriter_of_run hids function hr (hroom r hr) hmemory
  generalize (x.execute job w e).1.evidence = evidence at hevident hlast horder ⊢
  have hcollects : Events.Collects (evidence.runs.map fun r => r.events ids.toRaxIds)
      evidence.merged := by
    rw [hevident.merged, ← hids]
    exact (Events.normalize_sameAs _).collects (Events.collects_mergeAll _)
  have hnormal : evidence.merged.normalize = evidence.merged := by
    rw [hevident.merged]
    exact (Events.normalize_sameAs _).normalize_eq
  have hfacts (fact : AnalysisFact) :
      fact ∈ [jobRecording img function evidence].flatMap (Recording.facts ids) ↔
        fact ∈ (order.map (runRecording ids img function)).flatMap (Recording.facts ids) := by
    rw [List.flatMap_singleton, List.flatMap_map, List.mem_flatMap]
    simp only [horder, Recording.facts, jobRecording, runRecording, hnormal]
    exact mem_bridgeFacts_collects hcollects hlast
  rw [recordAll_eq, recordAll_eq]
  refine records_eq_of_facts (StoreOk.addFacts _ hs.ok).records
    (StoreOk.addFacts _ hs.ok).records ?_
  ext g
  simp only [mem_facts_addFacts _ hs.ok, hfacts]

end Job

/-- The two runs of a job, the second one first. -/
theorem two_runs_recorded_apart :
    let evidence := (Workers.oneInsnExecutor.execute Workers.twoRuns Workers.calm
      Emu.usedEngine).1.evidence
    evidence.runs.length = 2 ∧
      (recordAll digestBytes sampleIds provenStore
        [jobRecording sampleRecording.img sampleRecording.function evidence]).records =
      (recordAll digestBytes sampleIds provenStore (evidence.runs.reverse.map
        (runRecording sampleIds sampleRecording.img sampleRecording.function))).records := by
  intro evidence
  have hlength : evidence.runs.length = 2 := by decide +kernel
  have hcalls : evidence.runs.all (fun r => r.record.all fun record =>
      (Emu.EmuDriver.allCalls record.starts).length == 1) = true := by
    decide +kernel
  refine ⟨hlength, job_recording_eq_runs _ rfl ?_ (.add provenFact .empty) _ _
    fun _ => List.mem_reverse⟩
  intro r hr record hrecord
  have hone := List.all_eq_true.1 hcalls r hr
  rw [hrecord, Option.all_some, beq_iff_eq] at hone
  rw [hone]
  decide

end Viy.Bridge
