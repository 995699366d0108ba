import Viy.Workers.Executor

/-!
# Runs in merged events

The events of a job are one sorted list of each kind, to which every run has contributed. As no two
runs of a job share their provenance and a run never records twice under one sequence number, what
belongs to a run can be told apart again, in the order in which it was recorded.
-/

namespace Viy.Workers

open Cxx Wire Fault Emu

/-! ## Order of the events of a run -/

/-- All sort keys start with run, seed and sequence number. -/
theorem less_of_sequence {δ : Type} {d : Comparator δ} {x y : UInt32 × UInt64 × UInt64 × δ}
    (hrun : x.1 = y.1) (hseed : x.2.1 = y.2.1) (h : x.2.2.1 < y.2.2.1) :
    (Comparator.tie .u32 (.tie .u64 (.tie .u64 d))).less x y = true := by
  have hne : x.2.2.1 ≠ y.2.2.1 := UInt64.ne_of_lt h
  rw [Comparator.tie_less_eq_ite, if_pos hrun, Comparator.tie_less_eq_ite, if_pos hseed,
    Comparator.tie_less_eq_ite, if_neg hne]
  exact decide_eq_true h

/-- What a run has recorded in the order of the sequence numbers is sorted. -/
theorem sorted_of_sequence {α δ : Type} {c : Comparator α} {d : Comparator δ} {l : List α}
    {runId : UInt32} {seed : UInt64} (key : α → UInt32 × UInt64 × UInt64 × δ)
    (hless : ∀ a b,
      c.less a b = (Comparator.tie .u32 (.tie .u64 (.tie .u64 d))).less (key a) (key b))
    (hof : ∀ a ∈ l, (key a).1 = runId ∧ (key a).2.1 = seed)
    (hl : l.Pairwise fun a b => (key a).2.2.1 < (key b).2.2.1) : Sorted c.less l := by
  refine hl.imp_of_mem fun {a b} ha hb hab => ?_
  rw [hless]
  exact less_of_sequence ((hof a ha).1.trans (hof b hb).1.symm)
    ((hof a ha).2.trans (hof b hb).2.symm) hab

/-! ## Provenance -/

section Provenance

variable {I A : Type} {x : RaxExecutor I A} {job : ExecJob I} {w : Circumstances} {e : EngineState}

theorem effective_toRun (request : EmulationRunRequest) (function : JobFunction) :
    ((request.toRun function).effectiveRun, (request.toRun function).effectiveSeed) =
      request.provenance := by
  unfold EmulationRunRequest.toRun EmulationRunRequest.provenance RunRequest.effectiveRun
    RunRequest.effectiveSeed
  cases request.hasInput <;> rfl

/-- A job that is not admitted has no runs. -/
theorem runs_of_not_admits (h : ¬ x.Admits job) : (x.execute job w e).1.evidence.runs = [] := by
  obtain ⟨-, r, hr, hempty, -⟩ | ⟨⟨hadmits, -⟩, -⟩ := x.execute_cases job w
  · rw [hr, hempty]
  · exact absurd hadmits h

/-- A run of a result that ran is the record of a run of the driver. -/
theorem recorded_of_evident {evidence : JobEvidence A} (h : x.Evident job w evidence)
    {r : RunResult} (hr : r ∈ evidence.runs) {record : EmuDriver.RunRecord}
    (hrecord : r.record = some record) :
    ∃ driver req, x.driver = some driver ∧ driver.Recorded job.config req record ∧
      req.effectiveRun = r.runId ∧ req.effectiveSeed = r.seed := by
  obtain ⟨i, hi⟩ := List.mem_iff_getElem?.1 hr
  obtain ⟨_, driver, request, hdriver, -, rfl⟩ := h.runs i r hi
  have heffective := effective_toRun request job.function
  exact ⟨driver, _, hdriver, EmuDriver.recorded_of_emulateFrom hrecord,
    congrArg Prod.fst heffective, congrArg Prod.snd heffective⟩

theorem ofRun_of_evident {evidence : JobEvidence A} (h : x.Evident job w evidence)
    {r : RunResult} (hr : r ∈ evidence.runs) {record : EmuDriver.RunRecord}
    (hrecord : r.record = some record) :
    record.hooks.OfRun r.runId r.seed ∧
      ∀ b ∈ record.finalWrites, b.runId = r.runId ∧ b.seed = r.seed := by
  obtain ⟨driver, req, -, hrecorded, hrun, hseed⟩ := recorded_of_evident h hr hrecord
  rw [← hrun, ← hseed]
  exact ⟨hrecorded.ofRun, hrecorded.finalWrites⟩

/-- Runs with one provenance are one run. -/
theorem eq_of_provenance {evidence : JobEvidence A} (h : x.Evident job w evidence)
    (hnodup : (job.runs.map (·.provenance)).Nodup) {r s : RunResult} (hr : r ∈ evidence.runs)
    (hs : s ∈ evidence.runs) (hrun : r.runId = s.runId) (hseed : r.seed = s.seed) : r = s := by
  have hplace : ∀ {i : ℕ} {r : RunResult}, evidence.runs[i]? = some r →
      (job.runs.map (·.provenance))[i]? = some (r.runId, r.seed) := by
    intro i r hi
    obtain ⟨_, driver, request, -, hrequest, rfl⟩ := h.runs i r hi
    rw [List.getElem?_map, hrequest]
    rfl
  obtain ⟨i, hi⟩ := List.mem_iff_getElem?.1 hr
  obtain ⟨j, hj⟩ := List.mem_iff_getElem?.1 hs
  have hsame := (hplace hi).trans ((hrun ▸ hseed ▸ hplace hj :)).symm
  obtain rfl : i = j :=
    (List.getElem?_inj (List.getElem?_eq_some_iff.1 (hplace hi)).1 hnodup).1 hsame
  exact Option.some.inj (hi.symm.trans hj)

/-- What of the merged events carries the provenance of a run is what the run has recorded. -/
theorem mem_merged_iff {evidence : JobEvidence A} (h : x.Evident job w evidence)
    (hnodup : (job.runs.map (·.provenance)).Nodup) {α : Type}
    {field : Events.EmuEvents → List α} {runId : α → UInt32} {seed : α → UInt64}
    (hempty : field {} = [])
    (hof : ∀ r ∈ evidence.runs, ∀ record, r.record = some record →
      ∀ a ∈ field (x.ids.events record), runId a = r.runId ∧ seed a = r.seed)
    {merged : List α} (hmerged : ∀ a, a ∈ merged ↔
      ∃ events ∈ evidence.runs.map fun r => r.events x.ids, a ∈ field events)
    {r : RunResult} (hr : r ∈ evidence.runs) {record : EmuDriver.RunRecord}
    (hrecord : r.record = some record) (a : α) :
    a ∈ field (x.ids.events record) ↔
      a ∈ merged ∧ (runId a == r.runId && seed a == r.seed) = true := by
  have hevents : r.events x.ids = x.ids.events record := by
    unfold RunResult.events
    rw [hrecord]
    rfl
  rw [hmerged, Bool.and_eq_true, beq_iff_eq, beq_iff_eq]
  constructor
  · intro ha
    exact ⟨⟨_, List.mem_map_of_mem hr, hevents ▸ ha⟩, hof r hr record hrecord a ha⟩
  · rintro ⟨⟨events, hmem, ha⟩, hrun, hseed⟩
    obtain ⟨s, hs, rfl⟩ := List.mem_map.1 hmem
    rcases hsrecord : s.record with _ | srecord
    · rw [RunResult.events, hsrecord, Option.elim_none, hempty] at ha
      cases ha
    · have hkey : runId a = s.runId ∧ seed a = s.seed := by
        refine hof s hs srecord hsrecord a ?_
        rw [RunResult.events, hsrecord] at ha
        exact ha
      obtain rfl : r = s := eq_of_provenance h hnodup hr hs (hrun.symm.trans hkey.1)
        (hseed.symm.trans hkey.2)
      rwa [hevents] at ha

end Provenance

/-! ## Recovering a run -/

namespace RaxExecutor

variable {I A : Type} {job : ExecJob I} {w : Circumstances}

/-- The log of a record fits into the sequence numbers. -/
theorem log_fits {driver : EmuDriver} {cfg : Fingerprint.ViyConfig} {req : RunRequest}
    {record : EmuDriver.RunRecord} {log : Log}
    (hlogs : (driver.context cfg req).Logs 0 [] (EmuDriver.allCalls record.starts) log)
    (hc : Chronicle (driver.context cfg req) record.hooks log)
    (hroom : (EmuDriver.allCalls record.starts).length + cfg.maxInsns.toNat < 2 ^ 64) :
    log.length < 2 ^ 64 := by
  have hsteps := hlogs.steps_length
  have hcapped : record.hooks.data.length ≤ cfg.maxInsns.toNat := hc.capped
  rw [hc.data] at hcapped
  rw [Log.length_eq]
  simp only [Log.steps_nil, List.length_nil, Nat.zero_add] at hsteps
  omega

/-- What of the merged events carries the provenance of a run, kind by kind. -/
structure PartOf (ids : RaxIds) (r : RunResult) (record : EmuDriver.RunRecord)
    (merged : Events.EmuEvents) : Prop where
  edges : ∀ a, a ∈ record.hooks.edges ↔
    a ∈ merged.edges ∧ (a.runId == r.runId && a.seed == r.seed) = true
  execution : ∀ a, a ∈ record.hooks.execution ↔
    a ∈ merged.execution ∧ (a.runId == r.runId && a.seed == r.seed) = true
  data : ∀ a, a ∈ record.hooks.data.map ids.dataAcc ↔
    a ∈ merged.data ∧ (a.runId == r.runId && a.seed == r.seed) = true
  finalWrites : ∀ a, a ∈ record.finalWrites ↔
    a ∈ merged.finalWrites ∧ (a.runId == r.runId && a.seed == r.seed) = true

theorem partOf_execute {x : RaxExecutor I A} {e : EngineState} {r : RunResult}
    (hr : r ∈ (x.execute job w e).1.evidence.runs)
    {record : EmuDriver.RunRecord} (hrecord : r.record = some record) :
    PartOf x.ids r record
      (Events.mergeAll ((x.execute job w e).1.evidence.runs.map fun r => r.events x.ids)) := by
  have hevident : x.Evident job w (x.execute job w e).1.evidence := execute_evident e
  have hnodup : (job.runs.map (·.provenance)).Nodup := by
    by_contra hnot
    have hnil := runs_of_not_admits (x := x) (w := w) (e := e) fun hadmits => hnot hadmits.2.2
    rw [hnil] at hr
    cases hr
  have hcollects := Events.collects_mergeAll ((x.execute job w e).1.evidence.runs.map
    fun r => r.events x.ids)
  have hall : ∀ s ∈ (x.execute job w e).1.evidence.runs, ∀ record, s.record = some record →
      record.hooks.OfRun s.runId s.seed ∧
        ∀ b ∈ record.finalWrites, b.runId = s.runId ∧ b.seed = s.seed :=
    fun s hs record hrecord => ofRun_of_evident hevident hs hrecord
  exact
    { edges := mem_merged_iff hevident hnodup rfl
        (fun s hs record hs' => (hall s hs record hs').1.edges) hcollects.edges hr hrecord
      execution := mem_merged_iff hevident hnodup rfl
        (fun s hs record hs' => (hall s hs record hs').1.execution) hcollects.execution hr hrecord
      data := mem_merged_iff hevident hnodup rfl
        (fun s hs record hs' => List.forall_mem_map.2 (hall s hs record hs').1.data)
        hcollects.data hr hrecord
      finalWrites := mem_merged_iff hevident hnodup rfl
        (fun s hs record hs' => (hall s hs record hs').2) hcollects.finalWrites hr hrecord }

/-- The accesses of a run, in the order in which it has made them. -/
theorem data_recovered {x : RaxExecutor I A} {e : EngineState} {r : RunResult}
    (hr : r ∈ (x.execute job w e).1.evidence.runs)
    {record : EmuDriver.RunRecord} (hrecord : r.record = some record)
    (hroom : (EmuDriver.allCalls record.starts).length + job.config.maxInsns.toNat < 2 ^ 64) :
    (x.execute job w e).1.evidence.merged.data.filter
      (fun a => a.runId == r.runId && a.seed == r.seed) = record.hooks.data.map x.ids.dataAcc := by
  have hevident : x.Evident job w (x.execute job w e).1.evidence := execute_evident e
  obtain ⟨driver, req, -, hrecorded, -, -⟩ := recorded_of_evident hevident hr hrecord
  obtain ⟨log, hlogs, hc⟩ := hrecorded.logged
  rw [hevident.merged]
  refine filter_sortUnique Events.dataEqual_iff ?_ (partOf_execute hr hrecord).data
  refine sorted_of_sequence (fun a => (a.runId, a.seed, a.sequence, a.from_, a.addr, a.kind,
    a.size, a.value, a.scope)) (fun _ _ => rfl)
    (List.forall_mem_map.2 (ofRun_of_evident hevident hr hrecord).1.data) ?_
  exact List.pairwise_map.2 (hc.data_pairwise (log_fits hlogs hc hroom))

/-- **Runs can be told apart.** Of the merged events of a job, however it has ended, those with the
provenance of a run are what this run has recorded, in the order in which it has done so, as long as
its sequence numbers have not come round. -/
theorem run_recovered (x : RaxExecutor I A) (e : EngineState) {r : RunResult}
    (hr : r ∈ (x.execute job w e).1.evidence.runs)
    {record : EmuDriver.RunRecord} (hrecord : r.record = some record)
    (hroom : (EmuDriver.allCalls record.starts).length + job.config.maxInsns.toNat < 2 ^ 64) :
    let merged := (x.execute job w e).1.evidence.merged
    merged.edges.filter (fun a => a.runId == r.runId && a.seed == r.seed) = record.hooks.edges ∧
    merged.execution.filter (fun a => a.runId == r.runId && a.seed == r.seed) =
      record.hooks.execution ∧
    merged.data.filter (fun a => a.runId == r.runId && a.seed == r.seed) =
      record.hooks.data.map x.ids.dataAcc ∧
    ∀ b, b ∈ record.finalWrites ↔
      b ∈ merged.finalWrites ∧ (b.runId == r.runId && b.seed == r.seed) = true := by
  intro merged
  have hevident : x.Evident job w (x.execute job w e).1.evidence := execute_evident e
  obtain ⟨driver, req, -, hrecorded, hrun, hseed⟩ := recorded_of_evident hevident hr hrecord
  obtain ⟨log, hlogs, hc⟩ := hrecorded.logged
  have hfits := log_fits hlogs hc hroom
  have hof := (ofRun_of_evident hevident hr hrecord).1
  have hpart := partOf_execute hr hrecord
  have hmerged : merged = _ := hevident.merged
  refine ⟨?_, ?_, data_recovered hr hrecord hroom, fun b => ?_⟩ <;> rw [hmerged]
  · refine filter_sortUnique Events.edgeEqual_iff ?_ hpart.edges
    exact sorted_of_sequence (fun a => (a.runId, a.seed, a.sequence, a.from_, a.to_, a.kind))
      (fun _ _ => rfl) hof.edges (hc.edges_pairwise hfits)
  · refine filter_sortUnique Events.pointEqual_iff ?_ hpart.execution
    exact sorted_of_sequence (fun a => (a.runId, a.seed, a.sequence, a.pc))
      (fun _ _ => rfl) hof.execution (hc.execution_pairwise hfits)
  · rw [hpart.finalWrites]
    exact and_congr_left fun _ => (mem_sortUnique Events.bytesEqual_iff).symm

end RaxExecutor

/-- The second run of the job. -/
theorem two_runs_recovered :
    let evidence := (oneInsnExecutor.execute twoRuns calm usedEngine).1.evidence
    ∃ r ∈ evidence.runs, ∃ record, r.record = some record ∧
      evidence.merged.execution.filter (fun a => a.runId == 1 && a.seed == 5) =
        record.hooks.execution := by
  intro evidence
  have hsecond : (evidence.runs[1]?).any (fun r => r.runId == 1 && r.seed == 5 &&
      r.record.any fun record => (EmuDriver.allCalls record.starts).length == 1) = true := by
    decide +kernel
  obtain ⟨r, hr, hkey⟩ := (Option.any_eq_true _ _).1 hsecond
  rw [Bool.and_eq_true, Bool.and_eq_true, beq_iff_eq, beq_iff_eq] at hkey
  obtain ⟨⟨hrun, hseed⟩, hrecord⟩ := hkey
  obtain ⟨record, hrecord, hcalls⟩ := (Option.any_eq_true _ _).1 hrecord
  have hmem := List.mem_of_getElem? hr
  have hrecovered := oneInsnExecutor.run_recovered usedEngine hmem hrecord
    (by rw [beq_iff_eq.1 hcalls]; decide)
  rw [hrun, hseed] at hrecovered
  exact ⟨r, hmem, record, hrecord, hrecovered.2.1⟩

end Viy.Workers
