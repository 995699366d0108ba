import Viy.Emu.Emulate
import Viy.Workers.Pool

/-!
# Executing a job

The executor of a worker checks a job against its image, audits the decoder inputs and makes the
requested runs one after the other on the worker's engine. A cancellation, seen between two steps,
or a run that cannot be started ends the job with what there is. Whatever happens, the merged events
of the result are those of the runs in it. Since a run does not see the ones before it, a result
does not depend on the worker that has made it.
-/

namespace Viy.Workers

open Wire Fault Emu
open Fingerprint (ViyConfig)

/-! ## Events of a run -/

/-- The numbers by which rax names kinds of accesses and registers. -/
structure RaxIds where
  kind : MemKind → ℤ
  reg : Reg → ℤ
  kindOf : ℤ → MemKind
  kindOf_kind : ∀ k, kindOf (kind k) = k

namespace RaxIds

variable (ids : RaxIds)

def dataAcc (a : DataAcc) : Events.DataAcc :=
  { from_ := a.from_, addr := a.addr, value := a.value, size := a.size, kind := ids.kind a.kind
    scope := a.scope, sequence := a.sequence, runId := a.runId, seed := a.seed }

def statePoint (s : StatePoint) : Events.StatePoint :=
  { source := s.source, pc := s.pc, runId := s.runId, seed := s.seed
    regs := s.regs.map fun r => ⟨ids.reg r.reg, r.value, r.width⟩ }

/-- What a run has written into its `EmuEvents`. -/
def events (r : EmuDriver.RunRecord) : Events.EmuEvents where
  edges := r.hooks.edges
  execution := r.hooks.execution
  data := r.hooks.data.map ids.dataAcc
  states := r.hooks.states.map ids.statePoint
  finalWrites := r.finalWrites
  execPcs := r.hooks.execPcs.toFinset

end RaxIds

/-! ## Jobs -/

/-- What is compared between a job and the image. -/
structure JobFunction where
  start : UInt64
  end_ : UInt64
  byteHash : UInt64
  generation : UInt64
  deriving DecidableEq

structure EmulationRunRequest where
  seed : UInt64 := 0
  runId : UInt32 := 0
  recordPcs : Bool := true
  hasInput : Bool := false
  input : RunInput := { seed := 0, runId := 0 }

/-- `I` are the inputs of the decoder audit. -/
structure ExecJob (I : Type) where
  function : JobFunction
  config : ViyConfig
  runs : List EmulationRunRequest
  decoderInputs : List I := []

/-- The arguments of `emulate_from`. -/
def EmulationRunRequest.toRun (request : EmulationRunRequest) (function : JobFunction) :
    RunRequest where
  entry := function.start
  funcEnd := function.end_
  recordPcs := request.recordPcs
  seed := request.seed
  runId := request.runId
  input := if request.hasInput then some request.input else none

/-- The run and the seed that the events of a request carry. -/
def EmulationRunRequest.provenance (request : EmulationRunRequest) : UInt32 × UInt64 :=
  if request.hasInput then (request.input.runId, request.input.seed)
  else (request.runId, request.seed)

/-- A run with its record, if it could be started. -/
structure RunResult where
  seed : UInt64
  runId : UInt32
  record : Option EmuDriver.RunRecord

def RunResult.ran (r : RunResult) : Bool := r.record.isSome

def RunResult.events (ids : RaxIds) (r : RunResult) : Events.EmuEvents :=
  r.record.elim {} ids.events

/-- Runs, merged events and decoder audit. -/
structure JobEvidence (A : Type) where
  runs : List RunResult := []
  merged : Events.EmuEvents := {}
  decoderAudit : List A := []

/-! ## The executor -/

structure RaxExecutor (I A : Type) where
  image : Bool
  api : Bool
  canDecode : Bool
  unavailable : Bytes
  functionAt : UInt64 → Option JobFunction
  driver : Option EmuDriver
  rax : Rax
  readable : Bool
  ids : RaxIds
  analyzeDecoderInput : I → A

/-- What a job meets: the polls of its cancellation, and for every run the clock and the failures of
the engine's services. -/
structure Circumstances where
  cancelled : ℕ → Bool
  clock : ℕ → ℕ → UInt64
  script : ℕ → List Outcome

/-- The texts of the source. -/
def text (s : String) : Bytes := s.toUTF8.toList

namespace RaxExecutor

variable {I A : Type} (x : RaxExecutor I A) (job : ExecJob I) (w : Circumstances)

def available : Bool := x.image && x.api && (x.driver.isSome || x.canDecode)

/-- The function of the job is the one in the image. -/
def matchesImage : Bool := x.functionAt job.function.start == some job.function

/-- Nothing if the job is cancelled on the way. -/
def auditLoop : ℕ → List I → Option (List A)
  | _, [] => some []
  | k, input :: inputs =>
    if w.cancelled k then none
    else (auditLoop (k + 1) inputs).map (x.analyzeDecoderInput input :: ·)

/-- The runs so far. -/
structure Merging where
  runs : List RunResult := []
  merged : Events.EmuEvents := {}
  engine : EngineState

inductive RunsStop where
  | completed | cancelled | failed
  deriving DecidableEq

/-- The run for a request; `j` is its number. -/
def run (driver : EmuDriver) (j : ℕ) (request : EmulationRunRequest) (e : EngineState) :
    Option EmuDriver.RunRecord × EngineState :=
  driver.emulateFrom x.rax job.config (request.toRun job.function) (w.clock j) x.readable
    (w.script j) e

def runLoop (driver : EmuDriver) : ℕ → List EmulationRunRequest → Merging → RunsStop × Merging
  | _, [], m => (.completed, m)
  | j, request :: requests, m =>
    if w.cancelled (job.decoderInputs.length + j) then (.cancelled, m)
    else
      let (record, engine) := x.run job w driver j request m.engine
      let runs := m.runs ++ [{ seed := request.provenance.2, runId := request.provenance.1
                               record := record }]
      match record with
      | none => (.failed, { m with runs := runs, engine := engine })
      | some r => runLoop driver (j + 1) requests
          { runs := runs, merged := m.merged.mergeFrom (x.ids.events r), engine := engine }

def result (status : EmulationJobStatus) (diagnostic : Bytes) (evidence : JobEvidence A) :
    EmulationJobResult (JobEvidence A) :=
  { functionStart := job.function.start, status := status, diagnostic := diagnostic
    evidence := evidence }

/-- The end of a job: the merged events are normalized in any case. -/
def settle (audit : List A) : RunsStop × Merging → EmulationJobResult (JobEvidence A)
  | (stop, m) =>
    let evidence := { runs := m.runs, merged := m.merged.normalize, decoderAudit := audit }
    match stop with
    | .completed => result job .completed [] evidence
    | .cancelled => result job .cancelled (text "emulation generation cancelled") evidence
    | .failed => result job .failed (text "rax emulation run could not be started") evidence

/-- The runs of a job that has passed its audit. -/
def executeRuns (audit : List A) (e : EngineState) :
    EmulationJobResult (JobEvidence A) × EngineState :=
  match x.driver with
  | none =>
    if job.runs = [] then (settle job audit (.completed, { engine := e }), e)
    else (result job .unavailable x.unavailable { decoderAudit := audit }, e)
  | some driver =>
    let done := x.runLoop job w driver 0 job.runs { engine := e }
    (settle job audit done, done.2.engine)

def execute (e : EngineState) : EmulationJobResult (JobEvidence A) × EngineState :=
  if x.available = false then (result job .unavailable x.unavailable {}, e)
  else if x.matchesImage job = false then
    (result job .failed (text "emulation job does not match immutable image generation") {}, e)
  else if ¬ (job.runs.map (·.provenance)).Nodup then
    (result job .failed (text "duplicate emulation run provenance") {}, e)
  else
    match x.auditLoop w 0 job.decoderInputs with
    | none => (result job .cancelled (text "decoder audit generation cancelled") {}, e)
    | some audit => x.executeRuns job w audit e

/-- The results of a worker that makes jobs one after the other. -/
def serve : List (ExecJob I × Circumstances) → EngineState →
    List (EmulationJobResult (JobEvidence A))
  | [], _ => []
  | (job, w) :: jobs, e =>
    let (result, e') := x.execute job w e
    result :: serve jobs e'

/-! ## What a job gives -/

/-- The run for a request alone, on an engine in the state `e`. -/
def soloRun (driver : EmuDriver) (e : EngineState) (j : ℕ) (request : EmulationRunRequest) :
    RunResult :=
  { seed := request.provenance.2, runId := request.provenance.1
    record := (x.run job w driver j request e).1 }

/-- Every run of the job gets to a start of the engine. -/
structure Startable : Prop where
  maxInsns : 0 < job.config.maxInsns
  clock : ∀ j, w.clock j 0 < timeoutTotal job.config

variable {x job w}

theorem run_congr (h : Startable job w) (driver : EmuDriver) (j : ℕ)
    (request : EmulationRunRequest) (e e' : EngineState) :
    (x.run job w driver j request e').1 = (x.run job w driver j request e).1 :=
  EmuDriver.emulateFrom_congr h.maxInsns (h.clock j) _ _ e e'

theorem mergeFrom_empty (e : Events.EmuEvents) : e.mergeFrom {} = e := by
  cases e
  simp [Events.EmuEvents.mergeFrom]

/-- The runs that the loop has made, merged one by one, each on the engine that it has met. -/
structure Prefixed (x : RaxExecutor I A) (job : ExecJob I) (w : Circumstances) (driver : EmuDriver)
    (j : ℕ) (requests : List EmulationRunRequest) (m m' : Merging) (l : List RunResult) :
    Prop where
  runs : m'.runs = m.runs ++ l
  merged : m'.merged = l.foldl (fun e r => e.mergeFrom (r.events x.ids)) m.merged
  made : ∀ i r, l[i]? = some r → ∃ e request, requests[i]? = some request ∧
    r = x.soloRun job w driver e (j + i) request

theorem prefixed_nil (driver : EmuDriver) (j : ℕ) (requests : List EmulationRunRequest)
    (m : Merging) : x.Prefixed job w driver j requests m m [] :=
  ⟨(List.append_nil _).symm, rfl, by simp⟩

theorem Prefixed.cons {driver : EmuDriver} {j : ℕ} {request : EmulationRunRequest}
    {requests : List EmulationRunRequest} {m m' m'' : Merging} {l : List RunResult}
    {e : EngineState} (hruns : m'.runs = m.runs ++ [x.soloRun job w driver e j request])
    (hmerged : m'.merged = m.merged.mergeFrom ((x.soloRun job w driver e j request).events x.ids))
    (h : x.Prefixed job w driver (j + 1) requests m' m'' l) :
    x.Prefixed job w driver j (request :: requests) m m''
      (x.soloRun job w driver e j request :: l) where
  runs := by
    rw [h.runs, hruns, List.append_assoc]
    rfl
  merged := by
    rw [h.merged, hmerged]
    rfl
  made i r hr := by
    rcases i with _ | i
    · exact ⟨e, request, rfl, (Option.some.inj hr).symm⟩
    · obtain ⟨e', request', hrequest, rfl⟩ := h.made i r hr
      exact ⟨e', request', hrequest, by rw [Nat.add_right_comm, Nat.add_assoc]⟩

theorem runLoop_prefixed (driver : EmuDriver) :
    ∀ (requests : List EmulationRunRequest) (j : ℕ) (m : Merging), ∃ l,
      x.Prefixed job w driver j requests m (x.runLoop job w driver j requests m).2 l ∧
        ((x.runLoop job w driver j requests m).1 = .completed → l.length = requests.length)
  | [], j, m => ⟨[], prefixed_nil _ _ _ _, fun _ => rfl⟩
  | request :: requests, j, m => by
    unfold runLoop
    by_cases hcancelled : w.cancelled (job.decoderInputs.length + j) = true
    · rw [if_pos hcancelled]
      exact ⟨[], prefixed_nil _ _ _ _, nofun⟩
    rw [if_neg hcancelled]
    have hsolo : x.soloRun job w driver m.engine j request =
      ⟨request.provenance.2, request.provenance.1, (x.run job w driver j request m.engine).1⟩ := rfl
    rcases hrun : x.run job w driver j request m.engine with ⟨_ | r, engine⟩ <;> rw [hrun] at hsolo
    · refine ⟨_, (prefixed_nil driver (j + 1) requests _).cons (e := m.engine) ?_ ?_, nofun⟩
      · rw [hsolo]
      · rw [hsolo, RunResult.events, Option.elim_none, mergeFrom_empty]
    · obtain ⟨l, hl, hfull⟩ := runLoop_prefixed driver requests (j + 1)
        ⟨m.runs ++ [⟨request.provenance.2, request.provenance.1, some r⟩],
          m.merged.mergeFrom (x.ids.events r), engine⟩
      refine ⟨_, hl.cons (e := m.engine) ?_ ?_, fun hdone => congrArg (· + 1) (hfull hdone)⟩
      · rw [hsolo]
      · rw [hsolo]
        rfl

/-- Nothing stands in the way of the requests from `j` on. -/
def Unhindered (x : RaxExecutor I A) (job : ExecJob I) (w : Circumstances) (driver : EmuDriver)
    (e : EngineState) (j : ℕ) (requests : List EmulationRunRequest) : Prop :=
  ∀ i request, requests[i]? = some request →
    w.cancelled (job.decoderInputs.length + (j + i)) = false ∧
      (x.soloRun job w driver e (j + i) request).ran = true

theorem unhindered_cons {driver : EmuDriver} {e : EngineState} {j : ℕ}
    {request : EmulationRunRequest} {requests : List EmulationRunRequest} :
    x.Unhindered job w driver e j (request :: requests) ↔
      (w.cancelled (job.decoderInputs.length + j) = false ∧
        (x.soloRun job w driver e j request).ran = true) ∧
      x.Unhindered job w driver e (j + 1) requests := by
  constructor
  · intro h
    refine ⟨h 0 request rfl, fun i r hr => ?_⟩
    have hi := h (i + 1) r hr
    rwa [show j + (i + 1) = j + 1 + i by omega] at hi
  · rintro ⟨hfirst, hrest⟩ (_ | i) r hr
    · obtain rfl := Option.some.inj hr
      exact hfirst
    · have hi := hrest i r hr
      rwa [show j + 1 + i = j + (i + 1) by omega] at hi

/-- The loop completes exactly if nothing stands in the way. -/
theorem runLoop_completed_iff (h : Startable job w) (driver : EmuDriver) (e : EngineState) :
    ∀ (requests : List EmulationRunRequest) (j : ℕ) (m : Merging),
      (x.runLoop job w driver j requests m).1 = .completed ↔
        x.Unhindered job w driver e j requests
  | [], j, m => iff_of_true rfl nofun
  | request :: requests, j, m => by
    unfold runLoop
    rw [unhindered_cons]
    by_cases hcancelled : w.cancelled (job.decoderInputs.length + j) = true
    · rw [if_pos hcancelled, hcancelled]
      exact iff_of_false nofun fun hall => Bool.noConfusion hall.1.1
    rw [if_neg hcancelled, RunResult.ran, soloRun, ← run_congr h driver j request e m.engine]
    rcases x.run job w driver j request m.engine with ⟨_ | r, engine⟩
    · exact iff_of_false nofun fun hall => Bool.noConfusion hall.1.2
    · rw [and_iff_right ⟨Bool.eq_false_iff.2 hcancelled, rfl⟩]
      exact runLoop_completed_iff h driver e requests (j + 1) _

/-- The audit of all inputs, unless one of the polls before them is answered. -/
theorem auditLoop_eq : ∀ (inputs : List I) (k : ℕ), x.auditLoop w k inputs =
    if ∀ i < inputs.length, w.cancelled (k + i) = false then
      some (inputs.map x.analyzeDecoderInput)
    else none
  | [], _ => (if_pos fun _ hi => absurd hi (Nat.not_lt_zero _)).symm
  | input :: inputs, k => by
    have hpolls : (∀ i < inputs.length + 1, w.cancelled (k + i) = false) ↔
        w.cancelled k = false ∧ ∀ i < inputs.length, w.cancelled (k + 1 + i) = false := by
      rw [Nat.forall_lt_succ_left]
      simp only [Nat.add_zero, Nat.add_assoc, Nat.add_comm 1]
    unfold auditLoop
    rw [auditLoop_eq inputs (k + 1), List.length_cons, if_congr hpolls rfl rfl]
    cases w.cancelled k
    · rw [if_neg Bool.false_ne_true, if_congr (and_iff_right rfl) rfl rfl, apply_ite (Option.map _)]
      rfl
    · rfl

/-- The run is that of the request at its place, on an engine in the state `e`. -/
def RunOf (x : RaxExecutor I A) (job : ExecJob I) (w : Circumstances) (e : EngineState) (i : ℕ)
    (r : RunResult) : Prop :=
  ∃ driver request, x.driver = some driver ∧ job.runs[i]? = some request ∧
    r = x.soloRun job w driver e i request

theorem RunOf.congr (h : Startable job w) {e : EngineState} {i : ℕ} {r : RunResult}
    (hr : x.RunOf job w e i r) (e' : EngineState) : x.RunOf job w e' i r := by
  obtain ⟨driver, request, hdriver, hrequest, rfl⟩ := hr
  refine ⟨driver, request, hdriver, hrequest, ?_⟩
  unfold soloRun
  rw [run_congr h driver i request e' e]

/-- The runs in a result are the first ones of the job, and its events are theirs. -/
structure Evident (x : RaxExecutor I A) (job : ExecJob I) (w : Circumstances)
    (evidence : JobEvidence A) : Prop where
  runs : ∀ i r, evidence.runs[i]? = some r → ∃ e, x.RunOf job w e i r
  merged : evidence.merged =
    (Events.mergeAll (evidence.runs.map fun r => r.events x.ids)).normalize
  decoderAudit : evidence.decoderAudit = [] ∨
    evidence.decoderAudit = job.decoderInputs.map x.analyzeDecoderInput

/-- Every request gets its run. -/
def Runs (x : RaxExecutor I A) (job : ExecJob I) (w : Circumstances) (e : EngineState) : Prop :=
  job.runs = [] ∨ ∃ driver, x.driver = some driver ∧ ∀ j request, job.runs[j]? = some request →
    (x.soloRun job w driver e j request).ran = true

theorem settle_evidence (audit : List A) (done : RunsStop × Merging) :
    (settle job audit done).evidence =
      { runs := done.2.runs, merged := done.2.merged.normalize, decoderAudit := audit } := by
  rcases done with ⟨_ | _ | _, m⟩ <;> rfl

theorem settle_status (audit : List A) (done : RunsStop × Merging) :
    (settle job audit done).status = .completed ↔ done.1 = .completed := by
  rcases done with ⟨_ | _ | _, m⟩ <;> simp [settle, result]

theorem settle_congr (audit : List A) {done done' : RunsStop × Merging} (hstop : done'.1 = done.1)
    (hruns : done'.2.runs = done.2.runs) (hmerged : done'.2.merged = done.2.merged) :
    settle job audit done' = settle job audit done := by
  obtain ⟨stop, m⟩ := done
  obtain ⟨stop', m'⟩ := done'
  obtain rfl : stop' = stop := hstop
  unfold settle
  dsimp only
  rw [hruns, hmerged]

/-- When a job that has passed its audit is completed. -/
structure Settled (x : RaxExecutor I A) (job : ExecJob I) (w : Circumstances) (e : EngineState)
    (r : EmulationJobResult (JobEvidence A)) : Prop where
  completed : r.status = .completed ↔
    x.Runs job w e ∧ ∀ k < job.runs.length, w.cancelled (job.decoderInputs.length + k) = false
  all : r.status = .completed → r.evidence.runs.length = job.runs.length ∧
    r.evidence.decoderAudit = job.decoderInputs.map x.analyzeDecoderInput

theorem unhindered_iff {driver : EmuDriver} {e : EngineState} (hdriver : x.driver = some driver) :
    x.Unhindered job w driver e 0 job.runs ↔
      x.Runs job w e ∧
        ∀ k < job.runs.length, w.cancelled (job.decoderInputs.length + k) = false := by
  constructor
  · intro h
    refine ⟨Or.inr ⟨driver, hdriver, fun j request hj => ?_⟩, fun k hk => ?_⟩
    · have hran := (h j request hj).2
      rwa [Nat.zero_add] at hran
    · have hpoll := (h k _ (List.getElem?_eq_getElem hk)).1
      rwa [Nat.zero_add] at hpoll
  · rintro ⟨hruns, hpolls⟩ j request hj
    have hlt := (List.getElem?_eq_some_iff.1 hj).1
    rw [Nat.zero_add]
    refine ⟨hpolls j hlt, ?_⟩
    obtain hnil | ⟨driver', hdriver', hruns⟩ := hruns
    · rw [hnil] at hlt
      cases hlt
    · obtain rfl : driver' = driver := Option.some.inj (hdriver'.symm.trans hdriver)
      exact hruns j request hj

theorem executeRuns_evident (e : EngineState) : x.Evident job w
    (x.executeRuns job w (job.decoderInputs.map x.analyzeDecoderInput) e).1.evidence := by
  unfold executeRuns
  rcases hdriver : x.driver with _ | driver
  · have hnone : ∀ (r : EmulationJobResult (JobEvidence A)), r.evidence =
        { decoderAudit := job.decoderInputs.map x.analyzeDecoderInput } →
          x.Evident job w r.evidence := by
      intro r hr
      rw [hr]
      exact ⟨by simp, rfl, Or.inr rfl⟩
    dsimp only
    split_ifs <;> exact hnone _ rfl
  · obtain ⟨runs, hruns, -⟩ := runLoop_prefixed (x := x) driver job.runs 0 { engine := e }
    dsimp only
    rw [settle_evidence]
    refine ⟨fun i r hr => ?_, ?_, Or.inr rfl⟩
    · rw [hruns.runs] at hr
      obtain ⟨e', request, hrequest, rfl⟩ := hruns.made i r hr
      rw [Nat.zero_add]
      exact ⟨e', driver, request, hdriver, hrequest, rfl⟩
    · dsimp only
      rw [Events.mergeAll, List.foldl_map, hruns.runs, hruns.merged]
      rfl

theorem executeRuns_settled (h : Startable job w) (e : EngineState) :
    x.Settled job w e
      (x.executeRuns job w (job.decoderInputs.map x.analyzeDecoderInput) e).1 := by
  unfold executeRuns
  rcases hdriver : x.driver with _ | driver
  · dsimp only
    by_cases hnil : job.runs = []
    · rw [if_pos hnil]
      refine ⟨iff_of_true rfl ⟨Or.inl hnil, ?_⟩, fun _ => ⟨congrArg List.length hnil.symm, rfl⟩⟩
      rw [hnil]
      exact fun k hk => absurd hk (Nat.not_lt_zero k)
    · rw [if_neg hnil]
      refine ⟨iff_of_false nofun fun hruns => ?_, nofun⟩
      rcases hruns.1 with hruns | ⟨driver, hsome, -⟩
      · exact hnil hruns
      · rw [hdriver] at hsome
        cases hsome
  · obtain ⟨runs, hruns, hfull⟩ := runLoop_prefixed (x := x) driver job.runs 0 { engine := e }
    have hiff := runLoop_completed_iff (x := x) h driver e job.runs 0 { engine := e }
    dsimp only
    refine ⟨?_, fun hdone => ?_⟩
    · rw [settle_status, hiff, unhindered_iff hdriver]
    · rw [settle_evidence]
      refine ⟨?_, rfl⟩
      dsimp only
      rw [hruns.runs]
      exact hfull ((settle_status _ _).1 hdone)

/-- What the executor checks before anything is done. -/
def Admits (x : RaxExecutor I A) (job : ExecJob I) : Prop :=
  x.available = true ∧ x.matchesImage job = true ∧ (job.runs.map (·.provenance)).Nodup

/-- A job is turned away with nothing in its result, or makes its runs; the engine has no part in
it. -/
theorem execute_cases (x : RaxExecutor I A) (job : ExecJob I) (w : Circumstances) :
    (¬ (x.Admits job ∧ ∀ i < job.decoderInputs.length, w.cancelled i = false) ∧
      ∃ r, (∀ e, x.execute job w e = (r, e)) ∧ r.evidence = {} ∧ r.status ≠ .completed) ∨
    (x.Admits job ∧ ∀ i < job.decoderInputs.length, w.cancelled i = false) ∧
      ∀ e, x.execute job w e =
        x.executeRuns job w (job.decoderInputs.map x.analyzeDecoderInput) e := by
  unfold execute
  by_cases havailable : x.available = false
  · refine Or.inl ⟨fun h => ?_, _, fun e => if_pos havailable, rfl, nofun⟩
    cases havailable.symm.trans h.1.1
  simp only [if_neg havailable]
  by_cases hmatch : x.matchesImage job = false
  · refine Or.inl ⟨fun h => ?_, _, fun e => if_pos hmatch, rfl, nofun⟩
    cases hmatch.symm.trans h.1.2.1
  simp only [if_neg hmatch]
  by_cases hnodup : (job.runs.map (·.provenance)).Nodup
  swap
  · exact Or.inl ⟨fun h => hnodup h.1.2.2, _, fun e => if_pos hnodup, rfl, nofun⟩
  simp only [if_neg (not_not.2 hnodup), auditLoop_eq, Nat.zero_add]
  by_cases hpolls : ∀ i < job.decoderInputs.length, w.cancelled i = false
  · rw [if_pos hpolls]
    exact Or.inr ⟨⟨⟨Bool.eq_true_of_not_eq_false havailable, Bool.eq_true_of_not_eq_false hmatch,
      hnodup⟩, hpolls⟩, fun e => rfl⟩
  · rw [if_neg hpolls]
    exact Or.inl ⟨fun h => hpolls h.2, _, fun e => rfl, rfl, nofun⟩

theorem execute_evident (e : EngineState) :
    x.Evident job w (x.execute job w e).1.evidence := by
  obtain ⟨-, r, hr, hempty, -⟩ | ⟨-, hruns⟩ := x.execute_cases job w
  · rw [hr, hempty]
    exact ⟨by simp, rfl, Or.inl rfl⟩
  · rw [hruns]
    exact executeRuns_evident e

/-- **What a job gives.** A job is completed exactly if the executor is available, the job is for
the image of the executor, no two of its runs share their provenance, no poll has been answered and
every request could be run. Whatever has ended it, the runs of the result are the first ones of the
job, each exactly as it would be alone, and the merged events are the canonical ones of those runs.
The runs need a start of the engine for that: one without it reports the last exit of another. -/
theorem job_settled (x : RaxExecutor I A) (h : Startable job w) (e : EngineState) :
    ((x.execute job w e).1.status = .completed ↔ x.Admits job ∧ x.Runs job w e ∧
      ∀ k < job.decoderInputs.length + job.runs.length, w.cancelled k = false) ∧
    x.Evident job w (x.execute job w e).1.evidence ∧
    (∀ i r, (x.execute job w e).1.evidence.runs[i]? = some r → x.RunOf job w e i r) ∧
    ((x.execute job w e).1.status = .completed →
      (x.execute job w e).1.evidence.runs.length = job.runs.length ∧
      (x.execute job w e).1.evidence.decoderAudit =
        job.decoderInputs.map x.analyzeDecoderInput) := by
  have hevident : x.Evident job w (x.execute job w e).1.evidence := execute_evident e
  refine and_left_comm.1 ⟨hevident, and_left_comm.1 ⟨fun i r hr => ?_, ?_⟩⟩
  · obtain ⟨e', hrun⟩ := hevident.runs i r hr
    exact hrun.congr h e
  obtain ⟨hnot, r, hr, -, hstatus⟩ | ⟨⟨hadmits, hpolls⟩, hruns⟩ := x.execute_cases job w
  · rw [hr]
    exact ⟨iff_of_false hstatus fun hall => hnot ⟨hall.1, fun i hi => hall.2.2 i (by omega)⟩,
      fun hdone => absurd hdone hstatus⟩
  · have hsettled := executeRuns_settled (x := x) h e
    rw [hruns]
    refine ⟨hsettled.completed.trans ?_, hsettled.all⟩
    rw [and_iff_right hadmits]
    refine and_congr_right fun _ => ⟨fun hruns k hk => ?_, fun hboth k hk => ?_⟩
    · rcases Nat.lt_or_ge k job.decoderInputs.length with hlt | hge
      · exact hpolls k hlt
      · rw [← Nat.add_sub_of_le hge]
        exact hruns _ (by omega)
    · exact hboth _ (Nat.add_lt_add_left hk _)

/-! ## Jobs do not see each other -/

/-- The loop does not look at what the engine has run before. -/
theorem runLoop_congr (h : Startable job w) (driver : EmuDriver) :
    ∀ (requests : List EmulationRunRequest) (j : ℕ) (m m' : Merging), m'.runs = m.runs →
      m'.merged = m.merged →
      (x.runLoop job w driver j requests m').1 = (x.runLoop job w driver j requests m).1 ∧
      (x.runLoop job w driver j requests m').2.runs =
        (x.runLoop job w driver j requests m).2.runs ∧
      (x.runLoop job w driver j requests m').2.merged =
        (x.runLoop job w driver j requests m).2.merged
  | [], _, _, _, hruns, hmerged => ⟨rfl, hruns, hmerged⟩
  | request :: requests, j, m, m', hruns, hmerged => by
    unfold runLoop
    by_cases hcancelled : w.cancelled (job.decoderInputs.length + j) = true
    · rw [if_pos hcancelled, if_pos hcancelled]
      exact ⟨rfl, hruns, hmerged⟩
    · rw [if_neg hcancelled, if_neg hcancelled]
      have hrun := run_congr (x := x) h driver j request m.engine m'.engine
      generalize x.run job w driver j request m.engine = first at hrun
      generalize x.run job w driver j request m'.engine = second at hrun
      obtain ⟨record, engine⟩ := first
      obtain ⟨record', engine'⟩ := second
      obtain rfl : record' = record := hrun
      rcases record' with _ | r
      · exact ⟨rfl, congrArg (· ++ _) hruns, hmerged⟩
      · exact runLoop_congr h driver requests (j + 1) _ _ (congrArg (· ++ _) hruns)
          (congrArg (Events.EmuEvents.mergeFrom · _) hmerged)

theorem execute_congr (h : Startable job w) (e e' : EngineState) :
    (x.execute job w e').1 = (x.execute job w e).1 := by
  obtain ⟨-, r, hr, -⟩ | ⟨-, hruns⟩ := x.execute_cases job w
  · rw [hr, hr]
  · rw [hruns, hruns]
    unfold executeRuns
    rcases x.driver with _ | driver
    · dsimp only
      split_ifs <;> rfl
    · obtain ⟨hstop, hruns, hmerged⟩ := runLoop_congr (x := x) h driver job.runs 0
        { engine := e } { engine := e' } rfl rfl
      exact settle_congr _ hstop hruns hmerged

/-- **Jobs do not see each other.** If every run gets to a start of the engine, the results of a
worker are those that each job has alone on a fresh one, whatever jobs it has made before and
however they have ended. -/
theorem jobs_isolated (x : RaxExecutor I A) {jobs : List (ExecJob I × Circumstances)}
    (h : ∀ p ∈ jobs, Startable p.1 p.2) (e fresh : EngineState) :
    x.serve jobs e = jobs.map fun p => (x.execute p.1 p.2 fresh).1 := by
  induction jobs generalizing e with
  | nil => rfl
  | cons p jobs ih =>
    obtain ⟨hp, hjobs⟩ := List.forall_mem_cons.1 h
    show (x.execute p.1 p.2 e).1 :: x.serve jobs (x.execute p.1 p.2 e).2 = _
    rw [ih hjobs, execute_congr hp fresh e, List.map_cons]

end RaxExecutor

/-! ## A job of two runs -/

/-- An executor that audits nothing. -/
def oneInsnExecutor : RaxExecutor Unit Unit where
  image := true
  api := true
  canDecode := true
  unavailable := []
  functionAt _ := some ⟨0x2000, 0x2010, 7, 1⟩
  driver := some sysvDriver
  rax := oneInsnRax
  readable := true
  ids := { kind := fun | .read => 1 | .write => 2 | .fetch => 4
           reg := fun _ => 0
           kindOf := fun n => if n = 1 then .read else if n = 2 then .write else .fetch
           kindOf_kind := fun k => by cases k <;> rfl }
  analyzeDecoderInput _ := ()

def twoRuns : ExecJob Unit where
  function := ⟨0x2000, 0x2010, 7, 1⟩
  config := defaultConfig
  runs := [{ seed := 3, runId := 0 },
    { hasInput := true, input := { args := [1, 2], seed := 5, runId := 1 } }]

/-- Nothing happens. -/
def calm : Circumstances where
  cancelled _ := false
  clock _ _ := 0
  script _ := []

theorem startable_twoRuns : RaxExecutor.Startable twoRuns calm := by
  refine ⟨by decide, fun j => ?_⟩
  show (0 : UInt64) < timeoutTotal defaultConfig
  decide

theorem two_runs_settled :
    (oneInsnExecutor.execute twoRuns calm usedEngine).1.status = .completed ∧
      (oneInsnExecutor.execute twoRuns calm usedEngine).1.evidence.runs.length = 2 := by
  have hcompleted : (oneInsnExecutor.execute twoRuns calm usedEngine).1.status = .completed := by
    decide +kernel
  have hsettled := oneInsnExecutor.job_settled startable_twoRuns usedEngine
  exact ⟨hcompleted, (hsettled.2.2.2 hcompleted).1⟩

theorem two_jobs_isolated : oneInsnExecutor.serve [(twoRuns, calm), (twoRuns, calm)] usedEngine =
    List.replicate 2 (oneInsnExecutor.execute twoRuns calm ⟨Abi.entryMachine.guest, 0, none⟩).1 :=
  oneInsnExecutor.jobs_isolated (by simp [startable_twoRuns]) usedEngine _

end Viy.Workers
