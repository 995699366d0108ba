import Viy.Emu.Machine
import Viy.Program.Fnv
import Viy.Wire.Stream

/-!
# The fingerprint of an emulation job

A job whose fingerprint is known need not be run again. `viy_emulation_job_fingerprint` feeds FNV
the hash of the image, the function with the layout of its chunks, the settings that matter, the
call summaries and the requested runs with their inputs. Every list comes with its length in front,
so the stream can be taken apart: two jobs have one stream exactly if they agree in all of this.
-/

namespace Viy.Workers.Fingerprint

open Wire Program
open Emu (FuncChunk EmuCallSummary SummaryKind)

/-! ## Jobs -/

structure FuncRange where
  start : UInt64
  end_ : UInt64
  chunks : Vec FuncChunk
  byteHash : UInt64

/-- The settings that go into the fingerprint. -/
@[ext]
structure ViyConfig where
  enabled : Bool
  maxInsns : UInt64
  timeoutMs : UInt64
  maxFuncs : UInt64
  funcsPerTick : Int32
  tickMs : Int32
  maxEpochs : Int32
  exploreRuns : Int32
  makeCode : Bool
  wantDrefs : Bool
  wantStatic : Bool
  wantNative : Bool
  strictPerms : Bool
  wantImportSummaries : Bool
  wantRuntimeStrings : Bool
  wantUnicodeStrings : Bool
  wantTables : Bool
  wantSmcEvidence : Bool
  applyRuntimeBytes : Bool
  maxRuntimeBytes : UInt64
  wantSwitch : Bool
  wantPurge : Bool
  wantNoret : Bool
  setNoret : Bool
  wantArgregs : Bool
  wantOpaque : Bool
  opaqueRuns : Int32

@[ext]
structure ArgOverride where
  index : UInt32
  value : UInt64

@[ext]
structure RegisterOverride where
  reg : Int32
  value : UInt64

@[ext]
structure EmuInput where
  seed : UInt64
  runId : UInt32
  args : Vec UInt64
  argOverrides : Vec ArgOverride
  registerOverrides : Vec RegisterOverride
  stackArgs : Vec UInt64
  stackArgOffset : UInt32

structure EmulationRunRequest where
  seed : UInt64
  runId : UInt32
  recordPcs : Bool
  hasInput : Bool
  input : EmuInput

structure EmulationJob where
  function : FuncRange
  config : ViyConfig
  runs : Vec EmulationRunRequest

/-! ## The stream -/

/-- `u64(uint64_t(value))` of an `int` -/
def int (value : Int32) : Bytes := leU64 value.toInt64.toUInt64

def summaryNumber : SummaryKind → UInt8
  | .memcpy => 1
  | .memmove => 2
  | .memset => 3
  | .strcpy => 4
  | .strncpy => 5
  | .strlen => 6
  | .strcmp => 7
  | .allocate => 8
  | .callocate => 9
  | .deallocate => 10
  | .terminate => 11

def functionForm (f : FuncRange) : Bytes :=
  leU64 f.start ++ leU64 f.end_ ++ leU64 f.byteHash ++
    counted (fun c => leU64 (c.start - f.start) ++ leU64 c.size) f.chunks.toList

def configForm (cfg : ViyConfig) : Bytes :=
  [boolean cfg.enabled, leU64 cfg.maxInsns, leU64 cfg.timeoutMs, leU64 cfg.maxFuncs,
    int cfg.funcsPerTick, int cfg.tickMs, int cfg.maxEpochs, int cfg.exploreRuns,
    boolean cfg.makeCode, boolean cfg.wantDrefs, boolean cfg.wantStatic, boolean cfg.wantNative,
    boolean cfg.strictPerms, boolean cfg.wantImportSummaries, boolean cfg.wantRuntimeStrings,
    boolean cfg.wantUnicodeStrings, boolean cfg.wantTables, boolean cfg.wantSmcEvidence,
    boolean cfg.applyRuntimeBytes, leU64 cfg.maxRuntimeBytes, boolean cfg.wantSwitch,
    boolean cfg.wantPurge, boolean cfg.wantNoret, boolean cfg.setNoret, boolean cfg.wantArgregs,
    boolean cfg.wantOpaque, int cfg.opaqueRuns].flatten

def summaryForm (summary : EmuCallSummary) : Bytes :=
  leU64 summary.address ++ [summaryNumber summary.kind]

def argForm (arg : ArgOverride) : Bytes := leU64 arg.index.toUInt64 ++ leU64 arg.value

def registerForm (reg : RegisterOverride) : Bytes :=
  leU64 reg.reg.toUInt32.toUInt64 ++ leU64 reg.value

def inputForm (input : EmuInput) : Bytes :=
  leU64 input.seed ++ leU64 input.runId.toUInt64 ++ leU64 input.stackArgOffset.toUInt64 ++
    counted leU64 input.args.toList ++ counted argForm input.argOverrides.toList ++
    counted registerForm input.registerOverrides.toList ++ counted leU64 input.stackArgs.toList

def runForm (run : EmulationRunRequest) : Bytes :=
  leU64 run.seed ++ leU64 run.runId.toUInt64 ++ boolean run.recordPcs ++ boolean run.hasInput ++
    if run.hasInput then inputForm run.input else []

/-- The bytes that the fingerprint is computed from. -/
def jobStream (job : EmulationJob) (imageContentHash : UInt64)
    (callSummaries : Vec EmuCallSummary) : Bytes :=
  leU64 0x5649594a4f424631 ++ leU64 imageContentHash ++ functionForm job.function ++
    configForm job.config ++ counted summaryForm callSummaries.toList ++
    counted runForm job.runs.toList

def viyEmulationJobFingerprint (job : EmulationJob) (imageContentHash : UInt64)
    (callSummaries : Vec EmuCallSummary) : UInt64 :=
  (jobStream job imageContentHash callSummaries).foldl hashByte kFnvOffset

/-! ## The parts -/

theorem int_append_eq {a b : Int32} {r s : Bytes} : int a ++ r = int b ++ s ↔ a = b ∧ r = s := by
  rw [int, int, leU64_append_eq]
  refine and_congr_left fun _ => ⟨fun h => ?_, fun h => h ▸ rfl⟩
  have hbits : a.toInt64 = b.toInt64 := Int64.toBitVec_inj.1 (congrArg UInt64.toBitVec h)
  have hint := congrArg Int64.toInt hbits
  rw [Int32.toInt_toInt64, Int32.toInt_toInt64] at hint
  exact Int32.toInt_inj.1 hint

theorem delimits_config : Delimits configForm Eq := by
  intro a b r s
  simp only [configForm, List.flatten_cons, List.flatten_nil, List.append_assoc, List.nil_append,
    leU64_append_eq, boolean_append_eq, int_append_eq, ViyConfig.ext_iff, and_assoc]

theorem summaryNumber_injective {a b : SummaryKind} (h : summaryNumber a = summaryNumber b) :
    a = b := by
  revert h
  cases a <;> cases b <;> decide

theorem delimits_summary : Delimits summaryForm Eq := by
  intro a b r s
  rw [summaryForm, summaryForm, List.append_assoc, List.append_assoc, leU64_append_eq,
    delimits_byte, and_assoc.symm]
  refine and_congr_left fun _ => ⟨?_, fun h => h ▸ ⟨rfl, rfl⟩⟩
  rintro ⟨haddress, hkind⟩
  cases a
  cases b
  cases haddress
  cases summaryNumber_injective hkind
  rfl

theorem delimits_arg : Delimits argForm Eq := by
  intro a b r s
  simp only [argForm, List.append_assoc, leU64_append_eq, UInt32.toUInt64_inj, ArgOverride.ext_iff,
    and_assoc]

theorem delimits_register : Delimits registerForm Eq := by
  have hreg : ∀ {a b : Int32}, a.toUInt32 = b.toUInt32 ↔ a = b :=
    fun {_ _} => ⟨fun h => Int32.toBitVec_inj.1 (congrArg UInt32.toBitVec h), fun h => h ▸ rfl⟩
  intro a b r s
  simp only [registerForm, List.append_assoc, leU64_append_eq, UInt32.toUInt64_inj, hreg,
    RegisterOverride.ext_iff, and_assoc]

/-- Four lists in a row, each with its length. -/
theorem delimits_input : Delimits inputForm Eq := by
  have hwords : ∀ {v w : Vec UInt64} {r s : Bytes},
      counted leU64 v.toList ++ r = counted leU64 w.toList ++ s ↔ v = w ∧ r = s :=
    @(delimits_leU64.counted_eq)
  have hargs : ∀ {v w : Vec ArgOverride} {r s : Bytes},
      counted argForm v.toList ++ r = counted argForm w.toList ++ s ↔ v = w ∧ r = s :=
    @(delimits_arg.counted_eq)
  have hregisters : ∀ {v w : Vec RegisterOverride} {r s : Bytes},
      counted registerForm v.toList ++ r = counted registerForm w.toList ++ s ↔ v = w ∧ r = s :=
    @(delimits_register.counted_eq)
  intro a b r s
  simp only [inputForm, List.append_assoc, leU64_append_eq, UInt32.toUInt64_inj, hwords, hargs,
    hregisters]
  rw [EmuInput.ext_iff]
  tauto

/-- Two requests ask for the same run; an input that is not used may differ. -/
structure SameRun (a b : EmulationRunRequest) : Prop where
  seed : a.seed = b.seed
  runId : a.runId = b.runId
  recordPcs : a.recordPcs = b.recordPcs
  hasInput : a.hasInput = b.hasInput
  input : a.hasInput = true → a.input = b.input

theorem delimits_run : Delimits runForm SameRun := by
  intro a b r s
  simp only [runForm, List.append_assoc, leU64_append_eq, boolean_append_eq, UInt32.toUInt64_inj]
  constructor
  · rintro ⟨hseed, hrunId, hrecordPcs, hhas, hrest⟩
    rw [← hhas] at hrest
    by_cases hinput : a.hasInput = true
    · rw [if_pos hinput, if_pos hinput, delimits_input] at hrest
      exact ⟨⟨hseed, hrunId, hrecordPcs, hhas, fun _ => hrest.1⟩, hrest.2⟩
    · rw [if_neg hinput, if_neg hinput] at hrest
      exact ⟨⟨hseed, hrunId, hrecordPcs, hhas, fun h => absurd h hinput⟩, hrest⟩
  · rintro ⟨⟨hseed, hrunId, hrecordPcs, hhas, hinput⟩, rfl⟩
    refine ⟨hseed, hrunId, hrecordPcs, hhas, ?_⟩
    rw [← hhas]
    by_cases h : a.hasInput = true
    · rw [if_pos h, if_pos h, hinput h]
    · rw [if_neg h, if_neg h]

/-- Two functions at one place with chunks of one layout. -/
structure SameFunction (f g : FuncRange) : Prop where
  start : f.start = g.start
  end_ : f.end_ = g.end_
  byteHash : f.byteHash = g.byteHash
  chunks : List.Forall₂ (fun c d : FuncChunk =>
    c.start - f.start = d.start - g.start ∧ c.size = d.size) f.chunks.toList g.chunks.toList

theorem delimits_function : Delimits functionForm SameFunction := by
  intro f g r s
  simp only [functionForm, List.append_assoc, leU64_append_eq]
  have hchunk : ∀ start : UInt64, Delimits
      (fun c : FuncChunk => leU64 (c.start - start) ++ leU64 c.size)
        fun c d => c.start - start = d.start - start ∧ c.size = d.size :=
    fun start => (delimits_leU64.comap fun c : FuncChunk => c.start - start).append
      (delimits_leU64.comap FuncChunk.size)
  constructor
  · rintro ⟨hstart, hend, hhash, hrest⟩
    rw [← hstart, (hchunk f.start).counted] at hrest
    refine ⟨⟨hstart, hend, hhash, ?_⟩, hrest.2⟩
    rw [← hstart]
    exact hrest.1
  · rintro ⟨⟨hstart, hend, hhash, hchunks⟩, hrest⟩
    rw [← hstart] at hchunks ⊢
    exact ⟨rfl, hend, hhash, (hchunk f.start).counted.2 ⟨hchunks, hrest⟩⟩

/-! ## Whole jobs -/

/-- The jobs agree in all that the fingerprint is for. -/
structure SameJob (job job' : EmulationJob) (imageContentHash imageContentHash' : UInt64)
    (callSummaries callSummaries' : Vec EmuCallSummary) : Prop where
  image : imageContentHash = imageContentHash'
  function : SameFunction job.function job'.function
  config : job.config = job'.config
  summaries : callSummaries = callSummaries'
  runs : List.Forall₂ SameRun job.runs.toList job'.runs.toList

/-- **Fingerprints.** The fingerprint is FNV over the stream of the job. The stream determines the
job, and nothing that it does not say goes into it. -/
theorem job_streams_eq_iff (job job' : EmulationJob) (imageContentHash imageContentHash' : UInt64)
    (callSummaries callSummaries' : Vec EmuCallSummary) :
    viyEmulationJobFingerprint job imageContentHash callSummaries =
        (jobStream job imageContentHash callSummaries).foldl hashByte kFnvOffset ∧
    (jobStream job imageContentHash callSummaries =
        jobStream job' imageContentHash' callSummaries' ↔
      SameJob job job' imageContentHash imageContentHash' callSummaries callSummaries') := by
  refine ⟨rfl, ?_⟩
  have hruns : counted runForm job.runs.toList = counted runForm job'.runs.toList ↔
      List.Forall₂ SameRun job.runs.toList job'.runs.toList :=
    delimits_run.counted.eq_iff
  simp only [jobStream, List.append_assoc, leU64_append_eq, true_and]
  rw [delimits_function, delimits_config, delimits_summary.counted_eq, hruns]
  constructor
  · rintro ⟨himage, hfunction, hconfig, hsummaries, hruns⟩
    exact ⟨himage, hfunction, hconfig, hsummaries, hruns⟩
  · rintro ⟨himage, hfunction, hconfig, hsummaries, hruns⟩
    exact ⟨himage, hfunction, hconfig, hsummaries, hruns⟩

end Viy.Workers.Fingerprint
