import Viy.Lifecycle.BeginEpoch

/-!
# Cache hits and the generation of the evidence behind them

A function that hits the cache is not run again, so its evidence is that of the job that set the
entry. It is active only under the generation it was recorded with. The cache is kept longer than
the identities: a function that is absent for an epoch, or whose fingerprint changes and changes
back without a completed job in between, comes back with a fresh generation and a hit.

`Sweep.Coherent` follows a cache entry through the epochs since its evidence was recorded.
-/

namespace Viy

open Analysis

/-! ## What a trace says -/

section Trace

variable {contentOf byteOf : UInt64 → UInt64}

/-- The epoch finds a function as it was when the job with a fingerprint recorded its evidence. -/
def Epoch.Keeps (e : Epoch contentOf byteOf) (start fingerprint : UInt64) : Prop :=
  e.contentHash = contentOf fingerprint ∧
    (∃ f ∈ e.entries, f.start = start ∧ f.byteHash = byteOf fingerprint) ∧
    (e.dynamic = true → e.fingerprint start = fingerprint)

/-- The generation of the evidence that the last job with runs recorded for a function. -/
def recordedGeneration (start : UInt64) : List (SweepEvent contentOf byteOf) → Option UInt64
  | [] => none
  | .began _ :: trace => recordedGeneration start trace
  | .recorded start' generation :: trace =>
    if start' = start then some generation else recordedGeneration start trace

/-- The epochs that began since then. -/
def epochsSince (start : UInt64) :
    List (SweepEvent contentOf byteOf) → List (Epoch contentOf byteOf)
  | [] => []
  | .began e :: trace => e :: epochsSince start trace
  | .recorded start' _ :: trace => if start' = start then [] else epochsSince start trace

end Trace

namespace Sweep

section Coherence

variable {contentOf byteOf : UInt64 → UInt64} {trace : List (SweepEvent contentOf byteOf)}
  {e : Epoch contentOf byteOf} {s s' : Sweep} {start fingerprint g : UInt64}

/-- The image holds a function as a fingerprint describes it, under a generation. -/
def Current (contentOf byteOf : UInt64 → UInt64) (s : Sweep) (start fingerprint g : UInt64) :
    Prop :=
  s.priorContentHash = some (contentOf fingerprint) ∧
    ∃ f ∈ s.entries, f.start = start ∧ f.byteHash = byteOf fingerprint ∧ f.generation = g

/-- A cached function stays current exactly through epochs that keep it. -/
theorem Begun.current_iff (h : Begun s e s') (hmatches : Matches s.entries s.identities)
    (hg : g ∈ s.allocator.used) (hcache : s.dynamicCache.find start = some fingerprint) :
    s'.Current contentOf byteOf start fingerprint g ↔
      e.Keeps start fingerprint ∧ s.Current contentOf byteOf start fingerprint g := by
  obtain ⟨generation, hentries, hgiven⟩ := h.entries
  unfold Current Epoch.Keeps
  rw [h.priorContentHash, hentries, Option.some.injEq]
  simp only [List.mem_map, exists_exists_and_eq_and]
  constructor
  · rintro ⟨hcontent, f, hf, rfl, hhash, hgeneration⟩
    -- a used generation is not fresh, so it was kept
    have hkept : s.kept e f = some g := by
      have hf' := hgiven f hf
      rw [hgeneration] at hf'
      cases hkept : s.kept e f with
      | some g' =>
        rw [hkept] at hf'
        exact congrArg some (show g = g' from hf').symm
      | none =>
        rw [hkept] at hf'
        exact absurd hg hf'.2
    obtain ⟨hdynamic, hidentity⟩ := kept_eq_some.1 hkept
    obtain ⟨hprior, old, hold, hstart, hbytes, hold'⟩ := (keptIdentity_eq_some hmatches).1 hidentity
    refine ⟨⟨hcontent, ⟨f, hf, rfl, hhash⟩, fun hd => ?_⟩, hcontent ▸ hprior, old, hold, hstart,
      hbytes.trans hhash, hold'⟩
    exact (Option.some.inj (hcache.symm.trans (hdynamic hd))).symm
  · rintro ⟨⟨hcontent, ⟨f, hf, rfl, hhash⟩, hdynamic⟩, hprior, old, hold, hstart, hbytes, hold'⟩
    refine ⟨hcontent, f, hf, rfl, hhash, ?_⟩
    have hkept : s.kept e f = some g := by
      refine kept_eq_some.2 ⟨fun hd => ?_, (keptIdentity_eq_some hmatches).2
        ⟨hcontent ▸ hprior, old, hold, hstart, hbytes.trans hhash.symm, hold'⟩⟩
      rw [hcache, hdynamic hd]
    have hf' := hgiven f hf
    rw [hkept] at hf'
    exact hf'

/-- A cache entry has evidence behind it, whose generation is current exactly if every epoch since
then kept the function. -/
def CacheOk (trace : List (SweepEvent contentOf byteOf)) (s : Sweep) : Prop :=
  ∀ start fingerprint, s.dynamicCache.find start = some fingerprint →
    ∃ g ∈ s.allocator.used, recordedGeneration start trace = some g ∧
      ((∀ e ∈ epochsSince start trace, e.Keeps start fingerprint) ↔
        s.Current contentOf byteOf start fingerprint g)

/-- A submitted job is that of its entry, and a hit is still in the cache. -/
def JobOk (s : Sweep) (job : WorkerJobInfo) : Prop :=
  ∃ f, s.entries[job.index]? = some f ∧ job.fingerprint = s.fingerprint f.start ∧
    (job.cacheHit = true → s.dynamicCache.find f.start = some job.fingerprint)

/-- The invariant of a run. -/
structure Coherent (trace : List (SweepEvent contentOf byteOf)) (s : Sweep) : Prop where
  distinct : (s.entries.map FuncRange.start).Nodup
  identities : Matches s.entries s.identities
  determined : ∀ f ∈ s.entries, s.priorContentHash = some (contentOf (s.fingerprint f.start)) ∧
    f.byteHash = byteOf (s.fingerprint f.start)
  used : ∀ f ∈ s.entries, f.generation ∈ s.allocator.used
  cache : CacheOk trace s
  jobs : ∀ job ∈ s.jobs, job.index < s.next ∧ s.JobOk job
  indices : (s.jobs.map WorkerJobInfo.index).Nodup

theorem Coherent.construct (allocator : EvidenceGenerationAllocator) :
    Coherent ([] : List (SweepEvent contentOf byteOf)) { allocator := allocator } where
  distinct := List.nodup_nil
  identities := by
    intro start identity
    simp
  determined := by simp
  used := by simp
  cache := by
    intro start fingerprint h
    simp at h
  jobs := by simp
  indices := List.nodup_nil

theorem Coherent.beginEpoch (hidentities : Matches s.entries s.identities)
    (hused : ∀ f ∈ s.entries, f.generation ∈ s.allocator.used) (hcache : CacheOk trace s)
    (h : s.beginEpoch e = some s') : Coherent (.began e :: trace) s' := by
  have hbegun := beginEpoch_begun h
  obtain ⟨generation, hentries, hgiven⟩ := hbegun.entries
  constructor
  case distinct =>
    rw [hentries, List.map_map]
    exact e.distinct
  case identities => exact hbegun.identities
  case determined =>
    rw [hentries, hbegun.priorContentHash, hbegun.fingerprint]
    intro f hf
    obtain ⟨f₀, hf₀, rfl⟩ := List.mem_map.1 hf
    obtain ⟨hcontent, hbytes⟩ := e.determined f₀ hf₀
    exact ⟨congrArg some hcontent.symm, hbytes.symm⟩
  case used =>
    rw [hentries]
    intro f hf
    obtain ⟨f₀, hf₀, rfl⟩ := List.mem_map.1 hf
    have hf' := hgiven f₀ hf₀
    cases hkept : s.kept e f₀ with
    | none =>
      rw [hkept] at hf'
      exact hf'.1
    | some g =>
      rw [hkept] at hf'
      obtain ⟨-, old, hold, -, -, rfl⟩ :=
        (keptIdentity_eq_some hidentities).1 (kept_eq_some.1 hkept).2
      rw [show generation f₀ = old.generation from hf']
      exact hbegun.used (hused old hold)
  case cache =>
    intro start fingerprint hfind
    rw [hbegun.dynamicCache] at hfind
    obtain ⟨g, hg, hrecorded, hiff⟩ := hcache start fingerprint hfind
    refine ⟨g, hbegun.used hg, hrecorded, ?_⟩
    rw [hbegun.current_iff hidentities hg hfind, ← hiff]
    exact List.forall_mem_cons
  case jobs =>
    rw [hbegun.jobs]
    simp
  case indices =>
    rw [hbegun.jobs]
    exact List.nodup_nil

theorem Coherent.submit (hc : Coherent trace s) (h : s.submit = some s') : Coherent trace s' := by
  unfold Sweep.submit at h
  split at h
  · next f _ hf =>
    obtain rfl := Option.some.inj h
    refine { hc with jobs := fun job hjob => ?_, indices := ?_ }
    · rcases List.mem_append.1 hjob with hjob | hjob
      · obtain ⟨hlt, hok⟩ := hc.jobs job hjob
        exact ⟨Nat.lt_succ_of_lt hlt, hok⟩
      · obtain rfl := List.mem_singleton.1 hjob
        exact ⟨Nat.lt_succ_self _, f, hf, rfl, fun hhit => beq_iff_eq.1 hhit⟩
    · rw [List.map_append, List.nodup_append]
      refine ⟨hc.indices, List.nodup_singleton _, ?_⟩
      rintro i hi j hj rfl
      obtain ⟨job, hjob, rfl⟩ := List.mem_map.1 hi
      have hlt := (hc.jobs job hjob).1
      have heq : job.index = s.next := by simpa using hj
      omega
  · exact nomatch h

theorem index_unique (hdistinct : (s.entries.map FuncRange.start).Nodup) {i j : ℕ}
    {f f' : FuncRange} (hi : s.entries[i]? = some f) (hj : s.entries[j]? = some f')
    (hstart : f.start = f'.start) : i = j := by
  have hlt : i < (s.entries.map FuncRange.start).length := by
    rw [List.length_map]
    exact (List.getElem?_eq_some_iff.1 hi).1
  refine (List.getElem?_inj hlt hdistinct).1 ?_
  rw [List.getElem?_map, List.getElem?_map, hi, hj, Option.map_some, Option.map_some, hstart]

/-- A completed hit puts back what the cache holds. -/
theorem find_upsert_of_hit {cache : Cxx.Map Cxx.Comparator.u64 UInt64}
    (h : cache.find start = some fingerprint) :
    cache.upsert start (fun _ => fingerprint) = cache := by
  refine Cxx.Map.ext_find fun k => ?_
  rw [Cxx.Map.find_upsert]
  split_ifs with heq
  · rw [← heq, h]
  · rfl

/-- Caching a completed job: no epoch began since it recorded its evidence. -/
theorem CacheOk.record (hc : Coherent trace s) {f : FuncRange} (hf : f ∈ s.entries)
    (jobs : List WorkerJobInfo) :
    CacheOk (.recorded f.start f.generation :: trace) { s with
      jobs := jobs
      dynamicCache := s.dynamicCache.upsert f.start fun _ => s.fingerprint f.start } := by
  intro start fingerprint hfind
  rw [Cxx.Map.find_upsert] at hfind
  by_cases hstart : f.start = start
  · subst hstart
    obtain rfl : s.fingerprint f.start = fingerprint := by simpa using hfind
    obtain ⟨hcontent, hbytes⟩ := hc.determined f hf
    have hsince : epochsSince f.start (.recorded f.start f.generation :: trace) = [] := if_pos rfl
    refine ⟨f.generation, hc.used f hf, if_pos rfl, ?_⟩
    rw [hsince]
    exact iff_of_true (by simp) ⟨hcontent, f, hf, rfl, hbytes, rfl⟩
  · rw [if_neg hstart] at hfind
    obtain ⟨g, hg, hrecorded, hiff⟩ := hc.cache start fingerprint hfind
    have hsince : epochsSince start (.recorded f.start f.generation :: trace) =
        epochsSince start trace := if_neg hstart
    refine ⟨g, hg, (if_neg hstart).trans hrecorded, ?_⟩
    rw [hsince]
    exact hiff

theorem Coherent.deliver (hc : Coherent trace s) {completed : Bool}
    (h : s.deliver completed = some s') : Coherent (s.recorded completed ++ trace) s' := by
  unfold Sweep.deliver at h
  unfold Sweep.recorded
  cases hjobs : s.jobs with
  | nil =>
    rw [hjobs] at h
    exact nomatch h
  | cons job jobs =>
    have hjob := hc.jobs job (by rw [hjobs]; exact List.mem_cons_self)
    obtain ⟨hlt, f, hf, hfingerprint, hhit⟩ := hjob
    have hindices := hc.indices
    rw [hjobs, List.map_cons, List.nodup_cons] at hindices
    have hrest : ∀ j ∈ jobs, j.index < s.next ∧ s.JobOk j := fun j hj =>
      hc.jobs j (by rw [hjobs]; exact List.mem_cons_of_mem _ hj)
    rw [hjobs] at h
    simp only [hf] at h ⊢
    obtain rfl := Option.some.inj h
    cases completed with
    | false => exact { hc with jobs := hrest, indices := hindices.2 }
    | true =>
      cases hcacheHit : job.cacheHit with
      | true =>
        rw [if_pos rfl, find_upsert_of_hit (hhit hcacheHit)]
        exact { hc with jobs := hrest, indices := hindices.2 }
      | false =>
        rw [if_pos rfl, hfingerprint]
        refine { hc with
          cache := CacheOk.record hc (List.mem_of_getElem? hf) jobs
          jobs := fun j hj => ?_
          indices := hindices.2 }
        -- another job has another start, so its hit stays
        obtain ⟨hlt', f', hf', hfingerprint', hhit'⟩ := hrest j hj
        refine ⟨hlt', f', hf', hfingerprint', fun hcacheHit' => ?_⟩
        have hne : f.start ≠ f'.start := by
          intro heq
          have hindex := index_unique hc.distinct hf hf' heq
          exact hindices.1 (hindex ▸ List.mem_map_of_mem hj)
        rw [Cxx.Map.find_upsert, if_neg hne]
        exact hhit' hcacheHit'

/-- The invariant holds along every run. -/
theorem Run.coherent (h : Run trace s) : Coherent trace s := by
  induction h with
  | construct history => exact Coherent.construct _
  | epoch e _ hbegin ih => exact Coherent.beginEpoch ih.identities ih.used ih.cache hbegin
  | @restart trace s s' e _ hbegin ih =>
    have hidentities : Matches s.restart.entries s.restart.identities := ih.identities
    have hcache : CacheOk trace s.restart := by
      intro start fingerprint hfind
      simp [Sweep.restart] at hfind
    exact Coherent.beginEpoch hidentities ih.used hcache hbegin
  | submit _ hsubmit ih => exact ih.submit hsubmit
  | deliver completed _ hdeliver ih => exact ih.deliver hdeliver

/-! ## Activity -/

theorem find_policy_functionGenerations (s : Sweep) (providerFunctions : Finset UInt64) :
    (s.policy providerFunctions).functionGenerations.find start =
      (s.identities.find start).map FunctionEvidenceIdentity.generation := by
  have h := Cxx.Map.find_foldl_emplace_filterMap s.identities
    (fun identity => some identity.generation) start
  rw [policy, ← List.filterMap_eq_map]
  refine Eq.trans h ?_
  cases s.identities.find start <;> rfl

end Coherence

/-- A fact that the emulator recorded for a function under a generation. -/
structure EmulationFact (start generation : UInt64) (fact : AnalysisFact) : Prop where
  producer : fact.evidence.producer = Wire.text "viy.rax.emulator"
  proof : fact.evidence.proof = .observed
  functionStart : fact.evidence.scope.functionStart = some start
  generation : fact.evidence.scope.generation = generation

theorem EmulationFact.isActive_iff {start generation : UInt64} {fact : AnalysisFact}
    (h : EmulationFact start generation fact) (policy : ActiveEvidencePolicy) :
    policy.isActive fact = true ↔ policy.functionGenerations.find start = some generation := by
  have hnative : (Wire.text "viy.rax.emulator" == Wire.text "viy.native.ida") = false := by decide
  have hdeobf : (Wire.text "viy.rax.emulator" == Wire.text "viy.deobf.ida") = false := by decide
  have hproof : (ProofKind.observed == ProofKind.userAsserted) = false := rfl
  simp only [ActiveEvidencePolicy.isActive, h.producer, h.proof, h.functionStart, h.generation,
    hnative, hdeobf, hproof, Bool.or_false, Bool.false_eq_true, if_false]
  cases policy.functionGenerations.find start with
  | none => simp
  | some expected =>
    exact ⟨fun heq => congrArg some (beq_iff_eq.1 heq).symm,
      fun heq => beq_iff_eq.2 (Option.some.inj heq).symm⟩

/-- What a submission appends. -/
theorem submit_eq_some {s s' : Sweep} (h : s.submit = some s') :
    ∃ f, s.entries[s.next]? = some f ∧
      s'.jobs = s.jobs ++ [⟨s.next, s.fingerprint f.start, s.cached f.start⟩] := by
  unfold submit at h
  split at h
  · next f _ hf =>
    obtain rfl := Option.some.inj h
    exact ⟨f, hf, rfl⟩
  · exact nomatch h

/-- **Cache hits.** In every run, a function submitted without runs because of a cache hit has
evidence behind the entry. The function still has the generation of that evidence, and the evidence
is active, exactly if every epoch that began since it was recorded found the function with the same
image, bytes and job. -/
theorem cache_hit_evidence_active_iff {contentOf byteOf : UInt64 → UInt64}
    {trace : List (SweepEvent contentOf byteOf)} {s s' : Sweep} (hrun : Run trace s)
    (hsubmit : s.submit = some s') {job : WorkerJobInfo} (hjob : s'.jobs.getLast? = some job)
    (hhit : job.cacheHit = true) {f : FuncRange} (hf : s.entries[job.index]? = some f)
    (providerFunctions : Finset UInt64) :
    ∃ g, recordedGeneration f.start trace = some g ∧
      ((f.generation = g ∧ ∀ fact, EmulationFact f.start g fact →
          (s.policy providerFunctions).isActive fact = true) ↔
        ∀ e ∈ epochsSince f.start trace, e.Keeps f.start job.fingerprint) := by
  have hc := hrun.coherent
  obtain ⟨f', hf', hjobs⟩ := submit_eq_some hsubmit
  rw [hjobs, List.getLast?_concat, Option.some.injEq] at hjob
  subst hjob
  obtain rfl : f' = f := Option.some.inj (hf'.symm.trans hf)
  have hfind : s.dynamicCache.find f'.start = some (s.fingerprint f'.start) := beq_iff_eq.1 hhit
  have hmem : f' ∈ s.entries := List.mem_of_getElem? hf
  obtain ⟨hcontent, hbytes⟩ := hc.determined f' hmem
  obtain ⟨g, -, hrecorded, hiff⟩ := hc.cache _ _ hfind
  refine ⟨g, hrecorded, ?_⟩
  rw [hiff]
  constructor
  · rintro ⟨hgeneration, -⟩
    exact ⟨hcontent, f', hmem, rfl, hbytes, hgeneration⟩
  · rintro ⟨-, f₀, hmem₀, hstart, -, rfl⟩
    obtain rfl := eq_of_start_eq hc.distinct hmem₀ hmem hstart
    refine ⟨rfl, fun fact hfact => ?_⟩
    rw [hfact.isActive_iff, find_policy_functionGenerations,
      (hc.identities _ _).2 ⟨f₀, hmem, rfl, rfl⟩]
    rfl

/-- An epoch with one function, in an image and with bytes that never change. -/
def oneFunctionEpoch (start : UInt64) : Epoch id id where
  contentHash := 7
  entries := [{ start := start, byteHash := 7 }]
  fingerprint := fun _ => 7
  dynamic := true
  distinct := List.nodup_singleton _
  determined := by simp

/-- Begin one more epoch. -/
def beginNext (run : List (SweepEvent id id) × Sweep) (start : UInt64) :
    Option (List (SweepEvent id id) × Sweep) := do
  let s ← run.2.beginEpoch (oneFunctionEpoch start)
  return (.began (oneFunctionEpoch start) :: run.1, s)

/-- A function is emulated in one epoch; the next epochs have the functions at `starts`. -/
def emulatedOnce (starts : List UInt64) : Option (List (SweepEvent id id) × Sweep) := do
  let (trace, s) ← beginNext
    ([], { allocator := EvidenceGenerationAllocator.seed EvidenceStore.empty }) 0x1000
  let s ← s.submit
  let s' ← s.deliver true
  starts.foldlM beginNext (s.recorded true ++ trace, s')

theorem beginNext_eq_some {run run' : List (SweepEvent id id) × Sweep} {start : UInt64}
    (h : beginNext run start = some run') :
    run'.1 = .began (oneFunctionEpoch start) :: run.1 ∧
      run.2.beginEpoch (oneFunctionEpoch start) = some run'.2 := by
  unfold beginNext at h
  obtain ⟨s, hs, hresult⟩ := Option.bind_eq_some_iff.1 h
  obtain rfl := Option.some.inj hresult
  exact ⟨rfl, hs⟩

theorem Run.beginNext {run run' : List (SweepEvent id id) × Sweep} {start : UInt64}
    (hrun : Run run.1 run.2) (h : Sweep.beginNext run start = some run') : Run run'.1 run'.2 := by
  obtain ⟨htrace, hbegin⟩ := beginNext_eq_some h
  rw [htrace]
  exact hrun.epoch _ hbegin

theorem Run.foldlM_beginNext :
    ∀ {starts : List UInt64} {run run' : List (SweepEvent id id) × Sweep},
    Run run.1 run.2 → starts.foldlM Sweep.beginNext run = some run' → Run run'.1 run'.2
  | [], run, run', hrun, h => by
    obtain rfl := Option.some.inj h
    exact hrun
  | start :: starts, run, run', hrun, h => by
    rw [List.foldlM_cons] at h
    obtain ⟨next, hnext, h⟩ := Option.bind_eq_some_iff.1 h
    exact Run.foldlM_beginNext (hrun.beginNext hnext) h

theorem run_emulatedOnce {starts : List UInt64} {run : List (SweepEvent id id) × Sweep}
    (h : emulatedOnce starts = some run) : Run run.1 run.2 := by
  unfold emulatedOnce at h
  obtain ⟨⟨trace, s₁⟩, hs₁, h⟩ := Option.bind_eq_some_iff.1 h
  obtain ⟨s₂, hs₂, h⟩ := Option.bind_eq_some_iff.1 h
  obtain ⟨s₃, hs₃, h⟩ := Option.bind_eq_some_iff.1 h
  have hbegin : Run trace s₁ := Run.beginNext (Run.construct _) hs₁
  exact Run.foldlM_beginNext ((hbegin.submit hs₂).deliver true hs₃) h

/-- An observation of the emulator for a function. -/
def emulationFact (start generation : UInt64) : AnalysisFact :=
  { sampleFact with
    evidence := { producer := Wire.text "viy.rax.emulator", method := Wire.text "trace",
                  proof := .observed,
                  scope := { functionStart := some start, generation := generation } } }

theorem mem_epochsSince {start : UInt64} {e : Epoch id id} :
    ∀ {trace : List (SweepEvent id id)}, e ∈ epochsSince start trace → .began e ∈ trace
  | .began e' :: trace, h => by
    rcases List.mem_cons.1 h with rfl | h
    · exact List.mem_cons_self
    · exact List.mem_cons_of_mem _ (mem_epochsSince h)
  | .recorded start' g :: trace, h => by
    unfold epochsSince at h
    split_ifs at h
    · exact nomatch h
    · exact List.mem_cons_of_mem _ (mem_epochsSince h)

theorem began_not_mem_recorded (s : Sweep) (completed : Bool) (e : Epoch id id) :
    .began e ∉ (s.recorded completed : List (SweepEvent id id)) := by
  unfold recorded
  split
  · exact List.not_mem_nil
  · split <;> simp

/-- The epochs of a run of `emulatedOnce` are of one kind. -/
theorem began_mem_emulatedOnce {run : List (SweepEvent id id) × Sweep} {e : Epoch id id}
    (h : emulatedOnce [0x1000] = some run) (hmem : .began e ∈ run.1) :
    e = oneFunctionEpoch 0x1000 := by
  unfold emulatedOnce at h
  obtain ⟨⟨trace, s₁⟩, hs₁, h⟩ := Option.bind_eq_some_iff.1 h
  obtain ⟨s₂, hs₂, h⟩ := Option.bind_eq_some_iff.1 h
  obtain ⟨s₃, hs₃, h⟩ := Option.bind_eq_some_iff.1 h
  rw [List.foldlM_cons] at h
  obtain ⟨next, hnext, h⟩ := Option.bind_eq_some_iff.1 h
  obtain rfl := Option.some.inj h
  have htrace : trace = [.began (oneFunctionEpoch 0x1000)] := (beginNext_eq_some hs₁).1
  have hnot := began_not_mem_recorded s₂ true e
  rw [(beginNext_eq_some hnext).1, htrace] at hmem
  simpa [hnot] using hmem

/-- What a submission shows: the generation of the function, the job, and the generation of the
evidence behind it. -/
def submission (run : List (SweepEvent id id) × Sweep) :
    Option ((UInt64 × UInt64) × (UInt64 × Bool) × Option UInt64) := do
  let s ← run.2.submit
  let job ← s.jobs.getLast?
  let f ← run.2.entries[job.index]?
  return ((f.start, f.generation), (job.fingerprint, job.cacheHit),
    recordedGeneration f.start run.1)

theorem submission_eq_some {run : List (SweepEvent id id) × Sweep}
    {shown : (UInt64 × UInt64) × (UInt64 × Bool) × Option UInt64}
    (h : submission run = some shown) :
    ∃ s' job f, run.2.submit = some s' ∧ s'.jobs.getLast? = some job ∧
      run.2.entries[job.index]? = some f ∧ (f.start, f.generation) = shown.1 ∧
        (job.fingerprint, job.cacheHit) = shown.2.1 ∧
          recordedGeneration f.start run.1 = shown.2.2 := by
  obtain ⟨s', hs', h⟩ := Option.bind_eq_some_iff.1 h
  obtain ⟨job, hjob, h⟩ := Option.bind_eq_some_iff.1 h
  obtain ⟨f, hf, h⟩ := Option.bind_eq_some_iff.1 h
  obtain rfl := Option.some.inj h
  exact ⟨s', job, f, hs', hjob, hf, rfl, rfl, rfl⟩

theorem present_function_keeps_evidence : ∃ run s' job f, emulatedOnce [0x1000] = some run ∧
    run.2.submit = some s' ∧ s'.jobs.getLast? = some job ∧ job.cacheHit = true ∧
      run.2.entries[job.index]? = some f ∧ ∃ g, recordedGeneration f.start run.1 = some g ∧
        f.generation = g ∧ ∀ fact, EmulationFact f.start g fact →
          (run.2.policy ∅).isActive fact = true := by
  have hcomputed : (emulatedOnce [0x1000]).bind submission =
      some ((0x1000, 3), (7, true), some 3) := by decide +kernel
  obtain ⟨run, hrun, hsubmission⟩ := Option.bind_eq_some_iff.1 hcomputed
  obtain ⟨s', job, f, hsubmit, hjob, hf, hf', hjob', -⟩ := submission_eq_some hsubmission
  obtain ⟨hstart, -⟩ := Prod.mk.inj hf'
  obtain ⟨hfingerprint, hhit⟩ := Prod.mk.inj hjob'
  obtain ⟨g, hrecorded, hiff⟩ :=
    cache_hit_evidence_active_iff (run_emulatedOnce hrun) hsubmit hjob hhit hf ∅
  refine ⟨run, s', job, f, hrun, hsubmit, hjob, hhit, hf, g, hrecorded, hiff.2 fun e he => ?_⟩
  obtain rfl := began_mem_emulatedOnce hrun (mem_epochsSince he)
  rw [hstart, hfingerprint]
  exact ⟨rfl, ⟨_, List.mem_cons_self, rfl, rfl⟩, fun _ => rfl⟩

/-- A function that is absent for one epoch comes back with a cache hit and a fresh generation: its
evidence is not active, and it is not run again. -/
theorem absent_function_loses_evidence : ∃ run s' job f,
    emulatedOnce [0x2000, 0x1000] = some run ∧ Run run.1 run.2 ∧
      run.2.submit = some s' ∧ s'.jobs.getLast? = some job ∧ job.cacheHit = true ∧
        run.2.entries[job.index]? = some f ∧ recordedGeneration f.start run.1 = some 3 ∧
          f.generation = 7 ∧ EmulationFact f.start 3 (emulationFact f.start 3) ∧
            (run.2.policy ∅).isActive (emulationFact f.start 3) = false := by
  have hcomputed : (emulatedOnce [0x2000, 0x1000]).bind submission =
      some ((0x1000, 7), (7, true), some 3) := by decide +kernel
  have hinactive : (emulatedOnce [0x2000, 0x1000]).map (fun run =>
      (run.2.policy ∅).isActive (emulationFact 0x1000 3)) = some false := by decide +kernel
  obtain ⟨run, hrun, hsubmission⟩ := Option.bind_eq_some_iff.1 hcomputed
  rw [hrun, Option.map_some, Option.some.injEq] at hinactive
  obtain ⟨s', job, f, hsubmit, hjob, hf, hf', hjob', hrecorded⟩ := submission_eq_some hsubmission
  obtain ⟨hstart, hgeneration⟩ := Prod.mk.inj hf'
  obtain ⟨-, hhit⟩ := Prod.mk.inj hjob'
  exact ⟨run, s', job, f, hrun, run_emulatedOnce hrun, hsubmit, hjob, hhit, hf, hrecorded,
    hgeneration, ⟨rfl, rfl, rfl, rfl⟩, hstart ▸ hinactive⟩

end Sweep

end Viy
