import Viy.Lifecycle.Sweep

/-!
# The begin of an epoch

`beginEpoch_begun` says what `begin_epoch` does to the generations: a function keeps its own if the
image and its bytes are as before and, with workers, its job is cached; otherwise it gets one that
was never used. The identities are those of the entries after both passes.
-/

namespace Viy

open Analysis

namespace Sweep

/-! ## Identities -/

/-- The identities are those of the entries. -/
def Matches (entries : List FuncRange) (identities : Identities) : Prop :=
  ∀ start identity, identities.find start = some identity ↔
    ∃ f ∈ entries, f.start = start ∧ identity = ⟨f.byteHash, f.generation⟩

theorem eq_of_start_eq {entries : List FuncRange} (h : (entries.map FuncRange.start).Nodup)
    {f g : FuncRange} (hf : f ∈ entries) (hg : g ∈ entries) (heq : f.start = g.start) : f = g :=
  List.inj_on_of_nodup_map h hf hg heq

theorem matches_identitiesOf {entries : List FuncRange}
    (h : (entries.map FuncRange.start).Nodup) : Matches entries (identitiesOf entries) := by
  intro start identity
  rw [identitiesOf, Cxx.Map.find_foldl_emplace, Cxx.Map.find_empty, Option.none_or, List.find?_map]
  simp only [Option.map_map, Option.map_eq_some_iff, Function.comp_def]
  constructor
  · rintro ⟨f, hf, rfl⟩
    exact ⟨f, List.mem_of_find?_eq_some hf, by simpa using List.find?_some hf, rfl⟩
  · rintro ⟨f, hf, hstart, rfl⟩
    have hsome : (entries.find? fun f => decide (f.start = start)).isSome := by
      rw [List.find?_isSome]
      exact ⟨f, hf, by simpa using hstart⟩
    obtain ⟨g, hg⟩ := Option.isSome_iff_exists.1 hsome
    have hg' : g.start = start := by simpa using List.find?_some hg
    obtain rfl := eq_of_start_eq h (List.mem_of_find?_eq_some hg) hf (hg'.trans hstart.symm)
    exact ⟨g, hg, rfl⟩

theorem find_setGeneration (identities : Identities) (f : FuncRange) (start : UInt64) :
    (setGeneration identities f).find start =
      if f.start = start then (identities.find start).map fun identity =>
        { identity with generation := f.generation } else identities.find start := by
  unfold setGeneration
  split
  · next hnone =>
    split_ifs with heq
    · rw [← heq, hnone]
      rfl
    · rfl
  · next identity hsome =>
    rw [Cxx.Map.find_upsert]
    split_ifs with heq
    · rw [← heq, hsome]
      rfl
    · rfl

/-- The loop of the second pass, seen from one start. -/
theorem find_foldl_setGeneration (skip : UInt64 → Bool) (start : UInt64) :
    ∀ {entries : List FuncRange}, (entries.map FuncRange.start).Nodup → ∀ identities : Identities,
      (entries.foldl (fun identities f =>
        if skip f.start then identities else setGeneration identities f) identities).find start =
      match entries.find? fun f => f.start = start && !skip start with
      | none => identities.find start
      | some f => (identities.find start).map fun identity =>
        { identity with generation := f.generation } := by
  intro entries
  induction entries with
  | nil => intro _ identities; rfl
  | cons f entries ih =>
    intro hnodup identities
    obtain ⟨hnot, hrest⟩ := List.nodup_cons.1 hnodup
    rw [List.foldl_cons, ih hrest, List.find?_cons]
    by_cases hstart : f.start = start
    · -- no later entry has this start
      have hnone : entries.find? (fun f => f.start = start && !skip start) = none := by
        rw [List.find?_eq_none]
        intro g hg hmatch
        have hg' : g.start = start := by
          have := (Bool.and_eq_true _ _ ▸ hmatch).1
          simpa using this
        exact hnot (hstart ▸ hg' ▸ List.mem_map_of_mem hg)
      rw [hnone]
      cases hskip : skip start with
      | true => simp [hstart, hskip]
      | false => simp [hstart, hskip, find_setGeneration]
    · simp only [hstart, decide_false, Bool.false_and]
      have hfind : (if skip f.start = true then identities else setGeneration identities f).find
          start = identities.find start := by
        split_ifs
        · rfl
        · rw [find_setGeneration, if_neg hstart]
      rw [hfind]

theorem map_start_reassign (keep : FuncRange → Option UInt64) (fresh : UInt64)
    (entries : List FuncRange) :
    (entries.map (reassign keep fresh)).map FuncRange.start = entries.map FuncRange.start := by
  rw [List.map_map]
  rfl

/-- The second pass keeps the identities those of the entries. -/
theorem Matches.reassign_jobs {s : Sweep} {fresh : UInt64}
    (hnodup : (s.entries.map FuncRange.start).Nodup) (h : Matches s.entries s.identities) :
    Matches (s.entries.map (reassign s.keptJob fresh))
      ((s.entries.map (reassign s.keptJob fresh)).foldl (fun identities f =>
        if s.cached f.start then identities else setGeneration identities f) s.identities) := by
  have hnodup' : ((s.entries.map (reassign s.keptJob fresh)).map FuncRange.start).Nodup := by
    rwa [map_start_reassign]
  intro start identity
  rw [find_foldl_setGeneration s.cached start hnodup']
  split
  · -- every entry with this start is cached and stays as it is
    next hnone =>
    simp only [h start identity, List.mem_map, exists_exists_and_eq_and]
    refine exists_congr fun f => and_congr_right fun hf => ?_
    show _ ↔ f.start = start ∧ _
    refine and_congr_right fun hstart => ?_
    have hcached : s.cached start = true := by
      have hmatch := List.find?_eq_none.1 hnone _ (List.mem_map_of_mem hf)
      simpa [reassign, hstart] using hmatch
    have hkept : s.keptJob f = some f.generation := by rw [keptJob, hstart, if_pos hcached]
    rw [reassign, hkept]
    rfl
  · next g hg =>
    obtain ⟨f, hf, rfl⟩ := List.mem_map.1 (List.mem_of_find?_eq_some hg)
    have hstart : f.start = start := by
      have hmatch := List.find?_some hg
      rw [Bool.and_eq_true] at hmatch
      exact of_decide_eq_true hmatch.1
    rw [(h start ⟨f.byteHash, f.generation⟩).2 ⟨f, hf, hstart, rfl⟩, Option.map_some]
    constructor
    · intro heq
      obtain rfl := Option.some.inj heq
      exact ⟨_, List.mem_map_of_mem hf, hstart, rfl⟩
    · rintro ⟨g, hg', hgstart, rfl⟩
      obtain ⟨f', hf', rfl⟩ := List.mem_map.1 hg'
      obtain rfl := eq_of_start_eq hnodup hf hf' (hstart.trans hgstart.symm)
      rfl

/-! ## The begin of an epoch -/

section Begin

variable {contentOf byteOf : UInt64 → UInt64} {e : Epoch contentOf byteOf} {s s' : Sweep}

/-- The generation that a function of the epoch keeps, if any. -/
def kept (s : Sweep) (e : Epoch contentOf byteOf) (f : FuncRange) : Option UInt64 :=
  if e.dynamic = true → s.dynamicCache.find f.start = some (e.fingerprint f.start) then
    s.keptIdentity e.contentHash f
  else none

/-- A generation that was kept, or one that is new. -/
def Given (kept : Option UInt64) (old new : Finset UInt64) (generation : UInt64) : Prop :=
  match kept with
  | some g => generation = g
  | none => generation ∈ new ∧ generation ∉ old

theorem Given.mono {kept : Option UInt64} {old new new' : Finset UInt64} {generation : UInt64}
    (h : Given kept old new generation) (hnew : new ⊆ new') : Given kept old new' generation := by
  cases kept with
  | some g => exact h
  | none => exact ⟨hnew h.1, h.2⟩

/-- What `begin_epoch` leaves. -/
structure Begun (s : Sweep) (e : Epoch contentOf byteOf) (s' : Sweep) : Prop where
  jobs : s'.jobs = []
  priorContentHash : s'.priorContentHash = some e.contentHash
  fingerprint : s'.fingerprint = e.fingerprint
  dynamicCache : s'.dynamicCache = s.dynamicCache
  identities : Matches s'.entries s'.identities
  used : s.allocator.used ⊆ s'.allocator.used
  entries : ∃ generation : FuncRange → UInt64,
    s'.entries = e.entries.map (fun f => { f with generation := generation f }) ∧
      ∀ f ∈ e.entries,
        Given (s.kept e f) s.allocator.used s'.allocator.used (generation f)

/-- What both passes have in common. -/
structure Assigned (s : Sweep) (keep : FuncRange → Option UInt64) (fs : List FuncRange)
    (value : UInt64) (s' : Sweep) : Prop where
  jobs : s'.jobs = s.jobs
  fingerprint : s'.fingerprint = s.fingerprint
  dynamicCache : s'.dynamicCache = s.dynamicCache
  identities : Matches s'.entries s'.identities
  used : s.allocator.used ⊆ s'.allocator.used
  entries : s'.entries = fs.map (reassign keep value)
  fresh : ∀ f ∈ fs, keep f = none → value ∈ s'.allocator.used ∧ value ∉ s.allocator.used

theorem assignFunctionGenerations_assigned {contentHash : UInt64} {entries : List FuncRange}
    (hnodup : (entries.map FuncRange.start).Nodup)
    (h : s.assignFunctionGenerations contentHash entries = some s') :
    s'.priorContentHash = some contentHash ∧
      ∃ fresh, Assigned s (s.keptIdentity contentHash) entries fresh s' := by
  obtain ⟨⟨assigned, allocator⟩, hassign, hresult⟩ := Option.bind_eq_some_iff.1 h
  obtain rfl := Option.some.inj hresult
  obtain ⟨hused, fresh, -, rfl, hfresh⟩ :=
    assignGenerations_spec hassign subset_rfl fun hne => absurd rfl hne
  rw [← map_start_reassign] at hnodup
  exact ⟨rfl, fresh, rfl, rfl, rfl, matches_identitiesOf hnodup, hused, rfl, hfresh⟩

theorem assignEmulationGenerations_assigned (hnodup : (s.entries.map FuncRange.start).Nodup)
    (hmatches : Matches s.entries s.identities) (h : s.assignEmulationGenerations = some s') :
    s'.priorContentHash = s.priorContentHash ∧
      ∃ fresh, Assigned s s.keptJob s.entries fresh s' := by
  obtain ⟨⟨assigned, allocator⟩, hassign, hresult⟩ := Option.bind_eq_some_iff.1 h
  obtain rfl := Option.some.inj hresult
  obtain ⟨hused, fresh, -, rfl, hfresh⟩ :=
    assignGenerations_spec hassign subset_rfl fun hne => absurd rfl hne
  exact ⟨rfl, fresh, rfl, rfl, rfl, hmatches.reassign_jobs hnodup, hused, rfl, hfresh⟩

theorem kept_of_not_dynamic (h : e.dynamic = false) (f : FuncRange) :
    s.kept e f = s.keptIdentity e.contentHash f := by
  unfold kept
  rw [if_pos]
  intro htrue
  exact nomatch h.symm.trans htrue

/-- The generation a pass gives to one function. -/
theorem Assigned.generation {keep : FuncRange → Option UInt64} {fs : List FuncRange}
    {value : UInt64} (h : Assigned s keep fs value s') {f : FuncRange} (hf : f ∈ fs) :
    Given (keep f) s.allocator.used s'.allocator.used (reassign keep value f).generation := by
  unfold reassign
  cases hkeep : keep f with
  | some g => rfl
  | none => exact h.fresh f hf hkeep

/-- The generation of the providers changes nothing for the functions. -/
theorem Assigned.provider {keep : FuncRange → Option UInt64} {fs : List FuncRange} {value : UInt64}
    {s₁ s₂ : Sweep} (h : Assigned s keep fs value s₁)
    (hprovider : s₁.allocateProviderGeneration = some s₂) :
    s₂.priorContentHash = s₁.priorContentHash ∧ Assigned s keep fs value s₂ := by
  obtain ⟨⟨provider, a⟩, hallocate, hresult⟩ := Option.bind_eq_some_iff.1 hprovider
  obtain rfl := Option.some.inj hresult
  obtain ⟨-, -, hinsert⟩ := EvidenceGenerationAllocator.allocate_eq_some hallocate
  have hused : s₁.allocator.used ⊆ a.used := by
    rw [hinsert]
    exact Finset.subset_insert _ _
  refine ⟨rfl, h.jobs, h.fingerprint, h.dynamicCache, h.identities, h.used.trans hused, h.entries,
    fun f hf hnone => ?_⟩
  obtain ⟨hmem, hnot⟩ := h.fresh f hf hnone
  exact ⟨hused hmem, hnot⟩

/-- **The begin of an epoch.** A function keeps its generation if the image, its bytes and (with
workers) its job are as before; otherwise it gets one that was never used. -/
theorem beginEpoch_begun (h : s.beginEpoch e = some s') : Begun s e s' := by
  obtain ⟨s₁, hs₁, h⟩ := Option.bind_eq_some_iff.1 h
  obtain ⟨s₂, hs₂, h⟩ := Option.bind_eq_some_iff.1 h
  obtain ⟨hprior, fresh, hfirst⟩ := assignFunctionGenerations_assigned e.distinct hs₁
  obtain ⟨hprior', hfirst⟩ := hfirst.provider hs₂
  rw [hprior] at hprior'
  split_ifs at h with hworkers
  · obtain ⟨s₃, hs₃, h⟩ := Option.bind_eq_some_iff.1 h
    obtain rfl := Option.some.inj h
    have hnodup : (s₂.entries.map FuncRange.start).Nodup := by
      rw [hfirst.entries, map_start_reassign]
      exact e.distinct
    obtain ⟨hprior₃, fresh₃, hsecond⟩ :=
      assignEmulationGenerations_assigned hnodup hfirst.identities hs₃
    have hcached : ∀ f : FuncRange, s₂.cached f.start = true ↔
        s.dynamicCache.find f.start = some (e.fingerprint f.start) := by
      intro f
      rw [cached, hfirst.dynamicCache, hfirst.fingerprint]
      exact beq_iff_eq
    refine ⟨hsecond.jobs.trans hfirst.jobs, hprior₃.trans hprior',
      hsecond.fingerprint.trans hfirst.fingerprint,
      hsecond.dynamicCache.trans hfirst.dynamicCache, hsecond.identities,
      hfirst.used.trans hsecond.used,
      fun f =>
        (reassign s₂.keptJob fresh₃ (reassign (s.keptIdentity e.contentHash) fresh f)).generation,
      ?_, fun f hf => ?_⟩
    · exact hsecond.entries.trans (by rw [hfirst.entries, List.map_map]; rfl)
    have hf₂ : reassign (s.keptIdentity e.contentHash) fresh f ∈ s₂.entries := by
      rw [hfirst.entries]
      exact List.mem_map_of_mem hf
    have hdynamic : e.dynamic = true := (Bool.and_eq_true _ _ ▸ hworkers).1
    have hone := hfirst.generation hf
    have htwo := hsecond.generation hf₂
    unfold kept
    by_cases hhit : s.dynamicCache.find f.start = some (e.fingerprint f.start)
    · -- the job is cached, so the first pass has decided
      have hkept : s₂.keptJob (reassign (s.keptIdentity e.contentHash) fresh f) =
          some (reassign (s.keptIdentity e.contentHash) fresh f).generation :=
        if_pos ((hcached f).2 hhit)
      rw [hkept] at htwo
      rw [if_pos fun _ => hhit]
      show Given _ _ _ (reassign s₂.keptJob fresh₃ _).generation
      rw [show (reassign s₂.keptJob fresh₃ _).generation = _ from htwo]
      exact hone.mono hsecond.used
    · have hkept : s₂.keptJob (reassign (s.keptIdentity e.contentHash) fresh f) = none :=
        if_neg fun h => hhit ((hcached f).1 h)
      rw [hkept] at htwo
      rw [if_neg fun hall => hhit (hall hdynamic)]
      exact ⟨htwo.1, fun h => htwo.2 (hfirst.used h)⟩
  · obtain rfl := Option.some.inj h
    refine ⟨hfirst.jobs, hprior', hfirst.fingerprint, hfirst.dynamicCache, hfirst.identities,
      hfirst.used, _, hfirst.entries, fun f hf => ?_⟩
    have hdynamic : e.dynamic = false := by
      cases hentries : e.entries with
      | nil => rw [hentries] at hf; exact nomatch hf
      | cons g gs => simpa [hentries] using hworkers
    rw [kept_of_not_dynamic hdynamic]
    exact hfirst.generation hf

theorem keptIdentity_eq_some (hmatches : Matches s.entries s.identities) {contentHash g : UInt64}
    {f : FuncRange} : s.keptIdentity contentHash f = some g ↔
      s.priorContentHash = some contentHash ∧ ∃ old ∈ s.entries, old.start = f.start ∧
        old.byteHash = f.byteHash ∧ old.generation = g := by
  unfold keptIdentity
  by_cases hprior : s.priorContentHash = some contentHash
  · rw [if_pos hprior]
    constructor
    · intro h
      split at h
      · next old hold =>
        obtain ⟨f₀, hf₀, hstart, rfl⟩ := (hmatches _ _).1 hold
        split_ifs at h with hhash
        exact ⟨hprior, f₀, hf₀, hstart, hhash, Option.some.inj h⟩
      · exact nomatch h
    · rintro ⟨-, old, hold, hstart, hhash, rfl⟩
      rw [(hmatches _ _).2 ⟨old, hold, hstart, rfl⟩]
      exact if_pos hhash
  · rw [if_neg hprior]
    exact ⟨nofun, fun h => absurd h.1 hprior⟩

theorem kept_eq_some {f : FuncRange} {g : UInt64} : s.kept e f = some g ↔
    (e.dynamic = true → s.dynamicCache.find f.start = some (e.fingerprint f.start)) ∧
      s.keptIdentity e.contentHash f = some g := by
  unfold kept
  split_ifs with h
  · exact (and_iff_right h).symm
  · exact ⟨nofun, fun hall => absurd hall.1 h⟩

end Begin

end Sweep

end Viy
