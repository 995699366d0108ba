import Viy.Store.Invariant

/-!
# What the latest generation view keeps

The first pass computes the maximum generation of every snapshot over the whole store. So the view
keeps an observation exactly if it belongs to no snapshot or no other observation of its snapshot is
newer, whichever record that one is in. The maxima of the view are those of the store, and a second
view changes nothing.
-/

namespace Viy.Analysis

open Wire

variable {s : EvidenceStore} {key : Bytes} {record : EvidenceRecord}

/-! ## The first pass -/

/-- A generation is the newest one of a snapshot among some observations. -/
structure Newest (l : List Evidence) (snapshot : SnapshotKey) (generation : UInt64) : Prop where
  attained : ∃ e ∈ l, snapshotKey e = some snapshot ∧ e.scope.generation = generation
  bound : ∀ e ∈ l, snapshotKey e = some snapshot → e.scope.generation ≤ generation

section Snoc

variable {l : List Evidence} {snapshot : SnapshotKey} {generation : UInt64} {e : Evidence}

theorem Newest.snoc_of_ne (h : Newest l snapshot generation) (he : snapshotKey e ≠ some snapshot) :
    Newest (l ++ [e]) snapshot generation := by
  obtain ⟨⟨top, htop, hattained⟩, hbound⟩ := h
  refine ⟨⟨top, List.mem_append_left _ htop, hattained⟩, ?_⟩
  exact List.forall_mem_append.2 ⟨hbound, List.forall_mem_singleton.2 fun h => absurd h he⟩

/-- An observation that is as new as every one before it is the newest. -/
theorem newest_snoc (he : snapshotKey e = some snapshot)
    (hl : ∀ other ∈ l, snapshotKey other = some snapshot →
      other.scope.generation ≤ e.scope.generation) :
    Newest (l ++ [e]) snapshot e.scope.generation := by
  refine ⟨⟨e, List.mem_append_right _ (List.mem_singleton_self e), he, rfl⟩, ?_⟩
  exact List.forall_mem_append.2 ⟨hl, List.forall_mem_singleton.2 fun _ => UInt64.le_refl _⟩

/-- A later observation raises the maximum or leaves it. -/
theorem Newest.snoc_max (h : Newest l snapshot generation) (he : snapshotKey e = some snapshot) :
    Newest (l ++ [e]) snapshot (max generation e.scope.generation) := by
  by_cases hle : generation ≤ e.scope.generation
  · rw [show max generation e.scope.generation = e.scope.generation from if_pos hle]
    exact newest_snoc he fun other hother hsnapshot =>
      UInt64.le_trans (h.bound other hother hsnapshot) hle
  · rw [show max generation e.scope.generation = generation from if_neg hle]
    obtain ⟨⟨top, htop, hattained⟩, hbound⟩ := h
    refine ⟨⟨top, List.mem_append_left _ htop, hattained⟩, ?_⟩
    refine List.forall_mem_append.2 ⟨hbound, List.forall_mem_singleton.2 fun _ => ?_⟩
    exact UInt64.le_of_lt (UInt64.not_le.1 hle)

end Snoc

theorem find_noteGeneration {latest : Generations} {e : Evidence} {snapshot : SnapshotKey}
    (he : snapshotKey e = some snapshot) :
    (noteGeneration latest e).find snapshot = some (match latest.find snapshot with
      | none => e.scope.generation
      | some generation => max generation e.scope.generation) := by
  unfold noteGeneration
  rw [he]
  dsimp only
  rewrite [Cxx.Map.find_upsert, if_pos rfl]
  cases latest.find snapshot <;> rfl

theorem find_noteGeneration_of_ne {latest : Generations} {e : Evidence} {snapshot : SnapshotKey}
    (he : snapshotKey e ≠ some snapshot) :
    (noteGeneration latest e).find snapshot = latest.find snapshot := by
  unfold noteGeneration
  cases hkey : snapshotKey e with
  | none => rfl
  | some found =>
    have hne : found ≠ snapshot := by
      rintro rfl
      exact he hkey
    dsimp only
    rw [Cxx.Map.find_upsert, if_neg hne]

/-- The map of the first pass has the newest generation of every snapshot it has seen. -/
theorem foldl_noteGeneration (snapshot : SnapshotKey) (l : List Evidence) :
    ((l.foldl noteGeneration Cxx.Map.empty).find snapshot = none →
        ∀ e ∈ l, snapshotKey e ≠ some snapshot) ∧
      ∀ generation, (l.foldl noteGeneration Cxx.Map.empty).find snapshot = some generation →
        Newest l snapshot generation := by
  induction l using List.reverseRecOn with
  | nil => exact ⟨fun _ e he => absurd he List.not_mem_nil, fun _ h => nomatch h⟩
  | append_singleton l e ih =>
    obtain ⟨hunseen, hseen⟩ := ih
    rw [List.foldl_append, List.foldl_cons, List.foldl_nil]
    generalize l.foldl noteGeneration Cxx.Map.empty = latest at hunseen hseen
    by_cases he : snapshotKey e = some snapshot
    · rw [find_noteGeneration he]
      refine ⟨nofun, ?_⟩
      intro generation hgeneration
      obtain rfl := Option.some.inj hgeneration
      cases hold : latest.find snapshot with
      | none =>
        refine newest_snoc he fun other hother hsnapshot => ?_
        exact absurd hsnapshot (hunseen hold other hother)
      | some old => exact (hseen old hold).snoc_max he
    · rw [find_noteGeneration_of_ne he]
      refine ⟨fun h => ?_, fun generation h => (hseen generation h).snoc_of_ne he⟩
      exact List.forall_mem_append.2 ⟨hunseen h, List.forall_mem_singleton.2 he⟩

/-! ## The second pass -/

namespace EvidenceStore

/-- All observations of a store. -/
def observations (s : EvidenceStore) : List Evidence :=
  s.records.entries.flatMap fun entry => entry.2.observations

/-- The observation is of no function, or none of its producer and function is newer. -/
def IsCurrent (s : EvidenceStore) (e : Evidence) : Prop :=
  e.scope.functionStart = none ∨ ∀ other ∈ s.observations, other.producer = e.producer →
    other.scope.functionStart = e.scope.functionStart →
      other.scope.generation ≤ e.scope.generation

instance (s : EvidenceStore) : DecidablePred s.IsCurrent :=
  fun _ => inferInstanceAs (Decidable (_ ∨ _))

end EvidenceStore

theorem mem_observations {e : Evidence} :
    e ∈ s.observations ↔
      ∃ key record, s.records.find key = some record ∧ e ∈ record.observations := by
  unfold EvidenceStore.observations
  simp only [List.mem_flatMap, Prod.exists, Cxx.Map.mem_entries_iff]

theorem snapshotKey_eq_iff {e other : Evidence} {snapshot : SnapshotKey}
    (he : snapshotKey e = some snapshot) :
    snapshotKey other = some snapshot ↔
      other.producer = e.producer ∧ other.scope.functionStart = e.scope.functionStart := by
  unfold snapshotKey at he ⊢
  obtain ⟨start, hstart, rfl⟩ := Option.map_eq_some_iff.1 he
  rw [hstart, Option.map_eq_some_iff]
  constructor
  · rintro ⟨start', hstart', heq⟩
    obtain ⟨hproducer, rfl⟩ := Prod.mk.inj heq
    exact ⟨hproducer, hstart'⟩
  · rintro ⟨hproducer, hstart'⟩
    exact ⟨start, hstart', by rw [hproducer]⟩

/-- **The second pass** keeps the current observations. -/
theorem retain_latestGenerations_iff {e : Evidence} (he : e ∈ s.observations) :
    retain (latestGenerations s.records) e = true ↔ s.IsCurrent e := by
  unfold retain EvidenceStore.IsCurrent
  cases hkey : snapshotKey e with
  | none =>
    refine iff_of_true rfl (Or.inl ?_)
    exact Option.map_eq_none_iff.1 hkey
  | some snapshot =>
    have hfunction : e.scope.functionStart ≠ none := by
      intro hnone
      unfold snapshotKey at hkey
      rw [hnone] at hkey
      cases hkey
    obtain ⟨hunseen, hseen⟩ := foldl_noteGeneration snapshot s.observations
    rw [or_iff_right hfunction]
    dsimp only
    change ((s.observations.foldl noteGeneration Cxx.Map.empty).find snapshot).any _ = true ↔ _
    cases hfind : (s.observations.foldl noteGeneration Cxx.Map.empty).find snapshot with
    | none => exact absurd hkey (hunseen hfind e he)
    | some generation =>
      obtain ⟨⟨top, htop, htopKey, rfl⟩, hbound⟩ := hseen generation hfind
      rw [Option.any_some, beq_iff_eq]
      constructor
      · intro heq other hother hproducer hstart
        rw [heq]
        exact hbound other hother ((snapshotKey_eq_iff hkey).2 ⟨hproducer, hstart⟩)
      · intro hall
        obtain ⟨hproducer, hstart⟩ := (snapshotKey_eq_iff hkey).1 htopKey
        exact UInt64.le_antisymm (hbound e he hkey) (hall top htop hproducer hstart)

theorem filter_retain (hrecord : s.records.find key = some record) :
    record.observations.filter (retain (latestGenerations s.records)) =
      record.observations.filter fun e => s.IsCurrent e := by
  refine List.filter_congr fun e he => ?_
  rw [Bool.eq_iff_iff, decide_eq_true_iff]
  exact retain_latestGenerations_iff (mem_observations.2 ⟨key, record, hrecord, he⟩)

/-- The records of the view. -/
theorem find_latestGenerationView_eq_some_iff {active : EvidenceRecord} :
    s.latestGenerationView.records.find key = some active ↔
      ∃ record, s.records.find key = some record ∧ active.payload = record.payload ∧
        active.observations = record.observations.filter (fun e => s.IsCurrent e) ∧
        active.observations ≠ [] := by
  rw [find_latestGenerationView, Option.bind_eq_some_iff]
  refine exists_congr fun record => and_congr_right fun hrecord => ?_
  rw [activeRecord_eq_some, filter_retain hrecord]
  constructor
  · rintro ⟨hne, rfl⟩
    exact ⟨rfl, rfl, hne⟩
  · obtain ⟨payload, observations⟩ := active
    rintro ⟨rfl, rfl, hne⟩
    exact ⟨hne, rfl⟩

theorem mem_observations_latestGenerationView {e : Evidence} :
    e ∈ s.latestGenerationView.observations ↔ e ∈ s.observations ∧ s.IsCurrent e := by
  rw [mem_observations, mem_observations]
  constructor
  · rintro ⟨key, active, hactive, he⟩
    obtain ⟨record, hrecord, -, hkept, -⟩ := find_latestGenerationView_eq_some_iff.1 hactive
    rw [hkept, List.mem_filter, decide_eq_true_iff] at he
    exact ⟨⟨key, record, hrecord, he.1⟩, he.2⟩
  · rintro ⟨⟨key, record, hrecord, he⟩, hcurrent⟩
    have hkept : e ∈ record.observations.filter (fun e => s.IsCurrent e) :=
      List.mem_filter.2 ⟨he, decide_eq_true hcurrent⟩
    refine ⟨key, { record with observations := record.observations.filter fun e => s.IsCurrent e },
      ?_, hkept⟩
    exact find_latestGenerationView_eq_some_iff.2
      ⟨record, hrecord, rfl, rfl, List.ne_nil_of_mem hkept⟩

/-- What is current in the store is current among what the view has kept. -/
theorem isCurrent_latestGenerationView {e : Evidence}
    (he : e ∈ s.latestGenerationView.observations) : s.latestGenerationView.IsCurrent e := by
  obtain ⟨-, hcurrent⟩ := mem_observations_latestGenerationView.1 he
  refine hcurrent.imp_right fun hall other hother => ?_
  exact hall other (mem_observations_latestGenerationView.1 hother).1

theorem latestGenerationView_idem (s : EvidenceStore) :
    s.latestGenerationView.latestGenerationView = s.latestGenerationView := by
  refine EvidenceStore.ext (Cxx.Map.ext_find fun key => ?_) rfl
  rw [find_latestGenerationView]
  cases hactive : s.latestGenerationView.records.find key with
  | none => rfl
  | some active =>
    obtain ⟨-, -, -, -, hne⟩ := find_latestGenerationView_eq_some_iff.1 hactive
    have hall : active.observations.filter
        (retain (latestGenerations s.latestGenerationView.records)) = active.observations := by
      rw [filter_retain hactive, List.filter_eq_self]
      intro e he
      refine decide_eq_true (isCurrent_latestGenerationView ?_)
      exact mem_observations.2 ⟨key, active, hactive, he⟩
    rw [Option.bind_some]
    exact activeRecord_eq_some.2 ⟨hne, by rw [hall]⟩

/-- **The latest generation view.** Its records are those of the store with their current
observations, without the ones that have none left; they are in order and without repetitions; and a
view of the view is the view. -/
theorem latest_generation_view_spec {sha : Bytes → FactDigest}
    (hs : EvidenceStore.Reachable sha s) :
    (∀ key active, s.latestGenerationView.records.find key = some active ↔
      ∃ record, s.records.find key = some record ∧ active.payload = record.payload ∧
        active.observations = record.observations.filter (fun e => s.IsCurrent e) ∧
        active.observations ≠ []) ∧
      StoreOk s.latestGenerationView ∧
      s.latestGenerationView.latestGenerationView = s.latestGenerationView :=
  ⟨fun _ _ => find_latestGenerationView_eq_some_iff, hs.ok.latestGenerationView,
    latestGenerationView_idem s⟩

/-- A producer's snapshot of a function. -/
def snapshotFact (target : Address) (generation : UInt64) : AnalysisFact where
  payload := .codeTarget { fromAddr := 0x1000, target := target, kind := .call, unique := true }
  evidence := { sampleFact.evidence with
    scope := { sampleFact.evidence.scope with
      functionStart := some 0x1000, generation := generation } }

/-- The second snapshot has another target. -/
def twoSnapshots : EvidenceStore :=
  ((EvidenceStore.empty.add (fun _ => FactDigest.zero) (snapshotFact 0x2000 1)).1.add
    (fun _ => FactDigest.zero) (snapshotFact 0x3000 2)).1

theorem twoSnapshots_view : twoSnapshots.observations.length = 2 ∧
    twoSnapshots.latestGenerationView.observations.length = 1 ∧
    StoreOk twoSnapshots.latestGenerationView ∧
    twoSnapshots.latestGenerationView.latestGenerationView = twoSnapshots.latestGenerationView := by
  refine ⟨by decide +kernel, by decide +kernel, ?_⟩
  have hreachable : EvidenceStore.Reachable (fun _ => FactDigest.zero) twoSnapshots :=
    .add _ (.add _ .empty)
  exact (latest_generation_view_spec hreachable).2

end Viy.Analysis
