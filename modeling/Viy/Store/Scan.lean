import Viy.Store.Contradiction
import Viy.Store.Invariant

/-!
# The scans of a store are exact

Both scans look only at records that share a bucket and at regions the sweep meets. On every
reachable store that misses nothing: `detectConflicts` reports what comparing all pairs of records
reports, and `contradictedPayloadDigests` marks the participants of its contradictions.
-/

namespace Viy.Analysis

open Wire

/-! ## The records of a scan -/

theorem ordered_nodup (s : EvidenceStore) : s.ordered.Nodup := by
  have hindex : (s.ordered.map Indexed.index).Nodup := by
    rw [EvidenceStore.ordered, List.map_map]
    show (s.records.entries.zipIdx.map Prod.snd).Nodup
    rw [List.zipIdx_map_snd]
    exact List.nodup_range'
  exact hindex.of_map _

theorem map_ordered (s : EvidenceStore) :
    s.ordered.map (fun e => (e.key, e.payload)) =
      s.records.entries.map fun e => (e.1, e.2.payload) := by
  rw [EvidenceStore.ordered, List.map_map]
  conv_rhs => rw [← List.zipIdx_map_fst 0 s.records.entries, List.map_map]
  rfl

/-- The pairs of scanned records are the pairs of records. -/
theorem map_pairs_ordered (s : EvidenceStore) :
    (Cxx.pairs s.ordered).map (Prod.map (fun e => (e.key, e.payload)) fun e => (e.key, e.payload)) =
      (Cxx.pairs s.records.entries).map
        (Prod.map (fun e => (e.1, e.2.payload)) fun e => (e.1, e.2.payload)) := by
  rw [← Cxx.pairs_map, ← Cxx.pairs_map, map_ordered]

theorem has_of_mem_ordered {s : EvidenceStore} {e : Indexed} (he : e ∈ s.ordered) :
    s.Has e.key e.payload := by
  have hmem : (e.key, e.payload) ∈ s.ordered.map fun e => (e.key, e.payload) :=
    List.mem_map_of_mem he
  rw [map_ordered, List.mem_map] at hmem
  obtain ⟨⟨key, record⟩, hentry, heq⟩ := hmem
  obtain ⟨rfl, hpayload⟩ := Prod.mk.inj heq
  exact ⟨record, Cxx.Map.mem_entries_iff.1 hentry, hpayload⟩

theorem exists_mem_ordered {s : EvidenceStore} {key : Bytes} {record : EvidenceRecord}
    (hfind : s.records.find key = some record) :
    ∃ e ∈ s.ordered, e.key = key ∧ e.payload = record.payload := by
  have hmem : (key, record.payload) ∈ s.records.entries.map fun e => (e.1, e.2.payload) :=
    List.mem_map.2 ⟨_, Cxx.Map.mem_entries_iff.2 hfind, rfl⟩
  rw [← map_ordered, List.mem_map] at hmem
  obtain ⟨e, he, heq⟩ := hmem
  exact ⟨e, he, (Prod.mk.inj heq).1, (Prod.mk.inj heq).2⟩

theorem StoreOk.valid_of_mem {s : EvidenceStore} (hs : StoreOk s) {e : Indexed}
    (he : e ∈ s.ordered) : validatePayload e.payload = .ok () := by
  obtain ⟨record, hfind, hpayload⟩ := has_of_mem_ordered he
  exact hpayload ▸ (hs.records _ _ hfind).payload_valid

/-! ## Subjects of conflicts -/

/-- A common key in one of the nine bucket families. -/
def SameBucket (p q : FactPayload) : Prop :=
  SameKey codeTargetKey p q ∨ SameKey edgeKey p q ∨ SameKey memoryValueKey p q ∨
    SameKey stringKey p q ∨ SameKey functionCandidateKey p q ∨ SameKey functionEvidenceKey p q ∨
    SameKey dispatchMapKey p q ∨ SameKey registerKey p q ∨ SameKey callKey p q

/-- Payloads can conflict only within a bucket or as overlapping regions. -/
theorem subject_of_finding {p q : FactPayload} {f : Finding} (h : f ∈ findings p q) :
    SameBucket p q ∨ ∃ l r, p = .codeRegion l ∧ q = .codeRegion r ∧ Overlap l r := by
  unfold findings at h
  split at h
  case h_15 l r =>
    simp only [Bool.and_eq_true, decide_eq_true_eq] at h
    split_ifs at h with hif
    · exact Or.inr ⟨l, r, rfl, rfl, hif.1⟩
    · cases h
  case h_9 l r =>
    have hf : l.function = r.function := by
      by_contra hne
      simp [compareTraits, hne] at h
    exact Or.inl (by simp [SameBucket, SameKey, functionEvidenceKey, hf])
  case h_14 l r =>
    have hsource : l.source = r.source := by
      by_contra hne
      simp [compareCalls, hne] at h
    exact Or.inl (by simp [SameBucket, SameKey, callKey, hsource])
  case h_16 l r =>
    have hsite : l.site = r.site := by
      by_contra hne
      simp [compareDispatchMaps, hne] at h
    exact Or.inl (by simp [SameBucket, SameKey, dispatchMapKey, hsite])
  case h_17 => cases h
  all_goals
    split_ifs at h with hif
    · refine Or.inl ?_
      simp only [Bool.and_eq_true, beq_iff_eq] at hif
      simp [SameBucket, SameKey, codeTargetKey, edgeKey, memoryValueKey, stringKey,
        functionCandidateKey, functionEvidenceKey, dispatchMapKey, registerKey, callKey, hif]
    · cases h

/-! ## The region sweep -/

theorem mem_sweepRegions {ordered : List Indexed} {x : IndexedRegion} :
    x ∈ sweepRegions ordered ↔ x.entry ∈ ordered ∧ x.entry.payload = .codeRegion x.fact := by
  rw [sweepRegions, Cxx.mem_sort, List.mem_filterMap]
  constructor
  · rintro ⟨e, he, hx⟩
    unfold Indexed.region? at hx
    split at hx
    · obtain rfl := Option.some.inj hx
      exact ⟨he, ‹_›⟩
    · cases hx
  · rintro ⟨he, hx⟩
    exact ⟨x.entry, he, by simp only [Indexed.region?, hx]⟩

theorem sweepRegions_nodup {ordered : List Indexed} (h : ordered.Nodup) :
    (sweepRegions ordered).Nodup := by
  refine (Cxx.sort_perm _ _).nodup_iff.2 (h.filterMap ?_)
  intro a b x ha hb
  have hentry : ∀ e : Indexed, x ∈ e.region? → x.entry = e := by
    intro e he
    unfold Indexed.region? at he
    split at he
    · obtain rfl := Option.some.inj he
      rfl
    · cases he
  exact (hentry a ha).symm.trans (hentry b hb)

theorem sweepRegions_start_le (ordered : List Indexed) :
    (sweepRegions ordered).Pairwise fun x y => x.fact.start ≤ y.fact.start := by
  refine (Cxx.sort_pairwise_key sweepOrder IndexedRegion.sweepKey _).imp fun {x y} h => ?_
  by_contra hlt
  have hless : Cxx.Comparator.u64.less y.fact.start x.fact.start = true :=
    decide_eq_true (UInt64.lt_iff_toNat_lt.1 (UInt64.not_le.1 hlt))
  exact Cxx.clash h (by simp [sweepOrder, Cxx.Comparator.tie, IndexedRegion.sweepKey, hless])

/-- The early break skips only regions behind the current one. -/
theorem mem_regionPairs {ordered : List Indexed} {x y : IndexedRegion} :
    (x, y) ∈ regionPairs ordered ↔
      (x, y) ∈ Cxx.pairs (sweepRegions ordered) ∧ y.fact.start < x.fact.endAddr := by
  have hstop : (sweepRegions ordered).Pairwise fun y y' =>
      ∀ x : IndexedRegion, decide (y.fact.start ≥ x.fact.endAddr) = true →
        decide (y'.fact.start ≥ x.fact.endAddr) = true := by
    refine (sweepRegions_start_le ordered).imp fun hle x h => ?_
    exact decide_eq_true (UInt64.le_trans (of_decide_eq_true h) hle)
  rw [regionPairs, Cxx.mem_sweep hstop, decide_eq_false_iff_not, ge_iff_le, UInt64.not_le]

/-- The region of an entry is its payload. -/
theorem IndexedRegion.eq_of_entry {x y : IndexedRegion}
    (hx : x.entry.payload = .codeRegion x.fact) (hy : y.entry.payload = .codeRegion y.fact)
    (h : x.entry = y.entry) : x = y := by
  have hfact : x.fact = y.fact := by
    rw [h, hy] at hx
    exact (FactPayload.codeRegion.inj hx).symm
  cases x
  cases y
  simp_all

/-- A symmetric relation meets the sweep exactly in overlapping regions. -/
theorem exists_regionPair {s : EvidenceStore} (hs : StoreOk s)
    {P : IndexedRegion → IndexedRegion → Prop} (hsymm : ∀ x y, P x y → P y x) :
    (∃ x y, (x, y) ∈ regionPairs s.ordered ∧ P x y) ↔
      ∃ x y : IndexedRegion, (x.entry, y.entry) ∈ Cxx.pairs s.ordered ∧
        x.entry.payload = .codeRegion x.fact ∧ y.entry.payload = .codeRegion y.fact ∧
        Overlap x.fact y.fact ∧ P x y := by
  constructor
  · rintro ⟨x, y, hpair, hP⟩
    obtain ⟨hpair, hend⟩ := mem_regionPairs.1 hpair
    obtain ⟨hx, hy⟩ := Cxx.mem_of_mem_pairs hpair
    obtain ⟨hxe, hxp⟩ := mem_sweepRegions.1 hx
    obtain ⟨hye, hyp⟩ := mem_sweepRegions.1 hy
    have hne : x.entry ≠ y.entry := fun heq =>
      Cxx.rel_of_mem_pairs (sweepRegions_nodup (ordered_nodup s)) hpair
        (IndexedRegion.eq_of_entry hxp hyp heq)
    have hstart := Cxx.rel_of_mem_pairs (sweepRegions_start_le _) hpair
    have hxv := region_start_lt (hxp ▸ hs.valid_of_mem hxe)
    have hyv := region_start_lt (hyp ▸ hs.valid_of_mem hye)
    have hoverlap : Overlap x.fact y.fact :=
      overlap_iff.2 ⟨⟨hxv, hyv⟩, hend, UInt64.lt_of_le_of_lt hstart hyv⟩
    rcases Cxx.mem_pairs_or hne hxe hye with h | h
    · exact ⟨x, y, h, hxp, hyp, hoverlap, hP⟩
    · exact ⟨y, x, h, hyp, hxp, hoverlap.symm, hsymm x y hP⟩
  · rintro ⟨x, y, hpair, hxp, hyp, hoverlap, hP⟩
    obtain ⟨hxe, hye⟩ := Cxx.mem_of_mem_pairs hpair
    have hne : x ≠ y := fun heq =>
      Cxx.rel_of_mem_pairs (ordered_nodup s) hpair (congrArg IndexedRegion.entry heq)
    have hx := mem_sweepRegions.2 ⟨hxe, hxp⟩
    have hy := mem_sweepRegions.2 ⟨hye, hyp⟩
    obtain ⟨-, hyx, hxy⟩ := overlap_iff.1 hoverlap
    rcases Cxx.mem_pairs_or hne hx hy with h | h
    · exact ⟨x, y, mem_regionPairs.2 ⟨h, hyx⟩, hP⟩
    · exact ⟨y, x, mem_regionPairs.2 ⟨h, hxy⟩, hsymm x y hP⟩

/-! ## All conflicts -/

section Scans

variable (sha : Bytes → FactDigest)

/-- The conflicts of every unordered pair of distinct records, the pairs in key order. -/
def EvidenceStore.pairwiseConflicts (s : EvidenceStore) : List EvidenceConflict :=
  (Cxx.pairs s.records.entries).flatMap fun pair =>
    comparePayloads false ⟨pair.1.2.payload, sha pair.1.1⟩ ⟨pair.2.2.payload, sha pair.2.1⟩

variable {sha}

theorem mem_pairwiseConflicts {s : EvidenceStore} {c : EvidenceConflict} :
    c ∈ s.pairwiseConflicts sha ↔
      ∃ a b, (a, b) ∈ Cxx.pairs s.ordered ∧ c ∈ compareIndexed sha (a, b) := by
  -- the comparison reads the key and the payload of both records
  let compare : (Bytes × FactPayload) × (Bytes × FactPayload) → List EvidenceConflict :=
    fun x => comparePayloads false ⟨x.1.2, sha x.1.1⟩ ⟨x.2.2, sha x.2.1⟩
  have hpairs : s.pairwiseConflicts sha = (Cxx.pairs s.ordered).flatMap (compareIndexed sha) := by
    have hmap := congrArg (List.flatMap compare) (map_pairs_ordered s)
    rw [List.flatMap_map, List.flatMap_map] at hmap
    exact hmap.symm
  rw [hpairs, List.mem_flatMap, Prod.exists]

theorem mem_compareBuckets {κ : Type} [DecidableEq κ] {c : Cxx.Comparator κ}
    {key : FactPayload → Option κ} {ordered : List Indexed} {x : EvidenceConflict} :
    x ∈ compareBuckets sha c key ordered ↔ ∃ a b, (a, b) ∈ Cxx.pairs ordered ∧
      SameKey key a.payload b.payload ∧ x ∈ compareIndexed sha (a, b) := by
  rw [compareBuckets, List.mem_flatMap, Prod.exists]
  simp only [Cxx.Map.mem_bucketPairs, SameKey, and_assoc]

/-- Region conflicts do not depend on the order of the operands. -/
theorem compareIndexed_region_symm {x y : IndexedRegion} {c : EvidenceConflict}
    (hx : x.entry.payload = .codeRegion x.fact) (hy : y.entry.payload = .codeRegion y.fact)
    (h : c ∈ compareIndexed sha (x.entry, y.entry)) :
    c ∈ compareIndexed sha (y.entry, x.entry) := by
  rw [compareIndexed, mem_comparePayloads] at h ⊢
  have hfindings : findings y.entry.payload x.entry.payload =
      findings x.entry.payload y.entry.payload := by
    rw [hx, hy]
    simp only [findings, overlap_comm y.fact x.fact, regionKindsIncompatible_comm y.fact.kind]
  obtain ⟨f, hf, hsev, hc⟩ := h
  exact ⟨f, hfindings ▸ hf, hsev, (f.conflict_comm _ _).trans hc⟩

theorem mem_regionConflicts {s : EvidenceStore} (hs : StoreOk s) {c : EvidenceConflict} :
    (∃ x y, (x, y) ∈ regionPairs s.ordered ∧ c ∈ compareIndexed sha (x.entry, y.entry)) ↔
      ∃ x y : IndexedRegion, (x.entry, y.entry) ∈ Cxx.pairs s.ordered ∧
        x.entry.payload = .codeRegion x.fact ∧ y.entry.payload = .codeRegion y.fact ∧
        Overlap x.fact y.fact ∧ c ∈ compareIndexed sha (x.entry, y.entry) := by
  have hregion : ∀ x y, (x, y) ∈ regionPairs s.ordered →
      x.entry.payload = .codeRegion x.fact ∧ y.entry.payload = .codeRegion y.fact := by
    intro x y h
    obtain ⟨hx, hy⟩ := Cxx.mem_of_mem_pairs (mem_regionPairs.1 h).1
    exact ⟨(mem_sweepRegions.1 hx).2, (mem_sweepRegions.1 hy).2⟩
  have h := exists_regionPair hs
    (P := fun x y => x.entry.payload = .codeRegion x.fact ∧
      y.entry.payload = .codeRegion y.fact ∧ c ∈ compareIndexed sha (x.entry, y.entry))
    fun x y ⟨hx, hy, hc⟩ => ⟨hy, hx, compareIndexed_region_symm hx hy hc⟩
  constructor
  · rintro ⟨x, y, hpair, hc⟩
    obtain ⟨hx, hy⟩ := hregion x y hpair
    obtain ⟨x, y, hpair, hx, hy, hoverlap, -, -, hc⟩ := h.1 ⟨x, y, hpair, hx, hy, hc⟩
    exact ⟨x, y, hpair, hx, hy, hoverlap, hc⟩
  · rintro ⟨x, y, hpair, hx, hy, hoverlap, hc⟩
    obtain ⟨x, y, hpair, -, -, hc⟩ := h.2 ⟨x, y, hpair, hx, hy, hoverlap, hx, hy, hc⟩
    exact ⟨x, y, hpair, hc⟩

/-- The buckets and the sweep together compare all pairs that can conflict. -/
theorem detectConflicts_eq {s : EvidenceStore} (hs : StoreOk s) :
    s.detectConflicts sha =
      Cxx.sortUnique conflictLess conflictsEqual (s.pairwiseConflicts sha) := by
  refine Cxx.sortUnique_congr (c := conflictOrder) conflictsEqual_iff fun c => ?_
  have hscan : (∃ a b, (a, b) ∈ Cxx.pairs s.ordered ∧ SameBucket a.payload b.payload ∧
      c ∈ compareIndexed sha (a, b)) ∨ (∃ x y : IndexedRegion,
        (x.entry, y.entry) ∈ Cxx.pairs s.ordered ∧ x.entry.payload = .codeRegion x.fact ∧
        y.entry.payload = .codeRegion y.fact ∧ Overlap x.fact y.fact ∧
        c ∈ compareIndexed sha (x.entry, y.entry)) ↔
      ∃ a b, (a, b) ∈ Cxx.pairs s.ordered ∧ c ∈ compareIndexed sha (a, b) := by
    constructor
    · rintro (⟨a, b, hpair, -, hc⟩ | ⟨x, y, hpair, -, -, -, hc⟩)
      · exact ⟨a, b, hpair, hc⟩
      · exact ⟨x.entry, y.entry, hpair, hc⟩
    · rintro ⟨a, b, hpair, hc⟩
      obtain ⟨f, hf, -⟩ := mem_comparePayloads.1 hc
      rcases subject_of_finding hf with hkey | ⟨l, r, hl, hr, hoverlap⟩
      · exact Or.inl ⟨a, b, hpair, hkey, hc⟩
      · exact Or.inr ⟨⟨a, l⟩, ⟨b, r⟩, hpair, hl, hr, hoverlap, hc⟩
  rw [mem_pairwiseConflicts, ← hscan]
  simp only [List.mem_append, mem_compareBuckets, List.mem_flatMap, Prod.exists,
    mem_regionConflicts hs, SameBucket, or_and_right, and_or_left, exists_or, or_assoc]

theorem mem_detectConflicts {s : EvidenceStore} (hs : StoreOk s) {c : EvidenceConflict} :
    c ∈ s.detectConflicts sha ↔ c ∈ s.pairwiseConflicts sha := by
  rw [detectConflicts_eq hs]
  exact Cxx.mem_sortUnique (c := conflictOrder) conflictsEqual_iff

/-! ## Contradicted payloads -/

/-- The record is one of the pair. -/
def Participates (e : Indexed) (pair : Indexed × Indexed) : Prop := e = pair.1 ∨ e = pair.2

theorem mem_marks_ofPairs {κ : Type} [DecidableEq κ] {c : Cxx.Comparator κ}
    {key : FactPayload → Option κ} {contradict : FactPayload → FactPayload → Bool}
    {ordered : List Indexed} {e : Indexed} :
    e ∈ (ScanEffect.ofPairs contradict
        (Cxx.Map.bucketPairs c (fun e => key e.payload) ordered)).marks ↔
      ∃ a b, (a, b) ∈ Cxx.pairs ordered ∧
        (SameKey key a.payload b.payload ∧ contradict a.payload b.payload = true) ∧
        Participates e (a, b) := by
  rw [ScanEffect.ofPairs, List.mem_flatMap, Prod.exists]
  refine exists_congr fun a => exists_congr fun b => ?_
  rw [Cxx.Map.mem_bucketPairs, and_assoc, and_assoc]
  refine and_congr_right fun _ => and_congr_right fun _ => ?_
  split_ifs with h <;> simp [h, Participates]

theorem Participates.swap {e a b : Indexed} (h : Participates e (a, b)) : Participates e (b, a) :=
  Or.symm h

/-- Marking two lists when neither is empty is marking all pairs across them. -/
theorem mem_marks_lists {bucket : List Indexed} {p q : Indexed → Bool} {e : Indexed} :
    e ∈ (if !(bucket.filter p).isEmpty && !(bucket.filter q).isEmpty then
        ⟨1, bucket.filter p ++ bucket.filter q⟩ else ⟨0, []⟩ : ScanEffect).marks ↔
      ∃ a ∈ bucket, ∃ b ∈ bucket, (p a = true ∧ q b = true) ∧ Participates e (a, b) := by
  constructor
  · intro h
    split_ifs at h with hif
    · simp only [Bool.and_eq_true, Bool.not_eq_true', List.isEmpty_eq_false_iff] at hif
      obtain ⟨a, ha⟩ := List.exists_mem_of_ne_nil _ hif.1
      obtain ⟨b, hb⟩ := List.exists_mem_of_ne_nil _ hif.2
      rw [List.mem_filter] at ha hb
      rcases List.mem_append.1 h with he | he <;> rw [List.mem_filter] at he
      · exact ⟨e, he.1, b, hb.1, ⟨he.2, hb.2⟩, Or.inl rfl⟩
      · exact ⟨a, ha.1, e, he.1, ⟨ha.2, he.2⟩, Or.inr rfl⟩
    · cases h
  · rintro ⟨a, ha, b, hb, ⟨hpa, hqb⟩, he⟩
    have hp : a ∈ bucket.filter p := List.mem_filter.2 ⟨ha, hpa⟩
    have hq : b ∈ bucket.filter q := List.mem_filter.2 ⟨hb, hqb⟩
    rw [if_pos (by simp [List.ne_nil_of_mem hp, List.ne_nil_of_mem hq, -List.filter_eq_nil_iff])]
    rcases he with rfl | rfl
    · exact List.mem_append_left _ hp
    · exact List.mem_append_right _ hq

theorem mem_marks_functionEffect {bucket : List Indexed} {e : Indexed} :
    e ∈ (functionEffect bucket).marks ↔ ∃ a ∈ bucket, ∃ b ∈ bucket,
      returnsContradict a.payload b.payload = true ∧ Participates e (a, b) := by
  rw [functionEffect]
  refine List.mem_append.trans ((or_congr mem_marks_lists mem_marks_lists).trans ?_)
  simp only [returnsContradict, Bool.or_eq_true, Bool.and_eq_true]
  constructor
  · rintro (⟨a, ha, b, hb, h, he⟩ | ⟨a, ha, b, hb, h, he⟩)
    · exact ⟨a, ha, b, hb, Or.inl (Or.inl (Or.inl h)), he⟩
    · exact ⟨a, ha, b, hb, Or.inl (Or.inr h), he⟩
  · rintro ⟨a, ha, b, hb, ((h | h) | h) | h, he⟩
    · exact Or.inl ⟨a, ha, b, hb, h, he⟩
    · exact Or.inl ⟨b, hb, a, ha, h.symm, he.swap⟩
    · exact Or.inr ⟨a, ha, b, hb, h, he⟩
    · exact Or.inr ⟨b, hb, a, ha, h.symm, he.swap⟩

theorem mem_marks_functions {ordered : List Indexed} {e : Indexed} :
    e ∈ (ScanEffect.sequence
        ((Cxx.Map.group Cxx.Comparator.u64 (fun e => functionEvidenceKey e.payload)
          ordered).entries.map fun bucket => functionEffect bucket.2)).marks ↔
      ∃ a b, (a, b) ∈ Cxx.pairs ordered ∧
        (SameKey functionEvidenceKey a.payload b.payload ∧
          returnsContradict a.payload b.payload = true) ∧ Participates e (a, b) := by
  rw [ScanEffect.sequence, List.flatMap_map, List.mem_flatMap]
  constructor
  · rintro ⟨⟨k, bucket⟩, hbucket, he⟩
    obtain ⟨a, ha, b, hb, h, he⟩ := mem_marks_functionEffect.1 he
    rw [Cxx.Map.eq_filter_of_mem_group hbucket, List.mem_filter, decide_eq_true_eq] at ha hb
    have hne : a ≠ b := by
      rintro rfl
      exact Cxx.clash (returnsContradict_self _) h
    rcases Cxx.mem_pairs_or hne ha.1 hb.1 with hpair | hpair
    · exact ⟨a, b, hpair, ⟨⟨k, ha.2, hb.2⟩, h⟩, he⟩
    · exact ⟨b, a, hpair, ⟨⟨k, hb.2, ha.2⟩, returnsContradict_comm _ _ ▸ h⟩, he.swap⟩
  · rintro ⟨a, b, hpair, ⟨⟨k, ha, hb⟩, h⟩, he⟩
    obtain ⟨hamem, hbmem⟩ := Cxx.mem_of_mem_pairs hpair
    refine ⟨_, Cxx.Map.filter_mem_group hamem ha, mem_marks_functionEffect.2 ?_⟩
    exact ⟨a, List.mem_filter.2 ⟨hamem, by simpa using ha⟩, b,
      List.mem_filter.2 ⟨hbmem, by simpa using hb⟩, h, he⟩

theorem mem_marks_regions {s : EvidenceStore} (hs : StoreOk s) {e : Indexed} :
    e ∈ (regionEffect s.ordered).marks ↔ ∃ a b, (a, b) ∈ Cxx.pairs s.ordered ∧
      RegionsClash a.payload b.payload ∧ Participates e (a, b) := by
  have hmark : e ∈ (regionEffect s.ordered).marks ↔ ∃ x y, (x, y) ∈ regionPairs s.ordered ∧
      regionKindsIncompatible x.fact.kind y.fact.kind = true ∧
      Participates e (x.entry, y.entry) := by
    rw [regionEffect, List.mem_flatMap, Prod.exists]
    refine exists_congr fun x => exists_congr fun y => and_congr_right fun _ => ?_
    split_ifs with h <;> simp [h, Participates]
  rw [hmark, exists_regionPair hs fun x y h =>
    ⟨regionKindsIncompatible_comm _ _ ▸ h.1, h.2.swap⟩]
  constructor
  · rintro ⟨x, y, hpair, hx, hy, hoverlap, hkind, he⟩
    exact ⟨_, _, hpair, ⟨x.fact, y.fact, hx, hy, hoverlap, hkind⟩, he⟩
  · rintro ⟨a, b, hpair, ⟨l, r, hl, hr, hoverlap, hkind⟩, he⟩
    exact ⟨⟨a, l⟩, ⟨b, r⟩, hpair, hl, hr, hoverlap, hkind, he⟩

/-- The scan marks the participants of contradictions. -/
theorem mem_marks {s : EvidenceStore} (hs : StoreOk s) {e : Indexed} :
    e ∈ (contradictionScan s.ordered).marks ↔ ∃ a b, (a, b) ∈ Cxx.pairs s.ordered ∧
      contradicts a.payload b.payload = true ∧ Participates e (a, b) := by
  have happend : ∀ x y : ScanEffect, e ∈ (x ++ y).marks ↔ e ∈ x.marks ∨ e ∈ y.marks :=
    fun x y => List.mem_append
  simp only [contradictionScan, happend, mem_marks_ofPairs, mem_marks_functions,
    mem_marks_regions hs, contradicts_iff, or_and_right, and_or_left, exists_or, or_assoc]

/-- The digests on either side of the contradictions among all pairs of records. -/
theorem mem_contradictedPayloadDigests {s : EvidenceStore} (hs : StoreOk s) {digest : FactDigest} :
    digest ∈ (s.contradictedPayloadDigests sha).1 ↔ ∃ a b, (a, b) ∈ Cxx.pairs s.ordered ∧
      contradicts a.payload b.payload = true ∧ (digest = sha a.key ∨ digest = sha b.key) := by
  simp only [EvidenceStore.contradictedPayloadDigests, List.mem_toFinset, List.mem_map,
    mem_marks hs]
  constructor
  · rintro ⟨e, ⟨a, b, hpair, h, he⟩, rfl⟩
    refine ⟨a, b, hpair, h, ?_⟩
    rcases he with rfl | rfl
    · exact Or.inl rfl
    · exact Or.inr rfl
  · rintro ⟨a, b, hpair, h, rfl | rfl⟩
    · exact ⟨a, ⟨a, b, hpair, h, Or.inl rfl⟩, rfl⟩
    · exact ⟨b, ⟨a, b, hpair, h, Or.inr rfl⟩, rfl⟩

end Scans

/-! ## Main results -/

/-- **The marked digests are the participants of the reported contradictions.** -/
theorem contradicted_digests_are_participants {sha : Bytes → FactDigest} {s : EvidenceStore}
    (hs : EvidenceStore.Reachable sha s) (digest : FactDigest) :
    digest ∈ (s.contradictedPayloadDigests sha).1 ↔ ∃ c ∈ s.detectConflicts sha,
      c.severity = .contradiction ∧ (digest = c.left ∨ digest = c.right) := by
  simp only [mem_contradictedPayloadDigests hs.ok, mem_detectConflicts hs.ok,
    mem_pairwiseConflicts]
  constructor
  · rintro ⟨a, b, hpair, h, hdigest⟩
    obtain ⟨c, hc, hsev⟩ :=
      contradicts_iff_exists (l := a.operand sha) (r := b.operand sha).1 h
    refine ⟨c, ⟨a, b, hpair, hc⟩, hsev, ?_⟩
    rcases digests_of_mem hc with ⟨hl, hr⟩ | ⟨hl, hr⟩ <;> rw [hl, hr]
    · exact hdigest
    · exact hdigest.symm
  · rintro ⟨c, ⟨a, b, hpair, hc⟩, hsev, hdigest⟩
    refine ⟨a, b, hpair, contradicts_iff_exists.2 ⟨c, hc, hsev⟩, ?_⟩
    rcases digests_of_mem hc with ⟨hl, hr⟩ | ⟨hl, hr⟩ <;> rw [hl, hr] at hdigest
    · exact hdigest
    · exact hdigest.symm

/-- A store with two contradicting records. -/
def rivalStore (sha : Bytes → FactDigest) : EvidenceStore :=
  ((EvidenceStore.empty.add sha sampleFact).1.add sha rivalFact).1

theorem rivalStore_reachable (sha : Bytes → FactDigest) :
    EvidenceStore.Reachable sha (rivalStore sha) :=
  .add rivalFact (.add sampleFact .empty)

theorem rivalStore_participants :
    FactDigest.zero ∈ ((rivalStore fun _ => FactDigest.zero).contradictedPayloadDigests
        fun _ => FactDigest.zero).1 ∧
      ∃ c ∈ (rivalStore fun _ => FactDigest.zero).detectConflicts fun _ => FactDigest.zero,
        c.severity = .contradiction ∧ (FactDigest.zero = c.left ∨ FactDigest.zero = c.right) := by
  have hmem : FactDigest.zero ∈ ((rivalStore fun _ => FactDigest.zero).contradictedPayloadDigests
      fun _ => FactDigest.zero).1 := by decide +kernel
  exact ⟨hmem, (contradicted_digests_are_participants (rivalStore_reachable _) _).1 hmem⟩

/-- **The scan of buckets and regions reports the conflicts of all pairs of records**, sorted and
without repetitions. -/
theorem detect_conflicts_exact {sha : Bytes → FactDigest} {s : EvidenceStore}
    (hs : EvidenceStore.Reachable sha s) :
    s.detectConflicts sha =
        Cxx.sortUnique conflictLess conflictsEqual (s.pairwiseConflicts sha) ∧
      Cxx.Sorted conflictLess (s.detectConflicts sha) ∧
      ∀ c, c ∈ s.detectConflicts sha ↔ c ∈ s.pairwiseConflicts sha :=
  ⟨detectConflicts_eq hs.ok,
    Cxx.sortUnique_sorted (c := conflictOrder) conflictsEqual_iff _,
    fun _ => mem_detectConflicts hs.ok⟩

theorem rivalStore_conflicts :
    ((rivalStore fun _ => FactDigest.zero).pairwiseConflicts fun _ => FactDigest.zero).length = 1 ∧
      (rivalStore fun _ => FactDigest.zero).detectConflicts (fun _ => FactDigest.zero) =
        Cxx.sortUnique conflictLess conflictsEqual
          ((rivalStore fun _ => FactDigest.zero).pairwiseConflicts fun _ => FactDigest.zero) :=
  ⟨by decide +kernel, (detect_conflicts_exact (rivalStore_reachable _)).1⟩

end Viy.Analysis
