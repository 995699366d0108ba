import Viy.Store.Contradiction
import Viy.Store.Invariant

/-!
# A store is a set of facts

The abstract view of a store is the set of the normalized facts it holds. `add` puts one fact into
the set and `merge` takes a union. The set determines the records, so stores built from the same
facts in any way are equal and serialize to the same bytes.
-/

namespace Viy.Analysis

open Wire

/-! ## The facts of a store -/

/-- The normalized facts a store holds. -/
def EvidenceStore.facts (s : EvidenceStore) : Set AnalysisFact :=
  {fact | ∃ key record, s.records.find key = some record ∧ record.payload = fact.payload ∧
    fact.evidence ∈ record.observations}

theorem mem_facts {s : EvidenceStore} {fact : AnalysisFact} : fact ∈ s.facts ↔
    ∃ key record, s.records.find key = some record ∧ record.payload = fact.payload ∧
      fact.evidence ∈ record.observations := Iff.rfl

theorem facts_empty : EvidenceStore.empty.facts = ∅ := by
  ext fact
  simp [mem_facts, EvidenceStore.empty]

theorem mem_facts_addNormalized {s : EvidenceStore} {key : Bytes} {normal fact : AnalysisFact}
    (hs : RecordsOk s.records) (hnormal : validateFact normal = .ok ())
    (hkey : encodeNormalizedPayload normal.payload = .ok key) :
    fact ∈ (s.addNormalized key normal).1.facts ↔ fact = normal ∨ fact ∈ s.facts := by
  have habsorb := absorb_ok hnormal hkey fun record hrecord => hs key record hrecord
  have hmem : ∀ e, e ∈ (absorb normal (s.records.find key)).observations ↔
      e = normal.evidence ∨ ∃ record, s.records.find key = some record ∧
        e ∈ record.observations := by
    intro e
    rcases hfind : s.records.find key with _ | record
    · simp [absorb]
    · have hok := hs key record hfind
      rw [absorb, mem_insertObservation (fun _ he => hok.evidence_valid he)
        (validateFact_eq_ok.1 hnormal).2.1 hok.sorted]
      simp
  simp only [mem_facts, find_addNormalized]
  constructor
  · rintro ⟨key', record, hfind, hpayload, he⟩
    split_ifs at hfind with heq
    · obtain rfl := Option.some.inj hfind
      rcases (hmem _).1 he with he | ⟨record, hrecord, he⟩
      · left
        rw [habsorb.2] at hpayload
        cases fact
        cases normal
        simp_all
      · have hok := hs key record hrecord
        refine Or.inr ⟨key, record, hrecord, ?_, he⟩
        rw [← hpayload, habsorb.2]
        exact hok.payload_eq (validateFact_eq_ok.1 hnormal).1 hkey
    · exact Or.inr ⟨key', record, hfind, hpayload, he⟩
  · rintro (rfl | ⟨key', record, hfind, hpayload, he⟩)
    · exact ⟨key, _, if_pos rfl, habsorb.2, (hmem _).2 (Or.inl rfl)⟩
    · by_cases heq : key = key'
      · obtain rfl := heq
        have hok := hs key record hfind
        refine ⟨key, _, if_pos rfl, ?_, (hmem _).2 (Or.inr ⟨record, hfind, he⟩)⟩
        rw [habsorb.2, ← hpayload]
        exact (hok.payload_eq (validateFact_eq_ok.1 hnormal).1 hkey).symm
      · exact ⟨key', record, (if_neg heq).trans hfind, hpayload, he⟩

variable {sha : Bytes → FactDigest}

/-- Adding puts the admitted form of a fact into the set. -/
theorem mem_facts_add {s : EvidenceStore} (hs : RecordsOk s.records) {fact g : AnalysisFact} :
    g ∈ (s.add sha fact).1.facts ↔ admitted fact = some g ∨ g ∈ s.facts := by
  obtain ⟨hnone, h, -⟩ | ⟨normal, key, hsome, hvalid, hkey, h, -⟩ := add_cases sha s fact
  · simp [h, hnone]
  · rw [h, mem_facts_addNormalized hs hvalid hkey, hsome, Option.some.injEq, eq_comm]

/-- Adding a list of facts. -/
def addFacts (sha : Bytes → FactDigest) (s : EvidenceStore) (facts : List AnalysisFact) :
    EvidenceStore :=
  facts.foldl (fun s fact => (s.add sha fact).1) s

theorem addAll_store : ∀ (facts : List AnalysisFact) (s : EvidenceStore) (report : MergeReport),
    (facts.foldl (fun (state : EvidenceStore × MergeReport) fact =>
        let (s', result) := state.1.add sha fact
        (s', state.2.count result)) (s, report)).1 = addFacts sha s facts
  | [], _, _ => rfl
  | fact :: facts, s, _ => addAll_store facts (s.add sha fact).1 _

theorem StoreOk.addFacts : ∀ (facts : List AnalysisFact) {s : EvidenceStore}, StoreOk s →
    StoreOk (addFacts sha s facts)
  | [], _, hs => hs
  | fact :: facts, _, hs => StoreOk.addFacts facts (hs.add fact)

theorem mem_facts_addFacts : ∀ (facts : List AnalysisFact) {s : EvidenceStore}, StoreOk s →
    ∀ {g : AnalysisFact}, g ∈ (addFacts sha s facts).facts ↔
      (∃ fact ∈ facts, admitted fact = some g) ∨ g ∈ s.facts
  | [], s, _, g => by simp [addFacts]
  | fact :: facts, s, hs, g => by
    refine (mem_facts_addFacts facts (hs.add fact)).trans ?_
    rw [mem_facts_add hs.records, List.exists_mem_cons_iff, or_left_comm, or_assoc]

theorem mem_flattenedFacts {s : EvidenceStore} {fact : AnalysisFact} :
    fact ∈ s.flattenedFacts ↔ fact ∈ s.facts := by
  simp only [EvidenceStore.flattenedFacts, List.mem_flatMap, List.mem_map, Prod.exists,
    Cxx.Map.mem_entries_iff, mem_facts]
  constructor
  · rintro ⟨key, record, hfind, e, he, rfl⟩
    exact ⟨key, record, hfind, rfl, he⟩
  · rintro ⟨key, record, hfind, hpayload, he⟩
    exact ⟨key, record, hfind, fact.evidence, he, by rw [hpayload]⟩

/-- The facts of a store are valid and admitted as they are. -/
theorem StoreOk.admitted_of_mem {s : EvidenceStore} (hs : StoreOk s) {fact : AnalysisFact}
    (h : fact ∈ s.facts) : admitted fact = some fact := by
  obtain ⟨key, record, hfind, hpayload, he⟩ := h
  have hok := hs.records key record hfind
  have hvalid : validateFact fact = .ok () := by
    have := hok.valid _ he
    rwa [hpayload] at this
  exact admitted_eq_some.2 ⟨normalizeFact_self_iff.2 hvalid, key, hpayload ▸ hok.encoded⟩

/-- Merging is union. -/
theorem facts_merge {s other : EvidenceStore} (hs : StoreOk s) (ho : StoreOk other)
    (countConflicts : Bool) :
    (s.merge sha other countConflicts).1.facts = s.facts ∪ other.facts := by
  ext g
  have hstore : (s.merge sha other countConflicts).1 = addFacts sha s other.flattenedFacts :=
    addAll_store ..
  rw [hstore, mem_facts_addFacts _ hs, Set.mem_union, or_comm]
  refine or_congr_right ?_
  simp only [mem_flattenedFacts]
  constructor
  · rintro ⟨fact, hfact, hg⟩
    rw [ho.admitted_of_mem hfact] at hg
    exact Option.some.inj hg ▸ hfact
  · intro hg
    exact ⟨g, hg, ho.admitted_of_mem hg⟩

/-! ## The facts determine the records -/

theorem RecordOk.key_eq {key key' : Bytes} {record record' : EvidenceRecord}
    (h : RecordOk key record) (h' : RecordOk key' record')
    (hpayload : record.payload = record'.payload) : key = key' := by
  have hencoded := h.encoded
  rw [hpayload, h'.encoded] at hencoded
  exact (Except.ok.inj hencoded).symm

theorem mem_observations_iff {s : EvidenceStore} (hs : RecordsOk s.records) {key : Bytes}
    {record : EvidenceRecord} (hfind : s.records.find key = some record) {e : Evidence} :
    e ∈ record.observations ↔ ⟨record.payload, e⟩ ∈ s.facts := by
  constructor
  · exact fun he => ⟨key, record, hfind, rfl, he⟩
  · rintro ⟨key', record', hfind', hpayload, he⟩
    obtain rfl := (hs _ _ hfind').key_eq (hs _ _ hfind) hpayload
    obtain rfl := Option.some.inj (hfind.symm.trans hfind')
    exact he

theorem find_of_facts_eq {s t : EvidenceStore} (hs : RecordsOk s.records)
    (ht : RecordsOk t.records) (h : s.facts = t.facts) {key : Bytes} {record : EvidenceRecord}
    (hfind : s.records.find key = some record) : t.records.find key = some record := by
  have hok := hs key record hfind
  obtain ⟨e, he⟩ := List.exists_mem_of_ne_nil _ hok.nonempty
  have hmem : ⟨record.payload, e⟩ ∈ t.facts := h ▸ (mem_observations_iff hs hfind).1 he
  obtain ⟨key', record', hfind', hpayload, -⟩ := hmem
  have hok' := ht key' record' hfind'
  obtain rfl := hok'.key_eq hok hpayload
  have hobservations : record'.observations = record.observations :=
    Cxx.eq_of_mem_iff hok'.sorted hok.sorted fun x => by
      rw [mem_observations_iff ht hfind', mem_observations_iff hs hfind, hpayload, h]
  have hrecord : record' = record := by
    cases record
    cases record'
    simp_all
  exact hrecord ▸ hfind'

/-- Two stores with the same facts have the same records. -/
theorem records_eq_of_facts {s t : EvidenceStore} (hs : RecordsOk s.records)
    (ht : RecordsOk t.records) (h : s.facts = t.facts) : s.records = t.records := by
  refine Cxx.Map.ext_find fun key => Option.ext fun record => ?_
  exact ⟨find_of_facts_eq hs ht h, find_of_facts_eq ht hs h.symm⟩

/-- Serialization reads the records only. -/
theorem serialize_eq_of_records {s t : EvidenceStore} (h : s.records = t.records) :
    s.serialize sha = t.serialize sha := by
  obtain ⟨records, index⟩ := s
  obtain ⟨records', index'⟩ := t
  obtain rfl : records = records' := h
  rfl

/-! ## Ways of building a store -/

/-- Adding facts one by one and merging the stores built so far. -/
inductive Assembly where
  | empty
  | add (a : Assembly) (fact : AnalysisFact)
  | merge (a b : Assembly) (countConflicts : Bool)

namespace Assembly

/-- The store built. -/
def store (sha : Bytes → FactDigest) : Assembly → EvidenceStore
  | .empty => EvidenceStore.empty
  | .add a fact => ((a.store sha).add sha fact).1
  | .merge a b countConflicts => ((a.store sha).merge sha (b.store sha) countConflicts).1

/-- All facts given to any of the stores, with repetitions. -/
def inputs : Assembly → List AnalysisFact
  | .empty => []
  | .add a fact => fact :: a.inputs
  | .merge a b _ => a.inputs ++ b.inputs

theorem reachable : ∀ a : Assembly, EvidenceStore.Reachable sha (a.store sha)
  | .empty => .empty
  | .add a fact => .add fact a.reachable
  | .merge a b countConflicts => .merge countConflicts a.reachable b.reachable

/-- The store holds the admitted forms of its inputs. -/
theorem mem_facts_store : ∀ (a : Assembly) {g : AnalysisFact},
    g ∈ (a.store sha).facts ↔ ∃ fact ∈ a.inputs, admitted fact = some g
  | .empty, g => by simp [store, inputs, facts_empty]
  | .add a fact, g => by
    rw [store, inputs, mem_facts_add a.reachable.ok.records, mem_facts_store a,
      List.exists_mem_cons_iff]
  | .merge a b countConflicts, g => by
    rw [store, inputs, facts_merge a.reachable.ok b.reachable.ok, Set.mem_union,
      mem_facts_store a, mem_facts_store b]
    simp only [List.mem_append, or_and_right, exists_or]

end Assembly

/-! ## Laws -/

section Laws

variable {s t u : EvidenceStore} (hs : EvidenceStore.Reachable sha s)
  (ht : EvidenceStore.Reachable sha t) (hu : EvidenceStore.Reachable sha u)

include hs

theorem add_comm_records (f g : AnalysisFact) :
    ((s.add sha f).1.add sha g).1.records = ((s.add sha g).1.add sha f).1.records := by
  refine records_eq_of_facts (hs.add f |>.add g).ok.records (hs.add g |>.add f).ok.records ?_
  ext x
  rw [mem_facts_add (hs.add f).ok.records, mem_facts_add (hs.add g).ok.records,
    mem_facts_add hs.ok.records, mem_facts_add hs.ok.records, or_left_comm]

theorem add_idem_records (f : AnalysisFact) :
    ((s.add sha f).1.add sha f).1.records = (s.add sha f).1.records := by
  refine records_eq_of_facts (hs.add f |>.add f).ok.records (hs.add f).ok.records ?_
  ext x
  rw [mem_facts_add (hs.add f).ok.records, mem_facts_add hs.ok.records, ← or_assoc, or_self]

theorem merge_idem_records (m : Bool) : (s.merge sha s m).1.records = s.records := by
  refine records_eq_of_facts (hs.merge m hs).ok.records hs.ok.records ?_
  rw [facts_merge hs.ok hs.ok, Set.union_self]

include ht

theorem merge_comm_records (m n : Bool) :
    (s.merge sha t m).1.records = (t.merge sha s n).1.records := by
  refine records_eq_of_facts (hs.merge m ht).ok.records (ht.merge n hs).ok.records ?_
  rw [facts_merge hs.ok ht.ok, facts_merge ht.ok hs.ok, Set.union_comm]

include hu

theorem merge_assoc_records (m n k l : Bool) :
    ((s.merge sha t m).1.merge sha u n).1.records =
      (s.merge sha (t.merge sha u k).1 l).1.records := by
  have hst := hs.merge m ht
  have htu := ht.merge k hu
  refine records_eq_of_facts (hst.merge n hu).ok.records (hs.merge l htu).ok.records ?_
  rw [facts_merge hst.ok hu.ok, facts_merge hs.ok ht.ok, facts_merge hs.ok htu.ok,
    facts_merge ht.ok hu.ok, Set.union_assoc]

end Laws

/-- **A store depends only on the set of its facts**: not on their order, on repetitions, or on how
they were spread over merged stores. -/
theorem store_determined_by_facts (sha : Bytes → FactDigest) :
    (∀ a b : Assembly, (∀ fact, fact ∈ a.inputs ↔ fact ∈ b.inputs) →
        (a.store sha).records = (b.store sha).records ∧
          (a.store sha).serialize sha = (b.store sha).serialize sha) ∧
      (∀ s, EvidenceStore.Reachable sha s → ∀ f g,
        ((s.add sha f).1.add sha g).1.records = ((s.add sha g).1.add sha f).1.records ∧
          ((s.add sha f).1.add sha f).1.records = (s.add sha f).1.records) ∧
      ∀ s t u, EvidenceStore.Reachable sha s → EvidenceStore.Reachable sha t →
        EvidenceStore.Reachable sha u → ∀ m n k l,
          (s.merge sha t m).1.records = (t.merge sha s n).1.records ∧
            ((s.merge sha t m).1.merge sha u n).1.records =
              (s.merge sha (t.merge sha u k).1 l).1.records ∧
            (s.merge sha s m).1.records = s.records := by
  refine ⟨fun a b h => ?_, fun s hs f g => ⟨add_comm_records hs f g, add_idem_records hs f⟩,
    fun s t u hs ht hu m n k l => ⟨merge_comm_records hs ht m n,
      merge_assoc_records hs ht hu m n k l, merge_idem_records hs m⟩⟩
  have hfacts : (a.store sha).facts = (b.store sha).facts := by
    ext g
    simp only [Assembly.mem_facts_store, h]
  have hrecords :=
    records_eq_of_facts a.reachable.ok.records b.reachable.ok.records hfacts
  exact ⟨hrecords, serialize_eq_of_records hrecords⟩

theorem swapped_assemblies_agree :
    ((((Assembly.empty.add sampleFact).add sampleFact).merge (.add .empty rivalFact) false).store
        fun _ => FactDigest.zero).records =
      (((Assembly.empty.add rivalFact).add sampleFact).store fun _ => FactDigest.zero).records :=
  ((store_determined_by_facts fun _ => FactDigest.zero).1 _ _ fun fact => by
    simp only [Assembly.inputs, List.mem_append, List.mem_cons, List.not_mem_nil]
    tauto).1

end Viy.Analysis
