import Viy.Store.Detect

/-!
# When payloads contradict each other

`contradicts` decides whether two payloads have a conflict of severity Contradiction.
`contradicts_iff` says on which subjects that happens, in the terms of the buckets both scans use,
and `contradicts_comm` that on valid payloads the order of the operands does not matter.
-/

namespace Viy.Analysis

open Wire

def Finding.contradiction (finding : Finding) : Bool := finding.severity == .contradiction

/-- Two payloads cannot both be true. -/
def contradicts (p q : FactPayload) : Bool := (findings p q).any Finding.contradiction

/-! ## Conflicts and findings -/

theorem mem_comparePayloads {only : Bool} {l r : Operand} {c : EvidenceConflict} :
    c ∈ comparePayloads only l r ↔ ∃ f ∈ findings l.payload r.payload,
      (only = true → f.severity = .contradiction) ∧ f.conflict l r = c := by
  rw [comparePayloads, List.mem_flatMap]
  refine exists_congr fun f => and_congr_right fun _ => ?_
  by_cases h : f.severity = .contradiction
  · simp [addConflict, h, eq_comm (a := c)]
  · cases only <;> simp [addConflict, h, eq_comm (a := c)]

/-- The restricted comparison keeps the contradictions. -/
theorem mem_comparePayloads_true {l r : Operand} {c : EvidenceConflict} :
    c ∈ comparePayloads true l r ↔ c ∈ comparePayloads false l r ∧ c.severity = .contradiction := by
  simp only [mem_comparePayloads]
  constructor
  · rintro ⟨f, hf, hsev, rfl⟩
    exact ⟨⟨f, hf, fun h => (nomatch h), rfl⟩, hsev trivial⟩
  · rintro ⟨⟨f, hf, -, rfl⟩, hsev⟩
    exact ⟨f, hf, fun _ => hsev, rfl⟩

theorem contradicts_iff_exists {l r : Operand} :
    contradicts l.payload r.payload = true ↔
      ∃ c ∈ comparePayloads false l r, c.severity = .contradiction := by
  simp only [contradicts, List.any_eq_true, mem_comparePayloads, Finding.contradiction, beq_iff_eq]
  constructor
  · rintro ⟨f, hf, hsev⟩
    exact ⟨f.conflict l r, ⟨f, hf, fun h => (nomatch h), rfl⟩, hsev⟩
  · rintro ⟨_, ⟨f, hf, -, rfl⟩, hsev⟩
    exact ⟨f, hf, hsev⟩

/-- The digests of a conflict are those of its operands, in one order or the other. -/
theorem digests_of_mem {only : Bool} {l r : Operand} {c : EvidenceConflict}
    (h : c ∈ comparePayloads only l r) :
    (c.left = l.digest ∧ c.right = r.digest) ∨ (c.left = r.digest ∧ c.right = l.digest) := by
  obtain ⟨f, -, -, rfl⟩ := mem_comparePayloads.1 h
  simp only [Finding.conflict]
  split_ifs
  · exact Or.inr ⟨rfl, rfl⟩
  · exact Or.inl ⟨rfl, rfl⟩

theorem Finding.conflict_comm (f : Finding) (l r : Operand) : f.conflict l r = f.conflict r l := by
  simp only [Finding.conflict]
  rcases digestOrder.cases l.digest r.digest with h | h | h
  · simp [h, digestOrder.asymm h]
  · simp [h]
  · simp [h, digestOrder.asymm h]

/-! ## Bucket keys -/

theorem codeTargetKey_eq_some {p : FactPayload} {k : Address × UInt8} :
    codeTargetKey p = some k ↔ ∃ f, p = .codeTarget f ∧ (f.fromAddr, code f.kind) = k := by
  cases p <;> simp [codeTargetKey]

theorem dispatchMapKey_eq_some {p : FactPayload} {k : Address} :
    dispatchMapKey p = some k ↔ ∃ f, p = .dispatchMap f ∧ f.site = k := by
  cases p <;> simp [dispatchMapKey]

/-- An edge has a key and a state, from a branch or a CFG candidate. -/
theorem edgeKey_eq_some {p : FactPayload} {k : Address × Address} :
    edgeKey p = some k ↔ (∃ f, p = .branchReachability f ∧ (f.branch, f.successor) = k) ∨
      ∃ f, p = .cfgCandidate f ∧ (f.fromAddr, f.toAddr) = k := by
  cases p <;> simp [edgeKey]

theorem functionEvidenceKey_eq_some {p : FactPayload} {k : Address} :
    functionEvidenceKey p = some k ↔ (∃ f, p = .functionTrait f ∧ f.function = k) ∨
      ∃ f, p = .functionOutcome f ∧ f.function = k := by
  cases p <;> simp [functionEvidenceKey]

/-! ## Contradictions of one kind -/

theorem any_compareDispatchMaps (l r : DispatchMapFact) :
    (compareDispatchMaps l r).any Finding.contradiction = dispatchMapsContradict l r := by
  have hambiguity : (ConflictSeverity.ambiguity == ConflictSeverity.contradiction) = false := rfl
  by_cases hsite : l.site = r.site
  · cases hl : l.complete <;> cases hr : r.complete <;> cases hd : competingDefaults l r <;>
      simp [compareDispatchMaps, dispatchMapsContradict, hsite, hl, hr, hd, hambiguity,
        Finding.contradiction, List.any_filter, Function.comp_def, Bool.or_assoc]
  · simp [compareDispatchMaps, dispatchMapsContradict, hsite]

/-- Return and no-return assertions, and a concrete return against a no-return trait. -/
def returnsContradict (p q : FactPayload) : Bool :=
  (isReturns p && isNoReturn q) || (isNoReturn p && isReturns q) ||
    (isNoReturn p && isReturnedOutcome q) || (isReturnedOutcome p && isNoReturn q)

theorem any_compareTraits (l r : FunctionTraitFact) :
    (compareTraits l r).any Finding.contradiction =
      (l.function == r.function && returnsContradict (.functionTrait l) (.functionTrait r)) := by
  have hkinds : ∀ t t' : FunctionTraitKind, (isReturnTrait t && isReturnTrait t' && t != t') =
      ((t == .returns && t' == .noReturn) || (t == .noReturn && t' == .returns)) := by
    intro t t'
    cases t <;> cases t' <;> rfl
  have hreturns : returnsContradict (.functionTrait l) (.functionTrait r) =
      (isReturnTrait l.trait && isReturnTrait r.trait && l.trait != r.trait) := by
    simp [returnsContradict, isReturns, isNoReturn, isReturnedOutcome, hkinds]
  rw [hreturns]
  simp only [compareTraits]
  split_ifs <;> simp_all [Finding.contradiction]

theorem any_compareCalls (l r : CallObservationFact) :
    (compareCalls l r).any Finding.contradiction = false := by
  simp only [compareCalls]
  split_ifs <;> rfl

/-! ## Subjects -/

/-- Some common key of a bucket family. -/
def SameKey {κ : Type} (key : FactPayload → Option κ) (p q : FactPayload) : Prop :=
  ∃ k, key p = some k ∧ key q = some k

/-- Regions with a common byte. -/
def Overlap (l r : CodeRegionFact) : Prop := max l.start r.start < min l.endAddr r.endAddr

theorem overlap_iff {l r : CodeRegionFact} : Overlap l r ↔
    (l.start < l.endAddr ∧ r.start < r.endAddr) ∧ r.start < l.endAddr ∧ l.start < r.endAddr := by
  rw [Overlap, UInt64.lt_iff_toNat_lt, toNat_max_u64, toNat_min_u64]
  simp only [UInt64.lt_iff_toNat_lt]
  omega

theorem Overlap.symm {l r : CodeRegionFact} (h : Overlap l r) : Overlap r l := by
  rw [overlap_iff] at h ⊢
  exact ⟨h.1.symm, h.2.symm⟩

theorem region_start_lt {fact : CodeRegionFact}
    (h : validatePayload (.codeRegion fact) = .ok ()) : fact.start < fact.endAddr :=
  of_decide_eq_true (require_eq_ok.1 h)

/-- Incompatible regions with a common byte. -/
def RegionsClash (p q : FactPayload) : Prop :=
  ∃ l r, p = .codeRegion l ∧ q = .codeRegion r ∧ Overlap l r ∧
    regionKindsIncompatible l.kind r.kind = true

/-- **Subjects of contradictions.** -/
theorem contradicts_iff {p q : FactPayload} : contradicts p q = true ↔
    (SameKey codeTargetKey p q ∧ codeTargetsContradict p q = true) ∨
    (SameKey edgeKey p q ∧ edgesContradict p q = true) ∨
    (SameKey functionEvidenceKey p q ∧ returnsContradict p q = true) ∨
    (SameKey dispatchMapKey p q ∧ dispatchesContradict p q = true) ∨ RegionsClash p q := by
  constructor
  · intro h
    unfold contradicts findings at h
    split at h
    case h_9 l r =>
      rw [any_compareTraits, Bool.and_eq_true, beq_iff_eq] at h
      exact Or.inr (Or.inr (Or.inl ⟨⟨_, rfl, congrArg some h.1.symm⟩, h.2⟩))
    case h_14 l r => exact absurd h (by simp [any_compareCalls])
    case h_16 l r =>
      rw [any_compareDispatchMaps] at h
      have hsite : l.site = r.site := by
        by_contra hne
        simp [dispatchMapsContradict, hne] at h
      exact Or.inr (Or.inr (Or.inr (Or.inl ⟨⟨_, rfl, congrArg some hsite.symm⟩, h⟩)))
    all_goals simp [Finding.contradiction, and_assoc] at h
    case h_1 l r =>
      obtain ⟨hfrom, hkind, htarget, hunique⟩ := h
      exact Or.inl ⟨⟨_, rfl, by simp [codeTargetKey, hfrom, hkind]⟩, by
        simp [codeTargetsContradict, htarget, hunique]⟩
    case h_10 l r =>
      obtain ⟨hf, htrait, hstop⟩ := h
      exact Or.inr (Or.inr (Or.inl ⟨⟨_, rfl, congrArg some hf.symm⟩, by
        simp [returnsContradict, isReturns, isNoReturn, isReturnedOutcome, htrait, hstop]⟩))
    case h_11 l r =>
      obtain ⟨hf, hstop, htrait⟩ := h
      exact Or.inr (Or.inr (Or.inl ⟨⟨_, rfl, congrArg some hf.symm⟩, by
        simp [returnsContradict, isReturns, isNoReturn, isReturnedOutcome, htrait, hstop]⟩))
    case h_15 l r => exact Or.inr (Or.inr (Or.inr (Or.inr ⟨l, r, rfl, rfl, h⟩)))
    all_goals
      obtain ⟨hfrom, hto, hstate⟩ := h
      exact Or.inr (Or.inl ⟨⟨_, rfl, by simp [edgeKey, hfrom, hto]⟩, hstate⟩)
  · rintro (⟨⟨k, hp, hq⟩, h⟩ | ⟨⟨k, hp, hq⟩, h⟩ | ⟨⟨k, hp, hq⟩, h⟩ | ⟨⟨k, hp, hq⟩, h⟩ |
      ⟨l, r, rfl, rfl, h⟩)
    · obtain ⟨l, rfl, hl⟩ := codeTargetKey_eq_some.1 hp
      obtain ⟨r, rfl, hr⟩ := codeTargetKey_eq_some.1 hq
      obtain ⟨hfrom, hkind⟩ := Prod.mk.inj (hl.trans hr.symm)
      simp [codeTargetsContradict] at h
      simp [contradicts, findings, hfrom, code_injective hkind, h, Finding.contradiction]
    · rcases edgeKey_eq_some.1 hp with ⟨l, rfl, hl⟩ | ⟨l, rfl, hl⟩ <;>
        rcases edgeKey_eq_some.1 hq with ⟨r, rfl, hr⟩ | ⟨r, rfl, hr⟩ <;>
        obtain ⟨hfrom, hto⟩ := Prod.mk.inj (hl.trans hr.symm) <;>
        simp only [edgesContradict, edgeState] at h <;>
        simp [contradicts, findings, hfrom, hto, h, Finding.contradiction]
    · rcases functionEvidenceKey_eq_some.1 hp with ⟨l, rfl, hl⟩ | ⟨l, rfl, hl⟩ <;>
        rcases functionEvidenceKey_eq_some.1 hq with ⟨r, rfl, hr⟩ | ⟨r, rfl, hr⟩ <;>
        have hf := hl.trans hr.symm
      · exact (any_compareTraits l r).trans (by simp [hf, h])
      all_goals
        simp [returnsContradict, isReturns, isNoReturn, isReturnedOutcome] at h
      · simp [contradicts, findings, hf, h, Finding.contradiction]
      · simp [contradicts, findings, hf, h, Finding.contradiction]
    · obtain ⟨l, rfl, rfl⟩ := dispatchMapKey_eq_some.1 hp
      obtain ⟨r, rfl, -⟩ := dispatchMapKey_eq_some.1 hq
      exact (any_compareDispatchMaps l r).trans h
    · have hlt : max l.start r.start < min l.endAddr r.endAddr := h.1
      simp [contradicts, findings, hlt, h.2, Finding.contradiction]

/-! ## Symmetry -/

/-- A case between two cases of one selector has that selector. -/
theorem selector_between {a b c : DispatchCase} (hab : dispatchCaseLess a b = true)
    (hbc : dispatchCaseLess b c = true) (ha : a.selector.isSome = true)
    (heq : a.selector = c.selector) : b.selector = a.selector := by
  obtain ⟨s, hs⟩ := Option.isSome_iff_exists.1 ha
  have hc : c.selector = some s := heq.symm.trans hs
  rcases hb : b.selector with _ | t
  · simp [dispatchCaseLess, hb, hc] at hbc
  · by_contra hne
    have hst : s ≠ t := fun h => hne (by rw [hs, h])
    have hlt : Cxx.Comparator.u64.less s t = true := by
      simpa [dispatchCaseLess, hs, hb, hst, Cxx.Comparator.option] using hab
    have hgt : Cxx.Comparator.u64.less t s = true := by
      simpa [dispatchCaseLess, hc, hb, hst.symm, Cxx.Comparator.option] using hbc
    exact Cxx.clash (Cxx.Comparator.u64.asymm hlt) hgt

/-- Known selectors of a strictly sorted list come once when no neighbours share one. -/
theorem selectors_nodup : ∀ {cases : List DispatchCase}, Cxx.Sorted dispatchCaseLess cases →
    selectorsFunctional cases = true →
      cases.Pairwise fun a b => a.selector.isSome = true → a.selector ≠ b.selector
  | [], _, _ => List.Pairwise.nil
  | [_], _, _ => List.pairwise_singleton _ _
  | a :: b :: l, hsorted, hfun => by
    rw [selectorsFunctional, Bool.and_eq_true] at hfun
    refine List.pairwise_cons.2 ⟨fun c hc ha heq => ?_, selectors_nodup hsorted.of_cons hfun.2⟩
    have hab : dispatchCaseLess a b = true := hsorted.head b List.mem_cons_self
    -- the neighbour lies between `a` and `c`, so it has their selector, and then equals `a`
    have hsel : b.selector = a.selector := by
      rcases List.mem_cons.1 hc with rfl | hc
      · exact heq.symm
      · exact selector_between hab (hsorted.of_cons.head c hc) ha heq
    have htarget : b.target = a.target := by
      by_contra hne
      simp [ha, hsel, hne] at hfun
    have hba : a = b := by
      cases a
      cases b
      simp_all
    exact dispatchCaseOrder.ne_of_less hab hba

/-- The selectors of a valid dispatch map come once. -/
theorem selectors_nodup_of_valid {f : DispatchMapFact}
    (h : validatePayload (.dispatchMap f) = .ok ()) :
    f.cases.Pairwise fun a b => a.selector.isSome = true → a.selector ≠ b.selector := by
  simp only [validatePayload, require_bind_eq_ok, require_eq_ok] at h
  obtain ⟨-, -, hsort, hadj, hfun⟩ := h
  have hpair : f.cases.Pairwise fun a b => dispatchCaseOrder.less b a = false :=
    hsort ▸ Cxx.sort_pairwise dispatchCaseOrder f.cases
  have hchain := Cxx.adjacentFind_eq_false_iff.1 (by simpa using hadj)
  exact selectors_nodup (Cxx.sorted_of_isChain dispatchCaseEqual_iff hpair hchain) hfun

/-- Looking up a selector that comes once finds every case with it. -/
theorem find_selector_eq : ∀ {cases : List DispatchCase} {rc : DispatchCase},
    cases.Pairwise (fun a b => a.selector.isSome = true → a.selector ≠ b.selector) →
      rc ∈ cases → rc.selector.isSome = true →
        cases.find? (fun c => c.selector == rc.selector) = some rc
  | a :: l, rc, h, hmem, hsome => by
    obtain ⟨ha, hl⟩ := List.pairwise_cons.1 h
    rcases List.mem_cons.1 hmem with rfl | hmem
    · simp
    · have hne : a.selector ≠ rc.selector := fun heq => ha rc hmem (heq ▸ hsome) heq
      rw [List.find?_cons_of_neg (by simpa using hne)]
      exact find_selector_eq hl hmem hsome

theorem competingCase_isSome_iff {r : DispatchMapFact}
    (hr : r.cases.Pairwise fun a b => a.selector.isSome = true → a.selector ≠ b.selector)
    (lc : DispatchCase) :
    (competingCase r lc).isSome = true ↔ lc.selector.isSome = true ∧
      ∃ rc ∈ r.cases, rc.selector = lc.selector ∧ rc.target ≠ lc.target := by
  rw [competingCase]
  by_cases hlc : lc.selector.isSome = true
  · rw [if_neg (by simp [Option.isNone_iff_eq_none, Option.isSome_iff_ne_none.1 hlc]),
      and_iff_right hlc, Option.isSome_filter, Option.any_eq_true]
    constructor
    · rintro ⟨rc, hfind, hne⟩
      exact ⟨rc, List.mem_of_find?_eq_some hfind, by simpa using List.find?_some hfind,
        by simpa using hne⟩
    · rintro ⟨rc, hmem, heq, hne⟩
      exact ⟨rc, heq ▸ find_selector_eq hr hmem (heq ▸ hlc), by simpa using hne⟩
  · rw [Option.not_isSome_iff_eq_none] at hlc
    simp [hlc]

/-- A selector with different targets is found from either side. -/
theorem competing_comm {l r : DispatchMapFact} (hl : validatePayload (.dispatchMap l) = .ok ())
    (hr : validatePayload (.dispatchMap r) = .ok ()) :
    (l.cases.any fun c => (competingCase r c).isSome) =
      r.cases.any fun c => (competingCase l c).isSome := by
  have hiff := competingCase_isSome_iff (selectors_nodup_of_valid hr)
  have hiff' := competingCase_isSome_iff (selectors_nodup_of_valid hl)
  rw [Bool.eq_iff_iff, List.any_eq_true, List.any_eq_true]
  constructor
  · rintro ⟨lc, hlc, h⟩
    obtain ⟨hsome, rc, hrc, heq, hne⟩ := (hiff lc).1 h
    exact ⟨rc, hrc, (hiff' rc).2 ⟨heq ▸ hsome, lc, hlc, heq.symm, hne.symm⟩⟩
  · rintro ⟨rc, hrc, h⟩
    obtain ⟨hsome, lc, hlc, heq, hne⟩ := (hiff' rc).1 h
    exact ⟨lc, hlc, (hiff lc).2 ⟨heq ▸ hsome, rc, hrc, heq.symm, hne.symm⟩⟩

theorem competingDefaults_comm (l r : DispatchMapFact) :
    competingDefaults l r = competingDefaults r l := by
  rw [competingDefaults, competingDefaults, bne_comm, Bool.and_comm l.defaultTarget.isSome]

theorem any_and_const {α : Type} (l : List α) (p : α → Bool) (b : Bool) :
    (l.any fun a => p a && b) = (l.any p && b) := by
  induction l with
  | nil => rfl
  | cons a l ih => rw [List.any_cons, List.any_cons, ih, Bool.and_or_distrib_right]

theorem dispatchMapsContradict_comm {l r : DispatchMapFact}
    (hl : validatePayload (.dispatchMap l) = .ok ())
    (hr : validatePayload (.dispatchMap r) = .ok ()) :
    dispatchMapsContradict l r = dispatchMapsContradict r l := by
  by_cases hsite : l.site = r.site
  · simp only [dispatchMapsContradict, hsite, ne_eq, not_true_eq_false, if_false,
      any_and_const, competing_comm hl hr, competingDefaults_comm l r,
      Bool.or_comm l.complete]
    rw [Bool.or_assoc, Bool.or_assoc (_ || _), Bool.or_comm (l.complete && _)]
  · simp [dispatchMapsContradict, hsite, Ne.symm hsite]

theorem regionKindsIncompatible_comm (k k' : CodeRegionKind) :
    regionKindsIncompatible k k' = regionKindsIncompatible k' k := by
  cases k <;> cases k' <;> rfl

theorem returnsContradict_comm (p q : FactPayload) :
    returnsContradict p q = returnsContradict q p := by
  rw [Bool.eq_iff_iff]
  simp only [returnsContradict, Bool.or_eq_true, Bool.and_eq_true]
  tauto

theorem overlap_comm (l r : CodeRegionFact) :
    max l.start r.start = max r.start l.start ∧
      min l.endAddr r.endAddr = min r.endAddr l.endAddr := by
  constructor
  · rw [← UInt64.toNat_inj, toNat_max_u64, toNat_max_u64, max_comm]
  · rw [← UInt64.toNat_inj, toNat_min_u64, toNat_min_u64, min_comm]

theorem SameKey.symm {κ : Type} {key : FactPayload → Option κ} {p q : FactPayload}
    (h : SameKey key p q) : SameKey key q p := by
  obtain ⟨k, hp, hq⟩ := h
  exact ⟨k, hq, hp⟩

/-- One direction of `contradicts_comm`. -/
theorem contradicts_symm {p q : FactPayload} (hp : validatePayload p = .ok ())
    (hq : validatePayload q = .ok ()) (h : contradicts p q = true) : contradicts q p = true := by
  rw [contradicts_iff] at h ⊢
  rcases h with ⟨hkey, h⟩ | ⟨hkey, h⟩ | ⟨hkey, h⟩ | ⟨hkey, h⟩ | ⟨l, r, rfl, rfl, hlt, hkind⟩
  · refine Or.inl ⟨hkey.symm, ?_⟩
    obtain ⟨k, hp, hq⟩ := hkey
    obtain ⟨l, rfl, -⟩ := codeTargetKey_eq_some.1 hp
    obtain ⟨r, rfl, -⟩ := codeTargetKey_eq_some.1 hq
    simpa only [codeTargetsContradict, bne_comm, Bool.or_comm] using h
  · refine Or.inr (Or.inl ⟨hkey.symm, ?_⟩)
    unfold edgesContradict at h ⊢
    split at h
    case h_1 s s' hs hs' =>
      rw [hs, hs']
      simpa only [oppositeReachability, Bool.or_comm] using h
    case h_2 => cases h
  · refine Or.inr (Or.inr (Or.inl ⟨hkey.symm, ?_⟩))
    rwa [returnsContradict_comm]
  · refine Or.inr (Or.inr (Or.inr (Or.inl ⟨hkey.symm, ?_⟩)))
    obtain ⟨k, hkp, hkq⟩ := hkey
    obtain ⟨l, rfl, -⟩ := dispatchMapKey_eq_some.1 hkp
    obtain ⟨r, rfl, -⟩ := dispatchMapKey_eq_some.1 hkq
    exact (dispatchMapsContradict_comm hq hp).trans h
  · refine Or.inr (Or.inr (Or.inr (Or.inr ⟨r, l, rfl, rfl, ?_, ?_⟩)))
    · exact hlt.symm
    · rwa [regionKindsIncompatible_comm]

/-- On valid payloads the order of the operands does not matter. -/
theorem contradicts_comm {p q : FactPayload} (hp : validatePayload p = .ok ())
    (hq : validatePayload q = .ok ()) : contradicts p q = contradicts q p :=
  Bool.eq_iff_iff.2 ⟨contradicts_symm hp hq, contradicts_symm hq hp⟩

/-! ## No payload contradicts itself -/

theorem returnsContradict_self (p : FactPayload) : returnsContradict p p = false := by
  cases p
  case functionTrait fact =>
    cases h : fact.trait <;> simp [returnsContradict, isReturns, isNoReturn, isReturnedOutcome, h]
  all_goals simp [returnsContradict, isReturns, isNoReturn, isReturnedOutcome]

theorem dispatchMapsContradict_self {fact : DispatchMapFact}
    (h : validatePayload (.dispatchMap fact) = .ok ()) :
    dispatchMapsContradict fact fact = false := by
  have hnodup := selectors_nodup_of_valid h
  have hcases : (fact.cases.any fun c => (competingCase fact c).isSome) = false := by
    rw [List.any_eq_false]
    intro c hc hcompeting
    obtain ⟨hsome, d, hd, hselector, htarget⟩ := (competingCase_isSome_iff hnodup c).1 hcompeting
    have hfound := find_selector_eq hnodup hd (hselector ▸ hsome)
    rw [hselector, find_selector_eq hnodup hc hsome] at hfound
    exact htarget (congrArg DispatchCase.target (Option.some.inj hfound).symm)
  simp [dispatchMapsContradict, any_and_const, hcases, competingDefaults]

theorem contradicts_self {p : FactPayload} (hp : validatePayload p = .ok ()) :
    contradicts p p = false := by
  refine Bool.eq_false_iff.2 fun h => ?_
  rcases contradicts_iff.1 h with ⟨⟨k, hk, -⟩, h⟩ | ⟨⟨k, hk, -⟩, h⟩ | ⟨-, h⟩ | ⟨⟨k, hk, -⟩, h⟩ |
    ⟨l, r, rfl, hr, -, hkind⟩
  · obtain ⟨f, rfl, -⟩ := codeTargetKey_eq_some.1 hk
    simp [codeTargetsContradict] at h
  · unfold edgesContradict at h
    split at h
    case h_1 s s' hs hs' =>
      obtain rfl := Option.some.inj (hs.symm.trans hs')
      cases s <;> simp [oppositeReachability] at h
    case h_2 => cases h
  · exact Cxx.clash (returnsContradict_self p) h
  · obtain ⟨f, rfl, -⟩ := dispatchMapKey_eq_some.1 hk
    exact Cxx.clash (dispatchMapsContradict_self hp) h
  · obtain rfl := FactPayload.codeRegion.inj hr
    cases hk : l.kind <;> simp [hk, regionKindsIncompatible] at hkind

/-- A second sole target for the call of `sampleFact`. -/
def rivalFact : AnalysisFact :=
  { sampleFact with
    payload := .codeTarget { fromAddr := 0x1000, target := 0x3000, kind := .call, unique := true } }

example : contradicts sampleFact.payload rivalFact.payload = true := rfl

end Viy.Analysis
