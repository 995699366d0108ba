import Viy.Lifecycle.Active

/-!
# Generations

Every observation carries a generation. The allocator hands out values that no observation of the
restored ledger has and that it has not handed out before. At the begin of an epoch each function
keeps its generation or gets a fresh one: first by the image and the bytes of the function, then by
the fingerprint of its emulation job. Both passes are one loop (`assignGenerations`) with different
tests; all functions that change in a pass share the fresh value.
-/

namespace Viy

open Analysis

/-! ## The allocator -/

structure EvidenceGenerationAllocator where
  used : Finset UInt64 := ∅
  cursor : UInt64 := 1

namespace EvidenceGenerationAllocator

/-- The largest value of the type. -/
def maxGeneration : UInt64 := 0xFFFFFFFFFFFFFFFF

def seed (history : EvidenceStore) : EvidenceGenerationAllocator :=
  let used := (history.flattenedFacts.map fun fact => fact.evidence.scope.generation).toFinset
  let largest := UInt64.ofNat (used.sup UInt64.toNat)
  { used := used
    cursor := if used ≠ ∅ ∧ largest ≠ maxGeneration then largest + 1 else 1 }

/-- The value behind a candidate; the search wraps around and never takes zero. -/
def next (candidate : UInt64) : UInt64 := if candidate = maxGeneration then 1 else candidate + 1

/-- The search of `allocate`; without fuel it would run on. -/
def search (used : Finset UInt64) : ℕ → UInt64 → Option UInt64
  | 0, _ => none
  | fuel + 1, candidate => if candidate ∈ used then search used fuel (next candidate) else candidate

/-- `allocate`; no result stands for a search that never ends. -/
def allocate (allocator : EvidenceGenerationAllocator) :
    Option (UInt64 × EvidenceGenerationAllocator) := do
  let candidate := if allocator.cursor = 0 then 1 else allocator.cursor
  let candidate ← search allocator.used (allocator.used.card + 1) candidate
  return (candidate, { used := insert candidate allocator.used, cursor := next candidate })

theorem toNat_next (candidate : UInt64) :
    (next candidate).toNat = candidate.toNat % (2 ^ 64 - 1) + 1 := by
  have hmax : maxGeneration.toNat = 2 ^ 64 - 1 := rfl
  have hlt := candidate.toNat_lt
  unfold next
  split_ifs with h
  · rw [h, hmax]
    rfl
  · have hne : candidate.toNat ≠ 2 ^ 64 - 1 := fun heq =>
      h (UInt64.toNat_inj.1 (heq.trans hmax.symm))
    rw [UInt64.toNat_add, UInt64.toNat_one, Nat.mod_eq_of_lt, Nat.mod_eq_of_lt] <;> omega

theorem next_ne_zero (candidate : UInt64) : next candidate ≠ 0 := by
  intro hzero
  have h := toNat_next candidate
  rw [hzero, UInt64.toNat_zero] at h
  omega

theorem search_eq_some {used : Finset UInt64} : ∀ {fuel : ℕ} {candidate found : UInt64},
    search used fuel candidate = some found → candidate ≠ 0 → found ∉ used ∧ found ≠ 0
  | 0, _, _, h, _ => nomatch h
  | fuel + 1, candidate, found, h, hne => by
    unfold search at h
    split_ifs at h with hmem
    · exact search_eq_some h (next_ne_zero candidate)
    · obtain rfl := Option.some.inj h
      exact ⟨hmem, hne⟩

theorem start_ne_zero (cursor : UInt64) : (if cursor = 0 then 1 else cursor) ≠ 0 := by
  split_ifs with hzero
  · decide
  · exact hzero

/-- An allocated generation is fresh, not zero, and used from then on. -/
theorem allocate_eq_some {a a' : EvidenceGenerationAllocator} {generation : UInt64}
    (h : a.allocate = some (generation, a')) :
    generation ∉ a.used ∧ generation ≠ 0 ∧ a'.used = insert generation a.used := by
  obtain ⟨candidate, hsearch, hresult⟩ := Option.bind_eq_some_iff.1 h
  obtain ⟨rfl, rfl⟩ := Prod.mk.inj (Option.some.inj hresult)
  obtain ⟨hfresh, hnonzero⟩ := search_eq_some hsearch (start_ne_zero a.cursor)
  exact ⟨hfresh, hnonzero, rfl⟩

/-! ### The search ends -/

theorem toNat_iterate_next {candidate : UInt64} (h : candidate ≠ 0) (k : ℕ) :
    (next^[k] candidate).toNat = (candidate.toNat + k - 1) % (2 ^ 64 - 1) + 1 := by
  have hlt := candidate.toNat_lt
  have hpos : candidate.toNat ≠ 0 := fun hzero => h (UInt64.toNat_inj.1 hzero)
  induction k with
  | zero =>
    rw [Function.iterate_zero_apply]
    omega
  | succ k ih =>
    rw [Function.iterate_succ_apply', toNat_next, ih]
    omega

theorem mem_of_search_eq_none {used : Finset UInt64} : ∀ {fuel : ℕ} {candidate : UInt64},
    search used fuel candidate = none → ∀ k < fuel, next^[k] candidate ∈ used
  | 0, _, _, k, hk => absurd hk (Nat.not_lt_zero k)
  | fuel + 1, candidate, h, k, hk => by
    unfold search at h
    split_ifs at h with hmem
    · cases k with
      | zero => exact hmem
      | succ k => exact mem_of_search_eq_none h k (by omega)

/-- As long as a generation other than zero is free, `allocate` returns. -/
theorem allocate_isSome {a : EvidenceGenerationAllocator} (h : a.used.card < 2 ^ 64 - 1) :
    a.allocate.isSome := by
  rcases hsearch : search a.used (a.used.card + 1) (if a.cursor = 0 then 1 else a.cursor) with
    _ | found
  · -- the candidates are pairwise different, so they cannot all be used
    exfalso
    have hmem := mem_of_search_eq_none hsearch
    have hiterate := toNat_iterate_next (start_ne_zero a.cursor)
    have hcard := Finset.card_le_card_of_injOn (s := Finset.range (a.used.card + 1))
      (fun k => next^[k] (if a.cursor = 0 then 1 else a.cursor))
      (fun k hk => hmem k (Finset.mem_range.1 hk)) ?_
    · rw [Finset.card_range] at hcard
      omega
    · intro i hi j hj heq
      have hi' := Finset.mem_range.1 hi
      have hj' := Finset.mem_range.1 hj
      have hmod := congrArg UInt64.toNat heq
      simp only [hiterate] at hmod
      have hpos : (if a.cursor = 0 then 1 else a.cursor).toNat ≠ 0 := fun hzero =>
        start_ne_zero a.cursor (UInt64.toNat_inj.1 hzero)
      omega
  · simp [allocate, hsearch]

end EvidenceGenerationAllocator

/-! ## Generations of the functions -/

/-- An entry of the image: a function with the hash of its chunks and bytes. -/
structure FuncRange where
  start : UInt64
  byteHash : UInt64
  generation : UInt64 := 0

structure FunctionEvidenceIdentity where
  byteHash : UInt64
  generation : UInt64

abbrev Identities := Cxx.Map Cxx.Comparator.u64 FunctionEvidenceIdentity

/-- The value that the changed functions of a pass share, zero before the first of them. -/
def changedGeneration (changed : UInt64) (allocator : EvidenceGenerationAllocator) :
    Option (UInt64 × EvidenceGenerationAllocator) :=
  if changed = 0 then allocator.allocate else some (changed, allocator)

/-- The loop of both passes. `keep` is the generation a function keeps, if it does. -/
def assignGenerations (keep : FuncRange → Option UInt64) :
    List FuncRange → UInt64 → EvidenceGenerationAllocator →
      Option (List FuncRange × EvidenceGenerationAllocator)
  | [], _, allocator => some ([], allocator)
  | function :: rest, changed, allocator =>
    match keep function with
    | some generation => do
      let (entries, allocator) ← assignGenerations keep rest changed allocator
      return ({ function with generation := generation } :: entries, allocator)
    | none => do
      let (changed, allocator) ← changedGeneration changed allocator
      let (entries, allocator) ← assignGenerations keep rest changed allocator
      return ({ function with generation := changed } :: entries, allocator)

/-- What a pass does to one function. -/
def reassign (keep : FuncRange → Option UInt64) (fresh : UInt64) (function : FuncRange) :
    FuncRange :=
  { function with generation := (keep function).getD fresh }

/-- **One pass.** All functions that do not keep their generation get the same value, and it was not
used before the pass. -/
theorem assignGenerations_spec {keep : FuncRange → Option UInt64} {old : Finset UInt64} :
    ∀ {fs : List FuncRange} {changed : UInt64} {a : EvidenceGenerationAllocator}
      {fs' : List FuncRange} {a' : EvidenceGenerationAllocator},
      assignGenerations keep fs changed a = some (fs', a') → old ⊆ a.used →
      (changed ≠ 0 → changed ∈ a.used ∧ changed ∉ old) →
      a.used ⊆ a'.used ∧ ∃ fresh, (changed ≠ 0 → fresh = changed) ∧
        fs' = fs.map (reassign keep fresh) ∧
          ∀ f ∈ fs, keep f = none → fresh ∈ a'.used ∧ fresh ∉ old := by
  intro fs
  induction fs with
  | nil =>
    intro changed a fs' a' h hold hchanged
    obtain ⟨rfl, rfl⟩ := Prod.mk.inj (Option.some.inj h)
    exact ⟨subset_rfl, changed, fun _ => rfl, rfl, by simp⟩
  | cons f fs ih =>
    intro changed a fs' a' h hold hchanged
    unfold assignGenerations at h
    cases hkeep : keep f with
    | some generation =>
      rw [hkeep] at h
      obtain ⟨⟨entries, b⟩, hrest, hresult⟩ := Option.bind_eq_some_iff.1 h
      obtain ⟨rfl, rfl⟩ := Prod.mk.inj (Option.some.inj hresult)
      obtain ⟨hused, fresh, hshared, rfl, hfresh⟩ := ih hrest hold hchanged
      refine ⟨hused, fresh, hshared, ?_, fun g hg hnone => ?_⟩
      · rw [List.map_cons, reassign, hkeep]
        rfl
      · rcases List.mem_cons.1 hg with rfl | hg
        · exact nomatch hkeep.symm.trans hnone
        · exact hfresh g hg hnone
    | none =>
      rw [hkeep] at h
      obtain ⟨⟨value, b⟩, hvalue, h⟩ := Option.bind_eq_some_iff.1 h
      obtain ⟨⟨entries, c⟩, hrest, hresult⟩ := Option.bind_eq_some_iff.1 h
      obtain ⟨rfl, rfl⟩ := Prod.mk.inj (Option.some.inj hresult)
      -- the value of this pass, allocated now or earlier in the loop
      have hstep : a.used ⊆ b.used ∧ value ≠ 0 ∧ (value ∈ b.used ∧ value ∉ old) ∧
          (changed ≠ 0 → value = changed) := by
        unfold changedGeneration at hvalue
        split_ifs at hvalue with hzero
        · obtain ⟨hnew, hne, hb⟩ := EvidenceGenerationAllocator.allocate_eq_some hvalue
          rw [hb]
          exact ⟨Finset.subset_insert _ _, hne,
            ⟨Finset.mem_insert_self _ _, fun h => hnew (hold h)⟩,
            fun h => absurd hzero h⟩
        · obtain ⟨rfl, rfl⟩ := Prod.mk.inj (Option.some.inj hvalue)
          exact ⟨subset_rfl, hzero, hchanged hzero, fun _ => rfl⟩
      obtain ⟨hab, hne, hmem, hvalue⟩ := hstep
      obtain ⟨hused, fresh, hshared, rfl, -⟩ := ih hrest (hold.trans hab) fun _ => hmem
      obtain rfl := hshared hne
      refine ⟨hab.trans hused, fresh, hvalue, ?_, fun _ _ _ => ⟨hused hmem.1, hmem.2⟩⟩
      rw [List.map_cons, reassign, hkeep]
      rfl

end Viy
