import Mathlib.Data.Set.Card
import Viy.Lifecycle.Generations
import Viy.Store.Latest

/-!
# Runs of the allocator

Every call of `allocate` uses up one value. As long as a value other than zero is free, the search
of the next call ends, so a run ends that asks for fewer values than are free. What it gets is free
of repetitions, and none of it is in the ledger the allocator was seeded with.
-/

namespace Viy

open Analysis

namespace EvidenceGenerationAllocator

/-- A number of calls, one after the other. -/
def allocateMany : ℕ → EvidenceGenerationAllocator →
    Option (List UInt64 × EvidenceGenerationAllocator)
  | 0, allocator => some ([], allocator)
  | n + 1, allocator => do
    let (generation, allocator) ← allocator.allocate
    let (generations, allocator) ← allocateMany n allocator
    return (generation :: generations, allocator)

/-- The free values: not zero, and of no observation of the history. -/
def unused (history : EvidenceStore) : Set UInt64 :=
  {generation | generation ≠ 0 ∧ ∀ e ∈ history.observations, e.scope.generation ≠ generation}

/-! ## Seeds -/

theorem mem_used_seed {history : EvidenceStore} {generation : UInt64} :
    generation ∈ (seed history).used ↔
      ∃ e ∈ history.observations, e.scope.generation = generation := by
  simp only [seed, EvidenceStore.flattenedFacts, EvidenceStore.observations, List.mem_toFinset,
    List.mem_map, List.mem_flatMap]
  constructor
  · rintro ⟨fact, ⟨entry, hentry, e, he, rfl⟩, rfl⟩
    exact ⟨e, ⟨entry, hentry, he⟩, rfl⟩
  · rintro ⟨e, ⟨entry, hentry, he⟩, rfl⟩
    exact ⟨⟨entry.2.payload, e⟩, ⟨entry, hentry, e, he, rfl⟩, rfl⟩

theorem injective_toNat : Function.Injective UInt64.toNat := fun _ _ => UInt64.toNat_inj.1

theorem toNat_mem_Ico {g : UInt64} (hg : g ≠ 0) : g.toNat ∈ Finset.Ico 1 (2 ^ 64) := by
  have hpos : g.toNat ≠ 0 := fun hzero => hg (UInt64.toNat_inj.1 hzero)
  have hlt := g.toNat_lt
  rw [Finset.mem_Ico]
  omega

theorem finite_unused (history : EvidenceStore) : (unused history).Finite :=
  Set.Finite.of_injOn (fun _ hg => toNat_mem_Ico hg.1) injective_toNat.injOn (Finset.finite_toSet _)

/-- The free values and the used ones other than zero are among the values other than zero. -/
theorem ncard_unused_add_le (history : EvidenceStore) :
    (unused history).ncard + ((seed history).used.erase 0).card ≤ 2 ^ 64 - 1 := by
  have hdisjoint : Disjoint (unused history) ((seed history).used.erase 0 : Finset UInt64) := by
    rw [Set.disjoint_left]
    intro g hg hmem
    obtain ⟨e, he, heq⟩ := mem_used_seed.1 (Finset.mem_of_mem_erase hmem)
    exact hg.2 e he heq
  calc (unused history).ncard + ((seed history).used.erase 0).card
      = (unused history ∪ ((seed history).used.erase 0 : Finset UInt64)).ncard := by
        rw [Set.ncard_union_eq hdisjoint (finite_unused history), Set.ncard_coe_finset]
    _ ≤ (Finset.Ico 1 (2 ^ 64) : Set ℕ).ncard := by
        refine Set.ncard_le_ncard_of_injOn UInt64.toNat ?_ injective_toNat.injOn
          (Finset.finite_toSet _)
        rintro g (hg | hg)
        · exact toNat_mem_Ico hg.1
        · exact toNat_mem_Ico (Finset.ne_of_mem_erase hg)
    _ = 2 ^ 64 - 1 := by rw [Set.ncard_coe_finset, Nat.card_Ico]

/-! ## Runs -/

/-- **A run of the allocator** returns fresh values, as long as there are enough of them. -/
theorem allocateMany_eq_some (n : ℕ) : ∀ {a : EvidenceGenerationAllocator},
    a.used.card + n ≤ 2 ^ 64 - 1 → ∃ generations a', a.allocateMany n = some (generations, a') ∧
      generations.length = n ∧ generations.Nodup ∧ ∀ g ∈ generations, g ≠ 0 ∧ g ∉ a.used := by
  induction n with
  | zero =>
    intro a _
    exact ⟨[], a, rfl, rfl, List.nodup_nil, fun g hg => absurd hg List.not_mem_nil⟩
  | succ n ih =>
    intro a hroom
    obtain ⟨⟨generation, b⟩, hallocate⟩ :=
      Option.isSome_iff_exists.1 (allocate_isSome (a := a) (by omega))
    obtain ⟨hfresh, hnonzero, hused⟩ := allocate_eq_some hallocate
    have hcard : b.used.card = a.used.card + 1 := by
      rw [hused, Finset.card_insert_of_notMem hfresh]
    obtain ⟨generations, a', hrest, hlength, hnodup, hall⟩ := ih (a := b) (by omega)
    refine ⟨generation :: generations, a', ?_, by rw [List.length_cons, hlength], ?_, ?_⟩
    · exact Option.bind_eq_some_iff.2 ⟨_, hallocate, Option.bind_eq_some_iff.2 ⟨_, hrest, rfl⟩⟩
    · refine List.nodup_cons.2 ⟨fun hmem => (hall generation hmem).2 ?_, hnodup⟩
      rw [hused]
      exact Finset.mem_insert_self _ _
    · refine List.forall_mem_cons.2 ⟨⟨hnonzero, hfresh⟩, fun g hg => ⟨(hall g hg).1, ?_⟩⟩
      intro hmem
      apply (hall g hg).2
      rw [hused]
      exact Finset.mem_insert_of_mem hmem

/-- **Fresh identities.** After a seed with any history, fewer calls than there are free values all
return, with values that are pairwise different, not zero and of no observation of the history. -/
theorem seeded_allocations_fresh {history : EvidenceStore} {n : ℕ}
    (hn : n < (unused history).ncard) :
    ∃ generations a', (seed history).allocateMany n = some (generations, a') ∧
      generations.length = n ∧ generations.Nodup ∧
      ∀ g ∈ generations, g ≠ 0 ∧ ∀ e ∈ history.observations, e.scope.generation ≠ g := by
  have hbound := ncard_unused_add_le history
  have herase : (seed history).used.card ≤ ((seed history).used.erase 0).card + 1 := by
    have hcard := Finset.pred_card_le_card_erase (s := (seed history).used) (a := 0)
    omega
  obtain ⟨generations, a', hrun, hlength, hnodup, hall⟩ :=
    allocateMany_eq_some n (a := seed history) (by omega)
  refine ⟨generations, a', hrun, hlength, hnodup, fun g hg => ⟨(hall g hg).1, ?_⟩⟩
  intro e he heq
  exact (hall g hg).2 (mem_used_seed.2 ⟨e, he, heq⟩)

/-- The ledger has an observation of the largest generation. -/
def maxHistory : EvidenceStore :=
  (EvidenceStore.empty.add (fun _ => FactDigest.zero) (snapshotFact 0x2000 maxGeneration)).1

theorem allocations_behind_max_fresh :
    ∃ generations a', (seed maxHistory).allocateMany 2 = some (generations, a') ∧
      generations.length = 2 ∧ generations.Nodup ∧
      ∀ g ∈ generations, g ≠ 0 ∧ ∀ e ∈ maxHistory.observations, e.scope.generation ≠ g := by
  refine seeded_allocations_fresh ?_
  have hsubset : (({1, 2, 3} : Finset UInt64) : Set UInt64) ⊆ unused maxHistory := by
    intro g hg
    rw [Finset.coe_insert, Finset.coe_pair] at hg
    rcases hg with rfl | rfl | rfl <;> exact ⟨by decide, by decide +kernel⟩
  have hcard := Set.ncard_le_ncard hsubset (finite_unused maxHistory)
  rw [Set.ncard_coe_finset] at hcard
  exact hcard

end EvidenceGenerationAllocator

end Viy
