import Mathlib.Data.List.Basic

/-!
# Searches over positions

The loop of `std::upper_bound`, over the positions at which a predicate holds. If the predicate
holds on an initial segment, the loop finds its length. `advanceWhile` goes from one position to the
next as long as the predicate holds.
-/

namespace Cxx

/-- `while (first < last)`, halving the range; a range of length `fuel` at most is searched. -/
def bisect (p : ℕ → Bool) : ℕ → ℕ → ℕ → ℕ
  | 0, first, _ => first
  | fuel + 1, first, last =>
    if first < last then
      let mid := first + (last - first) / 2
      if p mid = true then bisect p fuel (mid + 1) last else bisect p fuel first mid
    else first

theorem bisect_spec {p : ℕ → Bool} (hp : ∀ i j, i ≤ j → p j = true → p i = true) (fuel : ℕ) :
    ∀ {first last : ℕ}, first ≤ last → last - first ≤ fuel →
      (∀ i < first, p i = true) → (∀ i, last ≤ i → p i = false) →
        (∀ i < bisect p fuel first last, p i = true) ∧
          ∀ i, bisect p fuel first last ≤ i → p i = false := by
  induction fuel with
  | zero =>
    intro first last hle hfuel hbefore hafter
    obtain rfl : first = last := by omega
    exact ⟨hbefore, hafter⟩
  | succ fuel ih =>
    intro first last hle hfuel hbefore hafter
    unfold bisect
    by_cases hlt : first < last
    · rw [if_pos hlt]
      show (∀ i < (if p (first + (last - first) / 2) = true then _ else _), _) ∧ _
      by_cases hmid : p (first + (last - first) / 2) = true
      · simp only [if_pos hmid]
        refine ih (by omega) (by omega) ?_ hafter
        intro i hi
        exact hp i _ (by omega) hmid
      · simp only [if_neg hmid]
        refine ih (by omega) (by omega) hbefore ?_
        intro i hi
        by_contra htrue
        exact hmid (hp _ i hi (by simpa using htrue))
    · rw [if_neg hlt]
      obtain rfl : first = last := by omega
      exact ⟨hbefore, hafter⟩

/-- `while (i < end && p(i)) ++i`, with `n` for `end - i`. -/
def advanceWhile (p : ℕ → Bool) : ℕ → ℕ → ℕ
  | 0, i => i
  | n + 1, i => if p i then advanceWhile p n (i + 1) else i

/-- The predicate holds up to where the loop stops, and not there. -/
theorem advanceWhile_spec (p : ℕ → Bool) (n : ℕ) : ∀ i,
    i ≤ advanceWhile p n i ∧ advanceWhile p n i ≤ i + n ∧
      (∀ j, i ≤ j → j < advanceWhile p n i → p j = true) ∧
      (advanceWhile p n i < i + n → p (advanceWhile p n i) = false) := by
  induction n with
  | zero =>
    intro i
    refine ⟨Nat.le_refl _, Nat.le_refl _, ?_, ?_⟩
    · intro j hle hlt
      exact absurd hlt (Nat.not_lt.2 hle)
    · intro hlt
      exact absurd hlt (Nat.lt_irrefl _)
  | succ n ih =>
    intro i
    rw [advanceWhile]
    by_cases hp : p i = true
    · rw [if_pos hp]
      obtain ⟨hle, hup, hset, hstop⟩ := ih (i + 1)
      refine ⟨by omega, by omega, ?_, ?_⟩
      · intro j hij hj
        rcases Nat.eq_or_lt_of_le hij with rfl | hlt
        · exact hp
        · exact hset j hlt hj
      · intro hlt
        exact hstop (by omega)
    · rw [if_neg hp]
      refine ⟨Nat.le_refl _, by omega, ?_, fun _ => Bool.eq_false_iff.2 hp⟩
      intro j hle hlt
      exact absurd hlt (Nat.not_lt.2 hle)

end Cxx
