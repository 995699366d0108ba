import Mathlib.Data.List.Basic

/-!
# Merging into the last element

A loop over a vector that extends the last element of its result where the next element joins it,
and appends the next element where it does not. `join b x` is the extended element, if there is
one. What the rules ask of `join` is asked of single elements only: what all of them have in common
(`coalesce_forall`), what they cover together (`coalesce_covers`) and what keeps neighbours apart
(`coalesce_pairwise`) is then known of the whole result.
-/

namespace Cxx

variable {α ι : Type*}

def coalesceFrom (join : α → α → Option α) : α → List α → List α
  | back, [] => [back]
  | back, x :: l =>
    match join back x with
    | some back' => coalesceFrom join back' l
    | none => back :: coalesceFrom join x l

def coalesce (join : α → α → Option α) : List α → List α
  | [] => []
  | x :: l => coalesceFrom join x l

section Rules

variable {join : α → α → Option α}

theorem coalesceFrom_forall {P : α → Prop}
    (hjoin : ∀ ⦃b x b'⦄, P b → P x → join b x = some b' → P b') (l : List α) :
    ∀ {b}, P b → (∀ x ∈ l, P x) → ∀ r ∈ coalesceFrom join b l, P r := by
  induction l with
  | nil =>
    intro b hb _ r hr
    rw [List.mem_singleton.1 hr]
    exact hb
  | cons x l ih =>
    intro b hb hl
    have hx := hl x List.mem_cons_self
    have hrest : ∀ y ∈ l, P y := fun y hy => hl y (List.mem_cons_of_mem x hy)
    unfold coalesceFrom
    cases hstep : join b x with
    | some b' => exact ih (hjoin hb hx hstep) hrest
    | none =>
      intro r hr
      rcases List.mem_cons.1 hr with rfl | hr
      · exact hb
      · exact ih hx hrest r hr

/-- A property that joining keeps. -/
theorem coalesce_forall {P : α → Prop}
    (hjoin : ∀ ⦃b x b'⦄, P b → P x → join b x = some b' → P b') {l : List α}
    (hl : ∀ x ∈ l, P x) : ∀ r ∈ coalesce join l, P r := by
  cases l with
  | nil => exact hl
  | cons x l =>
    exact coalesceFrom_forall hjoin l (hl x List.mem_cons_self)
      fun y hy => hl y (List.mem_cons_of_mem x hy)

section Ordered

variable {Before : α → α → Prop}
  (hkeep : ∀ ⦃b x b' y⦄, join b x = some b' → Before b y → Before x y → Before b' y)

include hkeep

/-- The extended element comes before what follows the two. -/
theorem pairwise_of_join {b x b' : α} {l : List α} (hstep : join b x = some b')
    (h : (b :: x :: l).Pairwise Before) : (b' :: l).Pairwise Before := by
  obtain ⟨hb, hxl⟩ := List.pairwise_cons.1 h
  obtain ⟨hx, hl⟩ := List.pairwise_cons.1 hxl
  refine List.pairwise_cons.2 ⟨fun y hy => ?_, hl⟩
  exact hkeep hstep (hb y (List.mem_cons_of_mem x hy)) (hx y hy)

theorem coalesceFrom_covers {Covers : α → ι → Prop} {i : ι}
    (hjoin : ∀ ⦃b x b'⦄, Before b x → join b x = some b' →
      (Covers b' i ↔ Covers b i ∨ Covers x i)) (l : List α) :
    ∀ {b}, (b :: l).Pairwise Before →
      ((∃ r ∈ coalesceFrom join b l, Covers r i) ↔ ∃ x ∈ b :: l, Covers x i) := by
  induction l with
  | nil =>
    intro b _
    exact Iff.rfl
  | cons x l ih =>
    intro b hl
    have hbx : Before b x := (List.pairwise_cons.1 hl).1 x List.mem_cons_self
    unfold coalesceFrom
    cases hstep : join b x with
    | some b' =>
      show (∃ r ∈ coalesceFrom join b' l, Covers r i) ↔ _
      rw [ih (pairwise_of_join hkeep hstep hl), List.exists_mem_cons_iff, hjoin hbx hstep,
        List.exists_mem_cons_iff, List.exists_mem_cons_iff, or_assoc]
    | none =>
      show (∃ r ∈ b :: coalesceFrom join x l, Covers r i) ↔ _
      rw [List.exists_mem_cons_iff, ih (List.pairwise_cons.1 hl).2,
        List.exists_mem_cons_iff (a := b)]

/-- Joined elements cover what they covered apart, so the result covers what the input did. -/
theorem coalesce_covers {Covers : α → ι → Prop} {i : ι}
    (hjoin : ∀ ⦃b x b'⦄, Before b x → join b x = some b' →
      (Covers b' i ↔ Covers b i ∨ Covers x i)) {l : List α} (hl : l.Pairwise Before) :
    (∃ r ∈ coalesce join l, Covers r i) ↔ ∃ x ∈ l, Covers x i := by
  cases l with
  | nil => exact Iff.rfl
  | cons x l => exact coalesceFrom_covers hkeep hjoin l hl

section Apart

variable {Apart : α → α → Prop}
  (hsep : ∀ ⦃b x⦄, Before b x → join b x = none → Apart b x)
  (hfar : ∀ ⦃b x y⦄, Apart b x → Before x y → Apart b y)
  (hext : ∀ ⦃a b x b'⦄, Apart a b → join b x = some b' → Apart a b')

include hsep hfar hext

theorem coalesceFrom_pairwise (l : List α) :
    ∀ {b}, (b :: l).Pairwise Before → (coalesceFrom join b l).Pairwise Apart := by
  induction l with
  | nil =>
    intro b _
    exact List.pairwise_singleton Apart b
  | cons x l ih =>
    intro b hl
    unfold coalesceFrom
    cases hstep : join b x with
    | some b' => exact ih (pairwise_of_join hkeep hstep hl)
    | none =>
      obtain ⟨hb, hxl⟩ := List.pairwise_cons.1 hl
      refine List.pairwise_cons.2 ⟨?_, ih hxl⟩
      -- the next element does not join, and all others come behind it
      have hbx : Apart b x := hsep (hb x List.mem_cons_self) hstep
      have hbl : ∀ y ∈ l, Apart b y := fun y hy => hfar hbx ((List.pairwise_cons.1 hxl).1 y hy)
      exact coalesceFrom_forall (fun _ _ _ ha _ => hext ha) l hbx hbl

/-- Elements that did not join are apart, and stay apart from what comes behind them. -/
theorem coalesce_pairwise {l : List α} (hl : l.Pairwise Before) :
    (coalesce join l).Pairwise Apart := by
  cases l with
  | nil => exact List.Pairwise.nil
  | cons x l => exact coalesceFrom_pairwise hkeep hsep hfar hext l hl

end Apart

end Ordered

end Rules

end Cxx
