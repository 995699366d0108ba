import Mathlib.Data.List.Basic

/-!
# Runs of a list of instructions, and transfer functions

`Run` is the semantics of straight-line code: one step of a relation for every instruction of a
list. A transfer function is sound at an abstract value if it follows every step from a state the
value describes; if it is sound along a list, its fold describes the state after every run. A goal
is inevitable if every execution comes to it, however its choices are made.
-/

namespace Absint

variable {ι σ α : Type*}

/-- A run through a list of instructions. -/
def Run (R : ι → σ → σ → Prop) : List ι → σ → σ → Prop
  | [], s, t => s = t
  | i :: l, s, t => ∃ u, R i s u ∧ Run R l u t

variable {R : ι → σ → σ → Prop} {s t : σ}

theorem run_append {l m : List ι} : Run R (l ++ m) s t ↔ ∃ u, Run R l s u ∧ Run R m u t := by
  induction l generalizing s with
  | nil =>
    constructor
    · intro h
      exact ⟨s, rfl, h⟩
    · rintro ⟨u, rfl, h⟩
      exact h
  | cons i l ih =>
    constructor
    · rintro ⟨v, hstep, hrun⟩
      obtain ⟨u, hl, hm⟩ := ih.1 hrun
      exact ⟨u, ⟨v, hstep, hl⟩, hm⟩
    · rintro ⟨u, ⟨v, hstep, hl⟩, hm⟩
      exact ⟨v, hstep, ih.2 ⟨u, hl, hm⟩⟩

/-- What every step keeps of the instructions behind it and the state, a run keeps. -/
theorem run_history {I : List ι → σ → Prop}
    (hstep : ∀ before i s t, I before s → R i s t → I (before ++ [i]) t) (l : List ι) :
    ∀ {before : List ι} {s t : σ}, I before s → Run R l s t → I (before ++ l) t := by
  induction l with
  | nil =>
    rintro before s t h rfl
    rwa [List.append_nil]
  | cons i l ih =>
    rintro before s t h ⟨u, hi, hrun⟩
    rw [List.append_cons]
    exact ih (hstep before i s u h hi) hrun

/-! ## Transfer functions -/

section Transfer

variable (γ : α → σ → Prop) (R) (f : α → ι → α)

/-- The transfer function follows every step of an instruction. -/
def SoundAt (a : α) (i : ι) : Prop := ∀ s t, γ a s → R i s t → γ (f a i) t

/-- It does so at every instruction of a list. -/
def SoundAlong : α → List ι → Prop
  | _, [] => True
  | a, i :: l => SoundAt R γ f a i ∧ SoundAlong (f a i) l

variable {γ R f}

theorem SoundAlong.append {l m : List ι} : ∀ {a : α},
    SoundAlong R γ f a (l ++ m) ↔
      SoundAlong R γ f a l ∧ SoundAlong R γ f (l.foldl f a) m := by
  induction l with
  | nil =>
    intro a
    simp [SoundAlong]
  | cons i l ih =>
    intro a
    simp only [List.cons_append, SoundAlong, List.foldl_cons, ih, and_assoc]

/-- A transfer function that is sound along a list describes the end of every run. -/
theorem SoundAlong.run {l : List ι} : ∀ {a : α} {s t : σ}, SoundAlong R γ f a l → γ a s →
    Run R l s t → γ (l.foldl f a) t := by
  induction l with
  | nil =>
    rintro a s t - ha rfl
    exact ha
  | cons i l ih =>
    rintro a s t ⟨hat, halong⟩ ha ⟨u, hstep, hrun⟩
    exact ih halong (hat s u ha hstep) hrun

/-- Soundness along a list is soundness at each of its positions. -/
theorem soundAlong_of_positions {l : List ι} : ∀ {a : α},
    (∀ before i after, l = before ++ i :: after → SoundAt R γ f (before.foldl f a) i) →
      SoundAlong R γ f a l := by
  induction l with
  | nil =>
    intro a h
    exact trivial
  | cons i l ih =>
    intro a h
    refine ⟨h [] i l rfl, ih ?_⟩
    rintro before j after rfl
    exact h (i :: before) j after rfl

end Transfer

/-- What a fold makes true, one of its steps made true. -/
theorem exists_step_of_foldl {f : α → ι → α} {P : α → Prop} {l : List ι} : ∀ {a : α}, ¬ P a →
    P (l.foldl f a) → ∃ before i after, l = before ++ i :: after ∧
      ¬ P (before.foldl f a) ∧ P (f (before.foldl f a) i) := by
  induction l with
  | nil =>
    intro a h0 h
    exact absurd h h0
  | cons i l ih =>
    intro a h0 h
    by_cases hi : P (f a i)
    · exact ⟨[], i, l, rfl, h0, hi⟩
    · obtain ⟨before, j, after, rfl, hbefore, hj⟩ := ih hi h
      exact ⟨i :: before, j, after, rfl, hbefore, hj⟩

/-! ## Inevitable goals -/

/-- Every execution goes on, and comes to the goal after one step or more. -/
inductive Inevitable (step : σ → σ → Prop) (goal : σ → Prop) : σ → Prop
  | intro {s : σ} : (∃ t, step s t) → (∀ t, step s t → ¬ goal t → Inevitable step goal t) →
      Inevitable step goal s

section Inevitable

variable {step : σ → σ → Prop} {goal : σ → Prop}

theorem Inevitable.exists_step (h : Inevitable step goal s) : ∃ t, step s t := by
  obtain ⟨hgo, -⟩ := h
  exact hgo

theorem Inevitable.next (h : Inevitable step goal s) (hstep : step s t) (hgoal : ¬ goal t) :
    Inevitable step goal t := by
  obtain ⟨-, hall⟩ := h
  exact hall t hstep hgoal

end Inevitable

end Absint
