import Viy.Absint.Run
import Mathlib.Algebra.Group.Basic
import Mathlib.Data.List.Induction

/-!
# Propagation of known values

An instruction assigns to all places at once: a place takes a value that it reads from a place
before the instruction and shifts by a constant, it takes a constant, or it is left open. What is
known of some places before a list of such instructions is propagated to what is known behind them.
This is exact: a place is known to hold a value exactly if it holds that value after every run.
-/

namespace Absint

/-- Where a place gets its value from. -/
inductive Source (π V : Type*) where
  | copy (place : π) (shift : V)
  | constant (v : V)
  | anything

section Propagation

variable {ι π V : Type*} [AddGroup V] (source : ι → π → Source π V)

/-- A step of an instruction. -/
def Moves (i : ι) (m m' : π → V) : Prop :=
  ∀ p, match source i p with
    | .copy q d => m' p = m q + d
    | .constant v => m' p = v
    | .anything => True

/-- What is known after an instruction. -/
def propagate (k : π → Option V) (i : ι) (p : π) : Option V :=
  match source i p with
  | .copy q d => (k q).map (· + d)
  | .constant v => some v
  | .anything => none

/-- What is known of a state holds in it. -/
def Describes (k : π → Option V) (m : π → V) : Prop := ∀ p v, k p = some v → m p = v

/-- What a place holds after a step from `m`, if the open ones get `u`. -/
def moved (u : V) (i : ι) (m : π → V) (p : π) : V :=
  match source i p with
  | .copy q d => m q + d
  | .constant v => v
  | .anything => u

variable {source} {k : π → Option V} {p : π} {v : V}

theorem moves_moved (u : V) (i : ι) (m : π → V) : Moves source i m (moved source u i m) := by
  intro p
  unfold moved
  cases source i p with
  | copy q d => rfl
  | constant v => rfl
  | anything => trivial

theorem soundAt_propagate (k : π → Option V) (i : ι) :
    SoundAt (Moves source) Describes (propagate source) k i := by
  intro m m' hm hmoves p v hv
  have hp := hmoves p
  unfold propagate at hv
  cases hsource : source i p with
  | copy q d =>
    rw [hsource] at hp hv
    obtain ⟨w, hw, rfl⟩ := Option.map_eq_some_iff.1 hv
    rw [← hm q w hw]
    exact hp
  | constant c =>
    rw [hsource] at hp hv
    exact hp.trans (Option.some.inj hv)
  | anything =>
    rw [hsource] at hv
    cases hv

theorem describes_of_run {l : List ι} {m m' : π → V} (hm : Describes k m)
    (hrun : Run (Moves source) l m m') : Describes (l.foldl (propagate source) k) m' :=
  (soundAlong_of_positions fun _ i _ _ => soundAt_propagate _ i).run hm hrun

theorem exists_run (l : List ι) : ∀ m : π → V, ∃ m', Run (Moves source) l m m' := by
  induction l with
  | nil =>
    intro m
    exact ⟨m, rfl⟩
  | cons i l ih =>
    intro m
    obtain ⟨m', hm'⟩ := ih (moved source 0 i m)
    exact ⟨m', _, moves_moved 0 i m, hm'⟩

theorem describes_getD (k : π → Option V) : Describes k fun p => (k p).getD 0 := by
  intro p v hv
  show (k p).getD 0 = v
  rw [hv]
  rfl

/-- A state that is described, with any value in a place that is not known. -/
theorem exists_describes [DecidableEq π] (hp : k p = none) (u : V) :
    ∃ m, Describes k m ∧ m p = u := by
  refine ⟨fun q => if q = p then u else (k q).getD 0, ?_, if_pos rfl⟩
  intro q w hw
  have hq : q ≠ p := by
    rintro rfl
    rw [hp] at hw
    cases hw
  show (if q = p then u else (k q).getD 0) = w
  rw [if_neg hq, hw]
  rfl

/-- A place that is not known behind a list may hold any value there. -/
theorem exists_run_of_unknown [DecidableEq π] (l : List ι) : ∀ {p : π},
    l.foldl (propagate source) k p = none → ∀ u, ∃ m m', Describes k m ∧
      Run (Moves source) l m m' ∧ m' p = u := by
  induction l using List.reverseRecOn with
  | nil =>
    intro p hp u
    obtain ⟨m, hm, hu⟩ := exists_describes hp u
    exact ⟨m, m, hm, rfl, hu⟩
  | append_singleton l i ih =>
    intro p hp u
    rw [List.foldl_append] at hp
    change propagate source (l.foldl (propagate source) k) i p = none at hp
    unfold propagate at hp
    cases hsource : source i p with
    | copy q d =>
      rw [hsource] at hp
      obtain ⟨m, m', hm, hrun, hq⟩ := ih (Option.map_eq_none_iff.1 hp) (u - d)
      refine ⟨m, moved source 0 i m', hm, run_append.2 ⟨m', hrun, _, moves_moved 0 i m', rfl⟩, ?_⟩
      unfold moved
      rw [hsource]
      dsimp only
      rw [hq, sub_add_cancel]
    | constant c =>
      rw [hsource] at hp
      cases hp
    | anything =>
      obtain ⟨m', hrun⟩ := exists_run l fun q => (k q).getD 0
      refine ⟨_, moved source u i m', describes_getD k,
        run_append.2 ⟨m', hrun, _, moves_moved u i m', rfl⟩, ?_⟩
      unfold moved
      rw [hsource]

/-- Propagation is exact. -/
theorem propagated_iff [DecidableEq π] [Nontrivial V] (l : List ι) :
    l.foldl (propagate source) k p = some v ↔
      ∀ m m', Describes k m → Run (Moves source) l m m' → m' p = v := by
  constructor
  · intro hp m m' hm hrun
    exact describes_of_run hm hrun p v hp
  · intro hall
    cases hp : l.foldl (propagate source) k p with
    | none =>
      obtain ⟨u, hu⟩ := exists_ne v
      obtain ⟨m, m', hm, hrun, hpu⟩ := exists_run_of_unknown l hp u
      exact absurd (hpu.symm.trans (hall m m' hm hrun)) hu
    | some w =>
      obtain ⟨m', hrun⟩ := exists_run l fun q => (k q).getD 0
      rw [← hall _ m' (describes_getD k) hrun, describes_of_run (describes_getD k) hrun p w hp]

end Propagation

end Absint
