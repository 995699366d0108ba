import Mathlib.Order.Defs.Unbundled
import Viy.Fault.Proc

/-!
# Programs that fail before their first effect

A relation says which changes of the state do not count. A program keeps it if no run does more than
that; it is atomic if no run that stops does more. Atomic programs are put together from a part that
keeps the relation in front and a part that cannot stop behind.
-/

namespace Fault

open Proc

variable {σ ε α β : Type} {R : σ → σ → Prop}

/-- No run changes more than the relation allows. -/
def Keeps (R : σ → σ → Prop) (p : Proc σ ε α) : Prop :=
  ∀ s script, R s (p.run s script).2.1

/-- No run that stops does. -/
def Atomic (R : σ → σ → Prop) (p : Proc σ ε α) : Prop :=
  ∀ s script, (p.run s script).1 = none → R s (p.run s script).2.1

/-- No run stops. -/
def Returns (p : Proc σ ε α) : Prop := ∀ s script, (p.run s script).1 ≠ none

theorem Keeps.atomic {p : Proc σ ε α} (h : Keeps R p) : Atomic R p := fun s script _ => h s script

theorem Returns.atomic {p : Proc σ ε α} (h : Returns p) : Atomic R p :=
  fun s script hnone => absurd hnone (h s script)

theorem Atomic.related {p : Proc σ ε α} (h : Atomic R p) {s s' : σ} {script rest : List ε}
    (hrun : p.run s script = (none, s', rest)) : R s s' := by
  have hrel := h s script
  rw [hrun] at hrel
  exact hrel rfl

theorem Keeps.bind [IsTrans σ R] {p : Proc σ ε α} {f : α → Proc σ ε β} (hp : Keeps R p)
    (hf : ∀ a, Keeps R (f a)) : Keeps R (p >>= f) := by
  intro s script
  rw [run_bind]
  have hfirst := hp s script
  rcases hrun : p.run s script with ⟨_ | a, t, mid⟩ <;> rw [hrun] at hfirst
  · exact hfirst
  · exact IsTrans.trans _ _ _ hfirst (hf a t mid)

theorem keeps_modify {f : σ → σ} (h : ∀ s, R s (f s)) : Keeps R (modify f : Proc σ ε Unit) :=
  fun s _ => h s

/-- What holds of a program holds of the attempt. -/
theorem Keeps.attempt {p : Proc σ ε α} (h : Keeps R p) : Keeps R p.attempt := h

theorem Atomic.bind [IsTrans σ R] {p : Proc σ ε α} {f : α → Proc σ ε β} (hp : Keeps R p)
    (hf : ∀ a, Atomic R (f a)) : Atomic R (p >>= f) := by
  intro s script hnone
  rw [run_bind] at hnone ⊢
  have hfirst := hp s script
  rcases hrun : p.run s script with ⟨_ | a, t, mid⟩ <;> rw [hrun] at hfirst hnone
  · exact hfirst
  · exact IsTrans.trans _ _ _ hfirst (hf a t mid hnone)

/-- Behind the first effect nothing may stop. -/
theorem Atomic.bind_returns {p : Proc σ ε α} {f : α → Proc σ ε β} (hp : Atomic R p)
    (hf : ∀ a, Returns (f a)) : Atomic R (p >>= f) := by
  intro s script hnone
  rw [run_bind] at hnone ⊢
  have hfirst := hp s script
  rcases hrun : p.run s script with ⟨_ | a, t, mid⟩ <;> rw [hrun] at hfirst hnone
  · exact hfirst rfl
  · exact absurd hnone (hf a t mid)

theorem Atomic.ite {condition : Prop} [Decidable condition] {p q : Proc σ ε α}
    (hp : Atomic R p) (hq : Atomic R q) : Atomic R (if condition then p else q) := by
  split_ifs
  · exact hp
  · exact hq

/-- A part that is skipped returns. -/
theorem Returns.ite {condition : Prop} [Decidable condition] {p q : Proc σ ε α}
    (hp : Returns p) (hq : Returns q) : Returns (if condition then p else q) := by
  split_ifs
  · exact hp
  · exact hq

theorem Returns.bind {p : Proc σ ε α} {f : α → Proc σ ε β} (hp : Returns p)
    (hf : ∀ a, Returns (f a)) : Returns (p >>= f) := by
  intro s script
  rw [run_bind]
  have hfirst := hp s script
  rcases hrun : p.run s script with ⟨_ | a, t, mid⟩ <;> rw [hrun] at hfirst
  · exact absurd rfl hfirst
  · exact hf a t mid

theorem returns_pure (a : α) : Returns (pure a : Proc σ ε α) := fun _ _ => nofun

theorem returns_modify (f : σ → σ) : Returns (modify f : Proc σ ε Unit) := fun _ _ => nofun

section Refl

variable [Std.Refl R]

theorem keeps_pure (a : α) : Keeps R (pure a : Proc σ ε α) := fun s _ => Std.Refl.refl s

theorem keeps_get (f : σ → α) : Keeps R (get f : Proc σ ε α) := fun s _ => Std.Refl.refl s

theorem keeps_stop : Keeps R (stop : Proc σ ε α) := fun s _ => Std.Refl.refl s

theorem keeps_lift (o : Option α) : Keeps R (lift o : Proc σ ε α) := by
  cases o with
  | none => exact keeps_stop
  | some a => exact keeps_pure a

theorem keeps_require (condition : Bool) : Keeps R (require condition : Proc σ ε Unit) := by
  cases condition with
  | false => exact keeps_stop
  | true => exact keeps_pure ()

theorem Keeps.loop [IsTrans σ R] {turn : α → Proc σ ε (α ⊕ β)} {atLimit : α → Proc σ ε β}
    (hturn : ∀ a, Keeps R (turn a)) (hlimit : ∀ a, Keeps R (atLimit a)) (fuel : ℕ) :
    ∀ a, Keeps R (Proc.loop turn atLimit fuel a) := by
  induction fuel with
  | zero =>
    intro a
    rw [loop_zero]
    exact hlimit a
  | succ fuel ih =>
    intro a
    rw [loop_succ]
    refine Keeps.bind (hturn a) ?_
    rintro (a' | b)
    · exact ih a'
    · exact keeps_pure b

end Refl

end Fault
