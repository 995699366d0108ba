import Mathlib.Data.List.Basic

/-!
# Programs that can be interrupted

A `Proc` changes a state through primitive steps. A script of events says what happens at the
primitives: each one takes the next event, changes the state, and returns a value or stops the
program there. Behind the end of the script nothing goes wrong any more, so the empty script is an
undisturbed run.

`Triple E P p Q C` is a Hoare triple with a crash condition: from a state with `P`, under events
with `E`, the program returns with `Q` or is interrupted in a state with `C`.
-/

namespace Fault

/-- A program over states `σ` and events `ε`; no result means that it was interrupted. -/
structure Proc (σ ε α : Type) where
  run : σ → List ε → Option α × σ × List ε

namespace Proc

variable {σ ε α β : Type}

instance : Monad (Proc σ ε) where
  pure a := ⟨fun s script => (some a, s, script)⟩
  bind p f := ⟨fun s script => match p.run s script with
    | (some a, s', script') => (f a).run s' script'
    | (none, s', script') => (none, s', script')⟩

/-- A primitive step: what it does undisturbed, and at an event. -/
def prim (normal : σ → α × σ) (faulty : ε → σ → Option α × σ) : Proc σ ε α :=
  ⟨fun s script => match script with
    | [] => (some (normal s).1, (normal s).2, [])
    | e :: rest => ((faulty e s).1, (faulty e s).2, rest)⟩

@[simp] theorem run_pure (a : α) (s : σ) (script : List ε) :
    (pure a : Proc σ ε α).run s script = (some a, s, script) := rfl

theorem run_bind (p : Proc σ ε α) (f : α → Proc σ ε β) (s : σ) (script : List ε) :
    (p >>= f).run s script = match p.run s script with
      | (some a, s', script') => (f a).run s' script'
      | (none, s', script') => (none, s', script') := rfl

/-- Steps that no event disturbs: looking at the state, changing it, and giving up. -/
def get (f : σ → α) : Proc σ ε α := ⟨fun s script => (some (f s), s, script)⟩

def modify (f : σ → σ) : Proc σ ε Unit := ⟨fun s script => (some (), f s, script)⟩

def stop : Proc σ ε α := ⟨fun s script => (none, s, script)⟩

def require (condition : Bool) : Proc σ ε Unit := if condition then pure () else stop

def lift : Option α → Proc σ ε α
  | some a => pure a
  | none => stop

/-- The caller goes on where the program has stopped. -/
def attempt (p : Proc σ ε α) : Proc σ ε (Option α) :=
  ⟨fun s script => (some (p.run s script).1, (p.run s script).2)⟩

/-- A loop of at most `fuel` turns; a turn goes on with a new value or ends the loop with a
result. -/
def loop (turn : α → Proc σ ε (α ⊕ β)) (atLimit : α → Proc σ ε β) : ℕ → α → Proc σ ε β
  | 0, a => atLimit a
  | fuel + 1, a => do
    match ← turn a with
    | .inl a' => loop turn atLimit fuel a'
    | .inr b => pure b

theorem loop_zero (turn : α → Proc σ ε (α ⊕ β)) (atLimit : α → Proc σ ε β) (a : α) :
    loop turn atLimit 0 a = atLimit a := rfl

theorem loop_succ (turn : α → Proc σ ε (α ⊕ β)) (atLimit : α → Proc σ ε β) (fuel : ℕ) (a : α) :
    loop turn atLimit (fuel + 1) a = turn a >>= fun
      | .inl a' => loop turn atLimit fuel a'
      | .inr b => pure b := rfl

section Run

variable {p : Proc σ ε α} {f : α → Proc σ ε β} {s s' : σ} {script rest : List ε}

/-- A sequence returns if both parts do. -/
theorem run_bind_eq_some {b : β} : (p >>= f).run s script = (some b, s', rest) ↔
    ∃ a t mid, p.run s script = (some a, t, mid) ∧ (f a).run t mid = (some b, s', rest) := by
  rw [run_bind]
  rcases p.run s script with ⟨_ | a, t, mid⟩
  · simp
  · constructor
    · intro h
      exact ⟨a, t, mid, rfl, h⟩
    · rintro ⟨a', t', mid', heq, h⟩
      obtain ⟨rfl, rfl, rfl⟩ : a = a' ∧ t = t' ∧ mid = mid' := by simpa using heq
      exact h

theorem run_bind_of_returned {a : α} {t : σ} {mid : List ε}
    (h : p.run s script = (some a, t, mid)) :
    (p >>= f).run s script = (f a).run t mid := by
  rw [run_bind, h]

theorem run_bind_of_stopped {t : σ} {mid : List ε} (h : p.run s script = (none, t, mid)) :
    (p >>= f).run s script = (none, t, mid) := by
  rw [run_bind, h]

/-- It stops in the first part, or in the second from where the first has returned. -/
theorem run_bind_eq_none : (p >>= f).run s script = (none, s', rest) ↔
    p.run s script = (none, s', rest) ∨
      ∃ a t mid, p.run s script = (some a, t, mid) ∧ (f a).run t mid = (none, s', rest) := by
  rw [run_bind]
  rcases p.run s script with ⟨_ | a, t, mid⟩
  · simp
  · constructor
    · intro h
      exact Or.inr ⟨a, t, mid, rfl, h⟩
    · rintro (h | ⟨a', t', mid', heq, h⟩)
      · simp at h
      · obtain ⟨rfl, rfl, rfl⟩ : a = a' ∧ t = t' ∧ mid = mid' := by simpa using heq
        exact h

@[simp] theorem run_get (g : σ → α) :
    (get g : Proc σ ε α).run s script = (some (g s), s, script) := rfl

@[simp] theorem run_modify (g : σ → σ) :
    (modify g : Proc σ ε Unit).run s script = (some (), g s, script) := rfl

@[simp] theorem run_stop : (stop : Proc σ ε α).run s script = (none, s, script) := rfl

theorem run_require_eq_some {condition : Bool} :
    (require condition : Proc σ ε Unit).run s script = (some (), s', rest) ↔
      condition = true ∧ s = s' ∧ script = rest := by
  cases condition <;> simp [require]

theorem run_lift_eq_some {o : Option α} {a : α} :
    (lift o : Proc σ ε α).run s script = (some a, s', rest) ↔
      o = some a ∧ s = s' ∧ script = rest := by
  cases o <;> simp [lift]

theorem run_lift_eq_none {o : Option α} :
    (lift o : Proc σ ε α).run s script = (none, s', rest) ↔
      o = none ∧ s = s' ∧ script = rest := by
  cases o <;> simp [lift]

@[simp] theorem run_attempt : p.attempt.run s script =
    (some (p.run s script).1, (p.run s script).2) := rfl

end Run

@[simp] theorem run_prim_nil (normal : σ → α × σ) (faulty : ε → σ → Option α × σ) (s : σ) :
    (prim normal faulty).run s [] = (some (normal s).1, (normal s).2, []) := rfl

end Proc

open Proc

variable {σ ε α β : Type}

/-- Under events with `E`, from `P`: a return establishes `Q`, an interruption leaves `C`. -/
structure Triple (E : ε → Prop) (P : σ → Prop) (p : Proc σ ε α) (Q : α → σ → Prop)
    (C : σ → Prop) : Prop where
  returned : ∀ {s s' : σ} {script rest : List ε} {a : α}, P s → (∀ e ∈ script, E e) →
    p.run s script = (some a, s', rest) → Q a s' ∧ ∀ e ∈ rest, E e
  interrupted : ∀ {s s' : σ} {script rest : List ε}, P s → (∀ e ∈ script, E e) →
    p.run s script = (none, s', rest) → C s'

namespace Triple

variable {E : ε → Prop} {P P' : σ → Prop} {Q Q' : α → σ → Prop} {C C' : σ → Prop}
  {p : Proc σ ε α}

theorem conseq (h : Triple E P p Q C) (hP : ∀ s, P' s → P s) (hQ : ∀ a s, Q a s → Q' a s)
    (hC : ∀ s, C s → C' s) : Triple E P' p Q' C' :=
  ⟨fun hs hscript hrun => ⟨hQ _ _ (h.returned (hP _ hs) hscript hrun).1,
      (h.returned (hP _ hs) hscript hrun).2⟩,
    fun hs hscript hrun => hC _ (h.interrupted (hP _ hs) hscript hrun)⟩

/-- What the precondition says about the program alone. -/
theorem of_pre {φ : Prop} (hφ : ∀ s, P s → φ) (h : φ → Triple E P p Q C) : Triple E P p Q C :=
  ⟨fun hs hscript hrun => (h (hφ _ hs)).returned hs hscript hrun,
    fun hs hscript hrun => (h (hφ _ hs)).interrupted hs hscript hrun⟩

theorem pure {a : α} (h : ∀ s, P s → Q a s) : Triple E P (Pure.pure a) Q C := by
  constructor
  · rintro s s' script rest b hs hscript hrun
    obtain ⟨rfl, rfl, rfl⟩ : a = b ∧ s = s' ∧ script = rest := by simpa using hrun
    exact ⟨h _ hs, hscript⟩
  · rintro s s' script rest hs hscript hrun
    simp at hrun

/-- Sequencing: an interruption of either part is one of the whole. -/
theorem bind {R : α → σ → Prop} {Q : β → σ → Prop} {f : α → Proc σ ε β}
    (h : Triple E P p R C) (hf : ∀ a, Triple E (R a) (f a) Q C) : Triple E P (p >>= f) Q C := by
  constructor
  · intro s s' script rest b hs hscript hrun
    rw [run_bind] at hrun
    rcases hp : p.run s script with ⟨_ | a, t, script'⟩ <;> rw [hp] at hrun
    · simp at hrun
    · obtain ⟨hR, hscript'⟩ := h.returned hs hscript hp
      exact (hf a).returned hR hscript' hrun
  · intro s s' script rest hs hscript hrun
    rw [run_bind] at hrun
    rcases hp : p.run s script with ⟨_ | a, t, script'⟩ <;> rw [hp] at hrun
    · obtain rfl : t = s' := (Prod.mk.inj (Prod.mk.inj hrun).2).1
      exact h.interrupted hs hscript hp
    · obtain ⟨hR, hscript'⟩ := h.returned hs hscript hp
      exact (hf a).interrupted hR hscript' hrun

/-- A primitive: the undisturbed step and each event are looked at once. -/
theorem prim {normal : σ → α × σ} {faulty : ε → σ → Option α × σ}
    (hnormal : ∀ s, P s → Q (normal s).1 (normal s).2)
    (hreturn : ∀ e s a s', E e → P s → faulty e s = (some a, s') → Q a s')
    (hcut : ∀ e s s', E e → P s → faulty e s = (none, s') → C s') :
    Triple E P (Proc.prim normal faulty) Q C := by
  constructor
  · intro s s' script rest a hs hscript hrun
    cases script with
    | nil =>
      simp only [run_prim_nil, Prod.mk.injEq, Option.some.injEq] at hrun
      obtain ⟨rfl, rfl, rfl⟩ := hrun
      exact ⟨hnormal s hs, hscript⟩
    | cons e script =>
      simp only [Proc.prim, Prod.mk.injEq] at hrun
      obtain ⟨ha, hs', rfl⟩ := hrun
      refine ⟨hreturn e s a s' (hscript e List.mem_cons_self) hs (Prod.ext ha hs'), ?_⟩
      exact fun e he => hscript e (List.mem_cons_of_mem _ he)
  · intro s s' script rest hs hscript hrun
    cases script with
    | nil => simp at hrun
    | cons e script =>
      simp only [Proc.prim, Prod.mk.injEq] at hrun
      exact hcut e s s' (hscript e List.mem_cons_self) hs (Prod.ext hrun.1 hrun.2.1)

end Triple

end Fault
