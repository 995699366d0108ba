import Viy.Wire.Words

/-!
# Readers over a byte sequence

A reader consumes a prefix of its input or fails. `Reads r w a P` says what a reader does on the
byte form `w` of a value `a`: under the condition `P` (the limits the reader imposes) it yields
`a` and leaves whatever follows `w`, and otherwise it fails. The condition is exact, so the rules
below build a round trip and its failure cases in one derivation.
-/

namespace Wire

/-- A reader with error type `ε`; the state is the unread input. -/
structure Reader (ε α : Type) where
  run : Bytes → Except ε (α × Bytes)

namespace Reader

variable {ε α β : Type}

instance : Monad (Reader ε) where
  pure a := ⟨fun s => .ok (a, s)⟩
  bind r f := ⟨fun s => match r.run s with
    | .ok (a, s') => (f a).run s'
    | .error e => .error e⟩

@[simp] theorem run_pure (a : α) (s : Bytes) : (pure a : Reader ε α).run s = .ok (a, s) := rfl

theorem run_bind (r : Reader ε α) (f : α → Reader ε β) (s : Bytes) :
    (r >>= f).run s = match r.run s with
      | .ok (a, s') => (f a).run s'
      | .error e => .error e := rfl

theorem run_bind_eq_ok {r : Reader ε α} {f : α → Reader ε β} {s : Bytes} {x : β × Bytes} :
    (r >>= f).run s = .ok x ↔ ∃ a s', r.run s = .ok (a, s') ∧ (f a).run s' = .ok x := by
  rw [run_bind]
  rcases r.run s with e | ⟨a, s'⟩
  · exact iff_of_false (by rintro ⟨⟩) (by rintro ⟨_, _, ⟨⟩, _⟩)
  · constructor
    · exact fun h => ⟨a, s', rfl, h⟩
    · rintro ⟨_, _, ⟨rfl⟩, h⟩
      exact h

/-- Fail with an error. -/
def fail (e : ε) : Reader ε α := ⟨fun _ => .error e⟩

/-- Read exactly `n` bytes. -/
def raw (truncated : ε) (n : ℕ) : Reader ε Bytes :=
  ⟨fun s => if n > s.length then .error truncated else .ok (s.take n, s.drop n)⟩

def u8 (truncated : ε) : Reader ε UInt8 :=
  ⟨fun s => match s with
    | [] => .error truncated
    | b :: s => .ok (b, s)⟩

def u16 (truncated : ε) : Reader ε UInt16 := do
  let a ← u8 truncated
  let b ← u8 truncated
  return ofU16 a b

def u32 (truncated : ε) : Reader ε UInt32 := do
  let bytes ← raw truncated 4
  return ofU32 bytes

def u64 (truncated : ε) : Reader ε UInt64 := do
  let bytes ← raw truncated 8
  return ofU64 bytes

def i64 (truncated : ε) : Reader ε Int64 := do
  let raw ← u64 truncated
  return ofI64 raw

/-- Continue only if a condition holds. -/
def guard (p : Bool) (e : ε) : Reader ε Unit := if p then pure () else fail e

/-- Continue with the result of a computation that reads nothing. -/
def lift (x : Except ε α) : Reader ε α := ⟨fun s => match x with
  | .ok a => .ok (a, s)
  | .error e => .error e⟩

/-- Read a fixed number of items. -/
def many (r : Reader ε α) : ℕ → Reader ε (List α)
  | 0 => pure []
  | n + 1 => do
    let a ← r
    let l ← many r n
    return a :: l

end Reader

/-! ## Enumerations -/

/-- An enumeration with one-byte codes. -/
class Code (α : Type) where
  code : α → UInt8
  values : List α
  mem_values : ∀ a, a ∈ values
  code_inj : ∀ a ∈ values, ∀ b ∈ values, code a = code b → a = b

export Code (code)

theorem code_injective {α : Type} [Code α] : Function.Injective (code : α → UInt8) :=
  fun a b => Code.code_inj a (Code.mem_values a) b (Code.mem_values b)

/-- The enumerator with a code, if there is one. -/
def ofCode? (α : Type) [Code α] (v : UInt8) : Option α :=
  (Code.values : List α).find? fun a => code a == v

theorem ofCode?_code {α : Type} [Code α] (a : α) : ofCode? α (code a) = some a := by
  unfold ofCode?
  rcases h : (Code.values : List α).find? (fun b => code b == code a) with _ | b
  · rw [List.find?_eq_none] at h
    exact absurd (by simp) (h a (Code.mem_values a))
  · have hb : code b = code a := by simpa using List.find?_some h
    rw [code_injective hb]

/-- Read an enumerator by its code. -/
def Reader.enum {ε : Type} (α : Type) [Code α] (truncated invalid : ε) : Reader ε α := do
  match ofCode? α (← Reader.u8 truncated) with
  | some a => return a
  | none => Reader.fail invalid

/-! ## Readers on byte forms -/

/-- On the byte form `w` the reader yields `a` when `P` holds, and fails when it does not. -/
structure Reads {ε α : Type} (r : Reader ε α) (w : Bytes) (a : α) (P : Prop) : Prop where
  ok : P → ∀ rest, r.run (w ++ rest) = .ok (a, rest)
  error : ¬ P → ∀ rest, ∃ e, r.run (w ++ rest) = .error e

namespace Reads

variable {ε α β : Type} {r : Reader ε α} {w w' : Bytes} {a : α} {b : β} {P Q : Prop}

theorem of_true (h : ∀ rest, r.run (w ++ rest) = .ok (a, rest)) : Reads r w a True :=
  ⟨fun _ => h, fun h => absurd trivial h⟩

theorem congr (h : Reads r w a P) (hPQ : P ↔ Q) : Reads r w a Q :=
  ⟨fun q => h.ok (hPQ.2 q), fun q => h.error fun p => q (hPQ.1 p)⟩

theorem run_ok (h : Reads r w a P) (p : P) : r.run w = .ok (a, []) := by
  have hrun := h.ok p []
  rwa [List.append_nil] at hrun

theorem run_error (h : Reads r w a P) (p : ¬ P) : ∃ e, r.run w = .error e := by
  have hrun := h.error p []
  rwa [List.append_nil] at hrun

/-- The condition is exact. -/
theorem of_run_ok (h : Reads r w a P) {x : α × Bytes} (hrun : r.run w = .ok x) : P := by
  by_contra p
  obtain ⟨e, he⟩ := h.run_error p
  rw [hrun] at he
  cases he

theorem pure (a : α) : Reads (Pure.pure a : Reader ε α) [] a True := of_true fun _ => rfl

/-- Reading two byte forms one after the other. -/
theorem bind {f : α → Reader ε β} (h : Reads r w a P) (h' : Reads (f a) w' b Q) :
    Reads (r >>= f) (w ++ w') b (P ∧ Q) := by
  constructor
  · rintro ⟨p, q⟩ rest
    rw [List.append_assoc, Reader.run_bind, h.ok p]
    exact h'.ok q rest
  · intro hpq rest
    rw [List.append_assoc, Reader.run_bind]
    by_cases p : P
    · obtain ⟨e, he⟩ := h'.error (fun q => hpq ⟨p, q⟩) rest
      exact ⟨e, by rw [h.ok p]; exact he⟩
    · obtain ⟨e, he⟩ := h.error p (w' ++ rest)
      exact ⟨e, by rw [he]⟩

/-- An unconditional step in front. -/
theorem andThen {f : α → Reader ε β} (h : Reads r w a True) (h' : Reads (f a) w' b Q) :
    Reads (r >>= f) (w ++ w') b Q := (h.bind h').congr (and_iff_right trivial)

/-- A step that consumes nothing. -/
theorem check {f : α → Reader ε β} (h : Reads r [] a P) (h' : Reads (f a) w b Q) :
    Reads (r >>= f) w b (P ∧ Q) := h.bind h'

/-- A last step that only assembles the result. -/
theorem map {f : α → β} (h : Reads r w a P) : Reads (do return f (← r)) w (f a) P := by
  have hb := h.bind (f := fun a => Pure.pure (f a)) (pure (f a))
  rw [List.append_nil] at hb
  exact hb.congr (and_iff_left trivial)

theorem raw (truncated : ε) (w : Bytes) : Reads (Reader.raw truncated w.length) w w True :=
  of_true fun rest => by simp [Reader.raw]

theorem u8 (truncated : ε) (v : UInt8) : Reads (Reader.u8 truncated) [v] v True :=
  of_true fun _ => rfl

theorem u16 (truncated : ε) (v : UInt16) : Reads (Reader.u16 truncated) (Wire.u16 v) v True :=
  of_true fun rest => by
    show Except.ok (ofU16 (v >>> 8).toUInt8 v.toUInt8, rest) = _
    rw [ofU16_u16]

theorem u32 (truncated : ε) (v : UInt32) : Reads (Reader.u32 truncated) (Wire.u32 v) v True := by
  have h := (raw truncated (Wire.u32 v)).map (f := ofU32)
  rwa [ofU32_u32] at h

theorem u64 (truncated : ε) (v : UInt64) : Reads (Reader.u64 truncated) (Wire.u64 v) v True := by
  have h := (raw truncated (Wire.u64 v)).map (f := ofU64)
  rwa [ofU64_u64] at h

theorem i64 (truncated : ε) (v : Int64) : Reads (Reader.i64 truncated) (Wire.i64 v) v True := by
  have h := (u64 truncated v.toUInt64).map (f := ofI64)
  rwa [ofI64_toUInt64] at h

theorem enum {α : Type} [Code α] (truncated invalid : ε) (a : α) :
    Reads (Reader.enum α truncated invalid) [code a] a True :=
  of_true fun rest => by
    show (match ofCode? α (code a) with
      | some a => Pure.pure a
      | none => Reader.fail invalid : Reader ε α).run rest = _
    rw [ofCode?_code]
    rfl

/-- A check on what has been read. -/
theorem guard (p : Bool) (e : ε) : Reads (Reader.guard p e) [] () (p = true) := by
  constructor
  · rintro rfl rest
    rfl
  · intro hp rest
    have hp : p = false := by simpa using hp
    subst hp
    exact ⟨e, rfl⟩

/-- A computation that reads nothing and succeeds exactly under a condition. -/
theorem lift_iff {x : Except ε α} (hok : P → x = .ok a) (herror : ¬ P → ∃ e, x = .error e) :
    Reads (Reader.lift x) [] a P := by
  constructor
  · intro p rest
    rw [hok p]
    rfl
  · intro p rest
    obtain ⟨e, he⟩ := herror p
    exact ⟨e, by rw [he]; rfl⟩

/-- Reading a list of items with known byte forms. -/
theorem many {form : α → Bytes} {P : α → Prop} : ∀ {l : List α},
    (∀ a ∈ l, Reads r (form a) a (P a)) →
      Reads (r.many l.length) (l.flatMap form) l (∀ a ∈ l, P a)
  | [], _ => (pure []).congr (by simp)
  | a :: l, h => by
    have ha := h a List.mem_cons_self
    have hl := many fun b hb => h b (List.mem_cons_of_mem _ hb)
    rw [List.flatMap_cons, List.length_cons]
    exact (ha.bind (f := fun a => do return a :: (← r.many l.length)) hl.map).congr
      (List.forall_mem_cons ..).symm

end Reads

end Wire
