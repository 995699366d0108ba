import Mathlib.Tactic

/-!
# Input in blocks

A function of a whole input that is computed block by block: it takes a state and a block of `n`
elements to the next state. `Absorbed` says how far such a computation has come while the input
arrives in pieces of any size. It has processed full blocks, and some elements are pending in a
buffer. Once nothing is pending, the state is the fold over the blocks of the input, however it was
cut (`Absorbed.eq_foldl`).
-/

namespace Wire

variable {α σ : Type*} {n : ℕ}

/-! ## Blocks -/

/-- The full blocks of `n` elements, in order. -/
def blocks (n : ℕ) (input : List α) : List (List α) :=
  (List.range (input.length / n)).map fun i => (input.drop (n * i)).take n

theorem blocks_append (hn : 0 < n) {block : List α} (hblock : block.length = n)
    (rest : List α) : blocks n (block ++ rest) = block :: blocks n rest := by
  have hcount : (block ++ rest).length / n = rest.length / n + 1 := by
    rw [List.length_append, hblock, Nat.add_div_left _ hn]
  have hnext : ∀ i, (block ++ rest).drop (n * (i + 1)) = rest.drop (n * i) := by
    intro i
    rw [Nat.mul_succ, Nat.add_comm, ← List.drop_drop, List.drop_left' hblock]
  rw [blocks, hcount, List.range_succ_eq_map, List.map_cons, List.map_map]
  congr 1
  · rw [Nat.mul_zero, List.drop_zero, List.take_left' hblock]
  · exact List.map_congr_left fun i _ => congrArg (List.take n) (hnext i)

theorem blocks_flatten (hn : 0 < n) {full : List (List α)} (hfull : ∀ b ∈ full, b.length = n) :
    blocks n full.flatten = full := by
  induction full with
  | nil =>
    rw [List.flatten_nil, blocks, List.length_nil, Nat.zero_div]
    rfl
  | cons block full ih =>
    obtain ⟨hblock, hfull⟩ := List.forall_mem_cons.1 hfull
    rw [List.flatten_cons, blocks_append hn hblock, ih hfull]

/-! ## Absorbing -/

/-- The state has taken up full blocks of the input, and the rest of the input is pending. -/
def Absorbed (n : ℕ) (step : σ → List α → σ) (start : σ) (input : List α) (state : σ)
    (pending : List α) : Prop :=
  ∃ full : List (List α), (∀ b ∈ full, b.length = n) ∧ input = full.flatten ++ pending ∧
    state = full.foldl step start

namespace Absorbed

variable {step : σ → List α → σ} {start state : σ} {input pending : List α}

theorem nil : Absorbed n step start [] start [] := ⟨[], by simp, rfl, rfl⟩

/-- New elements are pending first. -/
theorem append (h : Absorbed n step start input state pending) (data : List α) :
    Absorbed n step start (input ++ data) state (pending ++ data) := by
  obtain ⟨full, hfull, rfl, hstate⟩ := h
  exact ⟨full, hfull, List.append_assoc _ _ _, hstate⟩

/-- A full buffer is one step. -/
theorem push (h : Absorbed n step start input state pending) (hpending : pending.length = n) :
    Absorbed n step start input (step state pending) [] := by
  obtain ⟨full, hfull, rfl, rfl⟩ := h
  refine ⟨full ++ [pending], ?_, by simp, by simp⟩
  rintro block hblock
  rcases List.mem_append.1 hblock with hmem | hmem
  · exact hfull block hmem
  · rw [List.mem_singleton.1 hmem, hpending]

theorem length_mod (h : Absorbed n step start input state pending) (hpending : pending.length < n) :
    input.length % n = pending.length := by
  obtain ⟨full, hfull, rfl, -⟩ := h
  have hlength : full.flatten.length = n * full.length := by
    rw [List.length_flatten, List.map_congr_left hfull, List.map_const', List.sum_replicate,
      smul_eq_mul, Nat.mul_comm]
  rw [List.length_append, hlength, Nat.mul_add_mod, Nat.mod_eq_of_lt hpending]

/-- **Independence of the pieces.** With nothing pending, the state is a function of the input. -/
theorem eq_foldl (h : Absorbed n step start input state []) (hn : 0 < n) :
    state = (blocks n input).foldl step start := by
  obtain ⟨full, hfull, rfl, rfl⟩ := h
  rw [List.append_nil, blocks_flatten hn hfull]

end Absorbed

/-! ## Buffers -/

/-- Copy `data` into the buffer, from the offset on. -/
def copyAt (buffer : List α) (offset : ℕ) (data : List α) : List α :=
  buffer.take offset ++ data ++ buffer.drop (offset + data.length)

section Buffer

variable {buffer data : List α} {offset : ℕ}

theorem length_copyAt (h : offset + data.length ≤ buffer.length) :
    (copyAt buffer offset data).length = buffer.length := by
  rw [copyAt, List.length_append, List.length_append, List.length_take, List.length_drop]
  omega

theorem take_copyAt (h : offset ≤ buffer.length) :
    (copyAt buffer offset data).take (offset + data.length) = buffer.take offset ++ data := by
  refine List.take_left' ?_
  rw [List.length_append, List.length_take, Nat.min_eq_left h]

end Buffer

end Wire
