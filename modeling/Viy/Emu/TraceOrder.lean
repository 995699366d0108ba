import Viy.Emu.Trace

/-!
# Sequence numbers order a run

Two hook calls of a run never record under one sequence number, and the later one records under the
larger number: the position in the log of the run. Events of the different lists can therefore be
compared, as the search for self-modifying code and for used pointers does.
-/

namespace Viy.Emu

open Wire

/-! ## Positions -/

theorem toNat_ofNat_u64 {k : ℕ} (h : k < 2 ^ 64) : (UInt64.ofNat k).toNat = k :=
  UInt64.toNat_ofNat_of_lt' h

theorem ofNat_lt_ofNat {k l : ℕ} (hkl : k < l) (hl : l < 2 ^ 64) :
    UInt64.ofNat k < UInt64.ofNat l := by
  rw [UInt64.lt_iff_toNat_lt, toNat_ofNat_u64 hl, toNat_ofNat_u64 (by omega)]
  exact hkl

/-- Neighbours of a longer list: new pairs end in the new part. -/
theorem neighbours_append {α : Type} (l m : List α) :
    ∃ n, neighbours (l ++ m) = neighbours l ++ n ∧ ∀ p ∈ n, p.2 ∈ m := by
  induction m using List.reverseRecOn with
  | nil => exact ⟨[], by simp, by simp⟩
  | append_singleton m a ih =>
    obtain ⟨n, hn, hends⟩ := ih
    refine ⟨n ++ ((l ++ m).getLast?.map fun last => (last, a)).toList, ?_, ?_⟩
    · rw [← List.append_assoc, neighbours_concat, hn, List.append_assoc]
    · intro p hp
      rcases List.mem_append.1 hp with hp | hp
      · exact List.mem_append_left _ (hends p hp)
      · rw [Option.mem_toList, Option.map_eq_some_iff] at hp
        obtain ⟨last, -, rfl⟩ := hp
        exact List.mem_append_right _ List.mem_cons_self

theorem map_snd_neighbours {α : Type} (l : List α) : (neighbours l).map Prod.snd = l.tail := by
  unfold neighbours
  rw [List.map_snd_zip]
  rw [List.length_tail]
  omega

theorem snd_mem_of_neighbours {α : Type} {l : List α} {p : α × α} (h : p ∈ neighbours l) :
    p.2 ∈ l := by
  have hsnd := List.mem_map_of_mem (f := Prod.snd) h
  rw [map_snd_neighbours] at hsnd
  exact List.mem_of_mem_tail hsnd

namespace Log

/-- The instructions of a part of a log, with their positions in the whole. -/
def stepsFrom (n : ℕ) (log : Log) : List (Insn × ℕ) :=
  (log.zipIdx n).filterMap LogEntry.toInsn

theorem steps_append (log rest : Log) :
    steps (log ++ rest) = steps log ++ stepsFrom log.length rest := by
  unfold steps stepsFrom
  rw [List.zipIdx_append, List.filterMap_append, Nat.zero_add]

theorem accesses_append (log rest : Log) :
    accesses (log ++ rest) = accesses log ++ accesses rest := by
  unfold accesses
  rw [List.filterMap_append]

theorem mem_stepsFrom {n k : ℕ} {log : Log} {i : Insn} :
    (i, k) ∈ stepsFrom n log ↔ n ≤ k ∧ log[k - n]? = some (.insn i) := by
  unfold stepsFrom
  rw [List.mem_filterMap]
  constructor
  · rintro ⟨⟨i' | d, k'⟩, hmem, heq⟩
    · obtain ⟨rfl, rfl⟩ : i' = i ∧ k' = k := by simpa [LogEntry.toInsn] using heq
      exact List.mem_zipIdx_iff_le_and_getElem?_sub.1 hmem
    · cases heq
  · intro h
    exact ⟨(.insn i, k), List.mem_zipIdx_iff_le_and_getElem?_sub.2 h, rfl⟩

theorem mem_steps {k : ℕ} {log : Log} {i : Insn} :
    (i, k) ∈ steps log ↔ log[k]? = some (.insn i) := by
  refine (mem_stepsFrom (n := 0)).trans ?_
  simp

theorem mem_accesses {log : Log} {d : DataAcc} :
    d ∈ accesses log ↔ ∃ k : ℕ, log[k]? = some (LogEntry.access d) := by
  unfold accesses
  rw [List.mem_filterMap]
  constructor
  · rintro ⟨_ | d', hmem, heq⟩
    · cases heq
    · obtain rfl : d' = d := by simpa [LogEntry.toAccess] using heq
      exact List.mem_iff_getElem?.1 hmem
  · intro h
    exact ⟨.access d, List.mem_iff_getElem?.2 h, rfl⟩

theorem length_eq (log : Log) : log.length = log.steps.length + log.accesses.length := by
  induction log using List.reverseRecOn with
  | nil => rfl
  | append_singleton log entry ih =>
    cases entry with
    | insn i =>
      rw [steps_concat_insn, accesses_concat_insn, List.length_append, List.length_append, ih]
      simp
      omega
    | access d =>
      rw [steps_concat_access, accesses_concat_access, List.length_append, List.length_append, ih]
      simp
      omega

/-- Positions grow along the instructions. -/
theorem steps_pairwise (log : Log) : log.steps.Pairwise fun a b => a.2 < b.2 := by
  induction log using List.reverseRecOn with
  | nil => exact List.Pairwise.nil
  | append_singleton log entry ih =>
    cases entry with
    | insn i =>
      rw [steps_concat_insn, List.pairwise_append]
      refine ⟨ih, List.pairwise_singleton _ _, ?_⟩
      rintro ⟨j, k⟩ hj b hb
      obtain rfl := List.mem_singleton.1 hb
      exact (List.getElem?_eq_some_iff.1 (mem_steps.1 hj)).1
    | access d =>
      rw [steps_concat_access]
      exact ih

end Log

/-! ## Events and their positions -/

section Positions

variable {c : HookCtx} {h : HookState} {log : Log}

theorem Chronicle.data_position (hc : Chronicle c h log) {d : DataAcc} (hd : d ∈ h.data) :
    ∃ k < log.length, log[k]? = some (.access d) ∧ d.sequence = .ofNat k := by
  rw [hc.data, Log.mem_accesses] at hd
  obtain ⟨k, hk⟩ := hd
  exact ⟨k, (List.getElem?_eq_some_iff.1 hk).1, hk, hc.stamped k d hk⟩

theorem pointOf_eq_some_iff {i : Insn} {k : ℕ} {p : ExecPoint} :
    c.pointOf (i, k) = some p ↔ c.image.lo ≤ i.addr ∧ i.addr < c.image.hi ∧
      p = { pc := i.addr, sequence := .ofNat k, runId := c.runId, seed := c.seed } := by
  unfold HookCtx.pointOf
  dsimp only
  rw [Option.ite_none_right_eq_some, Option.some.injEq, and_assoc, eq_comm (b := p)]

theorem edgeOf_eq_some {steps : (Insn × ℕ) × (Insn × ℕ)} {e : ExecEdge}
    (h : c.edgeOf steps = some e) : e.sequence = .ofNat steps.2.2 ∧ e.to_ = steps.2.1.addr ∧
      e.runId = c.runId ∧ e.seed = c.seed := by
  obtain ⟨⟨i, k⟩, j, l⟩ := steps
  unfold HookCtx.edgeOf at h
  dsimp only at h
  split_ifs at h
  obtain rfl := Option.some.inj h
  exact ⟨rfl, rfl, rfl, rfl⟩

theorem Chronicle.execution_position (hc : Chronicle c h log) {p : ExecPoint}
    (hp : p ∈ h.execution) :
    ∃ k < log.length, ∃ i, log[k]? = some (.insn i) ∧ p.sequence = .ofNat k ∧ p.pc = i.addr := by
  rw [hc.execution] at hp
  obtain ⟨⟨i, k⟩, hstep, hof⟩ := List.mem_filterMap.1 (List.mem_of_mem_take hp)
  have hk := Log.mem_steps.1 hstep
  obtain ⟨-, -, rfl⟩ := pointOf_eq_some_iff.1 hof
  exact ⟨k, (List.getElem?_eq_some_iff.1 hk).1, i, hk, rfl, rfl⟩

theorem Chronicle.edge_position (hc : Chronicle c h log) {e : ExecEdge} (he : e ∈ h.edges) :
    ∃ k < log.length, ∃ i, log[k]? = some (.insn i) ∧ e.sequence = .ofNat k ∧ e.to_ = i.addr := by
  rw [hc.edges] at he
  obtain ⟨⟨last, i, k⟩, hpair, hof⟩ := List.mem_filterMap.1 (List.mem_of_mem_take he)
  have hk := Log.mem_steps.1 (snd_mem_of_neighbours hpair)
  obtain ⟨hsequence, hto, -⟩ := edgeOf_eq_some hof
  exact ⟨k, (List.getElem?_eq_some_iff.1 hk).1, i, hk, hsequence, hto⟩

/-- An access and an instruction are at different positions. -/
theorem access_ne_insn {k l : ℕ} {d : DataAcc} {i : Insn} (hk : log[k]? = some (.access d))
    (hl : log[l]? = some (.insn i)) (hlength : log.length < 2 ^ 64) :
    UInt64.ofNat k ≠ UInt64.ofNat l := by
  intro heq
  have hkl := congrArg UInt64.toNat heq
  have hklt := (List.getElem?_eq_some_iff.1 hk).1
  have hllt := (List.getElem?_eq_some_iff.1 hl).1
  rw [toNat_ofNat_u64 (by omega), toNat_ofNat_u64 (by omega)] at hkl
  rw [hkl, hl] at hk
  cases hk

theorem Chronicle.data_pairwise (hc : Chronicle c h log) (hlength : log.length < 2 ^ 64) :
    h.data.Pairwise fun a b => a.sequence < b.sequence := by
  have hstamped := hc.stamped
  rw [hc.data]
  clear hc
  induction log using List.reverseRecOn with
  | nil => exact List.Pairwise.nil
  | append_singleton log entry ih =>
    have hold : ∀ (k : ℕ) (d : DataAcc), log[k]? = some (.access d) → d.sequence = .ofNat k := by
      intro k d hk
      refine hstamped k d ?_
      rw [List.getElem?_append_left (List.getElem?_eq_some_iff.1 hk).1]
      exact hk
    rw [List.length_append, List.length_singleton] at hlength
    cases entry with
    | insn i =>
      rw [Log.accesses_concat_insn]
      exact ih (by omega) hold
    | access d =>
      rw [Log.accesses_concat_access, List.pairwise_append]
      refine ⟨ih (by omega) hold, List.pairwise_singleton _ _, ?_⟩
      intro a ha b hb
      obtain rfl := List.mem_singleton.1 hb
      obtain ⟨k, hk⟩ := Log.mem_accesses.1 ha
      have hlast : (log ++ [LogEntry.access b])[log.length]? = some (.access b) := by simp
      rw [hold k a hk, hstamped log.length b hlast]
      exact ofNat_lt_ofNat (List.getElem?_eq_some_iff.1 hk).1 (by omega)

theorem Chronicle.execution_pairwise (hc : Chronicle c h log) (hlength : log.length < 2 ^ 64) :
    h.execution.Pairwise fun a b => a.sequence < b.sequence := by
  rw [hc.execution]
  refine List.Pairwise.sublist (List.take_sublist _ _) ?_
  rw [List.pairwise_filterMap]
  refine (Log.steps_pairwise log).imp_of_mem ?_
  rintro ⟨i, k⟩ ⟨j, l⟩ - hj hkl p hp q hq
  have hlt := (List.getElem?_eq_some_iff.1 (Log.mem_steps.1 hj)).1
  obtain ⟨-, -, rfl⟩ := pointOf_eq_some_iff.1 hp
  obtain ⟨-, -, rfl⟩ := pointOf_eq_some_iff.1 hq
  exact ofNat_lt_ofNat hkl (by omega)

theorem Chronicle.edges_pairwise (hc : Chronicle c h log) (hlength : log.length < 2 ^ 64) :
    h.edges.Pairwise fun a b => a.sequence < b.sequence := by
  have hends : (neighbours log.steps).Pairwise fun a b => a.2.2 < b.2.2 := by
    rw [← List.pairwise_map (f := Prod.snd) (R := fun a b : Insn × ℕ => a.2 < b.2),
      map_snd_neighbours]
    exact (Log.steps_pairwise log).sublist (List.tail_sublist _)
  rw [hc.edges]
  refine List.Pairwise.sublist (List.take_sublist _ _) ?_
  unfold HookCtx.transfers
  rw [List.pairwise_filterMap]
  refine hends.imp_of_mem ?_
  rintro ⟨i, j⟩ ⟨i', j'⟩ - hmem hlt e he e' he'
  have hbound := (List.getElem?_eq_some_iff.1 (Log.mem_steps.1 (snd_mem_of_neighbours hmem))).1
  rw [(edgeOf_eq_some he).1, (edgeOf_eq_some he').1]
  exact ofNat_lt_ofNat hlt (Nat.lt_trans hbound hlength)

/-- What is recorded while the log grows is appended, with positions in the new part. -/
theorem Chronicle.extends {h' : HookState} {rest : Log} (hc : Chronicle c h log)
    (hc' : Chronicle c h' (log ++ rest)) :
    ∃ (data : List DataAcc) (execution : List ExecPoint) (edges : List ExecEdge),
      h'.data = h.data ++ data ∧ h'.execution = h.execution ++ execution ∧
      h'.edges = h.edges ++ edges ∧
      ∀ n ∈ data.map (·.sequence) ++ execution.map (·.sequence) ++ edges.map (·.sequence),
        ∃ k, log.length ≤ k ∧ k < (log ++ rest).length ∧ n = .ofNat k := by
  obtain ⟨pairs, hpairs, hends⟩ := neighbours_append log.steps (Log.stepsFrom log.length rest)
  have hnew : ∀ {i : Insn} {k : ℕ}, (i, k) ∈ Log.stepsFrom log.length rest →
      log.length ≤ k ∧ k < (log ++ rest).length := by
    intro i k hmem
    obtain ⟨hle, hk⟩ := Log.mem_stepsFrom.1 hmem
    have hlt := (List.getElem?_eq_some_iff.1 hk).1
    rw [List.length_append]
    exact ⟨hle, by omega⟩
  refine ⟨Log.accesses rest,
    ((Log.stepsFrom log.length rest).filterMap c.pointOf).take
      (c.executionCap - (log.steps.filterMap c.pointOf).length),
    (pairs.filterMap c.edgeOf).take (c.edgeCap - (c.transfers log).length), ?_, ?_, ?_, ?_⟩
  · rw [hc'.data, hc.data, Log.accesses_append]
  · rw [hc'.execution, hc.execution, Log.steps_append, List.filterMap_append, List.take_append]
  · rw [hc'.edges, hc.edges]
    unfold HookCtx.transfers
    rw [Log.steps_append, hpairs, List.filterMap_append, List.take_append]
  · intro n hn
    rcases List.mem_append.1 hn with hn | hn
    · rcases List.mem_append.1 hn with hn | hn
      · obtain ⟨d, hd, rfl⟩ := List.mem_map.1 hn
        obtain ⟨k, hk⟩ := Log.mem_accesses.1 hd
        have hlt := (List.getElem?_eq_some_iff.1 hk).1
        refine ⟨log.length + k, by omega, by rw [List.length_append]; omega, ?_⟩
        refine hc'.stamped _ d ?_
        rw [List.getElem?_append_right (by omega), Nat.add_sub_cancel_left]
        exact hk
      · obtain ⟨p, hp, rfl⟩ := List.mem_map.1 hn
        obtain ⟨⟨i, k⟩, hstep, hof⟩ := List.mem_filterMap.1 (List.mem_of_mem_take hp)
        obtain ⟨-, -, rfl⟩ := pointOf_eq_some_iff.1 hof
        exact ⟨k, (hnew hstep).1, (hnew hstep).2, rfl⟩
    · obtain ⟨e, he, rfl⟩ := List.mem_map.1 hn
      obtain ⟨⟨last, i, k⟩, hpair, hof⟩ := List.mem_filterMap.1 (List.mem_of_mem_take he)
      have hstep := hends _ hpair
      exact ⟨k, (hnew hstep).1, (hnew hstep).2, (edgeOf_eq_some hof).1⟩

end Positions

/-! ## Runs -/

namespace HookCtx

variable {c : HookCtx} {initial : UInt64} {log log' : Log} {calls : List HookCall}

/-- A call enters one instruction at most. -/
theorem Contributes.steps_length {callback : Callback} {part : Log}
    (h : c.Contributes initial log callback part) :
    (log ++ part).steps.length ≤ log.steps.length + 1 := by
  cases h with
  | denied h => simp
  | insn h hl =>
    rw [List.append_cons, steps_map_access, Log.steps_concat_insn]
    simp
  | silent => simp
  | access h hkind haddr hsize hvalue =>
    rw [Log.steps_concat_access]
    omega

theorem Logs.steps_length (h : c.Logs initial log calls log') :
    log'.steps.length ≤ log.steps.length + calls.length := by
  induction h with
  | nil => simp
  | cons hcall hcalls ih =>
    have hpart := hcall.steps_length
    rw [List.length_cons]
    omega

end HookCtx

/-- The sequence numbers of all the events of a run. -/
def HookState.stamps (h : HookState) : List UInt64 :=
  h.data.map (·.sequence) ++ h.execution.map (·.sequence) ++ h.edges.map (·.sequence)

/-- Every event so far has a position. -/
theorem Chronicle.stamp_position {c : HookCtx} {h : HookState} {log : Log} (hc : Chronicle c h log)
    {n : UInt64} (hn : n ∈ h.stamps) : ∃ k < log.length, n = .ofNat k := by
  rcases List.mem_append.1 hn with hn | hn
  · rcases List.mem_append.1 hn with hn | hn
    · obtain ⟨d, hd, rfl⟩ := List.mem_map.1 hn
      obtain ⟨k, hk, -, hsequence⟩ := hc.data_position hd
      exact ⟨k, hk, hsequence⟩
    · obtain ⟨p, hp, rfl⟩ := List.mem_map.1 hn
      obtain ⟨k, hk, i, -, hsequence, -⟩ := hc.execution_position hp
      exact ⟨k, hk, hsequence⟩
  · obtain ⟨e, he, rfl⟩ := List.mem_map.1 hn
    obtain ⟨k, hk, i, -, hsequence, -⟩ := hc.edge_position he
    exact ⟨k, hk, hsequence⟩

/-- **Sequence numbers order a run.** At every cut of a run that cannot exhaust the numbers, what is
recorded behind the cut is appended to each list under larger numbers than everything before it. In
each list the numbers grow, no access shares its number with an instruction, and an edge shares it
with the instruction it leads to. -/
theorem sequence_orders_run {c : HookCtx} {before after : List HookCall}
    (hroom : (before ++ after).length + c.dataCap < 2 ^ 64) :
    let r := c.hooks c.start before
    let s := c.hooks c.start (before ++ after)
    (∃ (data : List DataAcc) (execution : List ExecPoint) (edges : List ExecEdge),
      s.data = r.data ++ data ∧ s.execution = r.execution ++ execution ∧
      s.edges = r.edges ++ edges ∧
      ∀ m ∈ r.stamps, ∀ n ∈ data.map (·.sequence) ++ execution.map (·.sequence) ++
        edges.map (·.sequence), m < n) ∧
    s.data.Pairwise (·.sequence < ·.sequence) ∧ s.execution.Pairwise (·.sequence < ·.sequence) ∧
    s.edges.Pairwise (·.sequence < ·.sequence) ∧
    (∀ d ∈ s.data, ∀ p ∈ s.execution, d.sequence ≠ p.sequence) ∧
    (∀ d ∈ s.data, ∀ e ∈ s.edges, d.sequence ≠ e.sequence) ∧
    ∀ e ∈ s.edges, ∀ p ∈ s.execution, e.sequence = p.sequence → e.to_ = p.pc := by
  intro r s
  obtain ⟨log, hlogs, hr, hb⟩ := (chronicle_start c).hooks before (behind_start c)
  obtain ⟨rest, hrest, hs, -⟩ := hr.hooks after hb
  rw [List.nil_append] at hlogs hr hrest hs
  have hjoined : c.hooks (c.hooks c.start before) after = s := List.foldl_append.symm
  rw [hjoined] at hs
  have hlength : (log ++ rest).length < 2 ^ 64 := by
    have hbefore := hlogs.steps_length
    have hafter := hrest.steps_length
    have hcapped := hs.capped
    rw [hs.data] at hcapped
    rw [Log.length_eq]
    rw [List.length_append] at hroom
    simp only [Log.steps_nil, List.length_nil, Nat.zero_add] at hbefore
    omega
  refine ⟨?_, hs.data_pairwise hlength, hs.execution_pairwise hlength, hs.edges_pairwise hlength,
    ?_, ?_, ?_⟩
  · obtain ⟨data, execution, edges, hdata, hexecution, hedges, hnew⟩ := hr.extends hs
    refine ⟨data, execution, edges, hdata, hexecution, hedges, ?_⟩
    intro m hm n hn
    obtain ⟨k, hk, rfl⟩ := hr.stamp_position hm
    obtain ⟨l, hle, hlt, rfl⟩ := hnew n hn
    exact ofNat_lt_ofNat (by omega) (by omega)
  · intro d hd p hp
    obtain ⟨k, -, hk, hdseq⟩ := hs.data_position hd
    obtain ⟨l, -, i, hl, hpseq, -⟩ := hs.execution_position hp
    rw [hdseq, hpseq]
    exact access_ne_insn hk hl hlength
  · intro d hd e he
    obtain ⟨k, -, hk, hdseq⟩ := hs.data_position hd
    obtain ⟨l, -, i, hl, heseq, -⟩ := hs.edge_position he
    rw [hdseq, heseq]
    exact access_ne_insn hk hl hlength
  · intro e he p hp heq
    obtain ⟨k, hk, i, hi, heseq, hto⟩ := hs.edge_position he
    obtain ⟨l, hl, j, hj, hpseq, hpc⟩ := hs.execution_position hp
    rw [heseq, hpseq] at heq
    have hkl := congrArg UInt64.toNat heq
    rw [toNat_ofNat_u64 (by omega), toNat_ofNat_u64 (by omega)] at hkl
    rw [hkl, hj] at hi
    obtain rfl : j = i := by simpa using hi
    rw [hto, hpc]

/-- The run calls `memset` on the segment and then reads it. -/
theorem memset_then_read_ordered :
    (strictCtx.hooks strictCtx.start ([segmentMemset] ++ [segmentRead])).data.length = 2 ∧
      (strictCtx.hooks strictCtx.start ([segmentMemset] ++ [segmentRead])).data.Pairwise
        (·.sequence < ·.sequence) := by
  have hroom : ([segmentMemset] ++ [segmentRead]).length + strictCtx.dataCap < 2 ^ 64 := by decide
  exact ⟨by decide +kernel, (sequence_orders_run hroom).2.1⟩

end Viy.Emu
