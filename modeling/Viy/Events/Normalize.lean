import Mathlib.Data.Finset.Lattice.Basic
import Viy.Runtime.Pointers

/-!
# Merging and normalizing events

The events of several runs are appended to each other and then normalized: every list is sorted and
exact repetitions are removed, and so are the registers of a state. The result does not depend on
the order in which the runs are merged or on how often one is: each sort key orders the events
totally and agrees with the equality that removes repetitions.
-/

namespace Viy.Events

open Cxx Wire
open Viy.Emu (ExecEdge ExecPoint EdgeKind DataScope)
open Viy.Runtime (MemoryBytes)

/-! ## Events

Register ids and access kinds are plain numbers here, as the emulator reports them. -/

structure DataAcc where
  from_ : UInt64
  addr : UInt64
  value : UInt64
  size : UInt32
  kind : ℤ
  scope : DataScope
  sequence : UInt64
  runId : UInt32
  seed : UInt64

structure RegisterValue where
  reg : ℤ
  value : UInt64
  width : UInt8
  deriving DecidableEq

structure StatePoint where
  source : UInt64
  pc : UInt64
  regs : List RegisterValue
  runId : UInt32
  seed : UInt64

structure EmuEvents where
  edges : List ExecEdge := []
  execution : List ExecPoint := []
  data : List DataAcc := []
  states : List StatePoint := []
  finalWrites : List MemoryBytes := []
  execPcs : Finset UInt64 := ∅

/-- `merge_from` -/
def EmuEvents.mergeFrom (events other : EmuEvents) : EmuEvents where
  edges := events.edges ++ other.edges
  execution := events.execution ++ other.execution
  data := events.data ++ other.data
  states := events.states ++ other.states
  finalWrites := events.finalWrites ++ other.finalWrites
  execPcs := events.execPcs ∪ other.execPcs

/-! ## Sort keys -/

/-- The number of an enumerator. -/
def edgeKindNumber : EdgeKind → ℕ
  | .unknown => 0
  | .call => 1
  | .jump => 2
  | .return_ => 3

/-- The number of an enumerator. -/
def scopeNumber : DataScope → ℕ
  | .image => 0
  | .stack => 1
  | .heap => 2
  | .other => 3

def edgeKindOrder : Comparator EdgeKind :=
  Comparator.nat.comap edgeKindNumber fun a b h => by cases a <;> cases b <;> first | rfl | cases h

def scopeOrder : Comparator DataScope :=
  Comparator.nat.comap scopeNumber fun a b h => by cases a <;> cases b <;> first | rfl | cases h

section Keys

open Comparator

def edgeOrder : Comparator ExecEdge :=
  (tie u32 (tie u64 (tie u64 (tie u64 (tie u64 edgeKindOrder))))).comap
    (fun a => (a.runId, a.seed, a.sequence, a.from_, a.to_, a.kind)) fun a b h => by
      cases a
      cases b
      simp_all

def edgeEqual (a b : ExecEdge) : Bool :=
  a.runId == b.runId && a.seed == b.seed && a.sequence == b.sequence && a.from_ == b.from_ &&
    a.to_ == b.to_ && a.kind == b.kind

def pointOrder : Comparator ExecPoint :=
  (tie u32 (tie u64 (tie u64 u64))).comap (fun a => (a.runId, a.seed, a.sequence, a.pc))
    fun a b h => by
      cases a
      cases b
      simp_all

def pointEqual (a b : ExecPoint) : Bool :=
  a.runId == b.runId && a.seed == b.seed && a.sequence == b.sequence && a.pc == b.pc

def dataOrder : Comparator DataAcc :=
  (tie u32 (tie u64 (tie u64 (tie u64 (tie u64 (tie int (tie u32 (tie u64 scopeOrder)))))))).comap
    (fun a => (a.runId, a.seed, a.sequence, a.from_, a.addr, a.kind, a.size, a.value, a.scope))
    fun a b h => by
      cases a
      cases b
      simp_all

def dataEqual (a b : DataAcc) : Bool :=
  a.runId == b.runId && a.seed == b.seed && a.sequence == b.sequence && a.from_ == b.from_ &&
    a.addr == b.addr && a.kind == b.kind && a.size == b.size && a.value == b.value &&
    a.scope == b.scope

/-- The order of the registers of a state. -/
def registerOrder : Comparator RegisterValue :=
  (tie int (tie u8 u64)).comap (fun a => (a.reg, a.width, a.value)) fun a b h => by
    cases a
    cases b
    simp_all

def registerEqual (a b : RegisterValue) : Bool :=
  a.reg == b.reg && a.width == b.width && a.value == b.value

/-- The order by which the registers of two states are compared. -/
def registerListOrder : Comparator RegisterValue :=
  (tie int (tie u64 u8)).comap (fun a => (a.reg, a.value, a.width)) fun a b h => by
    cases a
    cases b
    simp_all

/-- `std::tie(run_id, source, pc, seed)` -/
def stateKeyOrder : Comparator (UInt32 × UInt64 × UInt64 × UInt64) :=
  tie u32 (tie u64 (tie u64 u64))

def StatePoint.key (s : StatePoint) : UInt32 × UInt64 × UInt64 × UInt64 :=
  (s.runId, s.source, s.pc, s.seed)

def stateLess (a b : StatePoint) : Bool :=
  if a.key ≠ b.key then stateKeyOrder.less a.key b.key
  else lexLess registerListOrder.less a.regs b.regs

/-- Registers that are equal one by one, once the lists have one length. -/
def sameRegisters : List RegisterValue → List RegisterValue → Bool
  | x :: l, y :: m =>
    if x.reg ≠ y.reg ∨ x.value ≠ y.value ∨ x.width ≠ y.width then false else sameRegisters l m
  | _, _ => true

def stateEqual (a b : StatePoint) : Bool :=
  if a.runId ≠ b.runId ∨ a.source ≠ b.source ∨ a.pc ≠ b.pc ∨ a.seed ≠ b.seed ∨
      a.regs.length ≠ b.regs.length then false
  else sameRegisters a.regs b.regs

def bytesOrder : Comparator MemoryBytes :=
  (tie u32 (tie u64 (tie u64 (tie scopeOrder (lex u8))))).comap
    (fun a => (a.runId, a.seed, a.addr, a.scope, a.bytes)) fun a b h => by
      cases a
      cases b
      simp_all

def bytesEqual (a b : MemoryBytes) : Bool :=
  a.runId == b.runId && a.addr == b.addr && a.seed == b.seed && a.scope == b.scope &&
    a.bytes == b.bytes

end Keys

def StatePoint.normalizeRegs (s : StatePoint) : StatePoint :=
  { s with regs := sortUnique registerOrder.less registerEqual s.regs }

def EmuEvents.normalize (events : EmuEvents) : EmuEvents where
  edges := sortUnique edgeOrder.less edgeEqual events.edges
  execution := sortUnique pointOrder.less pointEqual events.execution
  data := sortUnique dataOrder.less dataEqual events.data
  states := sortUnique stateLess stateEqual (events.states.map (·.normalizeRegs))
  finalWrites := sortUnique bytesOrder.less bytesEqual events.finalWrites
  execPcs := events.execPcs

/-! ## Keys and equalities agree -/

theorem edgeEqual_iff (a b : ExecEdge) : edgeEqual a b = true ↔ a = b := by
  cases a
  cases b
  simp only [edgeEqual, Bool.and_eq_true, beq_iff_eq, ExecEdge.mk.injEq]
  tauto

theorem pointEqual_iff (a b : ExecPoint) : pointEqual a b = true ↔ a = b := by
  cases a
  cases b
  simp only [pointEqual, Bool.and_eq_true, beq_iff_eq, ExecPoint.mk.injEq]
  tauto

theorem dataEqual_iff (a b : DataAcc) : dataEqual a b = true ↔ a = b := by
  cases a
  cases b
  simp only [dataEqual, Bool.and_eq_true, beq_iff_eq, DataAcc.mk.injEq]
  tauto

theorem registerEqual_iff (a b : RegisterValue) : registerEqual a b = true ↔ a = b := by
  cases a
  cases b
  simp only [registerEqual, Bool.and_eq_true, beq_iff_eq, RegisterValue.mk.injEq]
  tauto

theorem bytesEqual_iff (a b : MemoryBytes) : bytesEqual a b = true ↔ a = b := by
  cases a
  cases b
  simp only [bytesEqual, Bool.and_eq_true, beq_iff_eq, MemoryBytes.mk.injEq]
  tauto

theorem sameRegisters_iff : ∀ {l m : List RegisterValue}, l.length = m.length →
    (sameRegisters l m = true ↔ l = m)
  | [], [], _ => iff_of_true rfl rfl
  | x :: l, y :: m, h => by
    unfold sameRegisters
    have hxy : x = y ↔ x.reg = y.reg ∧ x.value = y.value ∧ x.width = y.width := by
      cases x
      cases y
      exact Eq.to_iff (RegisterValue.mk.injEq ..)
    rw [List.cons.injEq, hxy, ← sameRegisters_iff (Nat.succ_inj.1 h)]
    split_ifs with hdiffers
    · exact iff_of_false not_false fun heq => by tauto
    · push Not at hdiffers
      exact (and_iff_right hdiffers).symm

theorem stateEqual_iff (a b : StatePoint) : stateEqual a b = true ↔ a = b := by
  cases a
  cases b
  unfold stateEqual
  split_ifs with hdiffers
  · refine iff_of_false not_false fun heq => ?_
    cases heq
    simp at hdiffers
  · push Not at hdiffers
    rw [sameRegisters_iff hdiffers.2.2.2.2, StatePoint.mk.injEq]
    tauto

def stateOrder : Comparator StatePoint :=
  (Comparator.tie stateKeyOrder (Comparator.lex registerListOrder)).comap (fun s => (s.key, s.regs))
    fun a b h => by
      cases a
      cases b
      simp_all [StatePoint.key]

theorem stateLess_eq : stateLess = stateOrder.less := by
  funext a b
  unfold stateLess
  refine Eq.trans ?_
    (Comparator.tie_less_eq_ite stateKeyOrder _ (a.key, a.regs) (b.key, b.regs)).symm
  by_cases hkey : a.key = b.key
  · rw [if_neg (not_not.2 hkey), if_pos hkey]
    rfl
  · rw [if_pos hkey, if_neg hkey]

/-! ## States -/

/-- States that differ in the order and the repetition of their registers only. -/
def StatePoint.SameAs (s t : StatePoint) : Prop := s.key = t.key ∧ ∀ r, r ∈ s.regs ↔ r ∈ t.regs

theorem mem_normalizeRegs (s : StatePoint) (r : RegisterValue) :
    r ∈ s.normalizeRegs.regs ↔ r ∈ s.regs := mem_sortUnique registerEqual_iff

theorem normalizeRegs_eq_iff {s t : StatePoint} :
    s.normalizeRegs = t.normalizeRegs ↔ s.SameAs t := by
  constructor
  · intro h
    refine ⟨?_, fun r => ?_⟩
    · show s.normalizeRegs.key = t.normalizeRegs.key
      rw [h]
    · rw [← mem_normalizeRegs s, h, mem_normalizeRegs]
  · rintro ⟨hkey, hregs⟩
    cases s
    cases t
    simp only [StatePoint.key, Prod.mk.injEq] at hkey
    obtain ⟨rfl, rfl, rfl, rfl⟩ := hkey
    unfold StatePoint.normalizeRegs
    congr 1
    exact sortUnique_congr registerEqual_iff hregs

theorem mem_map_normalizeRegs {s : StatePoint} {l : List StatePoint} :
    s.normalizeRegs ∈ l.map (·.normalizeRegs) ↔ ∃ t ∈ l, s.SameAs t := by
  rw [List.mem_map]
  refine exists_congr fun t => and_congr_right fun _ => ?_
  rw [eq_comm, normalizeRegs_eq_iff]

theorem mem_normalize_states {e : EmuEvents} {s : StatePoint} :
    s ∈ e.normalize.states ↔ ∃ t ∈ e.states, t.normalizeRegs = s := by
  show s ∈ sortUnique stateLess stateEqual (e.states.map (·.normalizeRegs)) ↔ _
  rw [stateLess_eq, mem_sortUnique stateEqual_iff, List.mem_map]

theorem sameAs_normalize_states {e : EmuEvents} {s : StatePoint} :
    (∃ t ∈ e.normalize.states, s.SameAs t) ↔ ∃ t ∈ e.states, s.SameAs t := by
  constructor
  · rintro ⟨t, ht, hst⟩
    obtain ⟨u, hu, rfl⟩ := mem_normalize_states.1 ht
    exact ⟨u, hu, hst.1, fun r => (hst.2 r).trans (mem_normalizeRegs u r)⟩
  · rintro ⟨t, ht, hst⟩
    exact ⟨t.normalizeRegs, mem_normalize_states.2 ⟨t, ht, rfl⟩,
      hst.1, fun r => (hst.2 r).trans (mem_normalizeRegs t r).symm⟩

/-! ## Normal forms -/

/-- The same events, whatever their order and repetition. -/
structure EmuEvents.SameAs (a b : EmuEvents) : Prop where
  edges : ∀ x, x ∈ a.edges ↔ x ∈ b.edges
  execution : ∀ x, x ∈ a.execution ↔ x ∈ b.execution
  data : ∀ x, x ∈ a.data ↔ x ∈ b.data
  states : ∀ x : StatePoint, (∃ s ∈ a.states, x.SameAs s) ↔ ∃ s ∈ b.states, x.SameAs s
  finalWrites : ∀ x, x ∈ a.finalWrites ↔ x ∈ b.finalWrites
  execPcs : ∀ x, x ∈ a.execPcs ↔ x ∈ b.execPcs

theorem EmuEvents.SameAs.normalize_eq {a b : EmuEvents} (h : a.SameAs b) :
    a.normalize = b.normalize := by
  have hstates : ∀ s, s ∈ a.states.map (·.normalizeRegs) ↔ s ∈ b.states.map (·.normalizeRegs) := by
    intro s
    constructor
    · intro hs
      obtain ⟨t, -, rfl⟩ := List.mem_map.1 hs
      exact mem_map_normalizeRegs.2 ((h.states t).1 (mem_map_normalizeRegs.1 hs))
    · intro hs
      obtain ⟨t, -, rfl⟩ := List.mem_map.1 hs
      exact mem_map_normalizeRegs.2 ((h.states t).2 (mem_map_normalizeRegs.1 hs))
  unfold EmuEvents.normalize
  rw [stateLess_eq, sortUnique_congr edgeEqual_iff h.edges,
    sortUnique_congr pointEqual_iff h.execution, sortUnique_congr dataEqual_iff h.data,
    sortUnique_congr stateEqual_iff hstates, sortUnique_congr bytesEqual_iff h.finalWrites,
    Finset.ext h.execPcs]

/-- Normalizing keeps the events. -/
theorem normalize_sameAs (e : EmuEvents) : e.normalize.SameAs e where
  edges _ := mem_sortUnique edgeEqual_iff
  execution _ := mem_sortUnique pointEqual_iff
  data _ := mem_sortUnique dataEqual_iff
  states _ := sameAs_normalize_states
  finalWrites _ := mem_sortUnique bytesEqual_iff
  execPcs _ := Iff.rfl

/-! ## Merged runs -/

/-- The events of several runs, merged one after the other. -/
def mergeAll (l : List EmuEvents) : EmuEvents := l.foldl EmuEvents.mergeFrom {}

/-- What holds of merged events exactly if it holds of one of them. -/
theorem mergeAll_iff {P : EmuEvents → Prop} (hempty : ¬ P {})
    (hmerge : ∀ a b : EmuEvents, P (a.mergeFrom b) ↔ P a ∨ P b) (l : List EmuEvents) :
    P (mergeAll l) ↔ ∃ e ∈ l, P e := by
  have hfold : ∀ (l : List EmuEvents) (e : EmuEvents),
      P (l.foldl EmuEvents.mergeFrom e) ↔ P e ∨ ∃ e' ∈ l, P e' := by
    intro l
    induction l with
    | nil => simp
    | cons first l ih =>
      intro e
      rw [List.foldl_cons, ih, hmerge, List.exists_mem_cons_iff, or_assoc]
  exact (hfold l {}).trans (or_iff_right hempty)

/-- The events of the result are those of the inputs. -/
structure Collects (l : List EmuEvents) (e : EmuEvents) : Prop where
  edges : ∀ x, x ∈ e.edges ↔ ∃ a ∈ l, x ∈ a.edges
  execution : ∀ x, x ∈ e.execution ↔ ∃ a ∈ l, x ∈ a.execution
  data : ∀ x, x ∈ e.data ↔ ∃ a ∈ l, x ∈ a.data
  states : ∀ x : StatePoint, (∃ s ∈ e.states, x.SameAs s) ↔ ∃ a ∈ l, ∃ s ∈ a.states, x.SameAs s
  finalWrites : ∀ x, x ∈ e.finalWrites ↔ ∃ a ∈ l, x ∈ a.finalWrites
  execPcs : ∀ x, x ∈ e.execPcs ↔ ∃ a ∈ l, x ∈ a.execPcs

theorem collects_mergeAll (l : List EmuEvents) : Collects l (mergeAll l) where
  edges x := mergeAll_iff (P := fun e => x ∈ e.edges) List.not_mem_nil
    (fun _ _ => List.mem_append) l
  execution x := mergeAll_iff (P := fun e => x ∈ e.execution) List.not_mem_nil
    (fun _ _ => List.mem_append) l
  data x := mergeAll_iff (P := fun e => x ∈ e.data) List.not_mem_nil
    (fun _ _ => List.mem_append) l
  states x := by
    refine mergeAll_iff (P := fun e => ∃ s ∈ e.states, x.SameAs s) (by simp) (fun a b => ?_) l
    simp only [EmuEvents.mergeFrom, List.mem_append, or_and_right, exists_or]
  finalWrites x := mergeAll_iff (P := fun e => x ∈ e.finalWrites) List.not_mem_nil
    (fun _ _ => List.mem_append) l
  execPcs x := mergeAll_iff (P := fun e => x ∈ e.execPcs) (Finset.notMem_empty x)
    (fun _ _ => Finset.mem_union) l

theorem EmuEvents.SameAs.collects {a b : EmuEvents} {l : List EmuEvents} (h : a.SameAs b)
    (hb : Collects l b) : Collects l a where
  edges x := (h.edges x).trans (hb.edges x)
  execution x := (h.execution x).trans (hb.execution x)
  data x := (h.data x).trans (hb.data x)
  states x := (h.states x).trans (hb.states x)
  finalWrites x := (h.finalWrites x).trans (hb.finalWrites x)
  execPcs x := (h.execPcs x).trans (hb.execPcs x)

theorem sameAs_of_collects {a b : EmuEvents} {l m : List EmuEvents} (ha : Collects l a)
    (hb : Collects m b) (h : ∀ e, e ∈ l ↔ e ∈ m) : a.SameAs b := by
  have hcongr : ∀ P : EmuEvents → Prop, (∃ e ∈ l, P e) ↔ ∃ e ∈ m, P e := fun P =>
    exists_congr fun e => and_congr_left fun _ => h e
  exact
    { edges := fun x => (ha.edges x).trans ((hcongr _).trans (hb.edges x).symm)
      execution := fun x => (ha.execution x).trans ((hcongr _).trans (hb.execution x).symm)
      data := fun x => (ha.data x).trans ((hcongr _).trans (hb.data x).symm)
      states := fun x => (ha.states x).trans ((hcongr _).trans (hb.states x).symm)
      finalWrites := fun x => (ha.finalWrites x).trans ((hcongr _).trans (hb.finalWrites x).symm)
      execPcs := fun x => (ha.execPcs x).trans ((hcongr _).trans (hb.execPcs x).symm) }

/-- **Canonical events.** Merging runs in any order and any number of times gives the same
normalized events, normalizing again changes nothing, and the normalized events are those of the
runs. -/
theorem merged_events_canonical :
    (∀ l m : List EmuEvents, (∀ e, e ∈ l ↔ e ∈ m) →
      (mergeAll l).normalize = (mergeAll m).normalize) ∧
    (∀ e : EmuEvents, e.normalize.normalize = e.normalize) ∧
    ∀ l : List EmuEvents, Collects l (mergeAll l).normalize := by
  refine ⟨fun l m h => ?_, fun e => ?_, fun l => ?_⟩
  · exact (sameAs_of_collects (collects_mergeAll l) (collects_mergeAll m) h).normalize_eq
  · exact (normalize_sameAs e).normalize_eq
  · exact (normalize_sameAs _).collects (collects_mergeAll l)

/-- A run that has come to an address. -/
def oneState (runId : UInt32) (regs : List RegisterValue) : EmuEvents where
  states := [{ source := 1, pc := 2, regs := regs, runId := runId, seed := 1 }]
  execPcs := {2}

/-- Two runs in the other order, one of them merged twice. -/
theorem two_runs_merged :
    let merged := (mergeAll [oneState 2 [], oneState 1 [⟨3, 4, 8⟩, ⟨2, 3, 8⟩]]).normalize
    merged = {
        states := [⟨1, 2, [⟨2, 3, 8⟩, ⟨3, 4, 8⟩], 1, 1⟩, ⟨1, 2, [], 2, 1⟩]
        execPcs := {2} } ∧
      (mergeAll [oneState 1 [⟨3, 4, 8⟩, ⟨2, 3, 8⟩], oneState 2 [], oneState 2 []]).normalize =
        merged := by
  refine ⟨rfl, merged_events_canonical.1 _ _ fun e => ?_⟩
  simp only [List.mem_cons, List.not_mem_nil, or_false]
  tauto

end Viy.Events
