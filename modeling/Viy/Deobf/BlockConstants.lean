import Viy.Deobf.ConstantsSound

/-!
# The report on a block

One turn of the loop of `analyze_constant_block` is faithful if its transfer function is, and if a
pushed immediate has the width of a cell at most. These are exactly the turns that follow the
machine. If all turns of a block are of this kind, then every candidate is what its instruction
reads, and every final assignment is what its register holds after the block.
-/

namespace Viy.Deobf

open Absint

/-- The machines that a scan describes. -/
structure Scan.Describes (s : Scan) (m : Machine) : Prop where
  regs : Holds s.state m.regs
  top : ∀ p, s.pendingPush = some p → lowBytes p.2.width (m.stack 0) = p.2.value

structure Scan.Faithful (s : Scan) (insn : Instruction) : Prop where
  transfer : Viy.Deobf.Faithful s.state insn
  push : insn.kind = .pushImmediate → insn.valueWidth ≤ 8 ∨ insn.immediate = 0

structure Scan.WellFormed (s : Scan) : Prop where
  state : Viy.Deobf.WellFormed s.state
  pendingPush : ∀ p, s.pendingPush = some p → p.2.value.toNat < 2 ^ (8 * p.2.width.toNat)

/-! ## One turn -/

section Turn

variable {s : Scan} {insn : Instruction} {m m' : Machine} {limits : ClassifierLimits}

theorem lowBytes_eq_truncateWidth_iff {v : UInt64} {width : UInt8} :
    lowBytes width v = truncateWidth v width ↔ width ≤ 8 ∨ v = 0 := by
  constructor
  · intro h
    by_cases hwidth : width ≤ 8
    · exact Or.inl hwidth
    · have hgt : width > 8 := UInt8.not_le.1 hwidth
      have hlt : v.toNat < 2 ^ (8 * width.toNat) := by
        refine Nat.lt_of_lt_of_le v.toNat_lt (Nat.pow_le_pow_right (by decide) ?_)
        have hnat : 8 < width.toNat := UInt8.lt_iff_toNat_lt.1 hgt
        omega
      rw [lowBytes_of_lt hlt, truncateWidth, widthMask, if_pos (Or.inr hgt), UInt64.and_zero] at h
      exact Or.inr h
  · rintro (h | rfl)
    · exact (truncateWidth_eq v h).symm
    · rw [lowBytes_of_lt (Nat.two_pow_pos _), truncateWidth, UInt64.zero_and]

/-- The top of the stack after a faithful turn. -/
theorem Scan.Describes.top_visit (h : s.Describes m) (hf : s.Faithful insn)
    (hstacks : insn.Stacks m m'.stack) {p : ℤ × ConstantState}
    (hp : nextPendingPush s.state s.pendingPush insn = some p) :
    lowBytes p.2.width (m'.stack 0) = p.2.value := by
  unfold nextPendingPush at hp
  unfold Instruction.Stacks at hstacks
  cases hk : insn.kind <;> simp only [hk] at hp hstacks <;> try cases hp
  case pushImmediate =>
    rw [hstacks]
    exact lowBytes_eq_truncateWidth_iff.2 (hf.push hk)
  case pushRegister =>
    cases hc : s.state.find insn.sourceRegister with
    | none =>
      rw [hc] at hp
      cases hp
    | some c =>
      simp only [hc] at hp
      by_cases hwidth : insn.valueWidth = 0 ∨ c.width = insn.valueWidth
      · rw [if_pos hwidth] at hp
        obtain rfl := Option.some.inj hp
        rw [hstacks]
        exact h.regs _ c hc
      · rw [if_neg hwidth] at hp
        cases hp
  case nop =>
    rw [hstacks]
    exact h.top p hp

theorem Scan.Describes.visit (h : s.Describes m) (hf : s.Faithful insn)
    (hstep : insn.Executes m m') : (s.visit limits insn).Describes m' where
  regs := h.regs.update hf.transfer hstep.1
  top _ hp := h.top_visit hf hstep.2 hp

theorem exists_stacks (insn : Instruction) (m : Machine) : ∃ stack', insn.Stacks m stack' := by
  unfold Instruction.Stacks
  cases insn.kind
  case pushImmediate | pushRegister | «return» | nop => exact ⟨_, rfl⟩
  all_goals exact ⟨m.stack, trivial⟩

/-- A stack with the pending push on top. -/
def pendingStack (s : Scan) : ℕ → UInt64 := fun _ => (s.pendingPush.map (·.2.value)).getD 0

theorem Scan.WellFormed.describes (hwf : s.WellFormed) {regs : Registers} (h : Holds s.state regs) :
    s.Describes ⟨regs, {}, pendingStack s⟩ where
  regs := h
  top p hp := by
    have htop : pendingStack s 0 = p.2.value := by
      unfold pendingStack
      rw [hp]
      rfl
    show lowBytes p.2.width (pendingStack s 0) = _
    rw [htop]
    exact lowBytes_of_lt (hwf.pendingPush p hp)

/-- **Exactness of the turn.** -/
theorem Scan.sound_iff_faithful (hwf : s.WellFormed) :
    SoundAt Instruction.Executes Scan.Describes (Scan.visit limits) s insn ↔ s.Faithful insn := by
  constructor
  · intro h
    refine ⟨(Viy.Deobf.sound_iff_faithful hwf.state insn).1 ?_, ?_⟩
    · intro regs regs' hregs hwrites
      obtain ⟨stack', hstacks⟩ := exists_stacks insn ⟨regs, {}, pendingStack s⟩
      exact (h _ ⟨regs', {}, stack'⟩ (hwf.describes hregs) ⟨hwrites, hstacks⟩).regs
    · intro hk
      have hwrites : insn.Writes (known s.state) (known s.state) := by
        refine Or.inr ?_
        have hw : insn.written (known s.state) = .nothing := by simp [Instruction.written, hk]
        rw [hw]
      have hstacks : insn.Stacks ⟨known s.state, {}, pendingStack s⟩
          (push insn.immediate (pendingStack s)) := by
        simp only [Instruction.Stacks, hk]
      have hm' := h _ ⟨known s.state, {}, push insn.immediate (pendingStack s)⟩
        (hwf.describes (holds_known hwf.state)) ⟨hwrites, hstacks⟩
      have hp : (s.visit limits insn).pendingPush = some (noRegister,
          { value := truncateWidth insn.immediate insn.valueWidth
            width := insn.valueWidth
            steps := 1
            support := [insn.address] }) := by
        simp only [Scan.visit, nextPendingPush, hk]
      exact lowBytes_eq_truncateWidth_iff.1 (hm'.top _ hp)
  · intro hf m m' h hstep
    exact h.visit hf hstep

end Turn

/-! ## What the loop keeps -/

theorem Scan.WellFormed.visit {s : Scan} (h : s.WellFormed) (limits : ClassifierLimits)
    (insn : Instruction) : (s.visit limits insn).WellFormed where
  state := h.state.update insn
  pendingPush := by
    intro p hp
    change nextPendingPush s.state s.pendingPush insn = some p at hp
    unfold nextPendingPush at hp
    cases hk : insn.kind <;> simp only [hk] at hp <;> try cases hp
    case pushImmediate => exact truncateWidth_lt
    case pushRegister =>
      cases hc : s.state.find insn.sourceRegister with
      | none =>
        rw [hc] at hp
        cases hp
      | some c =>
        simp only [hc] at hp
        split_ifs at hp
        obtain rfl := Option.some.inj hp
        exact (h.state _ c hc).2.2.2
    case nop => exact h.pendingPush p hp

/-! ## Arrival at an instruction -/

theorem Scan.enter_state (s : Scan) (insn : Instruction) :
    ((s.enter insn).state = .empty ∧ (s.enter insn).pendingPush = none) ∨
      ((s.enter insn).state = s.state ∧ (s.enter insn).pendingPush = s.pendingPush) := by
  unfold Scan.enter
  by_cases h : insn.address ≠ s.expected ∨ insn.alternatePredecessor = true
  · rw [if_pos h]
    exact Or.inl ⟨rfl, rfl⟩
  · rw [if_neg h]
    exact Or.inr ⟨rfl, rfl⟩

theorem Scan.enter_targets (s : Scan) (insn : Instruction) :
    (s.enter insn).targets = s.targets := by
  unfold Scan.enter
  split_ifs <;> rfl

theorem Scan.Describes.enter {s : Scan} {m : Machine} (h : s.Describes m) (insn : Instruction) :
    (s.enter insn).Describes m := by
  rcases s.enter_state insn with ⟨hstate, hpending⟩ | ⟨hstate, hpending⟩
  · refine ⟨?_, ?_⟩
    · rw [hstate]
      exact holds_empty m.regs
    · intro p hp
      rw [hpending] at hp
      cases hp
  · refine ⟨?_, ?_⟩
    · rw [hstate]
      exact h.regs
    · rw [hpending]
      exact h.top

theorem Scan.WellFormed.enter {s : Scan} (h : s.WellFormed) (insn : Instruction) :
    (s.enter insn).WellFormed := by
  rcases s.enter_state insn with ⟨hstate, hpending⟩ | ⟨hstate, hpending⟩
  · refine ⟨?_, ?_⟩
    · rw [hstate]
      exact wellFormed_empty
    · intro p hp
      rw [hpending] at hp
      cases hp
  · refine ⟨?_, ?_⟩
    · rw [hstate]
      exact h.state
    · rw [hpending]
      exact h.pendingPush

/-! ## The loop -/

/-- A turn of the loop. -/
def Scan.turn (limits : ClassifierLimits) (s : Scan) (insn : Instruction) : Scan :=
  (s.enter insn).visit limits insn

/-- The instructions before the one that stops the loop. -/
def scanned (l : List Instruction) : List Instruction :=
  l.takeWhile fun insn => insn.endAddress != badAddress

theorem loop_targets (limits : ClassifierLimits) (l : List Instruction) : ∀ s : Scan,
    (Scan.loop limits l s).targets = ((scanned l).foldl (Scan.turn limits) s).targets := by
  induction l with
  | nil =>
    intro s
    rfl
  | cons insn l ih =>
    intro s
    unfold Scan.loop scanned
    by_cases hend : insn.endAddress = badAddress
    · rw [if_pos hend, List.takeWhile_cons_of_neg (by simpa using hend)]
      exact s.enter_targets insn
    · rw [if_neg hend, List.takeWhile_cons_of_pos (by simpa using hend), List.foldl_cons]
      exact ih _

theorem loop_eq_foldl (limits : ClassifierLimits) (l : List Instruction) : ∀ s : Scan,
    (∀ insn ∈ l, insn.endAddress ≠ badAddress) →
      Scan.loop limits l s = l.foldl (Scan.turn limits) s := by
  induction l with
  | nil =>
    intro s h
    rfl
  | cons insn l ih =>
    intro s h
    unfold Scan.loop
    rw [if_neg (h insn List.mem_cons_self), List.foldl_cons]
    exact ih _ fun i hi => h i (List.mem_cons_of_mem _ hi)

/-! ## Candidates -/

namespace ConstantTargetCandidate

/-- The instruction is the one that the candidate is about. -/
def IsAt (c : ConstantTargetCandidate) (insn : Instruction) : Prop :=
  c.instruction = insn.address ∧
    match c.kind with
    | .indirectCall => insn.kind = .indirectCall ∧ c.registerId = insn.baseRegister
    | .indirectJump => insn.kind = .indirectJump ∧ c.registerId = insn.baseRegister
    | .pushReturn => insn.kind = .return

/-- What that instruction branches to: the register it reads, or the value that a return pops. -/
def read (c : ConstantTargetCandidate) (m : Machine) : UInt64 :=
  match c.kind with
  | .indirectCall | .indirectJump => m.regs c.registerId
  | .pushReturn => m.stack 0

/-- A candidate is right: in every execution its instruction reads its target. -/
def Right (c : ConstantTargetCandidate) (block : Block) : Prop :=
  ∃ before insn after, block.instructions = before ++ insn :: after ∧ c.IsAt insn ∧
    ∀ m m', Run Instruction.Executes before m m' → c.target = lowBytes c.valueWidth (c.read m')

end ConstantTargetCandidate

/-- An assignment is right: every execution of the block leaves its value in its register. -/
def ConstantAssignment.Right (a : ConstantAssignment) (block : Block) : Prop :=
  ∀ m m', Run Instruction.Executes block.instructions m m' →
    a.value = lowBytes a.valueWidth (m'.regs a.registerId)

section Candidates

variable {limits : ClassifierLimits} {s : Scan} {insn : Instruction} {c : ConstantTargetCandidate}

theorem indirectTarget_spec (h : indirectTarget limits s.state insn = some c) :
    c.IsAt insn ∧ ∀ m, s.Describes m → c.target = lowBytes c.valueWidth (c.read m) := by
  unfold indirectTarget at h
  by_cases hk : insn.kind = .indirectCall ∨ insn.kind = .indirectJump
  · rw [if_pos hk] at h
    cases hfind : s.state.find insn.baseRegister with
    | none =>
      rw [hfind] at h
      cases h
    | some k =>
      simp only [hfind] at h
      by_cases hok : (insn.valueWidth = 0 ∨ k.width = insn.valueWidth) ∧
          k.steps ≥ limits.minimumConstantSteps
      · rw [if_pos hok] at h
        obtain rfl := Option.some.inj h
        rcases hk with hk | hk
        · rw [if_pos hk]
          exact ⟨⟨rfl, hk, rfl⟩, fun m hm => (hm.regs _ k hfind).symm⟩
        · have hne : insn.kind ≠ .indirectCall := by
            rw [hk]
            decide
          rw [if_neg hne]
          exact ⟨⟨rfl, hk, rfl⟩, fun m hm => (hm.regs _ k hfind).symm⟩
      · rw [if_neg hok] at h
        cases h
  · rw [if_neg hk] at h
    cases h

theorem pushReturnTarget_spec (h : pushReturnTarget limits s.pendingPush insn = some c) :
    c.IsAt insn ∧ ∀ m, s.Describes m → c.target = lowBytes c.valueWidth (c.read m) := by
  unfold pushReturnTarget at h
  split at h
  · rename_i register k hk hpending
    split_ifs at h
    obtain rfl := Option.some.inj h
    exact ⟨⟨rfl, hk⟩, fun m hm => (hm.top _ hpending).symm⟩
  · cases h

/-- A candidate that a turn adds. -/
theorem turn_spec (hnew : c ∉ s.targets) (h : c ∈ (s.turn limits insn).targets) :
    c.IsAt insn ∧
      ∀ m, (s.enter insn).Describes m → c.target = lowBytes c.valueWidth (c.read m) := by
  change c ∈ (s.enter insn).targets ++ (_ ++ _) at h
  rw [s.enter_targets, List.mem_append, List.mem_append, Option.mem_toList, Option.mem_toList] at h
  rcases h with h | h | h
  · exact absurd h hnew
  · exact indirectTarget_spec h
  · exact pushReturnTarget_spec h

end Candidates

/-! ## Blocks -/

namespace Block

variable (block : Block) (limits : ClassifierLimits)

/-- What is known on arrival at an instruction, from the ones before it. -/
def scanAt (before : List Instruction) (insn : Instruction) : Scan :=
  (before.foldl (Scan.turn limits) { expected := block.start }).enter insn

/-- Every turn of the analysis is faithful. -/
def Faithful : Prop :=
  ∀ before insn after, scanned block.instructions = before ++ insn :: after →
    (block.scanAt limits before insn).Faithful insn

theorem scanAt_wellFormed (before : List Instruction) (insn : Instruction) :
    (block.scanAt limits before insn).WellFormed := by
  suffices h : ∀ s : Scan, s.WellFormed → (before.foldl (Scan.turn limits) s).WellFormed by
    refine (h _ ⟨wellFormed_empty, ?_⟩).enter insn
    intro p hp
    cases hp
  induction before with
  | nil =>
    intro s hs
    exact hs
  | cons i before ih =>
    intro s hs
    exact ih _ ((hs.enter i).visit limits i)

variable {block limits}

theorem Faithful.soundAlong (h : block.Faithful limits) :
    SoundAlong Instruction.Executes Scan.Describes (Scan.turn limits) { expected := block.start }
      (scanned block.instructions) := by
  apply soundAlong_of_positions
  intro before insn after heq m m' hm hstep
  exact (hm.enter insn).visit (h before insn after heq) hstep

theorem describes_start (m : Machine) : Scan.Describes { expected := block.start } m := by
  refine ⟨holds_empty m.regs, ?_⟩
  intro p hp
  cases hp

/-- Candidates of a faithful block. -/
theorem Faithful.targets_right (h : block.Faithful limits) :
    ∀ c ∈ (analyzeConstantBlock block limits).targets, c.Right block := by
  intro c hc
  change c ∈ Cxx.sort candidateLess _ at hc
  rw [Cxx.mem_sort, loop_targets] at hc
  obtain ⟨before, insn, after, heq, hold, hnew⟩ :=
    exists_step_of_foldl (P := fun s : Scan => c ∈ s.targets) List.not_mem_nil hc
  obtain ⟨hat, hread⟩ := turn_spec hold hnew
  obtain ⟨rest, hrest⟩ : ∃ rest, block.instructions = scanned block.instructions ++ rest :=
    ⟨_, List.takeWhile_append_dropWhile.symm⟩
  refine ⟨before, insn, after ++ rest, ?_, hat, ?_⟩
  · rw [hrest, heq, List.append_assoc, List.cons_append]
  · intro m m' hrun
    have hsound := h.soundAlong
    rw [heq] at hsound
    exact hread m' (((SoundAlong.append.1 hsound).1.run (describes_start m) hrun).enter insn)

/-- Final assignments of a faithful block that is scanned to its end. -/
theorem Faithful.finalAssignments_right (h : block.Faithful limits)
    (hends : ∀ insn ∈ block.instructions, insn.endAddress ≠ badAddress) :
    ∀ a ∈ (analyzeConstantBlock block limits).finalAssignments, a.Right block := by
  intro a ha m m' hrun
  obtain ⟨⟨r, c⟩, hc, rfl⟩ := List.mem_map.1 ha
  have hscanned : scanned block.instructions = block.instructions :=
    List.takeWhile_eq_self_iff.2 fun insn hinsn => by simpa using hends insn hinsn
  have hsound := h.soundAlong
  rw [hscanned] at hsound
  rw [loop_eq_foldl limits _ _ hends] at hc
  exact ((hsound.run (describes_start m) hrun).regs r c (Cxx.Map.mem_entries_iff.1 hc)).symm

end Block

/-- **The report on a block.** A turn of the analysis follows the machine exactly if it is faithful.
Where all turns are, the candidates are right; if the scan reaches the end of the block, so are the
final assignments. -/
theorem constants_right_where_faithful (block : Block) (limits : ClassifierLimits) :
    (∀ before insn,
      SoundAt Instruction.Executes Scan.Describes (Scan.visit limits)
        (block.scanAt limits before insn) insn ↔
          (block.scanAt limits before insn).Faithful insn) ∧
    (block.Faithful limits →
      (∀ c ∈ (analyzeConstantBlock block limits).targets, c.Right block) ∧
        ((∀ insn ∈ block.instructions, insn.endAddress ≠ badAddress) →
          ∀ a ∈ (analyzeConstantBlock block limits).finalAssignments, a.Right block)) := by
  refine ⟨?_, ?_⟩
  · intro before insn
    exact Scan.sound_iff_faithful (block.scanAt_wellFormed limits before insn)
  · intro h
    exact ⟨h.targets_right, h.finalAssignments_right⟩

/-- `mov r1, 0x2000; add r1, 1; jmp r1` -/
def jumpBlock : Block where
  start := 0x100
  instructions :=
    [{ address := 0x100, size := 5, kind := .loadImmediate, destinationRegister := 1
       valueWidth := 8, immediate := 0x2000 },
     { address := 0x105, size := 3, kind := .addImmediate, destinationRegister := 1
       valueWidth := 8, immediate := 1 },
     { address := 0x108, size := 2, kind := .indirectJump, sourceRegister := 1
       valueWidth := 8 }]

/-- The same with `pop r1` before the jump. -/
def stalePopBlock : Block where
  start := 0x100
  instructions :=
    [{ address := 0x100, size := 5, kind := .loadImmediate, destinationRegister := 1
       valueWidth := 8, immediate := 0x2000 },
     { address := 0x105, size := 3, kind := .addImmediate, destinationRegister := 1
       valueWidth := 8, immediate := 1 },
     { address := 0x108, size := 1, kind := .popRegister, destinationRegister := 1
       valueWidth := 8 },
     { address := 0x109, size := 2, kind := .indirectJump, sourceRegister := 1
       valueWidth := 8 }]

theorem jumpBlock_right :
    (analyzeConstantBlock jumpBlock {}).targets.map (·.target) = [0x2001] ∧
      (∀ c ∈ (analyzeConstantBlock jumpBlock {}).targets, c.Right jumpBlock) ∧
        ∀ a ∈ (analyzeConstantBlock jumpBlock {}).finalAssignments, a.Right jumpBlock := by
  have hfaithful : jumpBlock.Faithful {} := by
    intro before insn after heq
    have hmem : insn ∈ jumpBlock.instructions := by
      have hinsn : insn ∈ scanned jumpBlock.instructions := by simp [heq]
      exact (List.takeWhile_sublist _).subset hinsn
    simp only [jumpBlock, List.mem_cons, List.not_mem_nil, or_false] at hmem
    rcases hmem with rfl | rfl | rfl <;> exact ⟨trivial, nofun⟩
  obtain ⟨htargets, hfinal⟩ := (constants_right_where_faithful jumpBlock {}).2 hfaithful
  refine ⟨by decide, htargets, hfinal ?_⟩
  decide

/-- The report on that jump, with the value from before the pop. -/
def stalePopCandidate : ConstantTargetCandidate where
  instruction := 0x109
  target := 0x2001
  kind := .indirectJump
  registerId := 1
  valueWidth := 8
  transformationSteps := 2
  support := [0x100, 0x105, 0x109]

/-- A pop leaves the constant of its register in place, and the jump is reported as known. -/
theorem stalePop_target_wrong :
    stalePopCandidate ∈ (analyzeConstantBlock stalePopBlock {}).targets ∧
      ¬ stalePopCandidate.Right stalePopBlock := by
  refine ⟨List.mem_singleton.2 rfl, ?_⟩
  rintro ⟨before, insn, after, heq, ⟨-, hkind, -⟩, hread⟩
  -- in this execution the pop leaves 7
  have hrun : Run Instruction.Executes (stalePopBlock.instructions.take 3)
      ⟨fun _ => 0, {}, fun _ => 0⟩
      ⟨Function.update (Function.update (Function.update (fun _ => 0) 1 0x2000) 1 0x2001) 1 7, {},
        fun _ => 0⟩ :=
    ⟨⟨_, {}, fun _ => 0⟩, ⟨writes_update (Or.inr rfl), trivial⟩,
      ⟨_, {}, fun _ => 0⟩, ⟨writes_update (Or.inr rfl), trivial⟩,
      _, ⟨writes_update (Or.inl rfl), trivial⟩, rfl⟩
  -- the jump is the only instruction of its kind
  have hbefore : before = stalePopBlock.instructions.take 3 := by
    rcases before with _ | ⟨i, _ | ⟨j, _ | ⟨k, _ | ⟨l, before⟩⟩⟩⟩ <;>
      simp only [stalePopBlock, List.nil_append, List.cons_append, List.cons.injEq] at heq
    · rw [← heq.1] at hkind
      cases hkind
    · rw [← heq.2.1] at hkind
      cases hkind
    · rw [← heq.2.2.1] at hkind
      cases hkind
    · rw [← heq.1, ← heq.2.1, ← heq.2.2.1]
      rfl
    · have hnil := heq.2.2.2.2
      simp at hnil
  rw [hbefore] at hread
  exact absurd (hread _ _ hrun) (by decide)

end Viy.Deobf
