import Viy.Deobf.Dispatch

/-!
# What a dispatch chain does

A block that is parsed as a node should compare the state register with the selector, branch on the
result, and leave the register as it was (`Block.ActsAs`). The parser accepts more: it passes calls,
and instructions between the comparison and the branch that write the zero flag in a known way. The
clean blocks are exactly the ones that act as their nodes. Along a chain of clean blocks, every
execution comes to the target of its selector or to the default target.
-/

namespace Viy.Deobf

open Absint

/-! ## Executions of blocks -/

/-- Only the destination changes, if the instruction writes a value; a call leaves all registers
open. -/
def Instruction.Frames (insn : Instruction) (regs regs' : Registers) : Prop :=
  insn.isCall = true ∨
    match insn.written regs with
    | .nothing => regs' = regs
    | _ => ∀ r ≠ insn.destinationRegister, regs' r = regs r

/-- The zero flag after an instruction. -/
def Instruction.LeavesZero (insn : Instruction) (m : Machine) (zero' : Bool) : Prop :=
  let register := low insn.valueWidth (m.regs insn.destinationRegister)
  let immediate := low insn.valueWidth insn.immediate
  match insn.kind with
  | .compareImmediate => zero' = decide (register = immediate)
  | .testImmediate => zero' = decide (register &&& immediate = 0)
  | .directCall | .indirectCall => True
  | _ => insn.flagEffect = .preserve → zero' = m.flags.zero

def Instruction.Acts (insn : Instruction) (m m' : Machine) : Prop :=
  insn.Frames m.regs m'.regs ∧ insn.LeavesZero m m'.flags.zero

/-- Where a final branch goes; only branches on the zero flag are pinned down. -/
def Instruction.Goes (branch : Instruction) (zero : Bool) (next : UInt64) : Prop :=
  match branch.kind, branch.condition with
  | .conditionalBranch, .zero => next = if zero = true then branch.target else branch.endAddress
  | .conditionalBranch, .notZero => next = if zero = true then branch.endAddress else branch.target
  | _, _ => True

/-- A block runs its instructions and follows its final branch. -/
def Block.Runs (block : Block) (m m' : Machine) (next : UInt64) : Prop :=
  ∃ body branch u, block.instructions = body ++ [branch] ∧ Run Instruction.Acts body m u ∧
    branch.Acts u m' ∧ branch.Goes u.flags.zero next

/-- A step of the program: the block at an address runs. -/
def Program.Step (blocks : List Block) (s t : UInt64 × Machine) : Prop :=
  ∃ block ∈ blocks, block.start = s.1 ∧ block.Runs s.2 t.2 t.1

/-- Every execution from a state comes to an address. -/
def Program.Reaches (blocks : List Block) (target : UInt64) (s : UInt64 × Machine) : Prop :=
  Inevitable (Program.Step blocks) (fun t => t.1 = target) s

/-! ## Frames -/

theorem written_eq_nothing_iff {insn : Instruction} {regs : Registers} :
    insn.written regs = .nothing ↔ writesDestinationValue insn = false := by
  unfold Instruction.written writesDestinationValue
  by_cases hd : insn.destinationRegister = noRegister
  · rw [if_pos hd, if_pos hd]
    exact iff_of_true rfl rfl
  · rw [if_neg hd, if_neg hd]
    cases insn.kind <;> simp

section Frames

variable {insn : Instruction} {m m' : Machine} {r : ℤ}

/-- The instruction does not change a register. -/
def Instruction.Spares (insn : Instruction) (r : ℤ) : Prop :=
  insn.isCall = false ∧ ¬ (insn.destinationRegister = r ∧ writesDestinationValue insn = true)

theorem Instruction.Acts.keeps (h : insn.Acts m m') (hspares : insn.Spares r) :
    m'.regs r = m.regs r := by
  rcases h.1 with hcall | hframe
  · rw [hspares.1] at hcall
    cases hcall
  cases hw : writesDestinationValue insn with
  | false =>
    rw [written_eq_nothing_iff.2 hw] at hframe
    rw [hframe]
  | true =>
    have hr : r ≠ insn.destinationRegister := fun heq => hspares.2 ⟨heq.symm, hw⟩
    cases hwritten : insn.written m.regs with
    | nothing =>
      rw [hwritten] at hframe
      rw [hframe]
    | anything =>
      rw [hwritten] at hframe
      exact hframe r hr
    | value v =>
      rw [hwritten] at hframe
      exact hframe r hr

theorem run_keeps {l : List Instruction} : ∀ {m m' : Machine}, (∀ i ∈ l, i.Spares r) →
    Run Instruction.Acts l m m' → m'.regs r = m.regs r := by
  induction l with
  | nil =>
    rintro m m' - rfl
    rfl
  | cons i l ih =>
    rintro m m' hspares ⟨u, hstep, hrun⟩
    rw [ih (fun j hj => hspares j (List.mem_cons_of_mem _ hj)) hrun,
      hstep.keeps (hspares i List.mem_cons_self)]

/-- The instruction keeps the zero flag. -/
def Instruction.KeepsZero (insn : Instruction) : Prop :=
  insn.isCall = false ∧ insn.kind ≠ .compareImmediate ∧ insn.kind ≠ .testImmediate ∧
    insn.flagEffect = .preserve

theorem Instruction.Acts.keeps_zero (h : insn.Acts m m') (hkeeps : insn.KeepsZero) :
    m'.flags.zero = m.flags.zero := by
  obtain ⟨hcall, hcompare, htest, heffect⟩ := hkeeps
  have hzero := h.2
  unfold Instruction.LeavesZero at hzero
  unfold Instruction.isCall at hcall
  cases hk : insn.kind <;> simp only [hk] at hzero hcall hcompare htest
  case compareImmediate => exact absurd rfl hcompare
  case testImmediate => exact absurd rfl htest
  case directCall | indirectCall => cases hcall
  all_goals exact hzero heffect

theorem run_keeps_zero {l : List Instruction} : ∀ {m m' : Machine}, (∀ i ∈ l, i.KeepsZero) →
    Run Instruction.Acts l m m' → m'.flags.zero = m.flags.zero := by
  induction l with
  | nil =>
    rintro m m' - rfl
    rfl
  | cons i l ih =>
    rintro m m' hkeeps ⟨u, hstep, hrun⟩
    rw [ih (fun j hj => hkeeps j (List.mem_cons_of_mem _ hj)) hrun,
      hstep.keeps_zero (hkeeps i List.mem_cons_self)]

end Frames

/-! ## Parsed blocks -/

/-- The parts of a block that is parsed as a node. -/
structure Parsed (block : Block) (node : DispatchNode) (before : List Instruction)
    (compare : Instruction) (passed : List Instruction) (branch : Instruction) : Prop where
  instructions : block.instructions = (before ++ compare :: passed) ++ [branch]
  kind : compare.kind = .compareImmediate
  register : compare.destinationRegister ≠ noRegister
  pos : 1 ≤ compare.valueWidth.toNat
  le : compare.valueWidth.toNat ≤ 8
  noCompare : ∀ i ∈ passed, i.kind ≠ .compareImmediate
  spares : ∀ i ∈ before ++ passed,
    ¬ (i.destinationRegister = compare.destinationRegister ∧ writesDestinationValue i = true)
  branchKind : branch.kind = .conditionalBranch
  condition : branch.condition = .zero ∨ branch.condition = .notZero
  node : node = makeNode block compare branch

theorem searchCompare_spec : ∀ {l passed before : List Instruction} {compare : Instruction},
    searchCompare l = some (passed, compare, before) →
      l = passed ++ compare :: before ∧ compare.kind = .compareImmediate ∧
        ∀ i ∈ passed, i.kind ≠ .compareImmediate := by
  intro l
  induction l with
  | nil =>
    intro passed before compare h
    cases h
  | cons insn l ih =>
    intro passed before compare h
    unfold searchCompare at h
    by_cases hk : insn.kind = .compareImmediate
    · rw [if_pos hk, Option.some.injEq, Prod.mk.injEq, Prod.mk.injEq] at h
      obtain ⟨rfl, rfl, rfl⟩ := h
      exact ⟨rfl, hk, fun i hi => absurd hi List.not_mem_nil⟩
    rw [if_neg hk] at h
    by_cases heffect : insn.flagEffect = .unknownWrite
    · rw [if_pos heffect] at h
      cases h
    rw [if_neg heffect, Option.map_eq_some_iff] at h
    obtain ⟨⟨passed', compare', before'⟩, hsearch, heq⟩ := h
    rw [Prod.mk.injEq, Prod.mk.injEq] at heq
    obtain ⟨rfl, rfl, rfl⟩ := heq
    obtain ⟨rfl, hkind, hnone⟩ := ih hsearch
    refine ⟨rfl, hkind, ?_⟩
    intro i hi
    rcases List.mem_cons.1 hi with rfl | hi
    · exact hk
    · exact hnone i hi

theorem parseDispatchNode_spec {block : Block} {node : DispatchNode}
    (h : parseDispatchNode block = some node) :
    ∃ before compare passed branch, Parsed block node before compare passed branch := by
  unfold parseDispatchNode at h
  split at h
  · rename_i branch insn rest hreverse
    by_cases hbranch : branch.kind ≠ .conditionalBranch ∨ branch.target = badAddress ∨
        (branch.condition ≠ .zero ∧ branch.condition ≠ .notZero)
    · rw [if_pos hbranch] at h
      cases h
    rw [if_neg hbranch] at h
    by_cases hend : branch.endAddress = badAddress
    · rw [if_pos hend] at h
      cases h
    rw [if_neg hend] at h
    cases hsearch : searchCompare (insn :: rest) with
    | none =>
      rw [hsearch] at h
      cases h
    | some found =>
      obtain ⟨passed, compare, before⟩ := found
      simp only [hsearch] at h
      split_ifs at h with hcompare hwrites
      obtain ⟨hl, hkind, hnone⟩ := searchCompare_spec hsearch
      push Not at hbranch hcompare
      obtain ⟨hbranchKind, -, hcondition⟩ := hbranch
      obtain ⟨hregister, -, hzero, hle⟩ := hcompare
      have hpos : compare.valueWidth.toNat ≠ 0 := fun heq => hzero (UInt8.toNat_inj.1 heq)
      refine ⟨before.reverse, compare, passed.reverse, branch, ?_, hkind, hregister,
        Nat.one_le_iff_ne_zero.2 hpos, UInt8.not_lt.1 hle, ?_, ?_, hbranchKind, ?_,
        (Option.some.inj h).symm⟩
      · rw [← List.reverse_reverse block.instructions, hreverse, hl]
        simp
      · intro i hi
        exact hnone i (List.mem_reverse.1 hi)
      · intro i hi hwrite
        refine hwrites (List.any_eq_true.2 ⟨i, hi, ?_⟩)
        rw [Bool.and_eq_true, decide_eq_true_iff]
        exact hwrite
      · by_cases hz : branch.condition = .zero
        · exact Or.inl hz
        · exact Or.inr (hcondition hz)
  · cases h

/-! ## Clean blocks -/

/-- Where a node sends a state. -/
def DispatchNode.choose (node : DispatchNode) (v : UInt64) : UInt64 :=
  if v = node.selector then node.caseTarget else node.next

/-- The block branches on the low bytes of the state register and leaves them as they are. -/
def Block.ActsAs (block : Block) (node : DispatchNode) : Prop :=
  ∀ m m' next, block.Runs m m' next →
    next = node.choose (lowBytes node.width (m.regs node.reg)) ∧
      lowBytes node.width (m'.regs node.reg) = lowBytes node.width (m.regs node.reg)

/-- A test of the state register that finds what the comparison found. -/
def Instruction.Repeats (t compare : Instruction) : Prop :=
  t.kind = .testImmediate ∧ t.destinationRegister = compare.destinationRegister ∧
    ∀ v : UInt64, low t.valueWidth v &&& low t.valueWidth t.immediate = 0 ↔
      low compare.valueWidth v = low compare.valueWidth compare.immediate

/-- There is no call, and unless the branch goes to one address only, the zero flag at the branch is
that of the comparison: what writes it last, if anything does, repeats the comparison. -/
def Block.Clean (block : Block) (node : DispatchNode) : Prop :=
  ∃ before compare passed branch, Parsed block node before compare passed branch ∧
    (∀ i ∈ before ++ passed, i.isCall = false) ∧
    (branch.target = branch.endAddress ∨ ∀ front t back, passed = front ++ t :: back →
      (∀ i ∈ back, i.KeepsZero) → t.KeepsZero ∨ t.Repeats compare)

section Clean

variable {block : Block} {node : DispatchNode} {before passed : List Instruction}
  {compare branch : Instruction} (p : Parsed block node before compare passed branch)

include p

theorem Parsed.goes {zero : Bool} {next : UInt64} (h : branch.Goes zero next) :
    next = if zero = true then node.caseTarget else node.next := by
  unfold Instruction.Goes at h
  rw [p.node]
  rcases p.condition with hcondition | hcondition
  · simp only [p.branchKind, hcondition] at h
    simp only [makeNode, hcondition, if_true]
    exact h
  · simp only [p.branchKind, hcondition] at h
    simp only [makeNode, hcondition, reduceCtorEq, if_false]
    exact h

theorem Parsed.runs_iff {m m' : Machine} {next : UInt64} :
    block.Runs m m' next ↔ ∃ u, Run Instruction.Acts (before ++ compare :: passed) m u ∧
      branch.Acts u m' ∧ branch.Goes u.flags.zero next := by
  constructor
  · rintro ⟨body, branch', u, heq, hrun, hbranch, hgoes⟩
    rw [p.instructions] at heq
    obtain ⟨rfl, hlast⟩ := List.append_inj' heq rfl
    obtain rfl := List.cons.inj hlast |>.1
    exact ⟨u, hrun, hbranch, hgoes⟩
  · rintro ⟨u, hrun, hbranch, hgoes⟩
    exact ⟨_, _, u, p.instructions, hrun, hbranch, hgoes⟩

theorem Parsed.selector_iff {v : UInt64} :
    lowBytes node.width v = node.selector ↔
      low compare.valueWidth v = low compare.valueWidth compare.immediate := by
  rw [p.node]
  show lowBytes compare.valueWidth v = truncateWidth compare.immediate compare.valueWidth ↔ _
  rw [truncateWidth_eq _ p.le, lowBytes_inj]

theorem Parsed.branch_keeps {u m' : Machine} (h : branch.Acts u m') : m'.regs = u.regs := by
  have hspares : ∀ r, branch.Spares r := by
    intro r
    refine ⟨?_, ?_⟩
    · simp [Instruction.isCall, p.branchKind]
    · rintro ⟨-, hw⟩
      simp [writesDestinationValue, p.branchKind] at hw
  funext r
  exact h.keeps (hspares r)

end Clean

/-- The zero flag of the comparison lasts until the branch. -/
theorem zero_lasts {compare : Instruction} {passed : List Instruction} :
    ∀ {m u : Machine}, (∀ i ∈ passed, i.Spares compare.destinationRegister) →
      (∀ front t back, passed = front ++ t :: back → (∀ i ∈ back, i.KeepsZero) →
        t.KeepsZero ∨ t.Repeats compare) →
      m.flags.zero = decide (low compare.valueWidth (m.regs compare.destinationRegister) =
        low compare.valueWidth compare.immediate) →
      Run Instruction.Acts passed m u →
        u.flags.zero = decide (low compare.valueWidth (m.regs compare.destinationRegister) =
          low compare.valueWidth compare.immediate) := by
  induction passed using List.reverseRecOn with
  | nil =>
    rintro m u - - hm rfl
    exact hm
  | append_singleton front t ih =>
    intro m u hspares hlast hm hrun
    obtain ⟨w, hfront, u', hstep, rfl⟩ := run_append.1 hrun
    rcases hlast front t [] rfl (fun i hi => absurd hi List.not_mem_nil) with hkeeps | hrepeats
    · rw [hstep.keeps_zero hkeeps]
      refine ih (fun i hi => hspares i (List.mem_append_left _ hi)) ?_ hm hfront
      rintro front' t' back rfl hback
      refine hlast front' t' (back ++ [t]) (by simp) ?_
      intro i hi
      rcases List.mem_append.1 hi with hi | hi
      · exact hback i hi
      · rw [List.mem_singleton.1 hi]
        exact hkeeps
    · obtain ⟨hkind, hregister, hagree⟩ := hrepeats
      have hw : w.regs compare.destinationRegister = m.regs compare.destinationRegister :=
        run_keeps (fun i hi => hspares i (List.mem_append_left _ hi)) hfront
      have hzero := hstep.2
      simp only [Instruction.LeavesZero, hkind] at hzero
      rw [hzero, hregister, hw, decide_eq_decide]
      exact hagree _

/-- Clean blocks act as their nodes. -/
theorem Block.Clean.actsAs {block : Block} {node : DispatchNode} (h : block.Clean node) :
    block.ActsAs node := by
  obtain ⟨before, compare, passed, branch, p, hcalls, hlast⟩ := h
  have hspares : ∀ i ∈ before ++ passed, i.Spares compare.destinationRegister :=
    fun i hi => ⟨hcalls i hi, p.spares i hi⟩
  have hcompare : compare.Spares compare.destinationRegister := by
    refine ⟨?_, ?_⟩
    · simp [Instruction.isCall, p.kind]
    · rintro ⟨-, hw⟩
      simp [writesDestinationValue, p.kind] at hw
  have hreg : node.reg = compare.destinationRegister := by
    rw [p.node]
    rfl
  intro m m' next hruns
  obtain ⟨u, hrun, hbranch, hgoes⟩ := p.runs_iff.1 hruns
  obtain ⟨m₁, hbefore, m₂, hstep, hpassed⟩ := run_append.1 hrun
  have h₁ : m₁.regs compare.destinationRegister = m.regs compare.destinationRegister :=
    run_keeps (fun i hi => hspares i (List.mem_append_left _ hi)) hbefore
  have h₂ : m₂.regs compare.destinationRegister = m.regs compare.destinationRegister := by
    rw [hstep.keeps hcompare, h₁]
  have hu : u.regs compare.destinationRegister = m.regs compare.destinationRegister := by
    rw [run_keeps (fun i hi => hspares i (List.mem_append_right _ hi)) hpassed, h₂]
  refine ⟨?_, ?_⟩
  · rw [p.goes hgoes]
    unfold DispatchNode.choose
    rcases hlast with heq | hlast
    · -- both ways are the same
      have hsame : node.caseTarget = node.next := by
        rw [p.node]
        simp only [makeNode, heq]
      rw [hsame, ite_self, ite_self]
    · have hzero := hstep.2
      simp only [Instruction.LeavesZero, p.kind] at hzero
      rw [h₁] at hzero
      have hz : u.flags.zero = decide (low compare.valueWidth (m.regs compare.destinationRegister) =
          low compare.valueWidth compare.immediate) := by
        rw [← h₂]
        apply zero_lasts (fun i hi => hspares i (List.mem_append_right _ hi)) hlast _ hpassed
        rw [h₂]
        exact hzero
      rw [hz]
      simp only [decide_eq_true_iff, p.selector_iff, hreg]
  · rw [p.branch_keeps hbranch, hreg, hu]

/-! ### Unclean blocks -/

theorem frames_refl (insn : Instruction) (regs : Registers) : insn.Frames regs regs := by
  refine Or.inr ?_
  cases insn.written regs with
  | nothing => rfl
  | anything => exact fun _ _ => rfl
  | value v => exact fun _ _ => rfl

def Machine.setZero (m : Machine) (zero : Bool) : Machine :=
  { m with flags := { m.flags with zero := zero } }

/-- Every instruction can leave all but the zero flag as it is. -/
theorem exists_acts (insn : Instruction) (m : Machine) :
    ∃ zero, insn.Acts m (m.setZero zero) := by
  have hzero : ∃ zero, insn.LeavesZero m zero := by
    unfold Instruction.LeavesZero
    cases insn.kind
    case compareImmediate | testImmediate => exact ⟨_, rfl⟩
    case directCall | indirectCall => exact ⟨true, trivial⟩
    all_goals exact ⟨m.flags.zero, fun _ => rfl⟩
  obtain ⟨zero, hzero⟩ := hzero
  exact ⟨zero, frames_refl insn m.regs, hzero⟩

theorem exists_run (l : List Instruction) : ∀ m : Machine,
    ∃ zero, Run Instruction.Acts l m (m.setZero zero) := by
  induction l with
  | nil =>
    intro m
    exact ⟨m.flags.zero, rfl⟩
  | cons insn l ih =>
    intro m
    obtain ⟨zero, hstep⟩ := exists_acts insn m
    obtain ⟨zero', hrun⟩ := ih (m.setZero zero)
    exact ⟨zero', _, hstep, hrun⟩

theorem exists_goes (branch : Instruction) (zero : Bool) : ∃ next, branch.Goes zero next := by
  unfold Instruction.Goes
  split
  · exact ⟨_, rfl⟩
  · exact ⟨_, rfl⟩
  · exact ⟨0, trivial⟩

/-- A parsed block runs from every state. -/
theorem exists_runs {block : Block} {node : DispatchNode} (h : parseDispatchNode block = some node)
    (m : Machine) : ∃ m' next, block.Runs m m' next := by
  obtain ⟨before, compare, passed, branch, p⟩ := parseDispatchNode_spec h
  obtain ⟨zero, hrun⟩ := exists_run (before ++ compare :: passed) m
  obtain ⟨zero', hbranch⟩ := exists_acts branch (m.setZero zero)
  obtain ⟨next, hgoes⟩ := exists_goes branch zero
  exact ⟨_, next, p.runs_iff.2 ⟨_, hrun, hbranch, hgoes⟩⟩

section Unclean

variable {block : Block} {node : DispatchNode} {before passed : List Instruction}
  {compare branch : Instruction} (p : Parsed block node before compare passed branch)
  (hacts : block.ActsAs node)

include p hacts

/-- A call could change the state register. -/
theorem Parsed.no_call : ∀ i ∈ before ++ passed, i.isCall = false := by
  intro i hi
  by_contra hcall
  rw [Bool.not_eq_false] at hcall
  have hbody : i ∈ before ++ compare :: passed := by
    rw [List.mem_append, List.mem_cons]
    rcases List.mem_append.1 hi with hi | hi
    · exact Or.inl hi
    · exact Or.inr (Or.inr hi)
  obtain ⟨front, back, hsplit⟩ := List.append_of_mem hbody
  -- the call turns 0 into 1, everything else leaves the registers alone
  obtain ⟨zero₁, hfront⟩ := exists_run front ⟨fun _ => 0, {}, fun _ => 0⟩
  have hleaves : ∀ m zero, i.LeavesZero m zero := by
    intro m zero
    unfold Instruction.isCall at hcall
    unfold Instruction.LeavesZero
    cases hk : i.kind <;> simp [hk] at hcall ⊢
  obtain ⟨zero₂, hback⟩ := exists_run back ⟨fun _ => 1, {}, fun _ => 0⟩
  obtain ⟨zero₃, hbranch⟩ := exists_acts branch (Machine.setZero ⟨fun _ => 1, {}, fun _ => 0⟩ zero₂)
  obtain ⟨next, hgoes⟩ := exists_goes branch zero₂
  have hrun : Run Instruction.Acts (before ++ compare :: passed) ⟨fun _ => 0, {}, fun _ => 0⟩
      (Machine.setZero ⟨fun _ => 1, {}, fun _ => 0⟩ zero₂) := by
    rw [hsplit]
    exact run_append.2 ⟨_, hfront, _, ⟨Or.inl hcall, hleaves _ _⟩, hback⟩
  have hkeeps := (hacts _ _ next (p.runs_iff.2 ⟨_, hrun, hbranch, hgoes⟩)).2
  have hwidth : node.width = compare.valueWidth := by
    rw [p.node]
    rfl
  rw [hwidth] at hkeeps
  exact lowBytes_add_one_ne p.pos p.le 0 hkeeps

/-- At the branch the zero flag is that of the comparison, if it makes a difference. -/
theorem Parsed.zero_iff (hne : branch.target ≠ branch.endAddress) {m : Machine} {zero : Bool}
    (hrun : Run Instruction.Acts (before ++ compare :: passed) m (m.setZero zero)) :
    zero = true ↔ low compare.valueWidth (m.regs compare.destinationRegister) =
      low compare.valueWidth compare.immediate := by
  obtain ⟨zero', hbranch⟩ := exists_acts branch (m.setZero zero)
  obtain ⟨next, hgoes⟩ := exists_goes branch zero
  have hnext := (hacts _ _ next (p.runs_iff.2 ⟨_, hrun, hbranch, hgoes⟩)).1
  have hreg : node.reg = compare.destinationRegister := by
    rw [p.node]
    rfl
  have hdiffer : node.caseTarget ≠ node.next := by
    rw [p.node]
    rcases p.condition with hcondition | hcondition
    · simpa only [makeNode, hcondition, if_true] using hne
    · simpa only [makeNode, hcondition, reduceCtorEq, if_false] using hne.symm
  rw [p.goes hgoes, DispatchNode.choose, hreg] at hnext
  rw [← p.selector_iff]
  by_cases hz : zero = true
  · rw [if_pos hz] at hnext
    refine iff_of_true hz ?_
    by_contra hsel
    rw [if_neg hsel] at hnext
    exact hdiffer hnext
  · rw [if_neg hz] at hnext
    refine iff_of_false hz ?_
    intro hsel
    rw [if_pos hsel] at hnext
    exact hdiffer hnext.symm

/-- What writes the zero flag last repeats the comparison. -/
theorem Parsed.repeats (hne : branch.target ≠ branch.endAddress) {front back : List Instruction}
    {t : Instruction} (hpassed : passed = front ++ t :: back) (hback : ∀ i ∈ back, i.KeepsZero) :
    t.KeepsZero ∨ t.Repeats compare := by
  by_cases hkeeps : t.KeepsZero
  · exact Or.inl hkeeps
  have hmem : t ∈ passed := by
    rw [hpassed]
    simp
  have hcall := p.no_call hacts t (List.mem_append_right _ hmem)
  have hcompare := p.noCompare t hmem
  -- a run that leaves the registers alone has the zero flag of `t` at the branch
  have hzero : ∀ (m : Machine) (zero : Bool),
      (∀ u : Machine, u.regs = m.regs → t.LeavesZero u zero) →
        (zero = true ↔ low compare.valueWidth (m.regs compare.destinationRegister) =
          low compare.valueWidth compare.immediate) := by
    intro m zero hleaves
    obtain ⟨zero₁, hfront⟩ := exists_run (before ++ compare :: front) m
    obtain ⟨zero₂, hrest⟩ := exists_run back (m.setZero zero)
    have hlast : zero₂ = zero := run_keeps_zero hback hrest
    rw [hlast] at hrest
    refine p.zero_iff hacts hne ?_
    have hbody : before ++ compare :: passed = (before ++ compare :: front) ++ t :: back := by
      rw [hpassed]
      simp
    rw [hbody]
    exact run_append.2
      ⟨_, hfront, m.setZero zero, ⟨frames_refl t m.regs, hleaves (m.setZero zero₁) rfl⟩, hrest⟩
  by_cases htest : t.kind = .testImmediate
  · have hagree : ∀ regs : Registers,
        low t.valueWidth (regs t.destinationRegister) &&& low t.valueWidth t.immediate = 0 ↔
          low compare.valueWidth (regs compare.destinationRegister) =
            low compare.valueWidth compare.immediate := by
      intro regs
      refine decide_eq_true_iff.symm.trans (hzero ⟨regs, {}, fun _ => 0⟩ _ ?_)
      intro u hu
      simp only [Instruction.LeavesZero, htest, hu]
    have hregister : t.destinationRegister = compare.destinationRegister := by
      by_contra hdiffer
      have hone := hagree (Function.update (fun _ => 0) compare.destinationRegister
        compare.immediate)
      have htwo := hagree (Function.update (fun _ => 0) compare.destinationRegister
        (compare.immediate + 1))
      rw [Function.update_self, Function.update_of_ne hdiffer] at hone htwo
      exact lowBytes_add_one_ne p.pos p.le _ (lowBytes_inj.2 (htwo.1 (hone.2 rfl)))
    refine Or.inr ⟨htest, hregister, ?_⟩
    intro v
    have hv := hagree fun _ => v
    exact hv
  · -- the zero flag after `t` is open
    have heffect : t.flagEffect ≠ .preserve := fun heq => hkeeps ⟨hcall, hcompare, htest, heq⟩
    have hopen : ∀ (u : Machine) (zero : Bool), t.LeavesZero u zero := by
      intro u zero
      unfold Instruction.LeavesZero
      cases hk : t.kind <;> rw [hk] at htest hcompare
      case compareImmediate => exact absurd rfl hcompare
      case testImmediate => exact absurd rfl htest
      case directCall | indirectCall => exact trivial
      all_goals exact fun heq => absurd heq heffect
    have htrue := hzero ⟨fun _ => 0, {}, fun _ => 0⟩ true fun u _ => hopen u true
    have hfalse := hzero ⟨fun _ => 0, {}, fun _ => 0⟩ false fun u _ => hopen u false
    exact absurd (hfalse.2 (htrue.1 rfl)) (by decide)

end Unclean

/-- **Nodes.** The clean blocks are the ones that act as their nodes. -/
theorem actsAs_iff_clean {block : Block} {node : DispatchNode}
    (h : parseDispatchNode block = some node) : block.ActsAs node ↔ block.Clean node := by
  constructor
  · intro hacts
    obtain ⟨before, compare, passed, branch, p⟩ := parseDispatchNode_spec h
    refine ⟨before, compare, passed, branch, p, p.no_call hacts, ?_⟩
    by_cases heq : branch.target = branch.endAddress
    · exact Or.inl heq
    · exact Or.inr fun front t back hpassed hback => p.repeats hacts heq hpassed hback
  · intro hclean
    exact hclean.actsAs

end Viy.Deobf
