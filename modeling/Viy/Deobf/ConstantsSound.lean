import Viy.Deobf.Constants

/-!
# What the constants of a block are worth

A state of the analysis describes the machines in which every tracked register has its known value.
The transfer function is sound at a state and an instruction exactly if the instruction is
`Faithful` there, and a block all of whose steps are faithful is reported correctly.
-/

namespace Viy.Deobf

open Absint

/-! ## Registers -/

/-- Every tracked register has its value. -/
def Holds (state : StateMap) (regs : Registers) : Prop :=
  ∀ r c, state.find r = some c → lowBytes c.width (regs r) = c.value

/-- The cases in which the transfer function follows the instruction. -/
def Faithful (state : StateMap) (insn : Instruction) : Prop :=
  match insn.kind with
  | .popRegister | .readStackTop => state.find insn.destinationRegister = none
  | .copyRegister => validIntegerInstruction insn = true →
      ∀ c, state.find insn.sourceRegister = some c → insn.valueWidth ≤ c.width
  | .replaceHigh16 => validIntegerInstruction insn = true → 4 ≤ insn.valueWidth →
      ∀ c, state.find insn.baseRegister = some c → c.width = insn.valueWidth →
        c.value.toNat < 2 ^ 32
  | _ => True

theorem validIntegerInstruction_iff {insn : Instruction} :
    validIntegerInstruction insn = true ↔
      insn.destinationRegister ≠ noRegister ∧ 1 ≤ insn.valueWidth.toNat ∧
        insn.valueWidth.toNat ≤ 8 := by
  unfold validIntegerInstruction
  rw [Bool.and_eq_true, Bool.and_eq_true, bne_iff_ne, decide_eq_true_iff, decide_eq_true_iff,
    UInt8.le_iff_toNat_le, UInt8.le_iff_toNat_le, and_assoc]
  rfl

theorem holds_empty (regs : Registers) : Holds .empty regs := by
  intro r c hc
  cases hc

section Registers

variable {state : StateMap} {insn : Instruction} {regs regs' : Registers}

theorem find_eraseDestination {r : ℤ} {c : ConstantState}
    (h : (eraseDestination state insn).find r = some c) :
    state.find r = some c ∧
      (insn.destinationRegister ≠ noRegister → r ≠ insn.destinationRegister) := by
  unfold eraseDestination at h
  by_cases hd : insn.destinationRegister ≠ noRegister
  · rw [if_pos hd, Cxx.Map.find_erase] at h
    by_cases hr : insn.destinationRegister = r
    · rw [if_pos hr] at h
      cases h
    · rw [if_neg hr] at h
      exact ⟨h, fun _ => Ne.symm hr⟩
  · rw [if_neg hd] at h
    exact ⟨h, fun hd' => absurd hd' hd⟩

theorem Holds.erase (h : Holds state regs)
    (hkeeps : ∀ r, (insn.destinationRegister ≠ noRegister → r ≠ insn.destinationRegister) →
      regs' r = regs r) :
    Holds (eraseDestination state insn) regs' := by
  intro r c hc
  obtain ⟨hfind, hr⟩ := find_eraseDestination hc
  rw [hkeeps r hr]
  exact h r c hfind

theorem Holds.set (h : Holds state regs)
    (hkeeps : ∀ r, r ≠ insn.destinationRegister → regs' r = regs r) {c : ConstantState}
    (hc : lowBytes c.width (regs' insn.destinationRegister) = c.value) :
    Holds (state.set insn.destinationRegister c) regs' := by
  intro r d hd
  rw [Cxx.Map.find_set] at hd
  by_cases hr : insn.destinationRegister = r
  · rw [if_pos hr, Option.some.injEq] at hd
    rw [← hd, ← hr]
    exact hc
  · rw [if_neg hr] at hd
    rw [hkeeps r (Ne.symm hr)]
    exact h r d hd

variable (hcall : insn.isCall = false) (hwrites : insn.Writes regs regs') (h : Holds state regs)

include hcall hwrites h

theorem Holds.eraseDestination : Holds (eraseDestination state insn) regs' :=
  h.erase fun _ hr => hwrites.keeps hcall hr

/-- A register that is set to the low bytes of what the instruction writes. -/
theorem Holds.setWritten {c : ConstantState} {v : UInt64} (hwidth : c.width = insn.valueWidth)
    (hv : insn.written regs = .value v) (hc : lowBytes insn.valueWidth v = c.value) :
    Holds (state.set insn.destinationRegister c) regs' := by
  apply h.set
  · intro r hr
    exact hwrites.keeps hcall fun _ => hr
  · rw [hwidth, ← hc, lowBytes_inj]
    exact hwrites.writes hcall hv

theorem Holds.unwritten (hw : insn.written regs = .nothing) : Holds state regs' := by
  rcases hwrites with hwrites | hwrites
  · rw [hcall] at hwrites
    cases hwrites
  · rw [hw] at hwrites
    rwa [hwrites]

/-- The state says nothing of the register that is written. -/
theorem Holds.untracked (hnone : state.find insn.destinationRegister = none) :
    Holds state regs' := by
  intro r c hc
  have hr : r ≠ insn.destinationRegister := by
    rintro rfl
    rw [hnone] at hc
    cases hc
  rw [hwrites.keeps hcall fun _ => hr]
  exact h r c hc

theorem Holds.assign {v : UInt64} {steps : ℕ} {readOnly : Bool} {support : List UInt64}
    (hv : insn.destinationRegister ≠ noRegister → insn.written regs = .value v) :
    Holds (assignConstant state insn v steps readOnly support) regs' := by
  unfold assignConstant
  by_cases hvalid : validIntegerInstruction insn = true
  · rw [if_pos hvalid]
    obtain ⟨hd, -, hwidth⟩ := validIntegerInstruction_iff.1 hvalid
    exact h.setWritten hcall hwrites rfl (hv hd) (truncateWidth_eq v hwidth).symm
  · rw [if_neg hvalid]
    exact h.eraseDestination hcall hwrites

theorem Holds.copy (hk : insn.kind = .copyRegister)
    (hfaithful : validIntegerInstruction insn = true →
      ∀ c, state.find insn.sourceRegister = some c → insn.valueWidth ≤ c.width) :
    Holds (copyConstant state insn) regs' := by
  unfold copyConstant
  cases hc : state.find insn.sourceRegister with
  | none => exact h.eraseDestination hcall hwrites
  | some c =>
    show Holds (if validIntegerInstruction insn = true then _ else _) regs'
    by_cases hvalid : validIntegerInstruction insn = true
    · rw [if_pos hvalid]
      obtain ⟨hd, -, hwidth⟩ := validIntegerInstruction_iff.1 hvalid
      have hv : insn.written regs = .value (regs insn.sourceRegister) := by
        simp only [Instruction.written, if_neg hd, hk]
      refine h.setWritten hcall hwrites rfl hv ?_
      show _ = truncateWidth c.value insn.valueWidth
      rw [truncateWidth_eq _ hwidth, ← h _ c hc, lowBytes_lowBytes (hfaithful hvalid c hc)]
    · rw [if_neg hvalid]
      exact h.eraseDestination hcall hwrites

theorem Holds.transform (hvalue : ∀ c v, validIntegerInstruction insn = true →
      state.find insn.baseRegister = some c → c.width = insn.valueWidth →
      transformedValue insn c.value = some v →
        ∃ v', insn.written regs = .value v' ∧ lowBytes insn.valueWidth v' = v) :
    Holds (transformConstant state insn) regs' := by
  unfold transformConstant
  cases hc : state.find insn.baseRegister with
  | none => exact h.eraseDestination hcall hwrites
  | some c =>
    show Holds
      (if (validIntegerInstruction insn && c.width == insn.valueWidth) = true then _ else _) regs'
    by_cases hvalid : (validIntegerInstruction insn && c.width == insn.valueWidth) = true
    · rw [if_pos hvalid]
      rw [Bool.and_eq_true, beq_iff_eq] at hvalid
      cases ht : transformedValue insn c.value with
      | none => exact h.eraseDestination hcall hwrites
      | some v =>
        obtain ⟨v', hw, hv⟩ := hvalue c v hvalid.1 hc hvalid.2 ht
        exact h.setWritten hcall hwrites rfl hw hv
    · rw [if_neg hvalid]
      exact h.eraseDestination hcall hwrites

end Registers

theorem toNat_replacedWord (v immediate : UInt64) :
    (replacedWord v immediate).toNat =
      2 ^ 16 * (immediate.toNat % 2 ^ 16) + v.toNat % 2 ^ 16 := by
  have hand : ∀ w : UInt64, (w &&& 0xffff).toNat = w.toNat % 2 ^ 16 := fun w => by
    rw [UInt64.toNat_and]
    exact Nat.and_two_pow_sub_one_eq_mod w.toNat 16
  have hshift : ((immediate &&& 0xffff) <<< (16 : UInt64)).toNat =
      2 ^ 16 * (immediate.toNat % 2 ^ 16) := by
    rw [UInt64.toNat_shiftLeft, hand]
    show (immediate.toNat % 2 ^ 16) <<< 16 % 2 ^ 64 = _
    rw [Nat.shiftLeft_eq]
    omega
  unfold replacedWord
  rw [UInt64.toNat_or, hand, hshift, Nat.or_comm]
  exact (Nat.two_pow_add_eq_or_of_lt (Nat.mod_lt _ (by decide)) _).symm

theorem low_replacedWord_iff {width : UInt8} (h : 4 ≤ width.toNat) (immediate : UInt64)
    {c : UInt64} (hc : c.toNat < 2 ^ (8 * width.toNat)) :
    low width (replaceHigh16 c immediate) =
      low width (replacedWord c immediate) ↔
        c.toNat < 2 ^ 32 := by
  rw [← lowBytes_inj, ← UInt64.toNat_inj, toNat_lowBytes, toNat_lowBytes, toNat_replaceHigh16,
    toNat_replacedWord]
  rw [two_pow_width h] at hc ⊢
  have hk : 0 < 2 ^ (8 * width.toNat - 32) := Nat.two_pow_pos _
  have hhigh : c.toNat / 2 ^ 32 < 2 ^ (8 * width.toNat - 32) := Nat.div_lt_of_lt_mul hc
  generalize 2 ^ (8 * width.toNat - 32) = k at *
  have hword : 2 ^ 16 * (immediate.toNat % 2 ^ 16) + c.toNat % 2 ^ 16 < 2 ^ 32 := by omega
  rw [Nat.add_assoc, Nat.mod_eq_of_lt (a := 2 ^ 32 * _ + _) (by omega),
    Nat.mod_eq_of_lt (a := _ + c.toNat % 2 ^ 16) (by omega)]
  omega

/-- The kinds of immediate arithmetic. -/
def InstructionKind.isArithmetic : InstructionKind → Bool
  | .addImmediate | .subImmediate | .xorImmediate | .andImmediate | .orImmediate
  | .shiftLeftImmediate | .replaceHigh16 => true
  | _ => false

/-- Arithmetic on a known value gives the low bytes of what the instruction writes. -/
theorem transformedValue_sound {insn : Instruction} {regs : Registers} {c v : UInt64}
    (hk : insn.kind.isArithmetic = true) (hvalid : validIntegerInstruction insn = true)
    (hbase : lowBytes insn.valueWidth (regs insn.baseRegister) = c)
    (hfaithful : insn.kind = .replaceHigh16 → 4 ≤ insn.valueWidth → c.toNat < 2 ^ 32)
    (hv : transformedValue insn c = some v) :
    ∃ v', insn.written regs = .value v' ∧ lowBytes insn.valueWidth v' = v := by
  obtain ⟨hd, -, hwidth⟩ := validIntegerInstruction_iff.1 hvalid
  have hlow : low insn.valueWidth (regs insn.baseRegister) = low insn.valueWidth c := by
    rw [← hbase, low_lowBytes]
  have hmask : ∀ u : UInt64, u &&& widthMask insn.valueWidth = lowBytes insn.valueWidth u :=
    fun u => truncateWidth_eq u hwidth
  unfold transformedValue at hv
  simp only [Instruction.written, if_neg hd]
  cases hkind : insn.kind <;> rw [hkind] at hk hv hfaithful <;> cases hk
  case addImmediate =>
    obtain rfl := Option.some.inj hv
    refine ⟨_, rfl, ?_⟩
    rw [hmask, lowBytes_inj, low_add hwidth, low_add hwidth, hlow]
  case subImmediate =>
    obtain rfl := Option.some.inj hv
    refine ⟨_, rfl, ?_⟩
    rw [hmask, lowBytes_inj, low_sub hwidth, low_sub hwidth, hlow]
  case xorImmediate =>
    obtain rfl := Option.some.inj hv
    refine ⟨_, rfl, ?_⟩
    rw [hmask, lowBytes_inj, low_xor, low_xor, hlow]
  case andImmediate =>
    obtain rfl := Option.some.inj hv
    refine ⟨_, rfl, ?_⟩
    rw [hmask, lowBytes_inj, low_and, low_and, hlow]
  case orImmediate =>
    obtain rfl := Option.some.inj hv
    refine ⟨_, rfl, ?_⟩
    rw [hmask, lowBytes_inj, low_or, low_or, hlow]
  case shiftLeftImmediate =>
    change (if insn.immediate ≥ insn.valueWidth.toUInt64 * 8 then none else _) = some v at hv
    by_cases hbits : insn.immediate ≥ insn.valueWidth.toUInt64 * 8
    · rw [if_pos hbits] at hv
      cases hv
    · rw [if_neg hbits] at hv
      obtain rfl := Option.some.inj hv
      have hn : insn.immediate.toNat < 64 := by
        have hlt := UInt64.lt_iff_toNat_lt.1 (UInt64.not_le.1 hbits)
        rw [UInt64.toNat_mul, UInt8.toNat_toUInt64] at hlt
        change _ < insn.valueWidth.toNat * 8 % 2 ^ 64 at hlt
        omega
      refine ⟨_, rfl, ?_⟩
      rw [hmask, lowBytes_inj, shiftLeft_eq c hn, low_shiftLeft hwidth, low_shiftLeft hwidth, hlow]
  case replaceHigh16 =>
    change (if insn.valueWidth < 4 then none else _) = some v at hv
    by_cases hfour : insn.valueWidth < 4
    · rw [if_pos hfour] at hv
      cases hv
    · rw [if_neg hfour] at hv
      obtain rfl := Option.some.inj hv
      have hle : 4 ≤ insn.valueWidth := UInt8.not_lt.1 hfour
      have hc : c.toNat < 2 ^ (8 * insn.valueWidth.toNat) := by
        rw [← hbase, toNat_lowBytes]
        exact Nat.mod_lt _ (Nat.two_pow_pos _)
      refine ⟨_, rfl, ?_⟩
      rw [hmask, lowBytes_inj, low_replaceHigh16_congr hle _ hlow]
      exact (low_replacedWord_iff hle _ hc).2 (hfaithful rfl hle)

/-- **The transfer function.** At a faithful instruction it follows the registers. -/
theorem Holds.update {state : StateMap} {insn : Instruction} {regs regs' : Registers}
    (hfaithful : Faithful state insn) (hwrites : insn.Writes regs regs') (h : Holds state regs) :
    Holds (updateConstants state insn) regs' := by
  have hload : ∀ {steps readOnly support}, insn.isCall = false →
      (insn.destinationRegister ≠ noRegister → insn.written regs = .value insn.immediate) →
      Holds (assignConstant state insn insn.immediate steps readOnly support) regs' :=
    fun hcall hv => h.assign hcall hwrites hv
  have htransform : insn.isCall = false → insn.kind.isArithmetic = true →
      Holds (transformConstant state insn) regs' := by
    intro hcall hk
    apply h.transform hcall hwrites
    intro c v hvalid hc hwidth hv
    apply transformedValue_sound hk hvalid _ _ hv
    · rw [← hwidth]
      exact h _ c hc
    · intro hkind hfour
      simp only [Faithful, hkind] at hfaithful
      exact hfaithful hvalid hfour c hc hwidth
  unfold updateConstants
  unfold Faithful at hfaithful
  cases hk : insn.kind <;> rw [hk] at hfaithful
  case directCall | indirectCall => exact holds_empty regs'
  case loadImmediate | loadAddress | loadReadOnlyConstant =>
    exact hload (by simp [Instruction.isCall, hk]) fun hd => by
      simp only [Instruction.written, if_neg hd, hk]
  case copyRegister => exact h.copy (by simp [Instruction.isCall, hk]) hwrites hk hfaithful
  case addImmediate | subImmediate | xorImmediate | andImmediate | orImmediate |
      shiftLeftImmediate | replaceHigh16 =>
    exact htransform (by simp [Instruction.isCall, hk]) (by rw [hk]; rfl)
  case popRegister | readStackTop =>
    exact h.untracked (by simp [Instruction.isCall, hk]) hwrites hfaithful
  case other =>
    by_cases hd : insn.destinationRegister ≠ noRegister
    · simp only [if_pos hd]
      exact holds_empty regs'
    · simp only [if_neg hd]
      exact h.unwritten (by simp [Instruction.isCall, hk]) hwrites (if_pos (not_not.1 hd))
  all_goals
    exact h.unwritten (by simp [Instruction.isCall, hk]) hwrites
      (by simp [Instruction.written, hk])

/-! ## Unfaithful instructions -/

/-- The states that the analysis reaches: what is tracked is a value of its width. -/
def WellFormed (state : StateMap) : Prop :=
  ∀ r c, state.find r = some c → r ≠ noRegister ∧ 1 ≤ c.width.toNat ∧ c.width.toNat ≤ 8 ∧
    c.value.toNat < 2 ^ (8 * c.width.toNat)

/-- Registers with the tracked values and 0 elsewhere. -/
def known (state : StateMap) : Registers := fun r => ((state.find r).map (·.value)).getD 0

section Unfaithful

variable {state : StateMap} {insn : Instruction} (hwf : WellFormed state)

include hwf in
theorem holds_known : Holds state (known state) := by
  intro r c hc
  have hr : known state r = c.value := by
    unfold known
    rw [hc]
    rfl
  rw [hr]
  exact lowBytes_of_lt (hwf r c hc).2.2.2

include hwf in
/-- One register may have any value with the known low bytes. -/
theorem holds_update_known {r : ℤ} {v : UInt64}
    (hv : ∀ c, state.find r = some c → lowBytes c.width v = c.value) :
    Holds state (Function.update (known state) r v) := by
  intro r' c hc
  by_cases hr : r' = r
  · subst hr
    rw [Function.update_self]
    exact hv c hc
  · rw [Function.update_of_ne hr]
    exact holds_known hwf r' c hc

theorem writes_update {regs : Registers} {v : UInt64}
    (hw : insn.written regs = .anything ∨ insn.written regs = .value v) :
    insn.Writes regs (Function.update regs insn.destinationRegister v) := by
  refine Or.inr ?_
  rcases hw with hw | hw
  · rw [hw]
    intro r hr
    exact Function.update_of_ne hr v regs
  · rw [hw]
    refine ⟨fun r hr => Function.update_of_ne hr v regs, ?_⟩
    rw [Function.update_self]

variable (hsound : ∀ regs regs', Holds state regs → insn.Writes regs regs' →
  Holds (updateConstants state insn) regs')

include hwf hsound

/-- A register that is left open is not tracked. -/
theorem untracked_of_sound (hw : insn.written (known state) = .anything)
    (hupdate : updateConstants state insn = state) :
    state.find insn.destinationRegister = none := by
  by_contra hne
  obtain ⟨c, hc⟩ := Option.ne_none_iff_exists'.1 hne
  obtain ⟨-, hpos, hwidth, hvalue⟩ := hwf _ c hc
  have h := hsound _ _ (holds_known hwf) (writes_update (v := c.value + 1) (Or.inl hw))
  rw [hupdate] at h
  have hlow := h _ c hc
  rw [Function.update_self] at hlow
  exact lowBytes_add_one_ne hpos hwidth c.value (hlow.trans (lowBytes_of_lt hvalue).symm)

/-- The bytes of the source above its known width reach the destination of a copy. -/
theorem width_le_of_sound (hk : insn.kind = .copyRegister)
    (hvalid : validIntegerInstruction insn = true) {c : ConstantState}
    (hc : state.find insn.sourceRegister = some c) : insn.valueWidth ≤ c.width := by
  obtain ⟨hd, -, hwidth⟩ := validIntegerInstruction_iff.1 hvalid
  obtain ⟨-, -, -, hvalue⟩ := hwf _ c hc
  by_contra hle
  have hlt : c.width.toNat < insn.valueWidth.toNat := UInt8.lt_iff_toNat_lt.1 (UInt8.not_le.1 hle)
  have hpow : 2 * 2 ^ (8 * c.width.toNat) ≤ 2 ^ (8 * insn.valueWidth.toNat) := by
    rw [← Nat.pow_succ']
    exact Nat.pow_le_pow_right (by decide) (by omega)
  have hcell : 2 ^ (8 * insn.valueWidth.toNat) ≤ 2 ^ 64 :=
    Nat.pow_le_pow_right (by decide) (by omega)
  -- the source has one more bit, just above what is known of it
  set v : UInt64 := .ofNat (c.value.toNat + 2 ^ (8 * c.width.toNat)) with hv
  have htoNat : v.toNat = c.value.toNat + 2 ^ (8 * c.width.toNat) := by
    rw [hv, UInt64.toNat_ofNat']
    exact Nat.mod_eq_of_lt (by omega)
  set regs := Function.update (known state) insn.sourceRegister v with hregs
  have hholds : Holds state regs := by
    apply holds_update_known hwf
    intro c' hc'
    obtain rfl := Option.some.inj (hc.symm.trans hc')
    rw [← UInt64.toNat_inj, toNat_lowBytes, htoNat, Nat.add_mod_right, Nat.mod_eq_of_lt hvalue]
  have hw : insn.written regs = .value v := by
    simp only [Instruction.written, if_neg hd, hk, hregs, Function.update_self]
  have h := hsound _ _ hholds (writes_update (Or.inr hw))
  have hfind : (updateConstants state insn).find insn.destinationRegister =
      some (c.next insn (truncateWidth c.value insn.valueWidth)) := by
    simp only [updateConstants, hk, copyConstant, hc, if_pos hvalid, Cxx.Map.find_set, if_true]
  have hlow := h _ _ hfind
  rw [Function.update_self, ← UInt64.toNat_inj] at hlow
  change _ = (truncateWidth c.value insn.valueWidth).toNat at hlow
  rw [truncateWidth_eq _ hwidth, toNat_lowBytes, toNat_lowBytes, htoNat] at hlow
  change _ % 2 ^ (8 * insn.valueWidth.toNat) = _ at hlow
  rw [Nat.mod_eq_of_lt (by omega), Nat.mod_eq_of_lt (by omega)] at hlow
  have hpos := Nat.two_pow_pos (8 * c.width.toNat)
  omega

/-- The upper half of a register whose second word is replaced was 0. -/
theorem value_lt_of_sound (hk : insn.kind = .replaceHigh16)
    (hvalid : validIntegerInstruction insn = true) (hfour : 4 ≤ insn.valueWidth)
    {c : ConstantState} (hc : state.find insn.baseRegister = some c)
    (hwidth : c.width = insn.valueWidth) : c.value.toNat < 2 ^ 32 := by
  obtain ⟨hd, -, hle⟩ := validIntegerInstruction_iff.1 hvalid
  obtain ⟨-, -, -, hvalue⟩ := hwf _ c hc
  rw [hwidth] at hvalue
  have hbase : known state insn.baseRegister = c.value := by
    unfold known
    rw [hc]
    rfl
  have hw : insn.written (known state) = .value (replaceHigh16 c.value insn.immediate) := by
    simp only [Instruction.written, if_neg hd, hk, hbase]
  have h := hsound _ _ (holds_known hwf) (writes_update (Or.inr hw))
  set word := truncateWidth (replacedWord c.value insn.immediate) insn.valueWidth with hword
  have htransformed : transformedValue insn c.value = some word := by
    simp only [transformedValue, hk, if_neg (UInt8.not_lt.2 hfour), hword, truncateWidth]
  have hfind : (updateConstants state insn).find insn.destinationRegister =
      some (c.next insn word) := by
    simp only [updateConstants, hk, transformConstant, hc, hvalid, hwidth, beq_self_eq_true,
      Bool.and_self, if_true, htransformed, Cxx.Map.find_set]
  have hlow := h _ _ hfind
  rw [Function.update_self] at hlow
  change lowBytes insn.valueWidth _ = word at hlow
  rw [hword, truncateWidth_eq _ hle, lowBytes_inj] at hlow
  exact (low_replacedWord_iff hfour _ hvalue).1 hlow

end Unfaithful

/-- **Exactness.** At a well-formed state, the faithful instructions are the ones that the transfer
function follows. -/
theorem sound_iff_faithful {state : StateMap} (hwf : WellFormed state) (insn : Instruction) :
    SoundAt Instruction.Writes Holds updateConstants state insn ↔ Faithful state insn := by
  constructor
  · intro h
    unfold Faithful
    cases hk : insn.kind
    case popRegister | readStackTop =>
      by_cases hd : insn.destinationRegister = noRegister
      · by_contra hne
        obtain ⟨c, hc⟩ := Option.ne_none_iff_exists'.1 hne
        exact (hwf _ c hc).1 hd
      · exact untracked_of_sound hwf h (by simp [Instruction.written, hd, hk])
          (by simp [updateConstants, hk])
    case copyRegister =>
      intro hvalid c hc
      exact width_le_of_sound hwf h hk hvalid hc
    case replaceHigh16 =>
      intro hvalid hfour c hc hwidth
      exact value_lt_of_sound hwf h hk hvalid hfour hc hwidth
    all_goals exact trivial
  · intro hfaithful regs regs' h hwrites
    exact h.update hfaithful hwrites

/-! ## Reached states are well formed -/

theorem wellFormed_empty : WellFormed .empty := by
  intro r c hc
  cases hc

section Invariant

variable {state : StateMap} {insn : Instruction}

theorem WellFormed.eraseDestination (h : WellFormed state) (insn : Instruction) :
    WellFormed (eraseDestination state insn) := by
  intro r c hc
  exact h r c (find_eraseDestination hc).1

theorem WellFormed.set (h : WellFormed state) (hvalid : validIntegerInstruction insn = true)
    {c : ConstantState} (hwidth : c.width = insn.valueWidth)
    (hvalue : c.value.toNat < 2 ^ (8 * insn.valueWidth.toNat)) :
    WellFormed (state.set insn.destinationRegister c) := by
  obtain ⟨hd, hpos, hle⟩ := validIntegerInstruction_iff.1 hvalid
  intro r c' hc'
  rw [Cxx.Map.find_set] at hc'
  by_cases hr : insn.destinationRegister = r
  · rw [if_pos hr] at hc'
    obtain rfl := Option.some.inj hc'
    rw [← hr, hwidth]
    exact ⟨hd, hpos, hle, hvalue⟩
  · rw [if_neg hr] at hc'
    exact h r c' hc'

theorem truncateWidth_lt {v : UInt64} {width : UInt8} :
    (truncateWidth v width).toNat < 2 ^ (8 * width.toNat) := by
  by_cases hwidth : width ≤ 8
  · rw [truncateWidth_eq v hwidth, toNat_lowBytes]
    exact Nat.mod_lt _ (Nat.two_pow_pos _)
  · rw [truncateWidth, widthMask, if_pos (Or.inr (UInt8.not_le.1 hwidth)), UInt64.and_zero]
    exact Nat.two_pow_pos _

theorem transformedValue_lt {v v' : UInt64} (hv : v.toNat < 2 ^ (8 * insn.valueWidth.toNat))
    (h : transformedValue insn v = some v') : v'.toNat < 2 ^ (8 * insn.valueWidth.toNat) := by
  have hmask : ∀ u : UInt64, (u &&& widthMask insn.valueWidth).toNat <
      2 ^ (8 * insn.valueWidth.toNat) := fun u => truncateWidth_lt
  unfold transformedValue at h
  cases hk : insn.kind <;> simp only [hk] at h
  case shiftLeftImmediate | replaceHigh16 =>
    split_ifs at h
    obtain rfl := Option.some.inj h
    exact hmask _
  case addImmediate | subImmediate | xorImmediate | andImmediate | orImmediate =>
    obtain rfl := Option.some.inj h
    exact hmask _
  all_goals
    obtain rfl := Option.some.inj h
    exact hv

theorem WellFormed.assign (h : WellFormed state) {v : UInt64} {steps : ℕ} {readOnly : Bool}
    {support : List UInt64} : WellFormed (assignConstant state insn v steps readOnly support) := by
  unfold assignConstant
  by_cases hvalid : validIntegerInstruction insn = true
  · rw [if_pos hvalid]
    exact h.set hvalid rfl truncateWidth_lt
  · rw [if_neg hvalid]
    exact h.eraseDestination insn

theorem WellFormed.copy (h : WellFormed state) : WellFormed (copyConstant state insn) := by
  unfold copyConstant
  cases state.find insn.sourceRegister with
  | none => exact h.eraseDestination insn
  | some c =>
    by_cases hvalid : validIntegerInstruction insn = true
    · simp only [if_pos hvalid]
      exact h.set hvalid rfl truncateWidth_lt
    · simp only [if_neg hvalid]
      exact h.eraseDestination insn

theorem WellFormed.transform (h : WellFormed state) :
    WellFormed (transformConstant state insn) := by
  unfold transformConstant
  cases hc : state.find insn.baseRegister with
  | none => exact h.eraseDestination insn
  | some c =>
    by_cases hvalid : (validIntegerInstruction insn && c.width == insn.valueWidth) = true
    · simp only [if_pos hvalid]
      rw [Bool.and_eq_true, beq_iff_eq] at hvalid
      cases hv : transformedValue insn c.value with
      | none => exact h.eraseDestination insn
      | some v =>
        obtain ⟨-, -, -, hvalue⟩ := h _ c hc
        rw [hvalid.2] at hvalue
        exact h.set hvalid.1 rfl (transformedValue_lt hvalue hv)
    · simp only [if_neg hvalid]
      exact h.eraseDestination insn

theorem WellFormed.update (h : WellFormed state) (insn : Instruction) :
    WellFormed (updateConstants state insn) := by
  unfold updateConstants
  cases insn.kind
  case loadImmediate | loadAddress | loadReadOnlyConstant => exact h.assign
  case copyRegister => exact h.copy
  case addImmediate | subImmediate | xorImmediate | andImmediate | orImmediate |
      shiftLeftImmediate | replaceHigh16 => exact h.transform
  case directCall | indirectCall => exact wellFormed_empty
  case other =>
    by_cases hd : insn.destinationRegister ≠ noRegister
    · simp only [if_pos hd]
      exact wellFormed_empty
    · simp only [if_neg hd]
      exact h
  all_goals exact h

end Invariant

end Viy.Deobf
