import Viy.Absint.Run
import Viy.Deobf.GetPc

/-!
# What the scan of a gadget counts

The loop of `classify_get_pc_gadget`, turn by turn: what it leaves as it is, what it does to the
register and the slot that it follows (`ScanStep.spec`), and from that what its variables say after
any number of instructions (`Scanned`). A reported value is the return address and the distances of
all instructions that adjust the register (`classifyGetPcGadget_spec`).
-/

namespace Viy.Deobf

/-! ## What the scan counts -/

/-- The numbers of an `int64_t`. -/
def IsSigned (x : ℤ) : Prop := -2 ^ 63 ≤ x ∧ x < 2 ^ 63

instance (x : ℤ) : Decidable (IsSigned x) := inferInstanceAs (Decidable (_ ∧ _))

theorem isSigned_toSigned (v : UInt64) : IsSigned (toSigned v) := by
  have hle := BitVec.le_toInt v.toBitVec
  have hlt := @BitVec.toInt_lt _ v.toBitVec
  exact ⟨hle, hlt⟩

theorem addSignedAddress_spec {base v : UInt64} {delta : ℤ} (hdelta : IsSigned delta)
    (h : addSignedAddress base delta = some v) : (v.toNat : ℤ) = base.toNat + delta := by
  have hbase := base.toNat_lt
  obtain ⟨hlow, hhigh⟩ := hdelta
  unfold addSignedAddress at h
  by_cases hpos : 0 ≤ delta
  · rw [if_pos hpos] at h
    dsimp only at h
    split_ifs at h with hover
    obtain rfl := Option.some.inj h
    have hadd : (UInt64.ofNat delta.toNat).toNat = delta.toNat :=
      UInt64.toNat_ofNat_of_lt' (by show delta.toNat < 2 ^ 64; omega)
    have hroom : base.toNat ≤ 2 ^ 64 - 1 - delta.toNat := by
      rw [← hadd, ← Wire.toNat_max_sub]
      exact UInt64.not_lt.1 hover
    rw [UInt64.toNat_add, hadd, Nat.mod_eq_of_lt (by omega)]
    omega
  · rw [if_neg hpos] at h
    dsimp only at h
    split_ifs at h with hunder
    obtain rfl := Option.some.inj h
    have hsub : (UInt64.ofNat (-(delta + 1)).toNat + 1).toNat = (-delta).toNat := by
      rw [UInt64.toNat_add, UInt64.toNat_ofNat_of_lt' (by show _ < 2 ^ 64; omega)]
      show ((-(delta + 1)).toNat + 1) % 2 ^ 64 = _
      omega
    have hle : (-delta).toNat ≤ base.toNat := by
      rw [← hsub]
      exact UInt64.not_lt.1 hunder
    rw [UInt64.toNat_sub_of_le _ _ (UInt64.not_lt.1 hunder), hsub]
    omega

theorem addDelta_spec {x d y : ℤ} (hx : IsSigned x) (hd : IsSigned d)
    (h : addDelta x d = some y) : y = x + d ∧ IsSigned y := by
  unfold addDelta at h
  unfold IsSigned at *
  split_ifs at h
  obtain rfl := Option.some.inj h
  omega

/-- The instruction adds to a register or subtracts from it, as the classifier sees it. -/
def Instruction.Adjusts (insn : Instruction) (r : ℤ) : Prop :=
  insn.destinationRegister = r ∧ (insn.kind = .addImmediate ∨ insn.kind = .subImmediate)

/-- The distance that it counts for the register. -/
def Instruction.adjustment (r : ℤ) (insn : Instruction) : ℤ :=
  if insn.destinationRegister = r then
    match insn.kind with
    | .addImmediate => toSigned insn.immediate
    | .subImmediate => -toSigned insn.immediate
    | _ => 0
  else 0

def adjustments (r : ℤ) (l : List Instruction) : ℤ := (l.map (Instruction.adjustment r)).sum

@[simp] theorem adjustments_append (r : ℤ) (l m : List Instruction) :
    adjustments r (l ++ m) = adjustments r l + adjustments r m := by
  unfold adjustments
  rw [List.map_append, List.sum_append]

@[simp] theorem adjustments_singleton (r : ℤ) (i : Instruction) :
    adjustments r [i] = i.adjustment r := by
  unfold adjustments
  simp

theorem adjustment_eq_zero {r : ℤ} {i : Instruction} (h : ¬ i.Adjusts r) : i.adjustment r = 0 := by
  unfold Instruction.Adjusts at h
  unfold Instruction.adjustment
  by_cases hr : i.destinationRegister = r
  · rw [if_pos hr]
    cases hk : i.kind <;> simp_all
  · rw [if_neg hr]

/-! ## Steps of the scan -/

/-- One turn of the loop, for an instruction that is not the return. -/
def ScanStep (i : Instruction) (s t : GadgetScan) : Prop :=
  i.kind ≠ .return ∧ ((advance s i).bind fun s => scanInstruction s i) = some t

/-- What a turn leaves as it is. -/
structure SameTarget (s t : GadgetScan) : Prop where
  pushedReturn : t.result.pushedReturn = s.result.pushedReturn
  resumedAt : t.result.resumedAt = s.result.resumedAt
  registerValue : t.result.registerValueAtReturn = s.result.registerValueAtReturn
  pcRegister : t.result.pcRegister = s.result.pcRegister
  mode : t.result.mode = s.result.mode
  stackTarget : t.stackTargetAdjusted = s.stackTargetAdjusted

theorem SameTarget.trans {s t u : GadgetScan} (h : SameTarget s t) (h' : SameTarget t u) :
    SameTarget s u :=
  ⟨h'.1.trans h.1, h'.2.trans h.2, h'.3.trans h.3, h'.4.trans h.4, h'.5.trans h.5, h'.6.trans h.6⟩

/-- What a turn does to the register and the slot that are followed. -/
inductive Follows (i : Instruction) (s t : GadgetScan) : Prop
  | pass (hpush : i.kind ≠ .pushRegister)
      (hother : s.registerKnown = true → i.destinationRegister ≠ s.result.pcRegister)
      (hknown : t.registerKnown = s.registerKnown) (hdelta : t.result.delta = s.result.delta)
      (hpushed : t.pushedTrackedRegister = s.pushedTrackedRegister)
      (hpushedDelta : t.pushedRegisterDelta = s.pushedRegisterDelta)
  | adjust (hpush : i.kind ≠ .pushRegister) (hadjusts : i.Adjusts s.result.pcRegister)
      (hbefore : s.registerKnown = true) (hknown : t.registerKnown = true)
      (hdelta : IsSigned s.result.delta → IsSigned t.result.delta ∧
        t.result.delta = s.result.delta + i.adjustment s.result.pcRegister)
      (hpushed : t.pushedTrackedRegister = s.pushedTrackedRegister)
      (hpushedDelta : t.pushedRegisterDelta = s.pushedRegisterDelta)
  | lose (hpush : i.kind ≠ .pushRegister) (hbefore : s.registerKnown = true)
      (hknown : t.registerKnown = false) (hdelta : t.result.delta = s.result.delta)
      (hpushed : t.pushedTrackedRegister = s.pushedTrackedRegister)
      (hpushedDelta : t.pushedRegisterDelta = s.pushedRegisterDelta)
  | push (hpush : i.kind = .pushRegister) (hsource : i.sourceRegister = s.result.pcRegister)
      (hother : i.destinationRegister ≠ s.result.pcRegister) (hbefore : s.registerKnown = true)
      (hknown : t.registerKnown = true) (hdelta : t.result.delta = s.result.delta)
      (hpushed : t.pushedTrackedRegister = true)
      (hpushedDelta : t.pushedRegisterDelta = s.result.delta)

theorem addDelta_adjust {s t : GadgetScan} {d : ℤ} (hd : IsSigned d)
    (h : (addDelta s.result.delta d).map (fun delta =>
      { s with result := { s.result with delta := delta } }) = some t) :
    SameTarget s t ∧ t.registerKnown = s.registerKnown ∧
      t.pushedTrackedRegister = s.pushedTrackedRegister ∧
      t.pushedRegisterDelta = s.pushedRegisterDelta ∧
      (IsSigned s.result.delta →
        IsSigned t.result.delta ∧ t.result.delta = s.result.delta + d) := by
  obtain ⟨y, hy, rfl⟩ := Option.map_eq_some_iff.1 h
  refine ⟨⟨rfl, rfl, rfl, rfl, rfl, rfl⟩, rfl, rfl, rfl, fun hs => ?_⟩
  obtain ⟨rfl, hsigned⟩ := addDelta_spec hs hd hy
  exact ⟨hsigned, rfl⟩

theorem adjustRegister_spec {i : Instruction} {s t : GadgetScan}
    (h : adjustRegister s i = some t) : SameTarget s t ∧
      (i.kind ≠ .pushRegister → Follows i s t) ∧
      (i.kind = .pushRegister → t.registerKnown = true →
        t = s ∧ i.destinationRegister ≠ s.result.pcRegister) := by
  unfold adjustRegister at h
  dsimp only at h
  split_ifs at h with hdest hadd hsub hmin
  · rw [Bool.and_eq_true, decide_eq_true_iff] at hdest hadd
    obtain ⟨hsame, hknown, hpushed, hpushedDelta, hdelta⟩ :=
      addDelta_adjust (isSigned_toSigned _) h
    refine ⟨hsame, fun hpush => ?_, fun hpush => ?_⟩
    · refine .adjust hpush ⟨hdest.2, Or.inl hadd.2⟩ hdest.1 (hknown.trans hdest.1) ?_ hpushed
        hpushedDelta
      unfold Instruction.adjustment
      rw [if_pos hdest.2, hadd.2]
      exact hdelta
    · rw [hpush] at hadd
      cases hadd.2
  · rw [Bool.and_eq_true, decide_eq_true_iff] at hdest hsub
    have hsigned : IsSigned (-toSigned i.immediate) := by
      obtain ⟨hlow, hhigh⟩ := isSigned_toSigned i.immediate
      unfold IsSigned
      omega
    obtain ⟨hsame, hknown, hpushed, hpushedDelta, hdelta⟩ := addDelta_adjust hsigned h
    refine ⟨hsame, fun hpush => ?_, fun hpush => ?_⟩
    · refine .adjust hpush ⟨hdest.2, Or.inr hsub.2⟩ hdest.1 (hknown.trans hdest.1) ?_ hpushed
        hpushedDelta
      unfold Instruction.adjustment
      rw [if_pos hdest.2, hsub.2]
      exact hdelta
    · rw [hpush] at hsub
      cases hsub.2
  · rw [Bool.and_eq_true, decide_eq_true_iff] at hdest
    obtain rfl := Option.some.inj h
    refine ⟨⟨rfl, rfl, rfl, rfl, rfl, rfl⟩, fun hpush => ?_, fun _ hknown => ?_⟩
    · exact .lose hpush hdest.1 rfl rfl rfl rfl
    · cases hknown
  · rw [Bool.and_eq_true, decide_eq_true_iff, not_and] at hdest
    obtain rfl := Option.some.inj h
    refine ⟨⟨rfl, rfl, rfl, rfl, rfl, rfl⟩, fun hpush => ?_, fun _ hknown => ?_⟩
    · exact .pass hpush hdest rfl rfl rfl rfl
    · exact ⟨rfl, hdest hknown⟩

theorem scanInstruction_spec {i : Instruction} {s t : GadgetScan}
    (h : scanInstruction s i = some t) :
    (isControlFlow i = false ∧ changesStackTop i = false) ∧ SameTarget s t ∧ Follows i s t := by
  unfold scanInstruction at h
  split_ifs at h with hcontrol hstack
  refine ⟨⟨Bool.not_eq_true _ ▸ hcontrol, Bool.not_eq_true _ ▸ hstack⟩, ?_⟩
  obtain ⟨u, hu, hpush⟩ := Option.bind_eq_some_iff.1 h
  obtain ⟨hsame, hother, hsamePush⟩ := adjustRegister_spec hu
  unfold pushTracked at hpush
  split_ifs at hpush with hkind htracked
  · rw [Bool.and_eq_true, Bool.and_eq_true, decide_eq_true_iff] at htracked
    obtain ⟨⟨hknown, hsource⟩, -⟩ := htracked
    obtain ⟨rfl, hne⟩ := hsamePush hkind hknown
    obtain rfl := Option.some.inj hpush
    exact ⟨⟨rfl, rfl, rfl, rfl, rfl, rfl⟩, .push hkind hsource hne hknown hknown rfl rfl rfl⟩
  · obtain rfl := Option.some.inj hpush
    exact ⟨hsame, hother hkind⟩

theorem advance_spec {i : Instruction} {s t : GadgetScan} (h : advance s i = some t) :
    SameTarget s t ∧ t.registerKnown = s.registerKnown ∧ t.result.delta = s.result.delta ∧
      t.pushedTrackedRegister = s.pushedTrackedRegister ∧
      t.pushedRegisterDelta = s.pushedRegisterDelta := by
  unfold advance at h
  split_ifs at h
  obtain rfl := Option.some.inj h
  exact ⟨⟨rfl, rfl, rfl, rfl, rfl, rfl⟩, rfl, rfl, rfl, rfl⟩

/-- A turn of the loop. -/
theorem ScanStep.spec {i : Instruction} {s t : GadgetScan} (h : ScanStep i s t) :
    (i.kind ≠ .return ∧ isControlFlow i = false ∧ changesStackTop i = false) ∧ SameTarget s t ∧
      Follows i s t := by
  obtain ⟨hkind, hstep⟩ := h
  obtain ⟨u, hu, ht⟩ := Option.bind_eq_some_iff.1 hstep
  obtain ⟨hsame, hknown, hdelta, hpushed, hpushedDelta⟩ := advance_spec hu
  obtain ⟨htame, hsame', hfollows⟩ := scanInstruction_spec ht
  refine ⟨⟨hkind, htame⟩, hsame.trans hsame', ?_⟩
  have hreg := hsame.pcRegister
  cases hfollows with
  | pass h1 h2 h3 h4 h5 h6 =>
    rw [hknown, hreg] at h2
    exact .pass h1 h2 (h3.trans hknown) (h4.trans hdelta) (h5.trans hpushed) (h6.trans hpushedDelta)
  | adjust h1 h2 h3 h4 h5 h6 h7 =>
    rw [hreg, hdelta] at h5
    exact .adjust h1 (hreg ▸ h2) (hknown.symm.trans h3) h4 h5 (h6.trans hpushed)
      (h7.trans hpushedDelta)
  | lose h1 h2 h3 h4 h5 h6 =>
    exact .lose h1 (hknown.symm.trans h2) h3 (h4.trans hdelta) (h5.trans hpushed)
      (h6.trans hpushedDelta)
  | push h1 h2 h3 h4 h5 h6 h7 h8 =>
    exact .push h1 (h2.trans hreg) (hreg ▸ h3) (hknown.symm.trans h4) h5 (h6.trans hdelta) h7
      (h8.trans hdelta)

/-! ## Runs of the scan -/

/-- Every instruction that writes a register adjusts it. -/
def OnlyAdjusted (r : ℤ) (l : List Instruction) : Prop :=
  ∀ i ∈ l, i.destinationRegister = r → i.Adjusts r

/-- The last push of the instructions, of the given register. -/
structure LastPush (r : ℤ) (l before : List Instruction) (push : Instruction)
    (after : List Instruction) : Prop where
  split : l = before ++ push :: after
  kind : push.kind = .pushRegister
  source : push.sourceRegister = r
  last : ∀ i ∈ after, i.kind ≠ .pushRegister

/-- What the scan knows after some instructions behind the entry. -/
structure Scanned (start : GadgetScan) (l : List Instruction) (s : GadgetScan) : Prop where
  same : SameTarget start s
  tame : ∀ i ∈ l, i.kind ≠ .return ∧ isControlFlow i = false ∧ changesStackTop i = false
  signed : IsSigned s.result.delta
  known : s.registerKnown = true → OnlyAdjusted start.result.pcRegister l ∧
    s.result.delta = start.result.delta + adjustments start.result.pcRegister l
  untracked : start.registerKnown = false → s.registerKnown = false ∧
    s.result.delta = start.result.delta ∧ s.pushedTrackedRegister = false
  pushed : s.pushedTrackedRegister = true → IsSigned s.pushedRegisterDelta ∧
    ∃ before push after, LastPush start.result.pcRegister l before push after ∧
      OnlyAdjusted start.result.pcRegister before ∧
      s.pushedRegisterDelta = start.result.delta + adjustments start.result.pcRegister before
  unpushed : s.pushedTrackedRegister = false → ∀ i ∈ l, i.kind ≠ .pushRegister

theorem forall_mem_snoc {P : Instruction → Prop} {l : List Instruction} {i : Instruction}
    (h : ∀ j ∈ l, P j) (hi : P i) : ∀ j ∈ l ++ [i], P j := by
  intro j hj
  rcases List.mem_append.1 hj with hj | hj
  · exact h j hj
  · rwa [List.mem_singleton.1 hj]

theorem LastPush.snoc {r : ℤ} {l before after : List Instruction} {push i : Instruction}
    (h : LastPush r l before push after) (hi : i.kind ≠ .pushRegister) :
    LastPush r (l ++ [i]) before push (after ++ [i]) where
  split := by rw [h.split, List.append_assoc, List.cons_append]
  kind := h.kind
  source := h.source
  last := forall_mem_snoc h.last hi

theorem OnlyAdjusted.snoc {r : ℤ} {l : List Instruction} {i : Instruction} (h : OnlyAdjusted r l)
    (hi : i.destinationRegister = r → i.Adjusts r) : OnlyAdjusted r (l ++ [i]) :=
  forall_mem_snoc h hi

section Step

variable {start s t : GadgetScan} {l : List Instruction} {i : Instruction}

/-- A push that is already there stays the last one behind any other instruction. -/
theorem Scanned.keep_pushed (h : Scanned start l s) (hpush : i.kind ≠ .pushRegister)
    (hpushed : t.pushedTrackedRegister = s.pushedTrackedRegister)
    (hpushedDelta : t.pushedRegisterDelta = s.pushedRegisterDelta) :
    (t.pushedTrackedRegister = true → IsSigned t.pushedRegisterDelta ∧
      ∃ before push after, LastPush start.result.pcRegister (l ++ [i]) before push after ∧
        OnlyAdjusted start.result.pcRegister before ∧
        t.pushedRegisterDelta =
          start.result.delta + adjustments start.result.pcRegister before) ∧
    (t.pushedTrackedRegister = false → ∀ j ∈ l ++ [i], j.kind ≠ .pushRegister) := by
  rw [hpushed, hpushedDelta]
  refine ⟨fun ht => ?_, fun ht => forall_mem_snoc (h.unpushed ht) hpush⟩
  obtain ⟨hsigned, before, push, after, hlast, hadjusted, hdelta⟩ := h.pushed ht
  exact ⟨hsigned, before, push, after ++ [i], hlast.snoc hpush, hadjusted, hdelta⟩

/-- An instruction with another destination leaves what is known of the register. -/
theorem Scanned.keep_known (h : Scanned start l s) (hknown : s.registerKnown = true)
    (hother : i.destinationRegister ≠ s.result.pcRegister) :
    OnlyAdjusted start.result.pcRegister (l ++ [i]) ∧
      s.result.delta = start.result.delta + adjustments start.result.pcRegister (l ++ [i]) := by
  obtain ⟨hadjusted, hsum⟩ := h.known hknown
  rw [h.same.pcRegister] at hother
  refine ⟨hadjusted.snoc fun heq => absurd heq hother, ?_⟩
  rw [hsum, adjustments_append, adjustments_singleton,
    adjustment_eq_zero fun hadj => hother hadj.1, add_zero]

/-- A register that is known now was known at the start. -/
theorem Scanned.tracked (h : Scanned start l s) (hknown : s.registerKnown = true) :
    ¬ start.registerKnown = false := by
  intro hstart
  rw [(h.untracked hstart).1] at hknown
  cases hknown

theorem Scanned.step (h : Scanned start l s) (hstep : ScanStep i s t) :
    Scanned start (l ++ [i]) t := by
  obtain ⟨htame, hsame, hfollows⟩ := hstep.spec
  have htames := forall_mem_snoc h.tame htame
  cases hfollows with
  | pass hpush hother hknown hdelta hpushed hpushedDelta =>
    obtain ⟨hp, hu⟩ := h.keep_pushed hpush hpushed hpushedDelta
    refine ⟨h.same.trans hsame, htames, hdelta ▸ h.signed, ?_, ?_, hp, hu⟩
    · intro ht
      rw [hknown] at ht
      rw [hdelta]
      exact h.keep_known ht (hother ht)
    · intro hstart
      rw [hknown, hdelta, hpushed]
      exact h.untracked hstart
  | adjust hpush hadjusts hbefore hknown hdelta hpushed hpushedDelta =>
    obtain ⟨hp, hu⟩ := h.keep_pushed hpush hpushed hpushedDelta
    obtain ⟨hsigned, hsum⟩ := hdelta h.signed
    refine ⟨h.same.trans hsame, htames, hsigned, ?_, fun hstart => absurd hstart ?_, hp, hu⟩
    · intro _
      obtain ⟨hadjusted, hsum'⟩ := h.known hbefore
      rw [h.same.pcRegister] at hadjusts hsum
      refine ⟨hadjusted.snoc fun _ => hadjusts, ?_⟩
      rw [hsum, hsum', adjustments_append, adjustments_singleton, add_assoc]
    · exact h.tracked hbefore
  | lose hpush hbefore hknown hdelta hpushed hpushedDelta =>
    obtain ⟨hp, hu⟩ := h.keep_pushed hpush hpushed hpushedDelta
    refine ⟨h.same.trans hsame, htames, hdelta ▸ h.signed, ?_, fun hstart => absurd hstart ?_, hp,
      hu⟩
    · intro ht
      rw [hknown] at ht
      cases ht
    · exact h.tracked hbefore
  | push hpush hsource hother hbefore hknown hdelta hpushed hpushedDelta =>
    refine ⟨h.same.trans hsame, htames, hdelta ▸ h.signed, ?_, fun hstart => absurd hstart ?_, ?_,
      ?_⟩
    · intro _
      rw [hdelta]
      exact h.keep_known hbefore hother
    · exact h.tracked hbefore
    · intro _
      obtain ⟨hadjusted, hsum⟩ := h.known hbefore
      rw [hpushedDelta]
      refine ⟨h.signed, l, i, [], ⟨rfl, hpush, hsource.trans h.same.pcRegister, ?_⟩, hadjusted,
        hsum⟩
      exact fun _ hj => absurd hj List.not_mem_nil
    · intro ht
      rw [hpushed] at ht
      cases ht

end Step

/-- The scan ends at a return, behind the instructions that it has scanned, or at the end of a
gadget that discards the return address. -/
theorem scanGadget_spec {c : GetPcCandidate} (l : List Instruction) : ∀ {s : GadgetScan},
    scanGadget l s = some c →
      (∃ before ret after t u, l = before ++ ret :: after ∧ ret.kind = .return ∧
        Absint.Run ScanStep before s t ∧ advance t ret = some u ∧ finishAtReturn u ret = some c) ∨
      ∃ t, Absint.Run ScanStep l s t ∧
        c = { t.result with support := normalizeSupport t.result.support } := by
  induction l with
  | nil =>
    intro s h
    unfold scanGadget at h
    split_ifs at h
    exact Or.inr ⟨s, rfl, (Option.some.inj h).symm⟩
  | cons i l ih =>
    intro s h
    unfold scanGadget at h
    obtain ⟨u, hu, hrest⟩ := Option.bind_eq_some_iff.1 h
    split_ifs at hrest with hreturn
    · exact Or.inl ⟨[], i, l, s, u, rfl, hreturn, rfl, hu, hrest⟩
    · obtain ⟨t, ht, hscan⟩ := Option.bind_eq_some_iff.1 hrest
      have hstep : ScanStep i s t := ⟨hreturn, Option.bind_eq_some_iff.2 ⟨u, hu, ht⟩⟩
      rcases ih hscan with ⟨before, ret, after, v, x, rfl, hret, hrun, hx, hc⟩ | ⟨v, hrun, hc⟩
      · exact Or.inl ⟨i :: before, ret, after, v, x, rfl, hret, ⟨t, hstep, hrun⟩, hx, hc⟩
      · exact Or.inr ⟨v, ⟨t, hstep, hrun⟩, hc⟩

theorem finishAtReturn_spec {s : GadgetScan} {i : Instruction} {c : GetPcCandidate}
    (h : finishAtReturn s i = some c) (hresumed : s.result.resumedAt = none)
    (hvalue : s.result.registerValueAtReturn = none) :
    c.pcRegister = s.result.pcRegister ∧
      (∀ a, c.resumedAt = some a →
        (s.pushedTrackedRegister = true ∧
          addSignedAddress s.result.pushedReturn s.pushedRegisterDelta = some a) ∨
        (s.pushedTrackedRegister = false ∧ s.stackTargetAdjusted = true ∧
          addSignedAddress s.result.pushedReturn s.result.delta = some a)) ∧
      ∀ v, c.registerValueAtReturn = some v → s.registerKnown = true ∧
        addSignedAddress s.result.pushedReturn s.result.delta = some v := by
  unfold finishAtReturn at h
  obtain ⟨t, ht, h⟩ := Option.bind_eq_some_iff.1 h
  obtain ⟨u, hu, h⟩ := Option.bind_eq_some_iff.1 h
  split_ifs at h
  obtain rfl := Option.some.inj h
  have hfirst : t.pcRegister = s.result.pcRegister ∧ t.delta = s.result.delta ∧
      t.pushedReturn = s.result.pushedReturn ∧ t.registerValueAtReturn = none ∧
      ∀ a, t.resumedAt = some a →
        (s.pushedTrackedRegister = true ∧
          addSignedAddress s.result.pushedReturn s.pushedRegisterDelta = some a) ∨
        (s.pushedTrackedRegister = false ∧ s.stackTargetAdjusted = true ∧
          addSignedAddress s.result.pushedReturn s.result.delta = some a) := by
    unfold reportResumed at ht
    dsimp only at ht
    split_ifs at ht with hstack hpushed
    · obtain ⟨a, ha, rfl⟩ := Option.map_eq_some_iff.1 ht
      refine ⟨rfl, rfl, rfl, hvalue, ?_⟩
      rintro b hb
      exact Or.inl ⟨hpushed, (Option.some.inj hb) ▸ ha⟩
    · obtain ⟨a, ha, rfl⟩ := Option.map_eq_some_iff.1 ht
      rw [Bool.not_eq_true] at hpushed
      rw [hpushed, Bool.or_false] at hstack
      refine ⟨rfl, rfl, rfl, hvalue, ?_⟩
      rintro b hb
      exact Or.inr ⟨hpushed, hstack, (Option.some.inj hb) ▸ ha⟩
    · obtain rfl := Option.some.inj ht
      refine ⟨rfl, rfl, rfl, hvalue, fun a ha => ?_⟩
      rw [hresumed] at ha
      cases ha
  obtain ⟨hreg, hdelta, hreturn, hnone, hresume⟩ := hfirst
  unfold reportRegister at hu
  split_ifs at hu with hknown
  · obtain ⟨v, hv, rfl⟩ := Option.map_eq_some_iff.1 hu
    rw [hreturn, hdelta] at hv
    exact ⟨hreg, hresume, fun w hw => ⟨hknown, (Option.some.inj hw) ▸ hv⟩⟩
  · obtain rfl := Option.some.inj hu
    refine ⟨hreg, hresume, fun w hw => ?_⟩
    rw [hnone] at hw
    cases hw

/-! ## What is reported -/

/-- The instruction takes the top of the stack into a register. -/
def Instruction.TakesTop (insn : Instruction) (r : ℤ) : Prop :=
  insn.destinationRegister = r ∧ (insn.kind = .popRegister ∨ insn.kind = .readStackTop)

/-- Where the reported values come from: the entry, and the instructions up to the return. -/
structure Reported (pushedReturn : UInt64) (entry : Instruction) (l : List Instruction)
    (c : GetPcCandidate) : Prop where
  entryKind : entry.kind ≠ .return
  tame : ∀ i ∈ l, i.kind ≠ .return ∧ isControlFlow i = false ∧ changesStackTop i = false
  resumed : ∀ a, c.resumedAt = some a →
    (entry.TakesTop c.pcRegister ∧ ∃ before push after, LastPush c.pcRegister l before push after ∧
      OnlyAdjusted c.pcRegister before ∧
      (a.toNat : ℤ) = pushedReturn.toNat + adjustments c.pcRegister before) ∨
    (entry.kind = .addStackTopImmediate ∧ (∀ i ∈ l, i.kind ≠ .pushRegister) ∧
      (a.toNat : ℤ) = pushedReturn.toNat + toSigned entry.immediate)
  value : ∀ v, c.registerValueAtReturn = some v →
    entry.TakesTop c.pcRegister ∧ OnlyAdjusted c.pcRegister l ∧
      (v.toNat : ℤ) = pushedReturn.toNat + adjustments c.pcRegister l

/-- The variables at the start of the loop. -/
structure Started (entry : Instruction) (s : GadgetScan) : Prop where
  resumed : s.result.resumedAt = none
  value : s.result.registerValueAtReturn = none
  pushed : s.pushedTrackedRegister = false
  entryKind : entry.kind ≠ .return
  tracked : s.registerKnown = true →
    entry.TakesTop s.result.pcRegister ∧ s.result.delta = 0 ∧ s.stackTargetAdjusted = false
  adjusted : s.stackTargetAdjusted = true →
    entry.kind = .addStackTopImmediate ∧ s.result.delta = toSigned entry.immediate
  signed : IsSigned s.result.delta

theorem trackRegister_started {result : GetPcCandidate} {entry : Instruction} {mode : GetPcMode}
    {s : GadgetScan} (hkind : entry.kind = .popRegister ∨ entry.kind = .readStackTop)
    (hresumed : result.resumedAt = none) (hvalue : result.registerValueAtReturn = none)
    (hdelta : result.delta = 0) (h : trackRegister result entry mode = some s) :
    Started entry s ∧ s.result.pushedReturn = result.pushedReturn := by
  unfold trackRegister at h
  split_ifs at h
  obtain rfl := Option.some.inj h
  refine ⟨⟨hresumed, hvalue, rfl, ?_, fun _ => ⟨⟨rfl, hkind⟩, hdelta, rfl⟩, ?_, ?_⟩, rfl⟩
  · rcases hkind with hk | hk <;> rw [hk] <;> decide
  · intro hadjusted
    cases hadjusted
  · show IsSigned result.delta
    rw [hdelta]
    decide

theorem scanEntry_started {result : GetPcCandidate} {entry : Instruction} {s : GadgetScan}
    (hresumed : result.resumedAt = none) (hvalue : result.registerValueAtReturn = none)
    (hdelta : result.delta = 0) (h : scanEntry result entry = some s) :
    Started entry s ∧ s.result.pushedReturn = result.pushedReturn := by
  unfold scanEntry at h
  cases hk : entry.kind <;> simp only [hk] at h <;> try cases h
  case popRegister => exact trackRegister_started (Or.inl hk) hresumed hvalue hdelta h
  case readStackTop => exact trackRegister_started (Or.inr hk) hresumed hvalue hdelta h
  case addStackTopImmediate =>
    refine ⟨⟨hresumed, hvalue, rfl, by rw [hk]; decide, ?_, fun _ => ⟨hk, rfl⟩,
      isSigned_toSigned _⟩, rfl⟩
    intro hknown
    cases hknown
  case adjustStackPointerImmediate =>
    split_ifs at h
    obtain rfl := Option.some.inj h
    refine ⟨⟨hresumed, hvalue, rfl, by rw [hk]; decide, ?_, ?_, ?_⟩, rfl⟩
    · intro hknown
      cases hknown
    · intro hadjusted
      cases hadjusted
    · show IsSigned result.delta
      rw [hdelta]
      decide

theorem Started.scanned {entry : Instruction} {start s : GadgetScan} {l : List Instruction}
    (h : Started entry start) (hrun : Absint.Run ScanStep l start s) : Scanned start l s := by
  have hinit : Scanned start [] start := by
    refine ⟨⟨rfl, rfl, rfl, rfl, rfl, rfl⟩, ?_, h.signed, ?_, ?_, ?_, ?_⟩
    · exact fun _ hi => absurd hi List.not_mem_nil
    · exact fun _ => ⟨fun _ hi => absurd hi List.not_mem_nil, (add_zero _).symm⟩
    · exact fun hstart => ⟨hstart, rfl, h.pushed⟩
    · intro hpushed
      rw [h.pushed] at hpushed
      cases hpushed
    · exact fun _ _ hi => absurd hi List.not_mem_nil
  exact Absint.run_history (fun _ _ _ _ hs hstep => hs.step hstep) l hinit hrun

theorem Started.reported {entry ret : Instruction} {start s t : GadgetScan}
    {l : List Instruction} {c : GetPcCandidate} (h : Started entry start)
    (hrun : Absint.Run ScanStep l start s) (hadvance : advance s ret = some t)
    (hc : finishAtReturn t ret = some c) : Reported start.result.pushedReturn entry l c := by
  have hscanned := h.scanned hrun
  obtain ⟨hsame, hknown, hdelta, hpushed, hpushedDelta⟩ := advance_spec hadvance
  have htarget := hscanned.same.trans hsame
  obtain ⟨hreg, hresumed, hvalue⟩ := finishAtReturn_spec hc (htarget.resumedAt.trans h.resumed)
    (htarget.registerValue.trans h.value)
  rw [hpushed, hpushedDelta, hdelta, htarget.pushedReturn, htarget.stackTarget] at hresumed
  rw [hknown, hdelta, htarget.pushedReturn] at hvalue
  have hpc : c.pcRegister = start.result.pcRegister := hreg.trans htarget.pcRegister
  -- what has been pushed or is still known has been tracked from the entry on
  have hstart : s.registerKnown = true ∨ s.pushedTrackedRegister = true →
      start.registerKnown = true := by
    intro hs
    by_contra hno
    rw [Bool.not_eq_true] at hno
    obtain ⟨hk, -, hp⟩ := hscanned.untracked hno
    rw [hk, hp] at hs
    exact hs.elim Bool.false_ne_true Bool.false_ne_true
  refine ⟨h.entryKind, hscanned.tame, ?_, ?_⟩
  · intro a ha
    rcases hresumed a ha with ⟨hp, hadd⟩ | ⟨hp, hstack, hadd⟩
    · obtain ⟨hsigned, before, push, after, hlast, hadjusted, hsum⟩ := hscanned.pushed hp
      obtain ⟨htakes, hzero, -⟩ := h.tracked (hstart (Or.inr hp))
      have haddress := addSignedAddress_spec hsigned hadd
      rw [hsum, hzero, zero_add] at haddress
      rw [hpc]
      exact Or.inl ⟨htakes, before, push, after, hlast, hadjusted, haddress⟩
    · obtain ⟨hkind, himm⟩ := h.adjusted hstack
      have hno : start.registerKnown = false := by
        by_contra hyes
        rw [Bool.not_eq_false] at hyes
        rw [(h.tracked hyes).2.2] at hstack
        cases hstack
      have haddress := addSignedAddress_spec hscanned.signed hadd
      rw [(hscanned.untracked hno).2.1, himm] at haddress
      exact Or.inr ⟨hkind, hscanned.unpushed hp, haddress⟩
  · intro v hv
    obtain ⟨hk, hadd⟩ := hvalue v hv
    obtain ⟨hadjusted, hsum⟩ := hscanned.known hk
    obtain ⟨htakes, hzero, -⟩ := h.tracked (hstart (Or.inl hk))
    have haddress := addSignedAddress_spec hscanned.signed hadd
    rw [hsum, hzero, zero_add] at haddress
    rw [hpc]
    exact ⟨htakes, hadjusted, haddress⟩

/-- A candidate reports no value, or what the scan has counted up to the return. -/
theorem classifyGetPcGadget_spec {call : Instruction} {gadget : List Instruction}
    {otherCallers : Bool} {limits : ClassifierLimits} {c : GetPcCandidate}
    (h : classifyGetPcGadget call gadget otherCallers limits = some c) :
    (c.resumedAt = none ∧ c.registerValueAtReturn = none) ∨
      ∃ entry l ret after, gadget = entry :: l ++ ret :: after ∧ ret.kind = .return ∧
        Reported call.endAddress entry l c := by
  unfold classifyGetPcGadget at h
  cases gadget with
  | nil => cases h
  | cons entry rest =>
    dsimp only at h
    split_ifs at h
    obtain ⟨start, hentry, h⟩ := Option.bind_eq_some_iff.1 h
    split_ifs at h
    obtain ⟨hstarted, hreturn⟩ := scanEntry_started rfl rfl rfl hentry
    generalize min (entry :: rest).length (limits.gadgetDepth + 1).toNat - 1 = n at h
    rcases scanGadget_spec _ h with
      ⟨before, ret, after, t, u, htake, hret, hrun, hadvance, hc⟩ | ⟨t, hrun, rfl⟩
    · refine Or.inr ⟨entry, before, ret, after ++ rest.drop n, ?_, hret, ?_⟩
      · nth_rewrite 1 [← List.take_append_drop n rest]
        rw [htake]
        simp
      · have hreported := hstarted.reported hrun hadvance hc
        rwa [hreturn] at hreported
    · have hsame := (hstarted.scanned hrun).same
      exact Or.inl ⟨hsame.resumedAt.trans hstarted.resumed,
        hsame.registerValue.trans hstarted.value⟩

end Viy.Deobf
