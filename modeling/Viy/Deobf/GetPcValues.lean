import Mathlib.Data.BitVec
import Viy.Absint.Propagation
import Viy.Deobf.GetPcScan

/-!
# The values of a get-PC gadget

A machine of pointer-size registers and stack slots: calls push their end address, and the
instructions of a gadget move words between these places, add to them modulo the width, or leave
them open. The values that `classify_get_pc_gadget` reports are compared with every run of the
gadget from the call to the return. They are right unless a sum leaves the width, or the last
adjustment from another register does not find the followed address in that register.
-/

namespace Viy.Deobf

open Absint

/-! ## The machine -/

/-- A register, or a slot of the stack, counted from its top. -/
inductive Place where
  | register (r : ℤ)
  | slot (i : ℕ)
deriving DecidableEq

abbrev Word (w : UInt8) := BitVec (8 * w.toNat)

/-- The place that comes to a place when the top slot is popped. -/
def popped : Place → Place
  | .register r => .register r
  | .slot i => .slot (i + 1)

def pushed {w : UInt8} (top : Source Place (Word w)) : Place → Source Place (Word w)
  | .register r => .copy (.register r) 0
  | .slot 0 => top
  | .slot (i + 1) => .copy (.slot i) 0

/-- The instructions that move pointer-size words. -/
def Instruction.movesWord (insn : Instruction) : Bool :=
  insn.kind = .popRegister || insn.kind = .readStackTop || insn.kind = .pushRegister ||
    insn.kind = .pushImmediate || insn.kind = .addStackTopImmediate ||
    insn.kind = .addImmediate || insn.kind = .subImmediate

/-- Where every place gets its word from; words of another width are left open. -/
def Instruction.source (w : UInt8) (insn : Instruction) (p : Place) : Source Place (Word w) :=
  let immediate := low w insn.immediate
  let destination := Place.register insn.destinationRegister
  if insn.movesWord = true ∧ insn.valueWidth ≠ w then .anything
  else
    match insn.kind with
    | .popRegister => .copy (if p = destination then .slot 0 else popped p) 0
    | .readStackTop => .copy (if p = destination then .slot 0 else p) 0
    | .pushRegister => pushed (.copy (.register insn.sourceRegister) 0) p
    | .pushImmediate => pushed (.constant immediate) p
    | .addStackTopImmediate => .copy p (if p = .slot 0 then immediate else 0)
    | .addImmediate =>
      if p = destination then .copy (.register insn.baseRegister) immediate else .copy p 0
    | .subImmediate =>
      if p = destination then .copy (.register insn.baseRegister) (-immediate) else .copy p 0
    | .adjustStackPointerImmediate =>
      match p with
      | .register _ => .copy p 0
      | .slot _ => .anything
    | .directCall | .indirectCall => .anything
    | .return => .copy (popped p) 0
    | _ => if p = destination then .anything else .copy p 0

/-- The gadget up to its return. -/
def gadgetBody (gadget : List Instruction) : List Instruction :=
  gadget.takeWhile fun insn => insn.kind ≠ .return

/-- A state in which the gadget may come to its return. -/
def AtReturn (w : UInt8) (call : Instruction) (gadget : List Instruction) (m : Place → Word w) :
    Prop :=
  ∃ m₀ : Place → Word w, m₀ (.slot 0) = low w call.endAddress ∧
    Run (Moves (Instruction.source w)) (gadgetBody gadget) m₀ m

/-- The reported values are those of the state. -/
def GetPcCandidate.Right {w : UInt8} (c : GetPcCandidate) (m : Place → Word w) : Prop :=
  (∀ a, c.resumedAt = some a → (m (.slot 0)).toNat = a.toNat) ∧
    ∀ v, c.registerValueAtReturn = some v → (m (.register c.pcRegister)).toNat = v.toNat

/-! ## What is known -/

/-- The call has pushed its return address. -/
def afterCall (w : UInt8) (call : Instruction) (p : Place) : Option (Word w) :=
  if p = .slot 0 then some (low w call.endAddress) else none

/-- What is known behind some instructions of the gadget. -/
def knownAfter (w : UInt8) (call : Instruction) (l : List Instruction) : Place → Option (Word w) :=
  l.foldl (propagate (Instruction.source w)) (afterCall w call)

/-- The return address, at a distance. -/
def followed (w : UInt8) (call : Instruction) (delta : ℤ) : Word w :=
  low w call.endAddress + BitVec.ofInt _ delta

/-- The last adjustment of a register that starts from another one finds there the address that is
followed. -/
def BasesHold (w : UInt8) (call : Instruction) (r : ℤ) (l : List Instruction) : Prop :=
  ∀ before i after, l = before ++ i :: after → i.Adjusts r → i.baseRegister ≠ r →
    (∀ j ∈ after, j.Adjusts r → j.baseRegister = r) →
      knownAfter w call before (.register i.baseRegister) =
        some (followed w call (adjustments r before))

/-- The return address at a distance does not leave the width. -/
def Fits (w : UInt8) (call : Instruction) (delta : ℤ) : Prop :=
  (call.endAddress.toNat + delta : ℤ) < 2 ^ (8 * w.toNat)

/-- The register that the gadget takes the return address into, if it does. -/
def gadgetRegister (gadget : List Instruction) : ℤ :=
  (gadget.head?.map Instruction.destinationRegister).getD noRegister

/-- The return address stays in the width, and is the one that is followed, up to the return: in
the slot, where the entry has adjusted it or the last push has put it. -/
structure SlotHolds (w : UInt8) (call : Instruction) (gadget : List Instruction) : Prop where
  adjusted : ∀ entry ∈ gadget.head?, entry.kind = .addStackTopImmediate →
    Fits w call (toSigned entry.immediate)
  pushed : ∀ before push after,
    LastPush (gadgetRegister gadget) (gadgetBody gadget) before push after →
      Fits w call (adjustments (gadgetRegister gadget) before) ∧
        BasesHold w call (gadgetRegister gadget) before

/-- The same of the register. -/
structure RegisterHolds (w : UInt8) (call : Instruction) (gadget : List Instruction) : Prop where
  fits : Fits w call (adjustments (gadgetRegister gadget) (gadgetBody gadget))
  bases : BasesHold w call (gadgetRegister gadget) (gadgetBody gadget)

/-- The instructions that move words move words of the width. -/
def Sized (w : UInt8) (gadget : List Instruction) : Prop :=
  ∀ i ∈ gadget, i.movesWord = true → i.valueWidth = w

section Known

variable {w : UInt8} {call : Instruction} {r : ℤ} {l : List Instruction} {i : Instruction}

theorem describes_afterCall {m : Place → Word w} :
    Describes (afterCall w call) m ↔ m (.slot 0) = low w call.endAddress := by
  unfold Describes afterCall
  constructor
  · intro h
    exact h _ _ (if_pos rfl)
  · intro h p v hv
    split_ifs at hv with hp
    rw [hp, h, Option.some.inj hv]

theorem knownAfter_snoc (p : Place) : knownAfter w call (l ++ [i]) p =
    propagate (Instruction.source w) (knownAfter w call l) i p := by
  unfold knownAfter
  rw [List.foldl_append]
  rfl

theorem knownAfter_copy {p q : Place} {d : Word w} (h : i.source w p = .copy q d) :
    knownAfter w call (l ++ [i]) p = (knownAfter w call l q).map (· + d) := by
  rw [knownAfter_snoc]
  unfold propagate
  rw [h]

theorem knownAfter_keep {p : Place} (h : i.source w p = .copy p 0) :
    knownAfter w call (l ++ [i]) p = knownAfter w call l p := by
  rw [knownAfter_copy h]
  simp

/-- An instruction of the loop of the scan, of the right width. -/
structure Instruction.Tame (w : UInt8) (i : Instruction) : Prop where
  kind : i.kind ≠ .return
  control : isControlFlow i = false
  stack : changesStackTop i = false
  sized : i.movesWord = true → i.valueWidth = w

theorem Instruction.Tame.not_open (h : i.Tame w) :
    ¬ (i.movesWord = true ∧ i.valueWidth ≠ w) := fun hopen => hopen.2 (h.sized hopen.1)

theorem Instruction.Tame.source_register (h : i.Tame w) (hr : i.destinationRegister ≠ r) :
    i.source w (.register r) = .copy (.register r) 0 := by
  have hne : Place.register r ≠ .register i.destinationRegister := fun heq =>
    hr (Place.register.inj heq).symm
  have hcontrol := h.control
  have hstack := h.stack
  have hkind := h.kind
  unfold Instruction.source
  rw [if_neg h.not_open]
  cases hk : i.kind <;>
    simp_all [isControlFlow, changesStackTop, pushed]

theorem Instruction.Tame.source_slot (h : i.Tame w) (hpush : i.kind ≠ .pushRegister) :
    i.source w (.slot 0) = .copy (.slot 0) 0 := by
  have hcontrol := h.control
  have hstack := h.stack
  have hkind := h.kind
  unfold Instruction.source
  rw [if_neg h.not_open]
  cases hk : i.kind <;>
    simp_all [isControlFlow, changesStackTop]

/-! ## The register -/

theorem low_eq_ofInt (hw : w.toNat ≤ 8) (v : UInt64) :
    low w v = BitVec.ofInt (8 * w.toNat) (toSigned v) :=
  (BitVec.signExtend_eq_setWidth_of_le v.toBitVec (by omega)).symm

theorem Instruction.Tame.source_adjusted (hw : w.toNat ≤ 8) (h : i.Tame w) (ha : i.Adjusts r) :
    i.source w (.register r) =
      .copy (.register i.baseRegister) (BitVec.ofInt _ (i.adjustment r)) := by
  obtain ⟨rfl, hadd | hsub⟩ := ha
  · unfold Instruction.source Instruction.adjustment
    rw [if_neg h.not_open, if_pos rfl]
    simp only [hadd, if_true]
    rw [low_eq_ofInt hw]
  · unfold Instruction.source Instruction.adjustment
    rw [if_neg h.not_open, if_pos rfl]
    simp only [hsub, if_true]
    rw [low_eq_ofInt hw, BitVec.ofInt_neg]

theorem followed_add (x y : ℤ) :
    followed w call x + BitVec.ofInt _ y = followed w call (x + y) := by
  unfold followed
  rw [BitVec.ofInt_add, add_assoc]

theorem basesHold_snoc_other (ha : i.Adjusts r) (hbase : i.baseRegister ≠ r) :
    BasesHold w call r (l ++ [i]) ↔ knownAfter w call l (.register i.baseRegister) =
      some (followed w call (adjustments r l)) := by
  constructor
  · intro h
    exact h l i [] rfl ha hbase fun _ hj => absurd hj List.not_mem_nil
  · intro h before j after heq hj hother hown
    rcases List.eq_nil_or_concat after with rfl | ⟨after', last, rfl⟩
    · obtain ⟨rfl, hlast⟩ := List.append_inj' heq rfl
      obtain rfl : i = j := (List.cons.inj hlast).1
      exact h
    · -- the last instruction is not the one that starts from another register
      rw [List.concat_eq_append, ← List.cons_append, ← List.append_assoc] at heq
      obtain ⟨-, hlast⟩ := List.append_inj' heq rfl
      obtain rfl : i = last := (List.cons.inj hlast).1
      exact absurd (hown i (by simp) ha) hbase

theorem basesHold_snoc (hi : i.Adjusts r → i.baseRegister = r) :
    BasesHold w call r (l ++ [i]) ↔ BasesHold w call r l := by
  constructor
  · intro h before j after heq hj hother hown
    refine h before j (after ++ [i]) ?_ hj hother (forall_mem_snoc hown hi)
    rw [heq, List.append_assoc, List.cons_append]
  · intro h before j after heq hj hother hown
    rcases List.eq_nil_or_concat after with rfl | ⟨after', last, rfl⟩
    · obtain ⟨-, hlast⟩ := List.append_inj' heq rfl
      obtain rfl : i = j := (List.cons.inj hlast).1
      exact absurd (hi hj) hother
    · rw [List.concat_eq_append, ← List.cons_append, ← List.append_assoc] at heq
      obtain ⟨rfl, -⟩ := List.append_inj' heq rfl
      refine h before j after' rfl hj hother fun k hk => hown k ?_
      rw [List.concat_eq_append]
      exact List.mem_append_left _ hk

theorem map_add_eq_some_iff {x : Option (Word w)} {d v : Word w} :
    x.map (· + d) = some (v + d) ↔ x = some v := by
  cases x <;> simp

theorem Instruction.TakesTop.not_adjusts (h : i.TakesTop r) : ¬ i.Adjusts r := by
  rintro ⟨-, hadjusts⟩
  rcases h.2 with hk | hk <;> rw [hk] at hadjusts <;> simp at hadjusts

theorem Instruction.TakesTop.adjustments_cons (h : i.TakesTop r) (l : List Instruction) :
    adjustments r (i :: l) = adjustments r l := by
  rw [← List.singleton_append, adjustments_append, adjustments_singleton,
    adjustment_eq_zero h.not_adjusts, zero_add]

/-- The register holds the address that the scan follows exactly if the bases hold. -/
theorem known_register_iff (hw : w.toNat ≤ 8) {entry : Instruction} (hentry : entry.TakesTop r)
    (hsized : entry.movesWord = true → entry.valueWidth = w) (l : List Instruction) :
    (∀ i ∈ l, i.Tame w) → OnlyAdjusted r l →
      (knownAfter w call (entry :: l) (.register r) =
          some (followed w call (adjustments r (entry :: l))) ↔
        BasesHold w call r (entry :: l)) := by
  have hnot : ¬ entry.Adjusts r := hentry.not_adjusts
  induction l using List.reverseRecOn with
  | nil =>
    intro _ _
    refine iff_of_true ?_ ?_
    · have hsource : entry.source w (.register r) = .copy (.slot 0) 0 := by
        obtain ⟨rfl, hk | hk⟩ := hentry <;>
          simp [Instruction.source, hk, hsized (by simp [Instruction.movesWord, hk])]
      have hcopy := @knownAfter_copy w call [] entry _ _ _ hsource
      rw [List.nil_append] at hcopy
      rw [hcopy, adjustments_singleton, adjustment_eq_zero hnot]
      simp [knownAfter, afterCall, followed]
    · intro before i after heq hi
      cases before with
      | nil =>
        obtain rfl : entry = i := (List.cons.inj heq).1
        exact absurd hi hnot
      | cons first before => simp at heq
  | append_singleton l i ih =>
    intro htame hadjusted
    have hi : i.Tame w := htame i (by simp)
    have ih := ih (fun j hj => htame j (List.mem_append_left _ hj))
      fun j hj => hadjusted j (List.mem_append_left _ hj)
    rw [← List.cons_append, adjustments_append, adjustments_singleton, ← followed_add]
    by_cases hdest : i.destinationRegister = r
    · have ha : i.Adjusts r := hadjusted i (by simp) hdest
      rw [knownAfter_copy (hi.source_adjusted hw ha), map_add_eq_some_iff]
      by_cases hbase : i.baseRegister = r
      · rw [hbase, basesHold_snoc fun _ => hbase, ih]
      · rw [basesHold_snoc_other ha hbase]
    · have ha : ¬ i.Adjusts r := fun ha => hdest ha.1
      rw [knownAfter_keep (hi.source_register hdest), adjustment_eq_zero ha, followed_add, add_zero,
        ih, basesHold_snoc fun h => absurd h ha]

/-! ## The slot -/

theorem known_slot_keep (l after : List Instruction) (htame : ∀ i ∈ after, i.Tame w)
    (hpush : ∀ i ∈ after, i.kind ≠ .pushRegister) :
    knownAfter w call (l ++ after) (.slot 0) = knownAfter w call l (.slot 0) := by
  induction after using List.reverseRecOn with
  | nil => rw [List.append_nil]
  | append_singleton after i ih =>
    rw [← List.append_assoc,
      knownAfter_keep ((htame i (by simp)).source_slot (hpush i (by simp)))]
    exact ih (fun j hj => htame j (List.mem_append_left _ hj))
      fun j hj => hpush j (List.mem_append_left _ hj)

/-- The slot holds what the last push has found in the register. -/
theorem LastPush.known_slot {before after : List Instruction} {push : Instruction}
    (h : LastPush r l before push after) (htame : ∀ i ∈ push :: after, i.Tame w) :
    knownAfter w call l (.slot 0) = knownAfter w call before (.register r) := by
  have hsource : push.source w (.slot 0) = .copy (.register r) 0 := by
    unfold Instruction.source
    rw [if_neg (htame push List.mem_cons_self).not_open]
    simp only [h.kind, pushed, h.source]
  rw [h.split, List.append_cons, known_slot_keep _ _
    (fun i hi => htame i (List.mem_cons_of_mem _ hi)) h.last, knownAfter_copy hsource]
  simp

theorem LastPush.unique {before before' after after' : List Instruction}
    {push push' : Instruction} (h : LastPush r l before push after)
    (h' : LastPush r l before' push' after') : before = before' := by
  rcases List.append_eq_append_iff.1 (h.split.symm.trans h'.split) with
    ⟨between, rfl, hrest⟩ | ⟨between, rfl, hrest⟩
  · cases between with
    | nil => rw [List.append_nil]
    | cons first between =>
      have hmem : push' ∈ after := by
        rw [(List.cons.inj hrest).2]
        simp
      exact absurd h'.kind (h.last push' hmem)
  · cases between with
    | nil => rw [List.append_nil]
    | cons first between =>
      have hmem : push ∈ after' := by
        rw [(List.cons.inj hrest).2]
        simp
      exact absurd h.kind (h'.last push hmem)

theorem known_slot_adjusted (hw : w.toNat ≤ 8) {entry : Instruction}
    (hentry : entry.kind = .addStackTopImmediate)
    (hsized : entry.movesWord = true → entry.valueWidth = w) :
    knownAfter w call [entry] (.slot 0) = some (followed w call (toSigned entry.immediate)) := by
  have hsource : entry.source w (.slot 0) = .copy (.slot 0) (low w entry.immediate) := by
    simp [Instruction.source, hentry, hsized (by simp [Instruction.movesWord, hentry])]
  have hcopy := @knownAfter_copy w call [] entry _ _ _ hsource
  rw [List.nil_append] at hcopy
  rw [hcopy, low_eq_ofInt hw]
  rfl

/-! ## Reported values -/

theorem followed_eq_low {v : UInt64} {delta : ℤ}
    (h : (v.toNat : ℤ) = call.endAddress.toNat + delta) : followed w call delta = low w v := by
  have hofNat : ∀ u : UInt64, low w u = BitVec.ofInt (8 * w.toNat) (u.toNat : ℤ) := by
    intro u
    apply BitVec.eq_of_toNat_eq
    unfold low
    rw [BitVec.ofInt_natCast, BitVec.toNat_setWidth, BitVec.toNat_ofNat]
    rfl
  unfold followed
  rw [hofNat, hofNat, ← BitVec.ofInt_add, h]

theorem fits_iff {v : UInt64} {delta : ℤ} (h : (v.toNat : ℤ) = call.endAddress.toNat + delta) :
    Fits w call delta ↔ v.toNat < 2 ^ (8 * w.toNat) := by
  unfold Fits
  rw [← h]
  exact_mod_cast Iff.rfl

/-- A value is that of a place after every run exactly if it fits and is known there. -/
theorem atReturn_iff (hpos : 0 < w.toNat) {gadget : List Instruction} (p : Place) (v : UInt64) :
    (∀ m, AtReturn w call gadget m → (m p).toNat = v.toNat) ↔
      v.toNat < 2 ^ (8 * w.toNat) ∧
        knownAfter w call (gadgetBody gadget) p = some (low w v) := by
  have hnontrivial : Nontrivial (Word w) :=
    ⟨0#_, 1#_, fun h => by
      have hone := congrArg BitVec.toNat h
      rw [BitVec.toNat_zero, BitVec.toNat_one (by omega)] at hone
      cases hone⟩
  have hmod : (low w v).toNat = v.toNat % 2 ^ (8 * w.toNat) := by
    unfold low
    rw [BitVec.toNat_setWidth]
    rfl
  unfold knownAfter
  rw [propagated_iff]
  constructor
  · intro h
    have hlt : v.toNat < 2 ^ (8 * w.toNat) := by
      obtain ⟨m', hrun⟩ : ∃ m', Run (Moves (Instruction.source w)) (gadgetBody gadget)
          (fun _ => low w call.endAddress) m' := Absint.exists_run _ _
      rw [← h m' ⟨_, rfl, hrun⟩]
      exact BitVec.isLt _
    refine ⟨hlt, fun m m' hm hrun => ?_⟩
    apply BitVec.eq_of_toNat_eq
    rw [h m' ⟨m, describes_afterCall.1 hm, hrun⟩, hmod, Nat.mod_eq_of_lt hlt]
  · rintro ⟨hlt, hall⟩ m' ⟨m, hm, hrun⟩
    rw [hall m m' (describes_afterCall.2 hm) hrun, hmod, Nat.mod_eq_of_lt hlt]

theorem gadgetBody_eq {entry ret : Instruction} {rest : List Instruction} {c : GetPcCandidate}
    (h : Reported call.endAddress entry l c) (hret : ret.kind = .return) :
    gadgetBody (entry :: l ++ ret :: rest) = entry :: l := by
  unfold gadgetBody
  rw [List.takeWhile_append_of_pos, List.takeWhile_cons_of_neg, List.append_nil]
  · simp [hret]
  · intro i hi
    rcases List.mem_cons.1 hi with rfl | hi
    · exact decide_eq_true h.entryKind
    · exact decide_eq_true (h.tame i hi).1

section Reported

variable {entry ret : Instruction} {rest : List Instruction} {c : GetPcCandidate}
  (hw : w.toNat ≤ 8) (h : Reported call.endAddress entry l c) (hret : ret.kind = .return)
  (hsized : Sized w (entry :: l))

include h hsized in
theorem Reported.tame_width : ∀ i ∈ l, i.Tame w := by
  intro i hi
  obtain ⟨hkind, hcontrol, hstack⟩ := h.tame i hi
  exact ⟨hkind, hcontrol, hstack, hsized i (List.mem_cons_of_mem _ hi)⟩

include hw h hret hsized

theorem Reported.value_iff {v : UInt64} (hv : c.registerValueAtReturn = some v) :
    v.toNat < 2 ^ (8 * w.toNat) ∧
        knownAfter w call (entry :: l) (.register c.pcRegister) = some (low w v) ↔
      RegisterHolds w call (entry :: l ++ ret :: rest) := by
  obtain ⟨htakes, hadjusted, haddress⟩ := h.value v hv
  rw [← htakes.adjustments_cons] at haddress
  have hregister : gadgetRegister (entry :: l ++ ret :: rest) = c.pcRegister := htakes.1
  rw [← fits_iff haddress, ← followed_eq_low haddress, known_register_iff hw htakes
    (hsized entry List.mem_cons_self) l (h.tame_width hsized) hadjusted]
  constructor
  · rintro ⟨hfits, hbases⟩
    refine ⟨?_, ?_⟩ <;> rwa [hregister, gadgetBody_eq h hret]
  · rintro ⟨hfits, hbases⟩
    rw [hregister, gadgetBody_eq h hret] at hfits hbases
    exact ⟨hfits, hbases⟩

theorem Reported.resumed_iff {a : UInt64} (ha : c.resumedAt = some a) :
    a.toNat < 2 ^ (8 * w.toNat) ∧ knownAfter w call (entry :: l) (.slot 0) = some (low w a) ↔
      SlotHolds w call (entry :: l ++ ret :: rest) := by
  have htame := h.tame_width hsized
  have hentry := hsized entry List.mem_cons_self
  rcases h.resumed a ha with
    ⟨htakes, before, push, after, hlast, hadjusted, haddress⟩ | ⟨hkind, hno, haddress⟩
  · have hregister : gadgetRegister (entry :: l ++ ret :: rest) = c.pcRegister := htakes.1
    have hlast' : LastPush c.pcRegister (entry :: l) (entry :: before) push after :=
      ⟨congrArg (entry :: ·) hlast.split, hlast.kind, hlast.source, hlast.last⟩
    rw [hlast.split] at htame
    rw [← htakes.adjustments_cons] at haddress
    rw [hlast'.known_slot fun i hi => htame i (List.mem_append_right _ hi), ← fits_iff haddress,
      ← followed_eq_low haddress, known_register_iff hw htakes hentry _
        (fun i hi => htame i (List.mem_append_left _ hi)) hadjusted]
    constructor
    · rintro ⟨hfits, hbases⟩
      refine ⟨fun entry' hentry' hkind => ?_, fun before' push' after' hother => ?_⟩
      · obtain rfl := Option.some.inj hentry'
        rcases htakes.2 with htop | htop <;> exact absurd (htop.symm.trans hkind) (by decide)
      · rw [hregister, gadgetBody_eq h hret] at hother
        rw [hregister, ← hlast'.unique hother]
        exact ⟨hfits, hbases⟩
    · intro hholds
      have hpushed := hholds.pushed (entry :: before) push after
      rw [hregister, gadgetBody_eq h hret] at hpushed
      exact hpushed hlast'
  · have hslot : knownAfter w call (entry :: l) (.slot 0) =
        some (followed w call (toSigned entry.immediate)) :=
      (known_slot_keep [entry] l htame hno).trans (known_slot_adjusted hw hkind hentry)
    rw [← fits_iff haddress, ← followed_eq_low haddress, and_iff_left hslot]
    constructor
    · intro hfits
      refine ⟨fun entry' hentry' _ => ?_, fun before push after hlast => ?_⟩
      · obtain rfl := Option.some.inj hentry'
        exact hfits
      · -- nothing is pushed
        rw [gadgetBody_eq h hret] at hlast
        have hmem : push ∈ entry :: l := by
          rw [hlast.split]
          simp
        rcases List.mem_cons.1 hmem with heq | hmem
        · exact absurd (hlast.kind.symm.trans (heq ▸ hkind)) (by decide)
        · exact absurd hlast.kind (hno push hmem)
    · intro hholds
      exact hholds.adjusted entry rfl hkind

end Reported

end Known

theorem forall_right_iff {w : UInt8} {call : Instruction} {gadget : List Instruction}
    {c : GetPcCandidate} : (∀ m, AtReturn w call gadget m → c.Right m) ↔
      (∀ a, c.resumedAt = some a → ∀ m, AtReturn w call gadget m →
        (m (.slot 0)).toNat = a.toNat) ∧
      ∀ v, c.registerValueAtReturn = some v → ∀ m, AtReturn w call gadget m →
        (m (.register c.pcRegister)).toNat = v.toNat := by
  unfold GetPcCandidate.Right
  constructor
  · intro hall
    exact ⟨fun a ha m hm => (hall m hm).1 a ha, fun v hv m hm => (hall m hm).2 v hv⟩
  · rintro ⟨hresumed, hvalue⟩ m hm
    exact ⟨fun a ha => hresumed a ha m hm, fun v hv => hvalue v hv m hm⟩

theorem forall_some_iff {α : Type} {o : Option α} {P : α → Prop} {Q : Prop}
    (h : ∀ a, o = some a → (P a ↔ Q)) : (∀ a, o = some a → P a) ↔ (o ≠ none → Q) := by
  cases o with
  | none => simp
  | some a => simp [h a rfl]

/-- **Get-PC gadgets.** The reported values are those of every run, exactly if the return address
and the adjustments together stay in the width, and the last adjustment that starts from another
register, before the return or before the last push, finds there the address that is followed. -/
theorem get_pc_right_iff {w : UInt8} (hw : w = 4 ∨ w = 8) {call : Instruction}
    {gadget : List Instruction} (hsized : Sized w gadget) {otherCallers : Bool}
    {limits : ClassifierLimits} {c : GetPcCandidate}
    (h : classifyGetPcGadget call gadget otherCallers limits = some c) :
    (∀ m, AtReturn w call gadget m → c.Right m) ↔
      (c.resumedAt ≠ none → SlotHolds w call gadget) ∧
        (c.registerValueAtReturn ≠ none → RegisterHolds w call gadget) := by
  have hle : w.toNat ≤ 8 := by rcases hw with rfl | rfl <;> decide
  have hpos : 0 < w.toNat := by rcases hw with rfl | rfl <;> decide
  rw [forall_right_iff]
  rcases classifyGetPcGadget_spec h with
    ⟨hresumed, hvalue⟩ | ⟨entry, l, ret, rest, rfl, hret, hreported⟩
  · rw [hresumed, hvalue]
    simp
  have hsized' : Sized w (entry :: l) := fun i hi => hsized i (List.mem_append_left _ hi)
  simp only [atReturn_iff hpos, gadgetBody_eq hreported hret]
  exact and_congr (forall_some_iff fun _ ha => hreported.resumed_iff hle hret hsized' ha)
    (forall_some_iff fun _ hv => hreported.value_iff hle hret hsized' hv)

theorem basesHold_of_own {w : UInt8} {call : Instruction} {r : ℤ} {l : List Instruction}
    (h : ∀ i ∈ l, i.Adjusts r → i.baseRegister = r) : BasesHold w call r l := by
  rintro before i after rfl hi hbase
  exact absurd (h i (by simp) hi) hbase

/-- A call of the gadget at `0x1010`. -/
def callOfGadget : Instruction :=
  { address := 0x1000, size := 5, kind := .directCall, target := 0x1010 }

/-- `pop r1; add r1, immediate; push r1; ret` -/
def popAddPush (w : UInt8) (immediate : UInt64) : List Instruction :=
  [{ address := 0x1010, size := 1, kind := .popRegister, destinationRegister := 1
     valueWidth := w },
   { address := 0x1011, size := 6, kind := .addImmediate, destinationRegister := 1
     sourceRegister := 1, valueWidth := w, immediate := immediate },
   { address := 0x1017, size := 1, kind := .pushRegister, sourceRegister := 1, valueWidth := w },
   { address := 0x1018, size := 1, kind := .return }]

/-- What is reported for the gadget, at the given address. -/
def popAddPushCandidate (immediate : ℤ) (resumed : UInt64) : GetPcCandidate where
  call := 0x1000
  gadget := 0x1010
  pushedReturn := 0x1005
  returnInstruction := 0x1018
  resumedAt := some resumed
  pcRegister := 1
  registerValueAtReturn := some resumed
  delta := immediate
  support := [0x1000, 0x1010, 0x1011, 0x1017, 0x1018]

theorem popAddPush_own (w : UInt8) (immediate : UInt64) :
    ∀ i ∈ gadgetBody (popAddPush w immediate), i.Adjusts 1 → i.baseRegister = 1 := by
  intro i hi _
  fin_cases hi <;> rfl

/-- 64-bit code goes on 16 bytes behind the call. -/
theorem popAddPush_resumes :
    classifyGetPcGadget callOfGadget (popAddPush 8 0x10) false {} =
        some (popAddPushCandidate 0x10 0x1015) ∧
      ∀ m, AtReturn 8 callOfGadget (popAddPush 8 0x10) m →
        (popAddPushCandidate 0x10 0x1015).Right m := by
  have hc : classifyGetPcGadget callOfGadget (popAddPush 8 0x10) false {} =
      some (popAddPushCandidate 0x10 0x1015) := by decide +kernel
  have hsized : Sized 8 (popAddPush 8 0x10) := by
    unfold Sized
    decide
  have hown := popAddPush_own 8 0x10
  refine ⟨hc, (get_pc_right_iff (Or.inr rfl) hsized hc).2 ⟨fun _ => ⟨?_, ?_⟩, fun _ =>
    ⟨by unfold Fits; decide +kernel, basesHold_of_own hown⟩⟩⟩
  · intro entry hentry hkind
    obtain rfl := Option.some.inj hentry
    cases hkind
  · intro before push after hlast
    have hthis : LastPush 1 (gadgetBody (popAddPush 8 0x10)) ((popAddPush 8 0x10).take 2) _ [] :=
      ⟨rfl, rfl, rfl, fun _ hi => absurd hi List.not_mem_nil⟩
    rw [← hthis.unique hlast]
    refine ⟨by unfold Fits; decide +kernel, basesHold_of_own fun i hi => hown i ?_⟩
    rw [hthis.split]
    exact List.mem_append_left _ hi

/-- In 32-bit code, adding `0xffffffff` goes one byte back, not 4 gigabytes ahead. -/
theorem popAddPush_wraps :
    classifyGetPcGadget callOfGadget (popAddPush 4 0xffffffff) false {} =
        some (popAddPushCandidate 0xffffffff 0x100001004) ∧
      Sized 4 (popAddPush 4 0xffffffff) ∧
      (∃ m, AtReturn 4 callOfGadget (popAddPush 4 0xffffffff) m) ∧
      ∀ m, AtReturn 4 callOfGadget (popAddPush 4 0xffffffff) m → (m (.slot 0)).toNat = 0x1004 := by
  refine ⟨by decide +kernel, by unfold Sized; decide, ?_, ?_⟩
  · obtain ⟨m, hrun⟩ : ∃ m, Run (Moves (Instruction.source 4))
        (gadgetBody (popAddPush 4 0xffffffff)) (fun _ => low 4 callOfGadget.endAddress) m :=
      Absint.exists_run _ _
    exact ⟨m, _, rfl, hrun⟩
  · refine (atReturn_iff (by decide) (.slot 0) 0x1004).2 ⟨by decide, ?_⟩
    decide +kernel

end Viy.Deobf
