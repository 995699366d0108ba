import Viy.Wire.Memory

/-!
# Sequences of writes

Writes that agree wherever two of them meet can be done in any order, and any number of times: what
they leave at an address is said by any one that reaches it.
-/

namespace Wire

/-- Bytes to be stored from an address on. -/
structure Write where
  addr : UInt64
  bytes : Bytes

namespace Write

/-- What the write leaves at an address, if it reaches it. -/
def valueAt (w : Write) (x : UInt64) : Option UInt8 := w.bytes[(x - w.addr).toNat]?

/-- The two writes leave the same at every address that both reach. -/
def Agree (v w : Write) : Prop :=
  ∀ x b c, v.valueAt x = some b → w.valueAt x = some c → b = c

theorem store_eq (mem : Memory) (w : Write) (x : UInt64) :
    store mem w.addr w.bytes x = (w.valueAt x).getD (mem x) := by
  rw [store, valueAt, List.getD_eq_getElem?_getD]

/-- Inside the address space, a write reaches the addresses from its start to its end. -/
theorem valueAt_eq_some_iff {w : Write} (hfits : w.addr.toNat + w.bytes.length ≤ 2 ^ 64)
    {x : UInt64} {b : UInt8} : w.valueAt x = some b ↔
      w.addr.toNat ≤ x.toNat ∧ w.bytes[x.toNat - w.addr.toNat]? = some b := by
  have hx := x.toNat_lt
  have haddr := w.addr.toNat_lt
  rw [valueAt]
  by_cases hle : w.addr.toNat ≤ x.toNat
  · rw [UInt64.toNat_sub_of_le _ _ (UInt64.le_iff_toNat_le.2 hle), and_iff_right hle]
  · have hfar : w.bytes.length ≤ (x - w.addr).toNat := by
      rw [UInt64.toNat_sub]
      omega
    rw [List.getElem?_eq_none hfar]
    exact iff_of_false (by simp) fun h => hle h.1

theorem bounds_of_valueAt {w : Write} (hfits : w.addr.toNat + w.bytes.length ≤ 2 ^ 64)
    {x : UInt64} {b : UInt8} (h : w.valueAt x = some b) :
    w.addr.toNat ≤ x.toNat ∧ x.toNat < w.addr.toNat + w.bytes.length ∧
      w.bytes[x.toNat - w.addr.toNat]? = some b := by
  obtain ⟨hle, hbyte⟩ := (valueAt_eq_some_iff hfits).1 h
  obtain ⟨hlt, -⟩ := List.getElem?_eq_some_iff.1 hbyte
  exact ⟨hle, by omega, hbyte⟩

end Write

/-- The writes one after the other. -/
def storeAll (mem : Memory) (writes : List Write) : Memory :=
  writes.foldl (fun mem w => store mem w.addr w.bytes) mem

section StoreAll

variable {mem : Memory} {writes : List Write} {x : UInt64}

theorem storeAll_apply_none (h : ∀ w ∈ writes, w.valueAt x = none) :
    storeAll mem writes x = mem x := by
  induction writes generalizing mem with
  | nil => rfl
  | cons w writes ih =>
    show storeAll (store mem w.addr w.bytes) writes x = mem x
    rw [ih fun v hv => h v (List.mem_cons_of_mem _ hv), Write.store_eq, h w List.mem_cons_self,
      Option.getD_none]

/-- Any write that reaches an address says what is there in the end. -/
theorem storeAll_apply_some (hagree : ∀ v ∈ writes, ∀ w ∈ writes, v.Agree w) {w : Write}
    (hw : w ∈ writes) {b : UInt8} (hb : w.valueAt x = some b) : storeAll mem writes x = b := by
  induction writes generalizing mem w b with
  | nil => cases hw
  | cons v writes ih =>
    have hrest : ∀ v ∈ writes, ∀ w ∈ writes, v.Agree w := fun v hv w hw =>
      hagree v (List.mem_cons_of_mem _ hv) w (List.mem_cons_of_mem _ hw)
    by_cases hlater : ∃ u ∈ writes, u.valueAt x ≠ none
    · obtain ⟨u, hu, hne⟩ := hlater
      obtain ⟨c, hc⟩ := Option.ne_none_iff_exists'.1 hne
      have hbc : b = c := hagree w hw u (List.mem_cons_of_mem _ hu) x b c hb hc
      rw [hbc]
      exact ih hrest hu hc
    · push Not at hlater
      have hwv : w = v := by
        rcases List.mem_cons.1 hw with h | h
        · exact h
        · rw [hlater w h] at hb
          cases hb
      have hfirst : storeAll mem (v :: writes) x = store mem v.addr v.bytes x :=
        storeAll_apply_none hlater
      rw [hfirst, Write.store_eq, ← hwv, hb, Option.getD_some]

/-- Writes that agree leave one memory, in whatever order and number they come. -/
theorem storeAll_eq_of_mem_iff {writes' : List Write}
    (hagree : ∀ v ∈ writes, ∀ w ∈ writes, v.Agree w) (hmem : ∀ w, w ∈ writes ↔ w ∈ writes') :
    storeAll mem writes = storeAll mem writes' := by
  funext x
  by_cases hreach : ∃ w ∈ writes, w.valueAt x ≠ none
  · obtain ⟨w, hw, hne⟩ := hreach
    obtain ⟨b, hb⟩ := Option.ne_none_iff_exists'.1 hne
    have hagree' : ∀ v ∈ writes', ∀ w ∈ writes', v.Agree w := fun v hv w hw =>
      hagree v ((hmem v).2 hv) w ((hmem w).2 hw)
    rw [storeAll_apply_some hagree hw hb, storeAll_apply_some hagree' ((hmem w).1 hw) hb]
  · push Not at hreach
    rw [storeAll_apply_none hreach,
      storeAll_apply_none fun w hw => hreach w ((hmem w).2 hw)]

end StoreAll

end Wire
