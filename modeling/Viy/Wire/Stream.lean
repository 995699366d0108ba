import Viy.Wire.Endian

/-!
# Streams that can be taken apart

A hash over records is fed the byte forms of their fields one after the other. What the stream says
of a record is a relation: two records are the same for it exactly if their forms are equal. A form
that also shows where it ends can stand in front of any other; forms of this kind are put together
by sequencing, by a dependence of the second on what the first has told, and by lists with their
length in front.
-/

namespace Wire

variable {α β : Type*}

/-- In front of any rest, the forms of two values are equal exactly if the values are the same. -/
def Delimits (form : α → Bytes) (Same : α → α → Prop) : Prop :=
  ∀ ⦃a b : α⦄ ⦃r s : Bytes⦄, form a ++ r = form b ++ s ↔ Same a b ∧ r = s

namespace Delimits

variable {form f g : α → Bytes} {Same R S : α → α → Prop}

theorem eq_iff (h : Delimits form Same) {a b : α} : form a = form b ↔ Same a b := by
  have hnil := @h a b [] []
  rwa [List.append_nil, List.append_nil, and_iff_left rfl] at hnil

theorem comap (h : Delimits form Same) (k : β → α) :
    Delimits (fun b => form (k b)) fun a b => Same (k a) (k b) :=
  fun a b _ _ => @h (k a) (k b) _ _

/-- The second form may need to know what the first one has told. -/
theorem append_of (hf : Delimits f R)
    (hg : ∀ ⦃a b r s⦄, R a b → (g a ++ r = g b ++ s ↔ S a b ∧ r = s)) :
    Delimits (fun a => f a ++ g a) fun a b => R a b ∧ S a b := by
  intro a b r s
  rw [List.append_assoc, List.append_assoc, hf, and_assoc]
  exact and_congr_right fun hsame => hg hsame

theorem append (hf : Delimits f R) (hg : Delimits g S) :
    Delimits (fun a => f a ++ g a) fun a b => R a b ∧ S a b :=
  hf.append_of fun _ _ _ _ _ => @hg _ _ _ _

/-- An injective form of one length for all values. -/
theorem of_length {n : ℕ} (hlength : ∀ a, (form a).length = n)
    (hinj : ∀ a b, form a = form b → a = b) : Delimits form Eq := by
  intro a b r s
  constructor
  · intro h
    obtain ⟨hform, hrest⟩ := List.append_inj h ((hlength a).trans (hlength b).symm)
    exact ⟨hinj a b hform, hrest⟩
  · rintro ⟨rfl, rfl⟩
    rfl

/-- Lists of one length are the same member by member. -/
theorem flatMap (h : Delimits form Same) : ∀ {l m : List α} {r s : Bytes}, l.length = m.length →
    (l.flatMap form ++ r = m.flatMap form ++ s ↔ List.Forall₂ Same l m ∧ r = s) := by
  intro l
  induction l with
  | nil =>
    intro m r s hlength
    obtain rfl : m = [] := List.eq_nil_of_length_eq_zero hlength.symm
    simp
  | cons a l ih =>
    intro m r s hlength
    cases m with
    | nil => cases hlength
    | cons b m =>
      rw [List.flatMap_cons, List.flatMap_cons, List.append_assoc, List.append_assoc, h,
        ih (Nat.succ.inj hlength), List.forall₂_cons, and_assoc]

/-- At the end of a stream, forms that are not empty need no count. -/
theorem flatMap_eq_iff (h : Delimits form Same) (hne : ∀ a, form a ≠ []) : ∀ {l m : List α},
    l.flatMap form = m.flatMap form ↔ List.Forall₂ Same l m := by
  intro l
  induction l with
  | nil =>
    intro m
    cases m with
    | nil => exact iff_of_true rfl .nil
    | cons b m =>
      refine iff_of_false (fun heq => hne b ?_) (by rintro ⟨⟩)
      exact (List.append_eq_nil_iff.1 heq.symm).1
  | cons a l ih =>
    intro m
    cases m with
    | nil =>
      refine iff_of_false (fun heq => hne a ?_) (by rintro ⟨⟩)
      exact (List.append_eq_nil_iff.1 heq).1
    | cons b m => rw [List.flatMap_cons, List.flatMap_cons, h, ih, List.forall₂_cons]

end Delimits

/-! ## Words -/

/-- `for (shift = 0; shift != 64; shift += 8) byte(uint8_t(value >> shift))` -/
def leU64 (value : UInt64) : Bytes := scatter false value 8

theorem leU64_injective {a b : UInt64} (h : leU64 a = leU64 b) : a = b := by
  have hnumeral : ∀ v : UInt64, numeral (leU64 v) = v.toNat := by
    intro v
    have hlt : v.toNat < 256 ^ 8 := v.toNat_lt
    rw [leU64, numeral_scatter_false v (Nat.le_refl 8), Nat.mod_eq_of_lt hlt]
  have hnat := congrArg numeral h
  rw [hnumeral, hnumeral] at hnat
  exact UInt64.toNat_inj.1 hnat

theorem delimits_leU64 : Delimits leU64 Eq :=
  Delimits.of_length (fun v => length_scatter false v 8) fun _ _ => leU64_injective

theorem delimits_byte : Delimits (fun b : UInt8 => [b]) Eq :=
  Delimits.of_length (fun _ => rfl) fun _ _ h => (List.cons.inj h).1

theorem delimits_boolean : Delimits boolean Eq :=
  Delimits.of_length (fun _ => rfl) (by decide)

section Rewriting

variable {r s : Bytes}

theorem leU64_append_eq {a b : UInt64} : leU64 a ++ r = leU64 b ++ s ↔ a = b ∧ r = s :=
  @delimits_leU64 a b r s

theorem boolean_append_eq {a b : Bool} : boolean a ++ r = boolean b ++ s ↔ a = b ∧ r = s :=
  @delimits_boolean a b r s

end Rewriting

/-! ## Vectors -/

/-- A list whose length fits in a `size_t`. -/
structure Vec (α : Type*) where
  toList : List α
  length_lt : toList.length < 2 ^ 64

/-- `u64(list.size())` and the members. -/
def counted (form : α → Bytes) (l : List α) : Bytes :=
  leU64 (.ofNat l.length) ++ l.flatMap form

theorem Delimits.counted {form : α → Bytes} {Same : α → α → Prop} (h : Delimits form Same) :
    Delimits (fun v : Vec α => Wire.counted form v.toList)
      fun v w => List.Forall₂ Same v.toList w.toList := by
  intro v w r s
  show leU64 _ ++ _ ++ _ = leU64 _ ++ _ ++ _ ↔ _
  rw [List.append_assoc, List.append_assoc, delimits_leU64]
  constructor
  · rintro ⟨hcount, hrest⟩
    have hnat := congrArg UInt64.toNat hcount
    rw [UInt64.toNat_ofNat_of_lt' v.length_lt, UInt64.toNat_ofNat_of_lt' w.length_lt] at hnat
    exact (h.flatMap hnat).1 hrest
  · rintro ⟨hsame, hrest⟩
    exact ⟨congrArg UInt64.ofNat hsame.length_eq, (h.flatMap hsame.length_eq).2 ⟨hsame, hrest⟩⟩

theorem Vec.ext {v w : Vec α} (h : v.toList = w.toList) : v = w := by
  cases v
  cases w
  cases h
  rfl

theorem Delimits.counted_eq {form : α → Bytes} (h : Delimits form Eq) :
    Delimits (fun v : Vec α => Wire.counted form v.toList) Eq := by
  intro v w r s
  rw [h.counted, List.forall₂_eq_eq_eq]
  exact and_congr_left fun _ => ⟨Vec.ext, congrArg Vec.toList⟩

end Wire
