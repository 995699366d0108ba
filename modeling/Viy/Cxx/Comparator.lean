import Mathlib.Data.List.Sort
import Mathlib.Data.List.Destutter
import Mathlib.Data.List.TakeWhile
import Mathlib.Tactic

/-!
# Comparators of the C++ ordered containers

The standard library orders values by a Boolean function `less`. A `Comparator` bundles such a
function with the proof that it is a strict total order, so that sorted containers over it are
determined by their elements. The constructors follow the library's own: `tie` for
`std::tuple`, `lex` for `std::lexicographical_compare`, `option` for `std::optional`.
-/

namespace Cxx

/-- A strict total order decided by a Boolean function. -/
structure Comparator (α : Type*) where
  less : α → α → Bool
  irrefl : ∀ a, less a a = false
  trans : ∀ {a b c}, less a b = true → less b c = true → less a c = true
  total : ∀ {a b}, less a b = false → less b a = false → a = b

/-- A comparison cannot come out both ways. -/
theorem clash {b : Bool} {p : Prop} (h : b = false) (h' : b = true) : p :=
  absurd (h.symm.trans h') (by decide)

namespace Comparator

variable {α β : Type*}

theorem asymm (c : Comparator α) {a b : α} (h : c.less a b = true) : c.less b a = false := by
  by_contra hba
  exact clash (c.irrefl a) (c.trans h (by simpa using hba))

theorem ne_of_less (c : Comparator α) {a b : α} (h : c.less a b = true) : a ≠ b := by
  rintro rfl
  exact clash (c.irrefl a) h

/-- Elements that are not less than each other are equal, and conversely. -/
theorem incomparable_iff (c : Comparator α) {a b : α} :
    (c.less a b = false ∧ c.less b a = false) ↔ a = b := by
  constructor
  · rintro ⟨hab, hba⟩
    exact c.total hab hba
  · rintro rfl
    exact ⟨c.irrefl a, c.irrefl a⟩

theorem cases (c : Comparator α) (a b : α) :
    c.less a b = true ∨ a = b ∨ c.less b a = true := by
  rcases hab : c.less a b with _ | _
  · rcases hba : c.less b a with _ | _
    · exact Or.inr (Or.inl (c.total hab hba))
    · exact Or.inr (Or.inr rfl)
  · exact Or.inl rfl

/-- Not less is a transitive relation. -/
theorem not_less_trans (c : Comparator α) {x y z : α} (hyx : c.less y x = false)
    (hzy : c.less z y = false) : c.less z x = false := by
  by_contra hzx
  have hzx : c.less z x = true := by simpa using hzx
  rcases c.cases x y with h | rfl | h
  · exact clash hzy (c.trans hzx h)
  · exact clash hzy hzx
  · exact clash hyx h

/-- The comparator of a key. -/
def comap (c : Comparator β) (f : α → β) (hf : Function.Injective f) : Comparator α where
  less a b := c.less (f a) (f b)
  irrefl a := c.irrefl (f a)
  trans := c.trans
  total h h' := hf (c.total h h')

/-- Comparison of unsigned machine integers through their value. -/
def ofToNat {α : Type*} [LT α] [DecidableLT α] (toNat : α → ℕ)
    (hlt : ∀ a b : α, a < b ↔ toNat a < toNat b) (hinj : Function.Injective toNat) :
    Comparator α where
  less a b := decide (a < b)
  irrefl a := by simp [hlt]
  trans {a b c} h h' := by
    simp only [hlt, decide_eq_true_eq] at *
    omega
  total {a b} h h' := by
    simp only [hlt, decide_eq_false_iff_not] at *
    exact hinj (by omega)

def u8 : Comparator UInt8 :=
  ofToNat UInt8.toNat (fun _ _ => UInt8.lt_iff_toNat_lt) fun _ _ h => UInt8.toNat_inj.1 h

def u32 : Comparator UInt32 :=
  ofToNat UInt32.toNat (fun _ _ => UInt32.lt_iff_toNat_lt) fun _ _ h => UInt32.toNat_inj.1 h

def u64 : Comparator UInt64 :=
  ofToNat UInt64.toNat (fun _ _ => UInt64.lt_iff_toNat_lt) fun _ _ h => UInt64.toNat_inj.1 h

def nat : Comparator ℕ := ofToNat id (fun _ _ => Iff.rfl) fun _ _ h => h

def int : Comparator ℤ where
  less a b := decide (a < b)
  irrefl a := by simp
  trans {a b c} h h' := by
    simp only [decide_eq_true_eq] at *
    omega
  total {a b} h h' := by
    simp only [decide_eq_false_iff_not] at *
    omega

/-! ## Tuples -/

/-- `operator<` of a pair: the second components decide only when the first ones do not. -/
def tie (c : Comparator α) (d : Comparator β) : Comparator (α × β) where
  less x y := c.less x.1 y.1 || (!c.less y.1 x.1 && d.less x.2 y.2)
  irrefl x := by simp [c.irrefl, d.irrefl]
  trans {x y z} h h' := by
    simp only [Bool.or_eq_true, Bool.and_eq_true, Bool.not_eq_true'] at *
    rcases h with h | ⟨h, hd⟩
    · rcases h' with h' | ⟨h', -⟩
      · exact Or.inl (c.trans h h')
      · rcases c.cases y.1 z.1 with hyz | hyz | hyz
        · exact Or.inl (c.trans h hyz)
        · exact Or.inl (hyz ▸ h)
        · exact clash h' hyz
    · rcases h' with h' | ⟨h', hd'⟩
      · rcases c.cases x.1 y.1 with hxy | hxy | hxy
        · exact Or.inl (c.trans hxy h')
        · exact Or.inl (hxy ▸ h')
        · exact clash h hxy
      · exact Or.inr ⟨c.not_less_trans h h', d.trans hd hd'⟩
  total {x y} h h' := by
    simp only [Bool.or_eq_false_iff, Bool.and_eq_false_iff, Bool.not_eq_false'] at *
    have h1 : x.1 = y.1 := c.total h.1 h'.1
    have hx : d.less x.2 y.2 = false := by
      rcases h.2 with h2 | h2
      · exact clash h'.1 h2
      · exact h2
    have hy : d.less y.2 x.2 = false := by
      rcases h'.2 with h2 | h2
      · exact clash h.1 h2
      · exact h2
    exact Prod.ext h1 (d.total hx hy)

theorem tie_less_eq_ite [DecidableEq α] (c : Comparator α) (d : Comparator β) (x y : α × β) :
    (c.tie d).less x y = if x.1 = y.1 then d.less x.2 y.2 else c.less x.1 y.1 := by
  show (c.less x.1 y.1 || (!c.less y.1 x.1 && d.less x.2 y.2)) = _
  split_ifs with h
  · rw [h, c.irrefl]
    rfl
  · rcases c.cases x.1 y.1 with hlt | heq | hgt
    · rw [hlt]
      rfl
    · exact absurd heq h
    · rw [c.asymm hgt, hgt]
      rfl

/-! ## Sequences -/

/-- `std::lexicographical_compare`. -/
def lexLess (less : α → α → Bool) : List α → List α → Bool
  | _, [] => false
  | [], _ :: _ => true
  | a :: l, b :: m => less a b || (!less b a && lexLess less l m)

theorem lexLess_irrefl (c : Comparator α) (l : List α) : lexLess c.less l l = false := by
  induction l with
  | nil => rfl
  | cons a l ih => simp [lexLess, c.irrefl, ih]

theorem lexLess_trans (c : Comparator α) : ∀ {l m n : List α}, lexLess c.less l m = true →
    lexLess c.less m n = true → lexLess c.less l n = true
  | _, [], _, h, _ => by simp [lexLess] at h
  | _, _ :: _, [], _, h => by simp [lexLess] at h
  | [], _ :: _, _ :: _, _, _ => rfl
  | a :: l, b :: m, d :: n, h, h' => by
    simp only [lexLess, Bool.or_eq_true, Bool.and_eq_true, Bool.not_eq_true'] at h h' ⊢
    rcases c.cases a b with hab | rfl | hab
    · rcases c.cases b d with hbd | rfl | hbd
      · exact Or.inl (c.trans hab hbd)
      · exact Or.inl hab
      · rcases h' with h' | ⟨h', -⟩
        · exact clash (c.asymm hbd) h'
        · exact clash h' hbd
    · rcases h with h | ⟨-, h⟩
      · exact clash (c.irrefl a) h
      · rcases h' with h' | ⟨h', hmn⟩
        · exact Or.inl h'
        · exact Or.inr ⟨h', lexLess_trans c h hmn⟩
    · rcases h with h | ⟨h, -⟩
      · exact clash (c.asymm hab) h
      · exact clash h hab

theorem lexLess_total (c : Comparator α) : ∀ {l m : List α}, lexLess c.less l m = false →
    lexLess c.less m l = false → l = m
  | [], [], _, _ => rfl
  | [], _ :: _, h, _ => by simp [lexLess] at h
  | _ :: _, [], _, h => by simp [lexLess] at h
  | a :: l, b :: m, h, h' => by
    simp only [lexLess, Bool.or_eq_false_iff, Bool.and_eq_false_iff, Bool.not_eq_false'] at h h'
    obtain rfl : a = b := c.total h.1 h'.1
    simp only [c.irrefl, Bool.false_eq_true, false_or, true_and] at h h'
    rw [lexLess_total c h h']

/-- The order of vectors and strings. -/
def lex (c : Comparator α) : Comparator (List α) where
  less := lexLess c.less
  irrefl := lexLess_irrefl c
  trans := lexLess_trans c
  total := lexLess_total c

/-! ## Optional values -/

/-- `operator<` of `std::optional`: an absent value precedes every present one. -/
def option (c : Comparator α) : Comparator (Option α) where
  less
    | _, none => false
    | none, some _ => true
    | some a, some b => c.less a b
  irrefl a := by cases a <;> simp [c.irrefl]
  trans {x y z} h h' := by
    cases x <;> cases y <;> cases z <;> simp at *
    exact c.trans h h'
  total {x y} h h' := by
    cases x <;> cases y <;> simp at *
    exact c.total h h'

end Comparator

end Cxx
