import Viy.Cxx.Comparator

/-!
# Sequence algorithms of the C++ standard library

`sort`, `unique`, `isSorted`, `adjacentFind`, `lowerBound` and `minElement` on lists, with the facts
the ordered containers rest on: a strictly sorted list is determined by its elements
(`eq_of_mem_iff`), sorting and removing repetitions computes that list (`sortUnique_sorted`,
`mem_sortUnique`), and inserting at the lower bound keeps it (`insert_lowerBound_sorted`). `pairs`
lists the index pairs `i < j` of a double loop. `foldl_untouched` and `foldl_touched` say what a
loop of updates leaves at one place.
-/

namespace Cxx

variable {α β : Type*}

/-! ## Strictly sorted lists -/

/-- Strictly increasing under `less`. -/
def Sorted (less : α → α → Bool) (l : List α) : Prop := l.Pairwise fun a b => less a b = true

theorem Sorted.of_cons {less : α → α → Bool} {a : α} {l : List α} (h : Sorted less (a :: l)) :
    Sorted less l := (List.pairwise_cons.1 h).2

theorem Sorted.head {less : α → α → Bool} {a : α} {l : List α} (h : Sorted less (a :: l)) :
    ∀ b ∈ l, less a b = true := (List.pairwise_cons.1 h).1

/-- The head of a strictly sorted list does not occur in its tail. -/
theorem Sorted.notMem {c : Comparator β} {f : α → β} {a : α} {l : List α}
    (h : Sorted (fun x y => c.less (f x) (f y)) (a :: l)) : a ∉ l :=
  fun ha => clash (c.irrefl (f a)) (h.head a ha)

/-- Strictly sorted lists with the same elements are equal. -/
theorem eq_of_mem_iff {c : Comparator β} {f : α → β} : ∀ {l m : List α},
    Sorted (fun x y => c.less (f x) (f y)) l → Sorted (fun x y => c.less (f x) (f y)) m →
      (∀ x, x ∈ l ↔ x ∈ m) → l = m
  | [], [], _, _, _ => rfl
  | [], b :: _, _, _, h => absurd ((h b).2 List.mem_cons_self) List.not_mem_nil
  | a :: _, [], _, _, h => absurd ((h a).1 List.mem_cons_self) List.not_mem_nil
  | a :: l, b :: m, hl, hm, h => by
    -- each head is the least element of both lists
    have hab : a = b := by
      rcases List.mem_cons.1 ((h a).1 List.mem_cons_self) with hab | ham
      · exact hab
      rcases List.mem_cons.1 ((h b).2 List.mem_cons_self) with hba | hbl
      · exact hba.symm
      exact clash (c.asymm (hm.head a ham)) (hl.head b hbl)
    subst hab
    have htail : ∀ x, x ∈ l ↔ x ∈ m := by
      intro x
      constructor
      · intro hx
        rcases List.mem_cons.1 ((h x).1 (List.mem_cons_of_mem _ hx)) with rfl | hx'
        · exact absurd hx hl.notMem
        · exact hx'
      · intro hx
        rcases List.mem_cons.1 ((h x).2 (List.mem_cons_of_mem _ hx)) with rfl | hx'
        · exact absurd hx hm.notMem
        · exact hx'
    rw [eq_of_mem_iff hl.of_cons hm.of_cons htail]

/-! ## `std::sort`, `std::is_sorted` -/

/-- `std::sort`. For a strict total order the sorted arrangement is unique, so the choice of
sorting method is immaterial. -/
def sort (less : α → α → Bool) (l : List α) : List α :=
  l.insertionSort fun a b => less b a = false

@[simp] theorem mem_sort {less : α → α → Bool} {l : List α} {x : α} :
    x ∈ sort less l ↔ x ∈ l := List.mem_insertionSort _

theorem sort_perm (less : α → α → Bool) (l : List α) : (sort less l).Perm l :=
  List.perm_insertionSort _ l

/-- Sorting by a key: no later key is less than an earlier one. -/
theorem sort_pairwise_key (c : Comparator β) (f : α → β) (l : List α) :
    (sort (fun x y => c.less (f x) (f y)) l).Pairwise fun a b => c.less (f b) (f a) = false := by
  have htotal : Std.Total fun a b => c.less (f b) (f a) = false := ⟨fun a b => by
    rcases c.cases (f a) (f b) with h | h | h
    · exact Or.inl (c.asymm h)
    · exact Or.inl (h ▸ c.irrefl (f a))
    · exact Or.inr (c.asymm h)⟩
  have htrans : IsTrans α fun a b => c.less (f b) (f a) = false :=
    ⟨fun _ _ _ hab hbd => c.not_less_trans hab hbd⟩
  exact List.pairwise_insertionSort _ l

/-- Sorting by a key that no two elements share. -/
theorem sort_sorted_key (c : Comparator β) (f : α → β) {l : List α} (h : (l.map f).Nodup) :
    Sorted (fun x y => c.less (f x) (f y)) (sort (fun x y => c.less (f x) (f y)) l) := by
  have hne : (sort (fun x y => c.less (f x) (f y)) l).Pairwise fun a b => f a ≠ f b :=
    List.pairwise_map.1 (((sort_perm _ l).map f).nodup_iff.2 h)
  refine ((sort_pairwise_key c f l).and hne).imp fun {a b} hab => ?_
  rcases c.cases (f a) (f b) with hless | heq | hless
  · exact hless
  · exact absurd heq hab.2
  · exact clash hab.1 hless

theorem sort_pairwise (c : Comparator α) (l : List α) :
    (sort c.less l).Pairwise fun a b => c.less b a = false := sort_pairwise_key c id l

theorem sort_eq_self {less : α → α → Bool} {l : List α}
    (h : l.Pairwise fun a b => less b a = false) : sort less l = l := h.insertionSort_eq

/-- `std::is_sorted`: no element is less than the one before it. -/
def isSorted (less : α → α → Bool) : List α → Bool
  | a :: b :: l => !less b a && isSorted less (b :: l)
  | _ => true

theorem isSorted_iff (c : Comparator α) (l : List α) :
    isSorted c.less l = true ↔ l.Pairwise fun a b => c.less b a = false := by
  induction l with
  | nil => simp [isSorted]
  | cons a l ih =>
    cases l with
    | nil => simp [isSorted]
    | cons b l =>
      rw [isSorted, Bool.and_eq_true, Bool.not_eq_true', ih, List.pairwise_cons (a := a)]
      constructor
      · rintro ⟨hab, hl⟩
        refine ⟨fun d hd => ?_, hl⟩
        rcases List.mem_cons.1 hd with rfl | hd
        · exact hab
        · exact c.not_less_trans hab ((List.pairwise_cons.1 hl).1 d hd)
      · rintro ⟨ha, hl⟩
        exact ⟨ha b List.mem_cons_self, hl⟩

/-! ## `std::unique`, `std::adjacent_find` -/

/-- `std::unique` followed by `erase`: keep the first of each run of equal elements. -/
def unique (eq : α → α → Bool) (l : List α) : List α := l.destutter fun a b => eq a b = false

/-- Whether `std::adjacent_find` finds a pair. -/
def adjacentFind (eq : α → α → Bool) : List α → Bool
  | a :: b :: l => eq a b || adjacentFind eq (b :: l)
  | _ => false

theorem adjacentFind_eq_false_iff {eq : α → α → Bool} : ∀ {l : List α},
    adjacentFind eq l = false ↔ l.IsChain fun a b => eq a b = false
  | [] => by simp [adjacentFind]
  | [_] => by simp [adjacentFind]
  | a :: b :: l => by
    rw [adjacentFind, Bool.or_eq_false_iff, adjacentFind_eq_false_iff, List.isChain_cons_cons]

/-- A strictly sorted list has no adjacent repetition. -/
theorem Sorted.isChain {c : Comparator α} {eq : α → α → Bool}
    (heq : ∀ a b, eq a b = true ↔ a = b) {l : List α} (h : Sorted c.less l) :
    l.IsChain fun a b => eq a b = false := by
  refine (List.Pairwise.isChain h).imp fun a b hab => ?_
  by_contra hne
  exact c.ne_of_less hab ((heq a b).1 (by simpa using hne))

/-- Sorted without adjacent repetitions is strictly sorted. -/
theorem sorted_of_isChain {c : Comparator α} {eq : α → α → Bool}
    (heq : ∀ a b, eq a b = true ↔ a = b) {l : List α}
    (h : l.Pairwise fun a b => c.less b a = false) (hadj : l.IsChain fun a b => eq a b = false) :
    Sorted c.less l := by
  induction l with
  | nil => exact List.Pairwise.nil
  | cons a l ih =>
    cases l with
    | nil => exact List.pairwise_singleton _ _
    | cons b l =>
      rw [List.isChain_cons_cons] at hadj
      have htail : Sorted c.less (b :: l) := ih (List.pairwise_cons.1 h).2 hadj.2
      have hab : c.less a b = true := by
        rcases c.cases a b with hab | rfl | hab
        · exact hab
        · exact clash hadj.1 ((heq a a).2 rfl)
        · exact clash ((List.pairwise_cons.1 h).1 b List.mem_cons_self) hab
      refine List.pairwise_cons.2 ⟨fun d hd => ?_, htail⟩
      rcases List.mem_cons.1 hd with rfl | hd
      · exact hab
      · exact c.trans hab (htail.head d hd)

theorem mem_destutter'_iff {eq : α → α → Bool} (heq : ∀ a b, eq a b = true ↔ a = b) (x : α) :
    ∀ (l : List α) (a : α), x ∈ l.destutter' (fun a b => eq a b = false) a ↔ x ∈ a :: l
  | [], a => by simp
  | b :: l, a => by
    rw [List.destutter'_cons]
    split_ifs with h
    · rw [List.mem_cons, mem_destutter'_iff heq x l b, List.mem_cons (b := a)]
    · obtain rfl : a = b := (heq a b).1 (by simpa using h)
      rw [mem_destutter'_iff heq x l a]
      simp

theorem mem_unique {eq : α → α → Bool} (heq : ∀ a b, eq a b = true ↔ a = b) {x : α}
    {l : List α} : x ∈ unique eq l ↔ x ∈ l := by
  cases l with
  | nil => rfl
  | cons a l => exact mem_destutter'_iff heq x l a

theorem unique_eq_self {c : Comparator α} {eq : α → α → Bool}
    (heq : ∀ a b, eq a b = true ↔ a = b) {l : List α} (h : Sorted c.less l) : unique eq l = l :=
  List.destutter_of_isChain _ l (h.isChain heq)

/-! ## The normal form of a set-like vector -/

/-- `std::sort` followed by `std::unique` and `erase`. -/
def sortUnique (less eq : α → α → Bool) (l : List α) : List α := unique eq (sort less l)

section SortUnique

variable {c : Comparator α} {eq : α → α → Bool} (heq : ∀ a b, eq a b = true ↔ a = b)

include heq

theorem sortUnique_sorted (l : List α) : Sorted c.less (sortUnique c.less eq l) :=
  sorted_of_isChain heq ((sort_pairwise c l).sublist (List.destutter_sublist _ _))
    (List.isChain_destutter _ _)

theorem mem_sortUnique {x : α} {l : List α} : x ∈ sortUnique c.less eq l ↔ x ∈ l := by
  rw [sortUnique, mem_unique heq, mem_sort]

theorem sortUnique_eq_self {l : List α} (h : Sorted c.less l) : sortUnique c.less eq l = l := by
  have hsort : sort c.less l = l := sort_eq_self (h.imp fun hab => c.asymm hab)
  rw [sortUnique, hsort, unique_eq_self heq h]

/-- The normal form depends on the set of elements only. -/
theorem sortUnique_congr {l m : List α} (h : ∀ x, x ∈ l ↔ x ∈ m) :
    sortUnique c.less eq l = sortUnique c.less eq m :=
  eq_of_mem_iff (f := id) (sortUnique_sorted heq l) (sortUnique_sorted heq m) fun x => by
    rw [mem_sortUnique heq, mem_sortUnique heq, h]

/-- A part of a normal form is the sorted list of the elements of that part. -/
theorem filter_sortUnique {p : α → Bool} {l m : List α} (hm : Sorted c.less m)
    (h : ∀ x, x ∈ m ↔ x ∈ l ∧ p x = true) : (sortUnique c.less eq l).filter p = m :=
  eq_of_mem_iff (f := id) ((sortUnique_sorted heq l).sublist List.filter_sublist) hm fun x => by
    rw [List.mem_filter, mem_sortUnique heq, h]

end SortUnique

/-! ## `std::lower_bound` -/

/-- `std::lower_bound` on a range partitioned by `less · v`: the elements before the bound and
those from it on. -/
def lowerBound (less : α → β → Bool) (l : List α) (v : β) : List α × List α :=
  (l.takeWhile fun a => less a v, l.dropWhile fun a => less a v)

section LowerBound

variable {c : Comparator β} {f : α → β}

theorem lowerBound_append (less : α → β → Bool) (l : List α) (v : β) :
    (lowerBound less l v).1 ++ (lowerBound less l v).2 = l := List.takeWhile_append_dropWhile

/-- The bound depends on the comparisons with the elements only. -/
theorem lowerBound_congr {γ : Type*} {less : α → β → Bool} {less' : α → γ → Bool} {v : β} {v' : γ} :
    ∀ {l : List α}, (∀ a ∈ l, less a v = less' a v') → lowerBound less l v = lowerBound less' l v'
  | [], _ => rfl
  | a :: l, h => by
    have ha := h a List.mem_cons_self
    have hl : lowerBound less l v = lowerBound less' l v' :=
      lowerBound_congr fun b hb => h b (List.mem_cons_of_mem _ hb)
    simp only [lowerBound, Prod.mk.injEq] at hl
    simp only [lowerBound, List.takeWhile_cons, List.dropWhile_cons, ha, hl.1, hl.2]

theorem less_of_mem_before {r : α → β → Bool} {l : List α} {v : β} {a : α}
    (h : a ∈ (lowerBound r l v).1) : r a v = true :=
  List.mem_takeWhile_imp (p := fun a => r a v) h

/-- From the lower bound on no element of a sorted list is less than the value. -/
theorem not_less_of_mem_from : ∀ {l : List α} {v : β},
    Sorted (fun x y => c.less (f x) (f y)) l →
      ∀ a ∈ (lowerBound (fun x y => c.less (f x) y) l v).2, c.less (f a) v = false
  | [], _, _ => by simp [lowerBound]
  | b :: l, v, h => by
    intro a ha
    rcases hb : c.less (f b) v with _ | _
    · have hfrom : (lowerBound (fun x y => c.less (f x) y) (b :: l) v).2 = b :: l := by
        simp [lowerBound, hb]
      rw [hfrom] at ha
      rcases List.mem_cons.1 ha with rfl | ha
      · exact hb
      · exact c.not_less_trans hb (c.asymm (h.head a ha))
    · have hfrom : (lowerBound (fun x y => c.less (f x) y) (b :: l) v).2 =
          (lowerBound (fun x y => c.less (f x) y) l v).2 := by
        simp [lowerBound, hb]
      rw [hfrom] at ha
      exact not_less_of_mem_from h.of_cons a ha

/-- A value that is absent goes in at its lower bound. -/
theorem insert_lowerBound_sorted {l : List α} {a : α}
    (h : Sorted (fun x y => c.less (f x) (f y)) l) (ha : ∀ b ∈ l, f b ≠ f a) :
    Sorted (fun x y => c.less (f x) (f y))
      ((lowerBound (fun x y => c.less (f x) y) l (f a)).1 ++
        a :: (lowerBound (fun x y => c.less (f x) y) l (f a)).2) := by
  have hsplit := lowerBound_append (fun x y => c.less (f x) y) l (f a)
  have hpair : Sorted (fun x y => c.less (f x) (f y)) (_ ++ _) := hsplit.symm ▸ h
  obtain ⟨hbefore, hfrom, hcross⟩ := List.pairwise_append.1 hpair
  have habove : ∀ b ∈ (lowerBound (fun x y => c.less (f x) y) l (f a)).2,
      c.less (f a) (f b) = true := by
    intro b hb
    have hmem : b ∈ l := hsplit ▸ List.mem_append_right _ hb
    rcases c.cases (f a) (f b) with hab | hab | hab
    · exact hab
    · exact absurd hab.symm (ha b hmem)
    · exact clash (not_less_of_mem_from h b hb) hab
  refine List.pairwise_append.2 ⟨hbefore, List.pairwise_cons.2 ⟨habove, hfrom⟩, ?_⟩
  intro x hx y hy
  rcases List.mem_cons.1 hy with rfl | hy
  · exact less_of_mem_before (r := fun x y => c.less (f x) y) hx
  · exact hcross x hx y hy

/-- The element at the lower bound is the one with the searched key, if there is one. -/
theorem head?_lowerBound {l : List α} {v : β} (h : Sorted (fun x y => c.less (f x) (f y)) l)
    {a : α} (ha : a ∈ l) (hv : f a = v) :
    (lowerBound (fun x y => c.less (f x) y) l v).2.head? = some a := by
  have hsplit := lowerBound_append (fun x y => c.less (f x) y) l v
  have hmem : a ∈ (lowerBound (fun x y => c.less (f x) y) l v).2 := by
    rw [← hsplit] at ha
    rcases List.mem_append.1 ha with ha | ha
    · exact clash (hv ▸ c.irrefl (f a)) (less_of_mem_before ha)
    · exact ha
  have hpair : Sorted (fun x y => c.less (f x) (f y)) (_ ++ _) := hsplit.symm ▸ h
  have hfrom := (List.pairwise_append.1 hpair).2.1
  rcases hd : (lowerBound (fun x y => c.less (f x) y) l v).2 with _ | ⟨b, m⟩
  · rw [hd] at hmem
    exact absurd hmem List.not_mem_nil
  · rw [hd] at hmem hfrom
    rcases List.mem_cons.1 hmem with rfl | hm
    · rfl
    · have hb : c.less (f b) v = false :=
        not_less_of_mem_from h b (by rw [hd]; exact List.mem_cons_self)
      exact clash hb (hv ▸ (List.pairwise_cons.1 hfrom).1 a hm)

end LowerBound

/-! ## `std::min_element` -/

/-- `std::min_element`: the first element no later one is less than. -/
def minElement (less : α → α → Bool) : List α → Option α
  | [] => none
  | a :: l => some (l.foldl (fun m x => if less x m then x else m) a)

theorem foldl_min_spec (c : Comparator α) : ∀ (l : List α) (a : α),
    l.foldl (fun m x => if c.less x m then x else m) a ∈ a :: l ∧
      ∀ x ∈ a :: l, c.less x (l.foldl (fun m x => if c.less x m then x else m) a) = false
  | [], a => by simp [c.irrefl]
  | b :: l, a => by
    rw [List.foldl_cons]
    rcases hb : c.less b a with _ | _
    · obtain ⟨hmem, hmin⟩ := foldl_min_spec c l a
      simp only [Bool.false_eq_true, if_false]
      refine ⟨?_, fun x hx => ?_⟩
      · rcases List.mem_cons.1 hmem with h | h
        · rw [h]
          exact List.mem_cons_self
        · exact List.mem_cons_of_mem _ (List.mem_cons_of_mem _ h)
      · rcases List.mem_cons.1 hx with rfl | hx
        · exact hmin x List.mem_cons_self
        rcases List.mem_cons.1 hx with rfl | hx
        · exact c.not_less_trans (hmin a List.mem_cons_self) hb
        · exact hmin x (List.mem_cons_of_mem _ hx)
    · obtain ⟨hmem, hmin⟩ := foldl_min_spec c l b
      simp only [if_true]
      refine ⟨List.mem_cons_of_mem _ hmem, fun x hx => ?_⟩
      rcases List.mem_cons.1 hx with rfl | hx
      · exact c.not_less_trans (hmin b List.mem_cons_self) (c.asymm hb)
      · exact hmin x hx

theorem minElement_eq_none {less : α → α → Bool} {l : List α} :
    minElement less l = none ↔ l = [] := by
  cases l <;> simp [minElement]

/-- `minElement` is the least element. -/
theorem minElement_eq_some (c : Comparator α) {l : List α} {m : α} :
    minElement c.less l = some m ↔ m ∈ l ∧ ∀ x ∈ l, c.less x m = false := by
  cases l with
  | nil => simp [minElement]
  | cons a l =>
    obtain ⟨hmem, hmin⟩ := foldl_min_spec c l a
    rw [minElement, Option.some.injEq]
    constructor
    · rintro rfl
      exact ⟨hmem, hmin⟩
    · rintro ⟨hm, hleast⟩
      exact c.total (hleast _ hmem) (hmin m hm)

theorem minElement_congr (c : Comparator α) {l m : List α} (h : ∀ x, x ∈ l ↔ x ∈ m) :
    minElement c.less l = minElement c.less m := by
  refine Option.ext fun x => ?_
  simp only [minElement_eq_some, h]

/-! ## `std::max_element` -/

/-- `std::max_element`: the first element that is less than no later one. -/
def maxElement (less : α → α → Bool) : List α → Option α :=
  minElement fun a b => less b a

theorem mem_of_minElement {less : α → α → Bool} {l : List α} {m : α}
    (h : minElement less l = some m) : m ∈ l := by
  have hchosen : ∀ (l : List α) (a : α),
      l.foldl (fun m x => if less x m then x else m) a ∈ a :: l := by
    intro l
    induction l with
    | nil => exact fun a => List.mem_cons_self
    | cons b l ih =>
      intro a
      rw [List.foldl_cons]
      rcases List.mem_cons.1 (ih (if less b a then b else a)) with hhead | htail
      · rw [hhead]
        split
        · exact List.mem_cons_of_mem _ List.mem_cons_self
        · exact List.mem_cons_self
      · exact List.mem_cons_of_mem _ (List.mem_cons_of_mem _ htail)
  cases l with
  | nil => cases h
  | cons a l =>
    obtain rfl := Option.some.inj h
    exact hchosen l a

/-! ## Double loops -/

/-- The pairs `(l[i], l[j])` with `i < j`, in the order of the double loop over `i` and `j`. -/
def pairs : List α → List (α × α)
  | [] => []
  | a :: l => l.map (fun b => (a, b)) ++ pairs l

theorem mem_pairs {a b : α} : ∀ {l : List α}, (a, b) ∈ pairs l ↔ [a, b].Sublist l
  | [] => by simp [pairs]
  | x :: l => by
    rw [pairs, List.mem_append, mem_pairs, List.sublist_cons_iff]
    simp only [List.mem_map, Prod.mk.injEq, exists_eq_right_right, List.cons.injEq]
    constructor
    · rintro (⟨hb, rfl⟩ | h)
      · exact Or.inr ⟨[b], ⟨rfl, rfl⟩, List.singleton_sublist.2 hb⟩
      · exact Or.inl h
    · rintro (h | ⟨r, ⟨rfl, rfl⟩, h⟩)
      · exact Or.inr h
      · exact Or.inl ⟨List.singleton_sublist.1 h, rfl⟩

/-- Two different elements come up as a pair in one of the two orders. -/
theorem mem_pairs_or {a b : α} (hab : a ≠ b) : ∀ {l : List α}, a ∈ l → b ∈ l →
    (a, b) ∈ pairs l ∨ (b, a) ∈ pairs l
  | x :: l, ha, hb => by
    rw [pairs]
    simp only [List.mem_append, List.mem_map, Prod.mk.injEq, exists_eq_right_right]
    rcases List.mem_cons.1 ha with rfl | ha
    · rcases List.mem_cons.1 hb with rfl | hb
      · exact absurd rfl hab
      · exact Or.inl (Or.inl ⟨hb, rfl⟩)
    · rcases List.mem_cons.1 hb with rfl | hb
      · exact Or.inr (Or.inl ⟨‹a ∈ l›, rfl⟩)
      · rcases mem_pairs_or hab ha hb with h | h
        · exact Or.inl (Or.inr h)
        · exact Or.inr (Or.inr h)

theorem pairs_map (f : α → β) : ∀ l : List α, pairs (l.map f) = (pairs l).map (Prod.map f f)
  | [] => rfl
  | a :: l => by
    rw [List.map_cons, pairs, pairs, pairs_map f l, List.map_append, List.map_map, List.map_map]
    rfl

theorem mem_of_mem_pairs {a b : α} {l : List α} (h : (a, b) ∈ pairs l) : a ∈ l ∧ b ∈ l :=
  ⟨(mem_pairs.1 h).subset (by simp), (mem_pairs.1 h).subset (by simp)⟩

theorem rel_of_mem_pairs {r : α → α → Prop} {a b : α} {l : List α} (hl : l.Pairwise r)
    (h : (a, b) ∈ pairs l) : r a b := by
  have hpair := hl.sublist (mem_pairs.1 h)
  exact (List.pairwise_cons.1 hpair).1 b List.mem_cons_self

/-- The pairs of a double loop whose inner loop breaks at the first `b` with `stop a b`. -/
def sweep (stop : α → α → Bool) : List α → List (α × α)
  | [] => []
  | a :: l => (l.takeWhile fun b => !stop a b).map (fun b => (a, b)) ++ sweep stop l

theorem mem_takeWhile_not {p : α → Bool} : ∀ {l : List α} {b : α},
    l.Pairwise (fun x y => p x = true → p y = true) →
      (b ∈ l.takeWhile (fun x => !p x) ↔ b ∈ l ∧ p b = false)
  | [], b, _ => by simp
  | x :: l, b, h => by
    obtain ⟨hx, hl⟩ := List.pairwise_cons.1 h
    rw [List.takeWhile_cons]
    rcases hpx : p x with _ | _
    · simp only [Bool.not_false, if_true, List.mem_cons, mem_takeWhile_not hl]
      constructor
      · rintro (rfl | hb)
        · exact ⟨Or.inl rfl, hpx⟩
        · exact ⟨Or.inr hb.1, hb.2⟩
      · rintro ⟨rfl | hb, hpb⟩
        · exact Or.inl rfl
        · exact Or.inr ⟨hb, hpb⟩
    · simp only [Bool.not_true, Bool.false_eq_true, if_false, List.not_mem_nil, false_iff]
      rintro ⟨hb, hpb⟩
      rcases List.mem_cons.1 hb with rfl | hb
      · exact clash hpb hpx
      · exact clash hpb (hx b hb hpx)

/-- Breaking early loses no pair when the stop condition persists along the list. -/
theorem mem_sweep {stop : α → α → Bool} {a b : α} : ∀ {l : List α},
    l.Pairwise (fun x y => ∀ z, stop z x = true → stop z y = true) →
      ((a, b) ∈ sweep stop l ↔ (a, b) ∈ pairs l ∧ stop a b = false)
  | [], _ => by simp [sweep, pairs]
  | x :: l, h => by
    obtain ⟨-, hl⟩ := List.pairwise_cons.1 h
    have htake : ∀ z, b ∈ l.takeWhile (fun y => !stop z y) ↔ b ∈ l ∧ stop z b = false :=
      fun z => mem_takeWhile_not (hl.imp fun hxy => hxy z)
    rw [sweep, pairs, List.mem_append, List.mem_append, mem_sweep hl]
    simp only [List.mem_map, Prod.mk.injEq, exists_eq_right_right]
    constructor
    · rintro (⟨hb, rfl⟩ | hab)
      · exact ⟨Or.inl ⟨((htake x).1 hb).1, rfl⟩, ((htake x).1 hb).2⟩
      · exact ⟨Or.inr hab.1, hab.2⟩
    · rintro ⟨⟨hb, rfl⟩ | hab, hstop⟩
      · exact Or.inl ⟨(htake x).2 ⟨hb, hstop⟩, rfl⟩
      · exact Or.inr ⟨hab, hstop⟩

/-! ## Loops of updates -/

section Updates

variable {σ ω : Type*} {step : σ → α → σ} {f : σ → ω} {Touches : α → Prop} {value : α → ω}
  (hkeep : ∀ s x, ¬ Touches x → f (step s x) = f s)

include hkeep

/-- What no update touches stays. -/
theorem foldl_untouched (l : List α) (hl : ∀ x ∈ l, ¬ Touches x) (s : σ) :
    f (l.foldl step s) = f s := by
  induction l generalizing s with
  | nil => rfl
  | cons x l ih =>
    rw [List.foldl_cons, ih (fun y hy => hl y (List.mem_cons_of_mem x hy)),
      hkeep s x (hl x List.mem_cons_self)]

/-- What one update touches, and no other, has the value of that update. -/
theorem foldl_touched (hset : ∀ s x, Touches x → f (step s x) = value x) {l : List α}
    (hl : l.Pairwise fun x y => Touches x → ¬ Touches y) {x : α} (hx : x ∈ l) (ht : Touches x)
    (s : σ) : f (l.foldl step s) = value x := by
  induction l generalizing s with
  | nil => cases hx
  | cons y l ih =>
    obtain ⟨hy, hrest⟩ := List.pairwise_cons.1 hl
    rw [List.foldl_cons]
    rcases List.mem_cons.1 hx with rfl | hx
    · rw [foldl_untouched hkeep l fun z hz => hy z hz ht]
      exact hset s x ht
    · exact ih hrest hx _

end Updates

end Cxx
