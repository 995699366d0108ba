import Viy.Cxx.Algorithm

/-!
# `std::map` and `std::multimap`

A map is its list of entries in key order; the order is a field, so every value of the type is a
map. A lookup (`find`) sees the entries one by one (`mem_entries_iff`), maps with equal lookups
are equal (`Map.ext_find`), and `upsert`, the common form of `emplace` and `operator[]`, changes
one lookup (`find_upsert`).
-/

namespace Cxx

variable {κ ν : Type*}

/-- `std::map<κ, ν>` under the comparator `c`. -/
structure Map (c : Comparator κ) (ν : Type*) where
  entries : List (κ × ν)
  sorted : Sorted (fun x y => c.less x.1 y.1) entries

namespace Map

variable {c : Comparator κ}

def empty : Map c ν := ⟨[], List.Pairwise.nil⟩

/-- Equivalence of keys, as the map sees it. -/
def same (c : Comparator κ) (a b : κ) : Bool := !c.less a b && !c.less b a

theorem same_iff {a b : κ} : same c a b = true ↔ a = b := by
  rw [same, Bool.and_eq_true, Bool.not_eq_true', Bool.not_eq_true']
  exact c.incomparable_iff

/-- The value of the first entry with a key. -/
def lookup (c : Comparator κ) (k : κ) : List (κ × ν) → Option ν
  | [] => none
  | e :: l => if same c e.1 k then some e.2 else lookup c k l

/-- `find`: the value of a key. -/
def find (m : Map c ν) (k : κ) : Option ν := lookup c k m.entries

/-- Replace the value of a key, or put a first one at its place in the key order. -/
def upsertEntries (c : Comparator κ) (k : κ) (f : Option ν → ν) : List (κ × ν) → List (κ × ν)
  | [] => [(k, f none)]
  | e :: l =>
    if c.less k e.1 then (k, f none) :: e :: l
    else if c.less e.1 k then e :: upsertEntries c k f l
    else (e.1, f (some e.2)) :: l

theorem key_of_mem_upsertEntries {k : κ} {f : Option ν → ν} : ∀ {l : List (κ × ν)} {e : κ × ν},
    e ∈ upsertEntries c k f l → e.1 = k ∨ ∃ d ∈ l, d.1 = e.1
  | [], e, he => by
    obtain rfl : e = (k, f none) := by simpa [upsertEntries] using he
    exact Or.inl rfl
  | d :: l, e, he => by
    unfold upsertEntries at he
    split_ifs at he
    · rcases List.mem_cons.1 he with rfl | he
      · exact Or.inl rfl
      · exact Or.inr ⟨e, he, rfl⟩
    · rcases List.mem_cons.1 he with rfl | he
      · exact Or.inr ⟨e, List.mem_cons_self, rfl⟩
      · rcases key_of_mem_upsertEntries he with h | ⟨d', hd', h⟩
        · exact Or.inl h
        · exact Or.inr ⟨d', List.mem_cons_of_mem _ hd', h⟩
    · rcases List.mem_cons.1 he with rfl | he
      · exact Or.inr ⟨d, List.mem_cons_self, rfl⟩
      · exact Or.inr ⟨e, List.mem_cons_of_mem _ he, rfl⟩

theorem upsertEntries_sorted {k : κ} {f : Option ν → ν} : ∀ {l : List (κ × ν)},
    Sorted (fun x y => c.less x.1 y.1) l →
      Sorted (fun x y => c.less x.1 y.1) (upsertEntries c k f l)
  | [], _ => List.pairwise_singleton _ _
  | d :: l, h => by
    unfold upsertEntries
    split_ifs with hlt hgt
    · refine List.pairwise_cons.2 ⟨fun e he => ?_, h⟩
      rcases List.mem_cons.1 he with rfl | he
      · exact hlt
      · exact c.trans hlt (h.head e he)
    · refine List.pairwise_cons.2 ⟨fun e he => ?_, upsertEntries_sorted h.of_cons⟩
      rcases key_of_mem_upsertEntries he with rfl | ⟨d', hd', hk⟩
      · exact hgt
      · have hlt' : c.less d.1 d'.1 = true := h.head d' hd'
        rwa [hk] at hlt'
    · exact List.pairwise_cons.2 ⟨fun e he => h.head e he, h.of_cons⟩

/-- Replace the value of a key, or insert a first one. -/
def upsert (m : Map c ν) (k : κ) (f : Option ν → ν) : Map c ν :=
  ⟨upsertEntries c k f m.entries, upsertEntries_sorted m.sorted⟩

/-- `emplace`: insert a value unless the key is present. -/
def emplace (m : Map c ν) (k : κ) (v : ν) : Map c ν := m.upsert k fun old => old.getD v

/-- `m[k] = v`. -/
def set (m : Map c ν) (k : κ) (v : ν) : Map c ν := m.upsert k fun _ => v

/-! ## Lookups -/

theorem lookup_eq_none {k : κ} : ∀ {l : List (κ × ν)}, (∀ e ∈ l, c.less k e.1 = true) →
    lookup c k l = none
  | [], _ => rfl
  | d :: l, h => by
    have hd : ¬ same c d.1 k = true := fun hd =>
      c.ne_of_less (h d List.mem_cons_self) (same_iff.1 hd).symm
    rw [lookup, if_neg hd]
    exact lookup_eq_none fun e he => h e (List.mem_cons_of_mem _ he)

theorem lookup_upsertEntries [DecidableEq κ] {k k' : κ} {f : Option ν → ν} :
    ∀ {l : List (κ × ν)}, Sorted (fun x y => c.less x.1 y.1) l →
      lookup c k' (upsertEntries c k f l) =
        if k = k' then some (f (lookup c k l)) else lookup c k' l
  | [], _ => by simp [upsertEntries, lookup, same_iff]
  | d :: l, h => by
    unfold upsertEntries
    by_cases hlt : c.less k d.1 = true
    · -- the new entry comes first, no entry has its key
      have hnone : lookup c k (d :: l) = none := lookup_eq_none fun e he => by
        rcases List.mem_cons.1 he with rfl | he
        · exact hlt
        · exact c.trans hlt (h.head e he)
      rw [if_pos hlt, hnone, lookup]
      simp only [same_iff]
    rw [if_neg hlt]
    by_cases hgt : c.less d.1 k = true
    · have hd : d.1 ≠ k := c.ne_of_less hgt
      rw [if_pos hgt, lookup, lookup_upsertEntries h.of_cons, lookup, lookup]
      simp only [same_iff, hd, if_false]
      by_cases hk : k = k'
      · simp [← hk, hd]
      · simp [hk]
    · have hd : d.1 = k := c.total (by simpa using hgt) (by simpa using hlt)
      rw [if_neg hgt, lookup, lookup, lookup]
      simp only [same_iff, hd, if_true]
      split_ifs <;> rfl

theorem find_upsert [DecidableEq κ] (m : Map c ν) (k k' : κ) (f : Option ν → ν) :
    (m.upsert k f).find k' = if k = k' then some (f (m.find k)) else m.find k' :=
  lookup_upsertEntries m.sorted

theorem find_set [DecidableEq κ] (m : Map c ν) (k k' : κ) (v : ν) :
    (m.set k v).find k' = if k = k' then some v else m.find k' :=
  find_upsert m k k' _

@[simp] theorem find_empty (k : κ) : (empty : Map c ν).find k = none := rfl

/-- The entries of a map are its lookups. -/
theorem mem_entries_iff {m : Map c ν} {k : κ} {v : ν} :
    (k, v) ∈ m.entries ↔ m.find k = some v := by
  obtain ⟨l, h⟩ := m
  show (k, v) ∈ l ↔ lookup c k l = some v
  induction l with
  | nil => simp [lookup]
  | cons d l ih =>
    rw [lookup]
    by_cases hd : d.1 = k
    · rw [if_pos (same_iff.2 hd), Option.some.injEq]
      constructor
      · intro hmem
        rcases List.mem_cons.1 hmem with rfl | hmem
        · rfl
        · exact absurd hd (c.ne_of_less (h.head (k, v) hmem))
      · rintro rfl
        rw [← hd]
        exact List.mem_cons_self
    · rw [if_neg fun h => hd (same_iff.1 h), ← ih h.of_cons]
      constructor
      · intro hmem
        rcases List.mem_cons.1 hmem with rfl | hmem
        · exact absurd rfl hd
        · exact hmem
      · exact List.mem_cons_of_mem _

theorem ext_entries {m n : Map c ν} (h : m.entries = n.entries) : m = n := by
  cases m
  cases n
  cases h
  rfl

/-- Maps with the same lookups are equal. -/
theorem ext_find {m n : Map c ν} (h : ∀ k, m.find k = n.find k) : m = n := by
  refine ext_entries (eq_of_mem_iff (f := Prod.fst) m.sorted n.sorted ?_)
  rintro ⟨k, v⟩
  rw [mem_entries_iff, mem_entries_iff, h]

/-! ## Keys -/

/-- `erase` of a key. -/
def erase (m : Map c ν) (k : κ) : Map c ν :=
  ⟨m.entries.filter fun e => !same c e.1 k, List.Pairwise.filter _ m.sorted⟩

theorem find_erase [DecidableEq κ] (m : Map c ν) (k k' : κ) :
    (m.erase k).find k' = if k = k' then none else m.find k' := by
  refine Option.ext fun v => ?_
  rw [← mem_entries_iff, erase, List.mem_filter, mem_entries_iff, Bool.not_eq_true',
    ← Bool.not_eq_true, same_iff]
  split_ifs with h
  · simp [h]
  · exact and_iff_left fun heq => h heq.symm

/-- Erasing a key that is present takes an entry away. -/
theorem length_erase_lt {m : Map c ν} {k : κ} {v : ν} (h : m.find k = some v) :
    (m.erase k).entries.length < m.entries.length := by
  refine List.length_filter_lt_length_iff_exists.2 ⟨(k, v), mem_entries_iff.2 h, ?_⟩
  simp [same_iff]

def keys (m : Map c ν) : List κ := m.entries.map Prod.fst

theorem nodup_keys (m : Map c ν) : m.keys.Nodup := by
  rw [keys, List.Nodup, List.pairwise_map]
  exact m.sorted.imp fun h => c.ne_of_less h

theorem mem_keys {m : Map c ν} {k : κ} : k ∈ m.keys ↔ ∃ v, m.find k = some v := by
  simp only [keys, List.mem_map, Prod.exists, mem_entries_iff, exists_and_right, exists_eq_right]

theorem mem_keys_upsert [DecidableEq κ] {m : Map c ν} {k k' : κ} {f : Option ν → ν} :
    k' ∈ (m.upsert k f).keys ↔ k' = k ∨ k' ∈ m.keys := by
  rw [mem_keys, mem_keys, find_upsert]
  by_cases hk : k = k'
  · simp [hk]
  · simp [hk, Ne.symm hk]

/-- A loop that adds keys. -/
theorem mem_keys_foldl {α : Type*} {step : Map c ν → α → Map c ν} {P : α → Prop} {k : κ}
    (hstep : ∀ m a, k ∈ (step m a).keys ↔ k ∈ m.keys ∨ P a) (l : List α) : ∀ m : Map c ν,
      k ∈ (l.foldl step m).keys ↔ k ∈ m.keys ∨ ∃ a ∈ l, P a := by
  induction l with
  | nil => simp
  | cons a l ih =>
    intro m
    rw [List.foldl_cons, ih, hstep, List.exists_mem_cons_iff, or_assoc]

/-! ## Grouping -/

/-- `m[k].push_back(x)`. -/
def pushBack {ξ : Type*} (m : Map c (List ξ)) (k : κ) (x : ξ) : Map c (List ξ) :=
  m.upsert k fun old => old.getD [] ++ [x]

/-- A loop of `emplace` keeps the first value of each key. -/
theorem find_foldl_emplace [DecidableEq κ] (k : κ) : ∀ (l : List (κ × ν)) (m : Map c ν),
    (l.foldl (fun m e => m.emplace e.1 e.2) m).find k =
      (m.find k).or ((l.find? fun e => e.1 = k).map Prod.snd)
  | [], m => by simp
  | e :: l, m => by
    rw [List.foldl_cons, find_foldl_emplace k l, emplace, find_upsert]
    by_cases h : e.1 = k
    · subst h
      rcases m.find e.1 with _ | v <;> simp
    · simp [h]

/-- Rebuilding a map from what a function keeps of each value. -/
theorem find_foldl_emplace_filterMap [DecidableEq κ] {μ : Type*} (m : Map c ν) (f : ν → Option μ)
    (k : κ) :
    ((m.entries.filterMap fun e => (f e.2).map fun v => (e.1, v)).foldl
        (fun n e => n.emplace e.1 e.2) (empty : Map c μ)).find k = (m.find k).bind f := by
  rw [find_foldl_emplace, find_empty, Option.none_or]
  have hmem : ∀ {k' : κ} {v : μ},
      (k', v) ∈ (m.entries.filterMap fun e => (f e.2).map fun v => (e.1, v)) ↔
        (m.find k').bind f = some v := by
    intro k' v
    simp only [List.mem_filterMap, Prod.exists, mem_entries_iff, Option.map_eq_some_iff,
      Prod.mk.injEq, Option.bind_eq_some_iff]
    constructor
    · rintro ⟨_, u, hfind, _, hf, rfl, rfl⟩
      exact ⟨u, hfind, hf⟩
    · rintro ⟨u, hfind, hf⟩
      exact ⟨k', u, hfind, v, hf, rfl, rfl⟩
  refine Option.ext fun v => ?_
  rw [Option.map_eq_some_iff]
  constructor
  · rintro ⟨⟨k', v⟩, hfound, rfl⟩
    obtain rfl : k' = k := by simpa using List.find?_some hfound
    exact hmem.1 (List.mem_of_find?_eq_some hfound)
  · intro hv
    have hsome := List.find?_isSome (p := fun e : κ × μ => e.1 = k).2 ⟨(k, v), hmem.2 hv, by simp⟩
    obtain ⟨⟨k', v'⟩, hfound⟩ := Option.isSome_iff_exists.1 hsome
    obtain rfl : k' = k := by simpa using List.find?_some hfound
    have hv' := hmem.1 (List.mem_of_find?_eq_some hfound)
    exact ⟨_, hfound, Option.some.inj (hv'.symm.trans hv)⟩

/-- Distribute a sequence over the buckets of a map by a partial key. -/
def group {ξ : Type*} (c : Comparator κ) (key : ξ → Option κ) (l : List ξ) : Map c (List ξ) :=
  l.foldl (fun m x => match key x with | some k => m.pushBack k x | none => m) empty

variable [DecidableEq κ] {ξ : Type*}

theorem getD_find_pushBack (m : Map c (List ξ)) (k k' : κ) (x : ξ) :
    ((m.pushBack k x).find k').getD [] =
      (m.find k').getD [] ++ if k = k' then [x] else [] := by
  rw [pushBack, find_upsert]
  split_ifs with h
  · subst h
    rfl
  · simp

theorem getD_find_foldl_pushBack (key : ξ → Option κ) (k : κ) : ∀ (l : List ξ) (m : Map c (List ξ)),
    ((l.foldl (fun m x => match key x with | some k => m.pushBack k x | none => m) m).find k).getD
        [] = (m.find k).getD [] ++ l.filter fun x => key x = some k
  | [], m => by simp
  | x :: l, m => by
    rw [List.foldl_cons, getD_find_foldl_pushBack key k l]
    rcases hx : key x with _ | k'
    · simp [hx]
    · rw [getD_find_pushBack]
      by_cases hk : k' = k <;> simp [hx, hk]

/-- The bucket of a key lists the elements with that key in the order of the sequence. -/
theorem getD_find_group (key : ξ → Option κ) (l : List ξ) (k : κ) :
    ((group c key l).find k).getD [] = l.filter fun x => key x = some k := by
  rw [group, getD_find_foldl_pushBack]
  rfl

theorem eq_filter_of_mem_group {key : ξ → Option κ} {l v : List ξ} {k : κ}
    (h : (k, v) ∈ (group c key l).entries) : v = l.filter fun x => key x = some k := by
  rw [← getD_find_group (c := c), mem_entries_iff.1 h, Option.getD_some]

theorem filter_mem_group {key : ξ → Option κ} {l : List ξ} {k : κ} {x : ξ} (hx : x ∈ l)
    (hk : key x = some k) : (k, l.filter fun x => key x = some k) ∈ (group c key l).entries := by
  have hbucket := getD_find_group (c := c) key l k
  rcases hv : (group c key l).find k with _ | v
  · rw [hv, Option.getD_none] at hbucket
    have hmem : x ∈ l.filter fun x => key x = some k := List.mem_filter.2 ⟨hx, by simpa using hk⟩
    rw [← hbucket] at hmem
    cases hmem
  · rw [hv, Option.getD_some] at hbucket
    exact mem_entries_iff.2 (hbucket ▸ hv)

/-- The pair loops inside the buckets of a partial key, in key order. -/
def bucketPairs (c : Comparator κ) (key : ξ → Option κ) (l : List ξ) : List (ξ × ξ) :=
  (group c key l).entries.flatMap fun bucket => pairs bucket.2

/-- The pair loops of the buckets visit the pairs of the sequence with one common key. -/
theorem mem_bucketPairs {key : ξ → Option κ} {l : List ξ} {a b : ξ} :
    (a, b) ∈ bucketPairs c key l ↔ (a, b) ∈ pairs l ∧ ∃ k, key a = some k ∧ key b = some k := by
  rw [bucketPairs, List.mem_flatMap]
  have hfilter : ∀ k, (a, b) ∈ pairs (l.filter fun x => key x = some k) ↔
      (a, b) ∈ pairs l ∧ key a = some k ∧ key b = some k := by
    intro k
    rw [mem_pairs, mem_pairs]
    constructor
    · intro h
      have hmem := fun x hx => List.of_mem_filter (h.subset (a := x) hx)
      exact ⟨h.trans List.filter_sublist, by simpa using hmem a (by simp),
        by simpa using hmem b (by simp)⟩
    · rintro ⟨h, ha, hb⟩
      have := h.filter fun x => key x = some k
      simpa [ha, hb] using this
  constructor
  · rintro ⟨⟨k, v⟩, he, hab⟩
    have h := (hfilter k).1 (eq_filter_of_mem_group he ▸ hab)
    exact ⟨h.1, k, h.2⟩
  · rintro ⟨h, k, hk⟩
    exact ⟨_, filter_mem_group (mem_of_mem_pairs h).1 hk.1, (hfilter k).2 ⟨h, hk⟩⟩

end Map

/-! ## `std::multimap` -/

/-- `std::multimap<κ, ν>`: entries in key order, equal keys in insertion order. -/
structure MultiMap (c : Comparator κ) (ν : Type*) where
  entries : List (κ × ν)
  sorted : entries.Pairwise fun x y => c.less y.1 x.1 = false

namespace MultiMap

variable {c : Comparator κ}

def empty : MultiMap c ν := ⟨[], List.Pairwise.nil⟩

/-- Insert after the entries whose key is not greater. -/
def emplaceEntries (c : Comparator κ) (k : κ) (v : ν) : List (κ × ν) → List (κ × ν)
  | [] => [(k, v)]
  | e :: l => if c.less k e.1 then (k, v) :: e :: l else e :: emplaceEntries c k v l

theorem mem_emplaceEntries {k : κ} {v : ν} {e : κ × ν} : ∀ {l : List (κ × ν)},
    e ∈ emplaceEntries c k v l ↔ e = (k, v) ∨ e ∈ l
  | [] => by simp [emplaceEntries]
  | d :: l => by
    unfold emplaceEntries
    split_ifs
    · rw [List.mem_cons]
    · rw [List.mem_cons, mem_emplaceEntries, List.mem_cons (b := d)]
      tauto

theorem emplaceEntries_sorted {k : κ} {v : ν} : ∀ {l : List (κ × ν)},
    l.Pairwise (fun x y => c.less y.1 x.1 = false) →
      (emplaceEntries c k v l).Pairwise fun x y => c.less y.1 x.1 = false
  | [], _ => List.pairwise_singleton _ _
  | d :: l, h => by
    unfold emplaceEntries
    obtain ⟨hd, hl⟩ := List.pairwise_cons.1 h
    split_ifs with hlt
    · refine List.pairwise_cons.2 ⟨fun e he => ?_, h⟩
      rcases List.mem_cons.1 he with rfl | he
      · exact c.asymm hlt
      · exact c.not_less_trans (c.asymm hlt) (hd e he)
    · refine List.pairwise_cons.2 ⟨fun e he => ?_, emplaceEntries_sorted hl⟩
      rcases mem_emplaceEntries.1 he with rfl | he
      · simpa using hlt
      · exact hd e he

/-- `emplace`. -/
def emplace (m : MultiMap c ν) (k : κ) (v : ν) : MultiMap c ν :=
  ⟨emplaceEntries c k v m.entries, emplaceEntries_sorted m.sorted⟩

@[simp] theorem mem_emplace {m : MultiMap c ν} {k : κ} {v : ν} {e : κ × ν} :
    e ∈ (m.emplace k v).entries ↔ e = (k, v) ∨ e ∈ m.entries := mem_emplaceEntries

/-- The iteration from `lower_bound(lo)` while the key is less than `hi`. -/
def window (m : MultiMap c ν) (lo hi : κ) : List (κ × ν) :=
  (m.entries.dropWhile fun e => c.less e.1 lo).takeWhile fun e => c.less e.1 hi

theorem mem_takeWhile_of_pairwise {hi : κ} : ∀ {l : List (κ × ν)} {e : κ × ν},
    l.Pairwise (fun x y => c.less y.1 x.1 = false) → e ∈ l → c.less e.1 hi = true →
      e ∈ l.takeWhile fun e => c.less e.1 hi
  | d :: l, e, h, he, hlt => by
    obtain ⟨hd, hl⟩ := List.pairwise_cons.1 h
    have hdhi : c.less d.1 hi = true := by
      rcases List.mem_cons.1 he with rfl | he
      · exact hlt
      · by_contra hdhi
        exact clash (c.not_less_trans (by simpa using hdhi) (hd e he)) hlt
    rw [List.takeWhile_cons_of_pos (by exact hdhi)]
    rcases List.mem_cons.1 he with rfl | he
    · exact List.mem_cons_self
    · exact List.mem_cons_of_mem _ (mem_takeWhile_of_pairwise hl he hlt)

theorem mem_dropWhile_of_not {lo : κ} : ∀ {l : List (κ × ν)} {e : κ × ν},
    e ∈ l → c.less e.1 lo = false → e ∈ l.dropWhile fun e => c.less e.1 lo
  | d :: l, e, he, hlt => by
    rcases hd : c.less d.1 lo with _ | _
    · rw [List.dropWhile_cons_of_neg (by simp [hd])]
      exact he
    · rw [List.dropWhile_cons_of_pos (by exact hd)]
      rcases List.mem_cons.1 he with rfl | he
      · exact clash hlt hd
      · exact mem_dropWhile_of_not he hlt

/-- The window contains every entry with a key in the half-open range. -/
theorem mem_window {m : MultiMap c ν} {lo hi : κ} {e : κ × ν} (he : e ∈ m.entries)
    (hlo : c.less e.1 lo = false) (hhi : c.less e.1 hi = true) : e ∈ m.window lo hi :=
  mem_takeWhile_of_pairwise (m.sorted.sublist (List.dropWhile_sublist _))
    (mem_dropWhile_of_not he hlo) hhi

end MultiMap

end Cxx
