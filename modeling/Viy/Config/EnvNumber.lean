import Viy.Wire.Words
import Mathlib.Data.List.TakeWhile

/-!
# Numbers from the environment

`env_u64` takes a limit from an environment string. It skips spaces and tabs, refuses a minus sign,
because `strtoull` would turn `-1` into a huge limit, and leaves the rest to `strtoull` with base 0.
But `strtoull` skips more than spaces and tabs: behind a line break, a minus sign is not seen by the
check and the negated number is taken.
-/

namespace Viy.Config

open Wire

/-! ## `strtoull` -/

def ch (c : Char) : UInt8 := c.toUInt8

/-- `isspace` -/
def isSpace (c : UInt8) : Bool :=
  c == ch ' ' || c == ch '\t' || c == ch '\n' || c == 11 || c == 12 || c == ch '\r'

/-- The value of a digit, and 16 for what is no hexadecimal digit. -/
def digitValue (c : UInt8) : ℕ :=
  if ch '0' ≤ c ∧ c ≤ ch '9' then (c - ch '0').toNat
  else if ch 'a' ≤ c ∧ c ≤ ch 'f' then (c - ch 'a').toNat + 10
  else if ch 'A' ≤ c ∧ c ≤ ch 'F' then (c - ch 'A').toNat + 10
  else 16

def isDigit (base : ℕ) (c : UInt8) : Bool := decide (digitValue c < base)

def digitsValue (base : ℕ) (digits : Bytes) : ℕ :=
  digits.foldl (fun value c => value * base + digitValue c) 0

/-- The longest run of digits, as a number, and the rest. -/
def scanDigits (base : ℕ) (s : Bytes) : ℕ × Bytes :=
  (digitsValue base (s.takeWhile (isDigit base)), s.dropWhile (isDigit base))

/-- A hexadecimal prefix with a digit behind it. -/
def hexDigits : Bytes → Option Bytes
  | zero :: x :: c :: rest =>
    if zero = ch '0' ∧ (x = ch 'x' ∨ x = ch 'X') ∧ isDigit 16 c = true then some (c :: rest)
    else none
  | _ => none

/-- An octal or a decimal number. -/
def scanPlain : Bytes → Option (ℕ × Bytes)
  | [] => none
  | c :: rest =>
    if c = ch '0' then some (scanDigits 8 (c :: rest))
    else if isDigit 10 c then some (scanDigits 10 (c :: rest))
    else none

/-- The subject sequence behind the sign: its number, and the rest. -/
def scanLiteral (s : Bytes) : Option (ℕ × Bytes) :=
  match hexDigits s with
  | some digits => some (scanDigits 16 digits)
  | none => scanPlain s

/-- The sign of a number, and the rest. -/
def scanSign : Bytes → Bool × Bytes
  | [] => (false, [])
  | c :: rest =>
    if c = ch '-' then (true, rest) else if c = ch '+' then (false, rest) else (false, c :: rest)

structure Conversion where
  parsed : UInt64
  erange : Bool
  rest : Bytes

/-- `strtoull(v, &end, 0)`, without a result if nothing is converted. -/
def strtoull (v : Bytes) : Option Conversion :=
  let (negative, s) := scanSign (v.dropWhile isSpace)
  (scanLiteral s).map fun (magnitude, rest) =>
    if magnitude > 2 ^ 64 - 1 then ⟨~~~0, true, rest⟩
    else ⟨if negative then 0 - .ofNat magnitude else .ofNat magnitude, false, rest⟩

/-! ## `env_u64` -/

/-- `*v == ' ' || *v == '\t'` -/
def isLeadingBlank (c : UInt8) : Bool := c == ch ' ' || c == ch '\t'

/-- `*end == ' ' || *end == '\t' || *end == '\r' || *end == '\n'` -/
def isTrailingBlank (c : UInt8) : Bool :=
  c == ch ' ' || c == ch '\t' || c == ch '\r' || c == ch '\n'

/-- The part of `env_u64` behind the test for an empty value. -/
def parseLimit (v : Bytes) (dflt : UInt64) : UInt64 :=
  let v := v.dropWhile isLeadingBlank
  if v.head? = some (ch '-') then dflt
  else
    match strtoull v with
    | none => dflt
    | some r =>
      if r.erange then dflt
      else if r.rest.dropWhile isTrailingBlank = [] then r.parsed
      else dflt

/-- The value of the variable, if it is set, and the default. -/
def envU64 (value : Option Bytes) (dflt : UInt64) : UInt64 :=
  match value with
  | none => dflt
  | some v => if v = [] then dflt else parseLimit v dflt

/-! ## What the strings denote -/

/-- Unsigned literals of C: decimal, octal with a zero in front, hexadecimal with `0x`. -/
inductive CLiteral : Bytes → ℕ → Prop
  | decimal {d : UInt8} {ds : Bytes} (hd : d ≠ ch '0') (hds : ∀ c ∈ d :: ds, isDigit 10 c = true) :
      CLiteral (d :: ds) (digitsValue 10 (d :: ds))
  | octal {ds : Bytes} (hds : ∀ c ∈ ds, isDigit 8 c = true) :
      CLiteral (ch '0' :: ds) (digitsValue 8 (ch '0' :: ds))
  | hex {x c : UInt8} {ds : Bytes} (hx : x = ch 'x' ∨ x = ch 'X')
      (hds : ∀ d ∈ c :: ds, isDigit 16 d = true) :
      CLiteral (ch '0' :: x :: c :: ds) (digitsValue 16 (c :: ds))

/-- White space, a sign or none, a literal in the range of `uint64_t` and blanks. -/
def ReadsAs (sign : Bytes) (v : Bytes) (n : ℕ) : Prop :=
  n ≤ 2 ^ 64 - 1 ∧ ∃ space literal blanks, v = space ++ (sign ++ (literal ++ blanks)) ∧
    (∀ c ∈ space, isSpace c = true) ∧ CLiteral literal n ∧ ∀ c ∈ blanks, isTrailingBlank c = true

/-- The string is a number without a minus sign. -/
def Denotes (v : Bytes) (n : ℕ) : Prop := ReadsAs [] v n ∨ ReadsAs [ch '+'] v n

/-- White space that the check does not skip, and a minus sign behind it. -/
def HiddenMinus (v : Bytes) (n : ℕ) : Prop :=
  ReadsAs [ch '-'] v n ∧ (v.dropWhile isLeadingBlank).head? ≠ some (ch '-')

/-! ## Scanning -/

section Scan

variable {base : ℕ} {s rest : Bytes} {n : ℕ}

theorem scanDigits_append {digits : Bytes} (hdigits : ∀ c ∈ digits, isDigit base c = true)
    (hrest : ∀ c ∈ rest.head?, isDigit base c = false) :
    scanDigits base (digits ++ rest) = (digitsValue base digits, rest) := by
  have hstop : rest.takeWhile (isDigit base) = [] ∧ rest.dropWhile (isDigit base) = rest := by
    cases rest with
    | nil => exact ⟨rfl, rfl⟩
    | cons c rest =>
      have hc := hrest c rfl
      rw [List.takeWhile_cons_of_neg (by simp [hc]), List.dropWhile_cons_of_neg (by simp [hc])]
      exact ⟨rfl, rfl⟩
  rw [scanDigits, List.takeWhile_append_of_pos hdigits, List.dropWhile_append_of_pos hdigits,
    hstop.1, hstop.2, List.append_nil]

theorem isDigit_of_trailingBlank {c : UInt8} (hc : isTrailingBlank c = true) (hbase : base ≤ 16) :
    isDigit base c = false := by
  have hvalue : digitValue c = 16 := by
    simp only [isTrailingBlank, Bool.or_eq_true, beq_iff_eq] at hc
    rcases hc with ((rfl | rfl) | rfl) | rfl <;> decide
  rw [isDigit, hvalue]
  exact decide_eq_false (Nat.not_lt.2 hbase)

/-- The digits that are scanned, and what stays. -/
theorem scanDigits_eq {t : Bytes} (h : scanDigits base t = (n, rest)) :
    t = t.takeWhile (isDigit base) ++ rest ∧ n = digitsValue base (t.takeWhile (isDigit base)) ∧
      ∀ c ∈ t.takeWhile (isDigit base), isDigit base c = true := by
  obtain ⟨hvalue, hrest⟩ := Prod.mk.inj h
  refine ⟨?_, hvalue.symm, fun c hc => List.all_eq_true.1 List.all_takeWhile c hc⟩
  rw [← hrest, List.takeWhile_append_dropWhile]

theorem hexDigits_eq_some {digits : Bytes} (h : hexDigits s = some digits) :
    ∃ x c tail, s = ch '0' :: x :: c :: tail ∧ digits = c :: tail ∧ (x = ch 'x' ∨ x = ch 'X') ∧
      isDigit 16 c = true := by
  rcases s with _ | ⟨zero, _ | ⟨x, _ | ⟨c, tail⟩⟩⟩
  · cases h
  · cases h
  · cases h
  · rw [hexDigits] at h
    split_ifs at h with hprefix
    obtain ⟨rfl, hx, hc⟩ := hprefix
    exact ⟨x, c, tail, rfl, (Option.some.inj h).symm, hx, hc⟩

/-- A hexadecimal number has a zero in front and an `x` behind it. -/
theorem hexDigits_eq_none {first : UInt8}
    (h : ¬ (first = ch '0' ∧ ∃ x ∈ s, x = ch 'x' ∨ x = ch 'X')) :
    hexDigits (first :: s) = none := by
  refine Option.eq_none_iff_forall_ne_some.2 fun digits hdigits => ?_
  obtain ⟨x, c, tail, heq, -, hx, -⟩ := hexDigits_eq_some hdigits
  obtain ⟨hfirst, rfl⟩ := List.cons.inj heq
  exact h ⟨hfirst, x, List.mem_cons_self, hx⟩

/-- A literal is the start of what is scanned. -/
theorem scanLiteral_eq_some (h : scanLiteral s = some (n, rest)) :
    ∃ literal, s = literal ++ rest ∧ CLiteral literal n := by
  rw [scanLiteral] at h
  cases hhex : hexDigits s with
  | some digits =>
    rw [hhex] at h
    obtain ⟨x, c, tail, rfl, rfl, hx, hc⟩ := hexDigits_eq_some hhex
    obtain ⟨hdigits, hn, hall⟩ := scanDigits_eq (Option.some.inj h)
    rw [List.takeWhile_cons_of_pos hc] at hdigits hn hall
    refine ⟨ch '0' :: x :: c :: tail.takeWhile (isDigit 16), ?_, hn ▸ .hex hx hall⟩
    exact congrArg (fun t => ch '0' :: x :: t) hdigits
  | none =>
    rw [hhex] at h
    cases s with
    | nil => cases h
    | cons c tail =>
      dsimp only [scanPlain] at h
      by_cases hzero : c = ch '0'
      · rw [if_pos hzero] at h
        subst hzero
        obtain ⟨hdigits, hn, hall⟩ := scanDigits_eq (Option.some.inj h)
        rw [List.takeWhile_cons_of_pos (by decide)] at hdigits hn hall
        exact ⟨_, hdigits, hn ▸ .octal fun c hc => hall c (List.mem_cons_of_mem _ hc)⟩
      · rw [if_neg hzero] at h
        by_cases hdigit : isDigit 10 c = true
        · rw [if_pos hdigit] at h
          obtain ⟨hdigits, hn, hall⟩ := scanDigits_eq (Option.some.inj h)
          rw [List.takeWhile_cons_of_pos hdigit] at hdigits hn hall
          exact ⟨_, hdigits, hn ▸ .decimal hzero hall⟩
        · rw [if_neg hdigit] at h
          cases h

/-- A literal in front of blanks is scanned as a whole. -/
theorem CLiteral.scanned {literal : Bytes} (h : CLiteral literal n)
    (hblanks : ∀ c ∈ rest, isTrailingBlank c = true) :
    scanLiteral (literal ++ rest) = some (n, rest) := by
  have hstop : ∀ base ≤ 16, ∀ c ∈ rest.head?, isDigit base c = false := fun base hbase c hc =>
    isDigit_of_trailingBlank (hblanks c (List.mem_of_mem_head? hc)) hbase
  cases h with
  | @decimal d ds hd hds =>
    have hhex : hexDigits (d :: ds ++ rest) = none := hexDigits_eq_none fun hprefix => hd hprefix.1
    rw [scanLiteral, hhex]
    show (if d = ch '0' then _ else _) = _
    rw [if_neg hd, if_pos (hds d List.mem_cons_self)]
    exact congrArg some (scanDigits_append hds (hstop 10 (by omega)))
  | @octal ds hds =>
    have hhex : hexDigits (ch '0' :: ds ++ rest) = none := by
      refine hexDigits_eq_none ?_
      rintro ⟨-, x, hmem, hx⟩
      -- there are only octal digits and blanks behind the zero
      rcases List.mem_append.1 hmem with hmem | hmem
      · have hdigit := hds x hmem
        rcases hx with rfl | rfl <;> exact absurd hdigit (by decide)
      · have hblank := hblanks x hmem
        rcases hx with rfl | rfl <;> exact absurd hblank (by decide)
    have hall : ∀ c ∈ ch '0' :: ds, isDigit 8 c = true :=
      List.forall_mem_cons.2 ⟨by decide, hds⟩
    have hscan := scanDigits_append hall (hstop 8 (by omega))
    rw [scanLiteral, hhex]
    show scanPlain (ch '0' :: (ds ++ rest)) = _
    rw [scanPlain, if_pos rfl]
    exact congrArg some hscan
  | @hex x c ds hx hds =>
    have hhex : hexDigits (ch '0' :: x :: c :: ds ++ rest) = some (c :: ds ++ rest) := by
      show (if _ then _ else _) = _
      rw [if_pos ⟨rfl, hx, hds c List.mem_cons_self⟩]
      rfl
    rw [scanLiteral, hhex]
    exact congrArg some (scanDigits_append hds (hstop 16 (by omega)))

end Scan

/-! ## Whole strings -/

section Strings

variable {v : Bytes} {n : ℕ}

/-- A decimal digit is no white space and no sign. -/
theorem isDigit_ten {c : UInt8} (h : isDigit 10 c = true) :
    isSpace c = false ∧ c ≠ ch '-' ∧ c ≠ ch '+' := by
  have hlt : digitValue c < 10 := of_decide_eq_true h
  have hrange : ch '0' ≤ c := by
    by_contra hbelow
    rw [digitValue, if_neg fun hdigit => hbelow hdigit.1] at hlt
    split_ifs at hlt <;> omega
  have hne : ∀ d : UInt8, d < ch '0' → c ≠ d := by
    rintro d hd rfl
    exact UInt8.not_le.2 hd hrange
  refine ⟨?_, hne _ (by decide), hne _ (by decide)⟩
  simp only [isSpace, Bool.or_eq_false_iff, beq_eq_false_iff_ne]
  exact ⟨⟨⟨⟨⟨hne _ (by decide), hne _ (by decide)⟩, hne _ (by decide)⟩, hne _ (by decide)⟩,
    hne _ (by decide)⟩, hne _ (by decide)⟩

theorem CLiteral.exists_cons {literal : Bytes} (h : CLiteral literal n) :
    ∃ c tail, literal = c :: tail ∧ isDigit 10 c = true := by
  cases h with
  | @decimal d ds _ hds => exact ⟨d, ds, rfl, hds d List.mem_cons_self⟩
  | @octal ds _ => exact ⟨ch '0', ds, rfl, by decide⟩
  | @hex x c ds _ _ => exact ⟨ch '0', x :: c :: ds, rfl, by decide⟩

/-- `strtoull` skips what `env_u64` has skipped, and more. -/
theorem dropWhile_leadingBlank (v : Bytes) :
    (v.dropWhile isLeadingBlank).dropWhile isSpace = v.dropWhile isSpace := by
  induction v with
  | nil => rfl
  | cons c v ih =>
    by_cases hblank : isLeadingBlank c = true
    · have hspace : isSpace c = true := by
        simp only [isLeadingBlank, Bool.or_eq_true, beq_iff_eq] at hblank
        rcases hblank with rfl | rfl <;> decide
      rw [List.dropWhile_cons_of_pos hblank, List.dropWhile_cons_of_pos hspace, ih]
    · rw [List.dropWhile_cons_of_neg hblank]

/-- Signs, as they are written. -/
def signs : List Bytes := [[], [ch '+'], [ch '-']]

/-- Behind the white space a number starts with its sign or a digit. -/
theorem ReadsAs.dropWhile {sign : Bytes} (h : ReadsAs sign v n) (hsign : sign ∈ signs) :
    ∃ literal blanks, n ≤ 2 ^ 64 - 1 ∧ v.dropWhile isSpace = sign ++ (literal ++ blanks) ∧
      CLiteral literal n ∧ ∀ c ∈ blanks, isTrailingBlank c = true := by
  obtain ⟨hle, space, literal, blanks, rfl, hspace, hliteral, hblanks⟩ := h
  refine ⟨literal, blanks, hle, ?_, hliteral, hblanks⟩
  obtain ⟨c, tail, rfl, hc⟩ := hliteral.exists_cons
  have hstops := (isDigit_ten hc).1
  rw [List.dropWhile_append_of_pos hspace]
  simp only [signs, List.mem_cons, List.not_mem_nil, or_false] at hsign
  rcases hsign with rfl | rfl | rfl
  · exact List.dropWhile_cons_of_neg (by simp [hstops])
  · exact List.dropWhile_cons_of_neg (by decide)
  · exact List.dropWhile_cons_of_neg (by decide)

/-- The sign and the literal behind it. -/
theorem scanSign_spec (s : Bytes) :
    (s = (if (scanSign s).1 then [ch '-'] else []) ++ (scanSign s).2) ∨
      (scanSign s).1 = false ∧ s = [ch '+'] ++ (scanSign s).2 := by
  cases s with
  | nil => exact Or.inl rfl
  | cons c rest =>
    rw [scanSign]
    by_cases hminus : c = ch '-'
    · rw [if_pos hminus, hminus]
      exact Or.inl rfl
    · rw [if_neg hminus]
      by_cases hplus : c = ch '+'
      · rw [if_pos hplus, hplus]
        exact Or.inr ⟨rfl, rfl⟩
      · rw [if_neg hplus]
        exact Or.inl rfl

/-- A number is converted as a whole. -/
theorem ReadsAs.strtoull {sign : Bytes} (h : ReadsAs sign v n) (hsign : sign ∈ signs) :
    ∃ blanks,
      strtoull v = some ⟨if sign = [ch '-'] then 0 - .ofNat n else .ofNat n, false, blanks⟩ ∧
      ∀ c ∈ blanks, isTrailingBlank c = true := by
  obtain ⟨literal, blanks, hle, hdrop, hliteral, hblanks⟩ := h.dropWhile hsign
  have hscan : scanSign (sign ++ (literal ++ blanks)) =
      (decide (sign = [ch '-']), literal ++ blanks) := by
    obtain ⟨c, tail, rfl, hc⟩ := hliteral.exists_cons
    obtain ⟨-, hminus, hplus⟩ := isDigit_ten hc
    simp only [signs, List.mem_cons, List.not_mem_nil, or_false] at hsign
    rcases hsign with rfl | rfl | rfl
    · rw [List.nil_append, List.cons_append, scanSign, if_neg hminus, if_neg hplus]
      rfl
    · rfl
    · rfl
  refine ⟨blanks, ?_, hblanks⟩
  rw [Config.strtoull, hdrop, hscan]
  dsimp only
  rw [hliteral.scanned hblanks, Option.map_some, if_neg (Nat.not_lt.2 hle)]
  by_cases hnegative : sign = [ch '-']
  · rw [decide_eq_true hnegative, if_pos rfl, if_pos hnegative]
  · rw [decide_eq_false hnegative, if_neg Bool.false_ne_true, if_neg hnegative]

/-- What is converted as a whole is a number. -/
theorem readsAs_of_strtoull {r : Conversion} (h : strtoull v = some r) (hrange : r.erange = false)
    (hblanks : ∀ c ∈ r.rest, isTrailingBlank c = true) :
    ∃ n, ReadsAs [ch '-'] v n ∧ r.parsed = 0 - .ofNat n ∨ Denotes v n ∧ r.parsed = .ofNat n := by
  have hspace : ∀ c ∈ v.takeWhile isSpace, isSpace c = true := fun c hc =>
    List.all_eq_true.1 List.all_takeWhile c hc
  have hsplit : v = v.takeWhile isSpace ++ v.dropWhile isSpace :=
    List.takeWhile_append_dropWhile.symm
  rw [Config.strtoull] at h
  dsimp only at h
  have hsign := scanSign_spec (v.dropWhile isSpace)
  generalize scanSign (v.dropWhile isSpace) = scanned at h hsign
  obtain ⟨⟨n, rest⟩, hliteral, hr⟩ := Option.map_eq_some_iff.1 h
  obtain ⟨literal, hs, hvalue⟩ := scanLiteral_eq_some hliteral
  dsimp only at hr
  by_cases hover : n > 2 ^ 64 - 1
  · rw [if_pos hover] at hr
    rw [← hr] at hrange
    cases hrange
  · rw [if_neg hover] at hr
    have hreads : ∀ {sign : Bytes}, v.dropWhile isSpace = sign ++ scanned.2 → ReadsAs sign v n := by
      intro sign hdrop
      refine ⟨Nat.not_lt.1 hover, v.takeWhile isSpace, literal, rest, ?_, hspace, hvalue, ?_⟩
      · rw [← hs, ← hdrop]
        exact hsplit
      · rw [← hr] at hblanks
        exact hblanks
    refine ⟨n, ?_⟩
    rcases hsign with hsigned | ⟨hpositive, hplus⟩
    · cases hnegative : scanned.1 with
      | true =>
        rw [hnegative, if_pos rfl] at hsigned hr
        exact Or.inl ⟨hreads hsigned, by rw [← hr]⟩
      | false =>
        rw [hnegative, if_neg Bool.false_ne_true] at hsigned hr
        exact Or.inr ⟨Or.inl (hreads hsigned), by rw [← hr]⟩
    · rw [hpositive, if_neg Bool.false_ne_true] at hr
      exact Or.inr ⟨Or.inr (hreads hplus), by rw [← hr]⟩

theorem strtoull_leadingBlank (v : Bytes) :
    strtoull (v.dropWhile isLeadingBlank) = strtoull v := by
  rw [strtoull, dropWhile_leadingBlank, strtoull]

/-- The default, a number without a minus sign, or a negated number. -/
theorem parseLimit_cases (v : Bytes) (dflt : UInt64) : parseLimit v dflt = dflt ∨
    (∃ n, Denotes v n ∧ parseLimit v dflt = .ofNat n) ∨
      ∃ n, HiddenMinus v n ∧ parseLimit v dflt = 0 - .ofNat n := by
  rw [parseLimit]
  by_cases hminus : (v.dropWhile isLeadingBlank).head? = some (ch '-')
  · rw [if_pos hminus]
    exact Or.inl rfl
  · rw [if_neg hminus, strtoull_leadingBlank]
    cases hconverted : strtoull v with
    | none => exact Or.inl rfl
    | some r =>
      dsimp only
      cases hrange : r.erange with
      | true => exact Or.inl rfl
      | false =>
        rw [if_neg Bool.false_ne_true]
        by_cases hblanks : r.rest.dropWhile isTrailingBlank = []
        · rw [if_pos hblanks]
          obtain ⟨n, ⟨hreads, hparsed⟩ | ⟨hdenotes, hparsed⟩⟩ :=
            readsAs_of_strtoull hconverted hrange (List.dropWhile_eq_nil_iff.1 hblanks)
          · exact Or.inr (Or.inr ⟨n, ⟨hreads, hminus⟩, hparsed⟩)
          · exact Or.inr (Or.inl ⟨n, hdenotes, hparsed⟩)
        · rw [if_neg hblanks]
          exact Or.inl rfl

/-- Where the check sees no minus sign, a number is taken as it is converted. -/
theorem ReadsAs.envU64_eq {sign : Bytes} (h : ReadsAs sign v n) (hsign : sign ∈ signs)
    (hunseen : (v.dropWhile isLeadingBlank).head? ≠ some (ch '-')) (dflt : UInt64) :
    envU64 (some v) dflt = if sign = [ch '-'] then 0 - .ofNat n else .ofNat n := by
  obtain ⟨blanks, hconverted, hblanks⟩ := h.strtoull hsign
  have hne : v ≠ [] := by
    rintro rfl
    cases hconverted
  show (if v = [] then dflt else parseLimit v dflt) = _
  rw [if_neg hne, parseLimit, if_neg hunseen, strtoull_leadingBlank, hconverted]
  dsimp only
  rw [if_neg Bool.false_ne_true, if_pos (List.dropWhile_eq_nil_iff.2 hblanks)]

theorem Denotes.head_ne_minus (h : Denotes v n) :
    (v.dropWhile isSpace).head? ≠ some (ch '-') := by
  rcases h with hplain | hplus
  · obtain ⟨literal, blanks, -, hdrop, hliteral, -⟩ := hplain.dropWhile (by decide)
    obtain ⟨c, tail, rfl, hc⟩ := hliteral.exists_cons
    rw [hdrop]
    exact fun hhead => (isDigit_ten hc).2.1 (Option.some.inj hhead)
  · obtain ⟨literal, blanks, -, hdrop, -, -⟩ := hplus.dropWhile (by decide)
    rw [hdrop]
    exact fun hhead => absurd (Option.some.inj hhead) (by decide)

/-- No string has both a minus sign and none. -/
theorem Denotes.not_minus {m : ℕ} (h : Denotes v n) : ¬ ReadsAs [ch '-'] v m := by
  intro hminus
  obtain ⟨literal, blanks, -, hdrop, -, -⟩ := hminus.dropWhile (by decide)
  exact h.head_ne_minus (by rw [hdrop]; rfl)

end Strings

/-- What is not the default is the number that the string denotes. -/
def TakenAsWritten (value : Option Bytes) (dflt : UInt64) : Prop :=
  envU64 value dflt ≠ dflt → ∃ v n, value = some v ∧ Denotes v n ∧ envU64 value dflt = .ofNat n

/-- **Limits from the environment.** What is not the default is the number that is written, exactly
unless a minus sign stands behind white space other than spaces and tabs: then the negated number is
taken, and is not the default. -/
theorem env_taken_as_written_iff (value : Option Bytes) (dflt : UInt64) :
    TakenAsWritten value dflt ↔
      ∀ v n, value = some v → HiddenMinus v n → 0 - UInt64.ofNat n = dflt := by
  constructor
  · rintro h v n rfl hhidden
    have heq := hhidden.1.envU64_eq (by decide) hhidden.2 dflt
    rw [if_pos rfl] at heq
    by_contra hne
    obtain ⟨w, m, hw, hdenotes, -⟩ := h (heq ▸ hne)
    cases hw
    exact hdenotes.not_minus hhidden.1
  · intro h hne
    cases value with
    | none => exact absurd rfl hne
    | some v =>
      have hnonempty : v ≠ [] := by
        rintro rfl
        exact hne rfl
      have hparse : envU64 (some v) dflt = parseLimit v dflt := if_neg hnonempty
      rw [hparse] at hne ⊢
      rcases parseLimit_cases v dflt with hdflt | ⟨n, hdenotes, heq⟩ | ⟨n, hhidden, heq⟩
      · exact absurd hdflt hne
      · exact ⟨v, n, rfl, hdenotes, heq⟩
      · exact absurd (heq.trans (h v n rfl hhidden)) hne

theorem hexadecimal_taken_as_written :
    TakenAsWritten (some [ch ' ', ch '0', ch 'x', ch '1', ch '0', ch '\n']) 200000 ∧
      envU64 (some [ch ' ', ch '0', ch 'x', ch '1', ch '0', ch '\n']) 200000 = 16 := by
  have hdenotes : Denotes [ch ' ', ch '0', ch 'x', ch '1', ch '0', ch '\n'] 16 :=
    Or.inl ⟨by decide, [ch ' '], [ch '0', ch 'x', ch '1', ch '0'], [ch '\n'], rfl,
      List.all_eq_true.1 (by decide), .hex (Or.inl rfl) (List.all_eq_true.1 (by decide)),
      List.all_eq_true.1 (by decide)⟩
  refine ⟨(env_taken_as_written_iff _ _).2 fun v n hv hhidden => ?_, by decide⟩
  cases hv
  exact absurd hhidden.1 hdenotes.not_minus

/-- A line break in front of `-1` gives the largest limit there is. -/
theorem minus_one_behind_line_break :
    envU64 (some [ch '\n', ch '-', ch '1']) 200000 = 18446744073709551615 ∧
      ¬ TakenAsWritten (some [ch '\n', ch '-', ch '1']) 200000 := by
  have hminus : ReadsAs [ch '-'] [ch '\n', ch '-', ch '1'] 1 :=
    ⟨by decide, [ch '\n'], [ch '1'], [], rfl, List.all_eq_true.1 (by decide),
      .decimal (d := ch '1') (by decide) (List.all_eq_true.1 (by decide)),
      List.all_eq_true.1 (by decide)⟩
  refine ⟨by decide, fun h => ?_⟩
  obtain ⟨v, n, hv, hdenotes, -⟩ := h (by decide)
  cases hv
  exact hdenotes.not_minus hminus

end Viy.Config
