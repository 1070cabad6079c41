import Mathlib.Data.Nat.Digits.Lemmas
import Mathlib.Tactic.Ring
import Mathlib.Data.List.Basic

/-!
# Python's `int(s)` and `int(s, 16)`

A string is first brought to ASCII: outside ASCII, a white-space character
becomes a blank, a decimal digit of any script becomes that digit, and every
other character is refused. What is left is white space, a sign, for base 16 an
optional `0x`, digits with single underscores between them, and white space.
A base-10 literal of more than 4300 digits is refused too.
-/

namespace PyInt

/-- The digits zero of the decimal digit blocks of Unicode outside ASCII. -/
def decimalZeros : List Nat :=
  [0x660, 0x6f0, 0x7c0, 0x966, 0x9e6, 0xa66, 0xae6, 0xb66, 0xbe6, 0xc66, 0xce6, 0xd66, 0xde6,
    0xe50, 0xed0, 0xf20, 0x1040, 0x1090, 0x17e0, 0x1810, 0x1946, 0x19d0, 0x1a80, 0x1a90, 0x1b50,
    0x1bb0, 0x1c40, 0x1c50, 0xa620, 0xa8d0, 0xa900, 0xa9d0, 0xa9f0, 0xaa50, 0xabf0, 0xff10,
    0x104a0, 0x10d30, 0x11066, 0x110f0, 0x11136, 0x111d0, 0x112f0, 0x11450, 0x114d0, 0x11650,
    0x116c0, 0x11730, 0x118e0, 0x11950, 0x11c50, 0x11d50, 0x11da0, 0x16a60, 0x16ac0, 0x16b50,
    0x1d7ce, 0x1d7d8, 0x1d7e2, 0x1d7ec, 0x1d7f6, 0x1e140, 0x1e2f0, 0x1e950, 0x1fbf0]

/-- The white space of Unicode outside ASCII. -/
def wideSpaces : List Nat :=
  [0x85, 0xa0, 0x1680, 0x2000, 0x2001, 0x2002, 0x2003, 0x2004, 0x2005, 0x2006, 0x2007, 0x2008,
    0x2009, 0x200a, 0x2028, 0x2029, 0x202f, 0x205f, 0x3000]

def digitChar (n : Nat) : Char := Char.ofNat (48 + n)

/-- `?` stands for a character that no number contains. -/
def toAscii (c : Char) : Char :=
  if c.toNat < 127 then c
  else if c.toNat ∈ wideSpaces then ' '
  else match decimalZeros.find? (fun z => decide (z ≤ c.toNat ∧ c.toNat < z + 10)) with
    | some z => digitChar (c.toNat - z)
    | none => '?'

def isBlank (c : Char) : Bool := c.toNat = 32 || (9 ≤ c.toNat && c.toNat ≤ 13)

/-- The value of a digit of some base up to 36. -/
def digitValue (c : Char) : Option Nat :=
  if 48 ≤ c.toNat ∧ c.toNat ≤ 57 then some (c.toNat - 48)
  else if 97 ≤ c.toNat ∧ c.toNat ≤ 122 then some (c.toNat - 87)
  else if 65 ≤ c.toNat ∧ c.toNat ≤ 90 then some (c.toNat - 55)
  else none

def isDigit (base : Nat) (c : Char) : Bool :=
  match digitValue c with
  | some v => decide (v < base)
  | none => false

/-- Read digits and underscores; an underscore stands between two digits. -/
def scanDigits (base : Nat) : Bool → List Char → List Nat → Option (List Nat × List Char)
  | afterDigit, [], acc => if afterDigit then some (acc.reverse, []) else none
  | afterDigit, c :: cs, acc =>
    if c = '_' then
      if afterDigit then scanDigits base false cs acc else none
    else if isDigit base c then
      scanDigits base true cs ((digitValue c).getD 0 :: acc)
    else if afterDigit then some (acc.reverse, c :: cs) else none

def value (base : Nat) (digits : List Nat) : Nat := digits.foldl (fun n d => n * base + d) 0

def maxStrDigits : Nat := 4300

def unsigned (base : Nat) (cs : List Char) : Option Nat :=
  match scanDigits base false cs [] with
  | none => none
  | some (digits, rest) =>
    if rest.all isBlank && (base = 16 || digits.length ≤ maxStrDigits) then
      some (value base digits)
    else none

/-- After `0x` one underscore may stand. -/
def dropHexPrefix : List Char → List Char
  | '0' :: 'x' :: '_' :: cs | '0' :: 'X' :: '_' :: cs => cs
  | '0' :: 'x' :: cs | '0' :: 'X' :: cs => cs
  | cs => cs

def magnitude (base : Nat) (cs : List Char) : Option Nat :=
  unsigned base (if base = 16 then dropHexPrefix cs else cs)

def signed (base : Nat) : List Char → Option Int
  | '+' :: cs => (magnitude base cs).map Int.ofNat
  | '-' :: cs => (magnitude base cs).map (fun n => -Int.ofNat n)
  | cs => (magnitude base cs).map Int.ofNat

/-- `int(s, base)` for base 10 and base 16; `none` is a ValueError. -/
def parse (base : Nat) (s : List Char) : Option Int :=
  signed base ((s.map toAscii).dropWhile isBlank)

def int (s : String) : Option Int := parse 10 s.toList

/-- The decimal digits of `n`, most significant first. -/
def decimal (n : Nat) : List Nat := if n = 0 then [0] else (Nat.digits 10 n).reverse

/-- `str(n)` of a natural number. -/
def str (n : Nat) : String := String.ofList ((decimal n).map digitChar)

/-- Exactly `width` digits of `n`, most significant first. -/
def padded (base : Nat) : Nat → Nat → List Nat
  | 0, _ => []
  | width + 1, n => padded base width (n / base) ++ [n % base]

theorem isDigit_range {base : Nat} {c : Char} (_small : base ≤ 16) (h : isDigit base c = true) :
    (48 ≤ c.toNat ∧ c.toNat ≤ 57) ∨ (97 ≤ c.toNat ∧ c.toNat ≤ 102) ∨
      (65 ≤ c.toNat ∧ c.toNat ≤ 70) := by
  unfold isDigit digitValue at h
  split_ifs at h with h1 h2 h3
  · exact Or.inl h1
  · right; left
    simp only [decide_eq_true_eq] at h
    omega
  · right; right
    simp only [decide_eq_true_eq] at h
    omega

theorem toAscii_digit {base : Nat} {c : Char} (small : base ≤ 16) (h : isDigit base c = true) :
    toAscii c = c := by
  have := isDigit_range small h
  rw [toAscii, if_pos (by omega)]

theorem not_blank_digit {base : Nat} {c : Char} (small : base ≤ 16) (h : isDigit base c = true) :
    isBlank c = false := by
  have := isDigit_range small h
  unfold isBlank
  rw [Bool.or_eq_false_iff]
  refine ⟨by simpa using (by omega : c.toNat ≠ 32), ?_⟩
  simp only [Bool.and_eq_false_iff, decide_eq_false_iff_not]
  omega

/-- A digit is none of the other characters a literal may hold. -/
theorem scanDigits_digits {base : Nat} (small : base ≤ 16) (cs : List Char)
    (digits : ∀ c ∈ cs, isDigit base c = true) (after : Bool) (acc : List Nat)
    (some_digit : after = true ∨ cs ≠ []) :
    scanDigits base after cs acc =
      some (acc.reverse ++ cs.map (fun c => (digitValue c).getD 0), []) := by
  induction cs generalizing after acc with
  | nil =>
    have ha : after = true := some_digit.resolve_right (fun h => h rfl)
    simp [scanDigits, ha]
  | cons c cs ih =>
    have hc := digits c List.mem_cons_self
    have hne : c ≠ '_' := by
      have := isDigit_range small hc
      rintro rfl
      simp at this
    rw [scanDigits, if_neg hne, if_pos hc,
      ih (fun d hd => digits d (List.mem_cons_of_mem c hd)) true _ (Or.inl rfl)]
    simp

theorem dropHexPrefix_digits {cs : List Char} (digits : ∀ c ∈ cs, isDigit 16 c = true) :
    dropHexPrefix cs = cs := by
  have hx : 'x' ∉ cs := fun h => absurd (digits 'x' h) (by decide)
  have hX : 'X' ∉ cs := fun h => absurd (digits 'X' h) (by decide)
  unfold dropHexPrefix
  split
  · simp at hx
  · simp at hX
  · simp at hx
  · simp at hX
  · rfl

theorem signed_digits {base : Nat} (small : base = 10 ∨ base = 16) {cs : List Char}
    (digits : ∀ c ∈ cs, isDigit base c = true) :
    signed base cs = (unsigned base cs).map Int.ofNat := by
  have hplus : isDigit base '+' = false := by rcases small with rfl | rfl <;> decide
  have hminus : isDigit base '-' = false := by rcases small with rfl | rfl <;> decide
  have hbody : magnitude base cs = unsigned base cs := by
    unfold magnitude
    split
    · rename_i h
      subst h
      rw [dropHexPrefix_digits digits]
    · rfl
  rw [← hbody]
  unfold signed
  split
  · exact absurd (digits '+' List.mem_cons_self) (by simp [hplus])
  · exact absurd (digits '-' List.mem_cons_self) (by simp [hminus])
  · rfl

/-- A literal of digits alone has the value of its digits. -/
theorem parse_digits {base : Nat} (small : base = 10 ∨ base = 16) {cs : List Char}
    (digits : ∀ c ∈ cs, isDigit base c = true) (nonempty : cs ≠ [])
    (short : base = 16 ∨ cs.length ≤ maxStrDigits) :
    parse base cs = some (Int.ofNat (value base (cs.map (fun c => (digitValue c).getD 0)))) := by
  have hb : base ≤ 16 := by omega
  have hascii : cs.map toAscii = cs := by
    conv_rhs => rw [← List.map_id cs]
    exact List.map_congr_left (fun c hc => toAscii_digit hb (digits c hc))
  have hdrop : cs.dropWhile isBlank = cs := by
    cases cs with
    | nil => rfl
    | cons c cs =>
      rw [List.dropWhile_cons_of_neg]
      simp [not_blank_digit hb (digits c List.mem_cons_self)]
  unfold parse
  rw [hascii, hdrop, signed_digits small digits]
  have hlen : base = 16 ∨ (cs.map (fun c => (digitValue c).getD 0)).length ≤ maxStrDigits := by
    simpa using short
  simp only [unsigned, scanDigits_digits hb cs digits false [] (Or.inr nonempty),
    List.reverse_nil, List.nil_append, List.all_nil, Bool.true_and]
  rw [if_pos (by simpa using hlen)]
  rfl

theorem digitChar_spec {d : Nat} (h : d < 10) :
    isDigit 10 (digitChar d) = true ∧ digitValue (digitChar d) = some d := by
  have all : ∀ d : Fin 10, isDigit 10 (digitChar d) = true ∧
      digitValue (digitChar d) = some d.val := by decide
  exact all ⟨d, h⟩

theorem decimal_lt {n d : Nat} (h : d ∈ decimal n) : d < 10 := by
  unfold decimal at h
  split at h
  · simp only [List.mem_singleton] at h
    omega
  · exact Nat.digits_lt_base (by omega) (List.mem_reverse.mp h)

theorem value_decimal (n : Nat) : value 10 (decimal n) = n := by
  unfold decimal
  split
  · rename_i h
    subst h
    rfl
  · have hv := Nat.ofDigits_digits 10 n
    rw [Nat.ofDigits_eq_foldr] at hv
    rw [value, List.foldl_reverse]
    conv_rhs => rw [← hv]
    congr 1
    funext x y
    simp only [Nat.cast_id]
    ring

theorem decimal_length {n : Nat} (h : n < 10 ^ maxStrDigits) :
    (decimal n).length ≤ maxStrDigits := by
  unfold decimal
  split
  · simp [maxStrDigits]
  · rw [List.length_reverse]
    exact (Nat.digits_length_le_iff (by omega) n).mpr h

/-- `int(str(n))` is `n`. -/
theorem int_str {n : Nat} (h : n < 10 ^ maxStrDigits) : int (str n) = some (n : Int) := by
  have hmap : ((decimal n).map digitChar).map (fun c => (digitValue c).getD 0) = decimal n := by
    rw [List.map_map]
    conv_rhs => rw [← List.map_id (decimal n)]
    refine List.map_congr_left (fun d hd => ?_)
    simp [(digitChar_spec (decimal_lt hd)).2]
  have hdigits : ∀ c ∈ (decimal n).map digitChar, isDigit 10 c = true := by
    intro c hc
    obtain ⟨d, hd, rfl⟩ := List.mem_map.mp hc
    exact (digitChar_spec (decimal_lt hd)).1
  have hne : (decimal n).map digitChar ≠ [] := by
    unfold decimal
    split
    · simp
    · rename_i h0
      simp [Nat.digits_eq_nil_iff_eq_zero, h0]
  rw [int, str, String.toList_ofList,
    parse_digits (Or.inl rfl) hdigits hne (Or.inr (by simpa using decimal_length h)), hmap,
    value_decimal]
  rfl

theorem padded_length (base width n : Nat) : (padded base width n).length = width := by
  induction width generalizing n with
  | zero => rfl
  | succ width ih => simp [padded, ih]

theorem padded_lt {base width n d : Nat} (hb : 0 < base) (h : d ∈ padded base width n) :
    d < base := by
  induction width generalizing n with
  | zero => simp [padded] at h
  | succ width ih =>
    rcases List.mem_append.mp h with h | h
    · exact ih h
    · rw [List.mem_singleton.mp h]
      exact Nat.mod_lt _ hb

theorem value_padded (base width n : Nat) :
    value base (padded base width n) = n % base ^ width := by
  induction width generalizing n with
  | zero => simp [padded, value, Nat.mod_one]
  | succ width ih =>
    have hv := ih (n / base)
    unfold value at hv ⊢
    rw [padded, List.foldl_append, hv, List.foldl_cons, List.foldl_nil, Nat.pow_succ',
      Nat.mod_mul, Nat.mul_comm, Nat.add_comm]

theorem value_concat (base : Nat) (digits : List Nat) (d : Nat) :
    value base (digits ++ [d]) = value base digits * base + d := by
  simp [value]

theorem value_lt {base : Nat} {digits : List Nat} (h : ∀ d ∈ digits, d < base) :
    value base digits < base ^ digits.length := by
  induction digits using List.reverseRecOn with
  | nil => simp [value]
  | append_singleton digits d ih =>
    have hd : d < base := h d (by simp)
    have hrest := ih (fun e he => h e (List.mem_append_left _ he))
    have hstep : value base digits * base + base ≤ base ^ digits.length * base := by
      rw [← Nat.succ_mul]
      exact Nat.mul_le_mul_right base hrest
    rw [value_concat, List.length_append, List.length_singleton, Nat.pow_succ]
    omega

/-- Digits are those of their value. -/
theorem padded_value {base : Nat} {digits : List Nat} (h : ∀ d ∈ digits, d < base) :
    padded base digits.length (value base digits) = digits := by
  induction digits using List.reverseRecOn with
  | nil => rfl
  | append_singleton digits d ih =>
    have hd : d < base := h d (by simp)
    have hrest := ih (fun e he => h e (List.mem_append_left _ he))
    have hpos : 0 < base := by omega
    have hdiv : (value base digits * base + d) / base = value base digits := by
      rw [Nat.mul_comm, Nat.mul_add_div hpos, Nat.div_eq_of_lt hd, Nat.add_zero]
    have hmod : (value base digits * base + d) % base = d := by
      rw [Nat.mul_comm, Nat.mul_add_mod, Nat.mod_eq_of_lt hd]
    rw [value_concat, List.length_append, List.length_singleton, padded, hdiv, hmod, hrest]

end PyInt
