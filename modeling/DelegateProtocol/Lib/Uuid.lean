import DelegateProtocol.Lib.PyInt
import Mathlib.Data.BitVec

/-!
# UUIDs as Python's `uuid` module reads and prints them

`UUID(s)` drops every `urn:` and then every `uuid:`, strips braces, drops the
hyphens, and reads what must be 32 characters with `int(_, 16)`. Many strings
name one UUID; `str` prints the canonical one.
-/

namespace Uuid

open PyInt

abbrev UUID := BitVec 128

def dropUrn : List Char → List Char
  | 'u' :: 'r' :: 'n' :: ':' :: cs => dropUrn cs
  | c :: cs => c :: dropUrn cs
  | [] => []

def dropUuid : List Char → List Char
  | 'u' :: 'u' :: 'i' :: 'd' :: ':' :: cs => dropUuid cs
  | c :: cs => c :: dropUuid cs
  | [] => []

def isBrace (c : Char) : Bool := c = '{' || c = '}'

def stripBraces (cs : List Char) : List Char :=
  ((cs.dropWhile isBrace).reverse.dropWhile isBrace).reverse

/-- `uuid.UUID(s)`; `none` is a ValueError. -/
def parse (s : String) : Option UUID :=
  let hex := (stripBraces (dropUuid (dropUrn s.toList))).filter (fun c => c ≠ '-')
  if hex.length = 32 then
    match PyInt.parse 16 hex with
    | some (.ofNat n) => if h : n < 2 ^ 128 then some (BitVec.ofNatLT n h) else none
    | _ => none
  else none

def hexChar (n : Nat) : Char := if n < 10 then Char.ofNat (48 + n) else Char.ofNat (87 + n)

/-- The hexadecimal digits in groups of 8, 4, 4, 4 and 12. -/
def hyphenate (cs : List Char) : List Char :=
  cs.take 8 ++ '-' :: ((cs.drop 8).take 4 ++ '-' :: ((cs.drop 12).take 4 ++
    '-' :: ((cs.drop 16).take 4 ++ '-' :: cs.drop 20)))

def hex (u : UUID) : List Char := (padded 16 32 u.toNat).map hexChar

/-- `str(u)`. -/
def str (u : UUID) : String := String.ofList (hyphenate (hex u))

theorem hexChar_spec {d : Nat} (h : d < 16) :
    isDigit 16 (hexChar d) = true ∧ digitValue (hexChar d) = some d := by
  have all : ∀ d : Fin 16, isDigit 16 (hexChar d) = true ∧
      digitValue (hexChar d) = some d.val := by decide
  exact all ⟨d, h⟩

theorem hex_length (u : UUID) : (hex u).length = 32 := by
  simp [hex, padded_length]

theorem str_length (u : UUID) : (str u).toList.length = 36 := by
  have hlen := hex_length u
  simp only [str, String.toList_ofList, hyphenate, List.length_append, List.length_cons,
    List.length_take, List.length_drop]
  omega

theorem hex_digit {u : UUID} {c : Char} (h : c ∈ hex u) : isDigit 16 c = true := by
  obtain ⟨d, hd, rfl⟩ := List.mem_map.mp h
  exact (hexChar_spec (padded_lt (by omega) hd)).1

theorem hex_value (u : UUID) :
    value 16 ((hex u).map (fun c => (digitValue c).getD 0)) = u.toNat := by
  have hmap : (hex u).map (fun c => (digitValue c).getD 0) = padded 16 32 u.toNat := by
    rw [hex, List.map_map]
    conv_rhs => rw [← List.map_id (padded 16 32 u.toNat)]
    refine List.map_congr_left (fun d hd => ?_)
    simp [(hexChar_spec (padded_lt (by omega) hd)).2]
  rw [hmap, value_padded]
  exact Nat.mod_eq_of_lt u.isLt

/-- The characters of a canonical UUID. -/
def Canonical (c : Char) : Prop := isDigit 16 c = true ∨ c = '-'

theorem hyphenate_canonical {cs : List Char} (digits : ∀ c ∈ cs, isDigit 16 c = true) :
    ∀ c ∈ hyphenate cs, Canonical c := by
  have part : ∀ c, c ∈ cs → Canonical c := fun c hc => Or.inl (digits c hc)
  intro c hc
  simp only [hyphenate, List.mem_append, List.mem_cons] at hc
  rcases hc with h | rfl | h | rfl | h | rfl | h | rfl | h
  · exact part c (List.mem_of_mem_take h)
  · exact Or.inr rfl
  · exact part c (List.mem_of_mem_drop (List.mem_of_mem_take h))
  · exact Or.inr rfl
  · exact part c (List.mem_of_mem_drop (List.mem_of_mem_take h))
  · exact Or.inr rfl
  · exact part c (List.mem_of_mem_drop (List.mem_of_mem_take h))
  · exact Or.inr rfl
  · exact part c (List.mem_of_mem_drop h)

theorem canonical_ne_u {c : Char} (h : Canonical c) : c ≠ 'u' := by
  rintro rfl
  exact absurd h (by simp [Canonical]; decide)

theorem dropUrn_canonical {cs : List Char} (h : ∀ c ∈ cs, Canonical c) : dropUrn cs = cs := by
  induction cs with
  | nil => rfl
  | cons c cs ih =>
    have hc := canonical_ne_u (h c List.mem_cons_self)
    rw [dropUrn, ih (fun d hd => h d (List.mem_cons_of_mem c hd))]
    rintro cs' rfl
    exact (hc rfl).elim

theorem dropUuid_canonical {cs : List Char} (h : ∀ c ∈ cs, Canonical c) : dropUuid cs = cs := by
  induction cs with
  | nil => rfl
  | cons c cs ih =>
    have hc := canonical_ne_u (h c List.mem_cons_self)
    rw [dropUuid, ih (fun d hd => h d (List.mem_cons_of_mem c hd))]
    rintro cs' rfl
    exact (hc rfl).elim

theorem not_brace {c : Char} (h : Canonical c) : isBrace c = false := by
  unfold isBrace
  rw [Bool.or_eq_false_iff]
  constructor <;> rw [decide_eq_false_iff_not] <;> rintro rfl <;> revert h <;>
    simp [Canonical] <;> decide

theorem dropWhile_brace {cs : List Char} (h : ∀ c ∈ cs, Canonical c) :
    cs.dropWhile isBrace = cs := by
  cases cs with
  | nil => rfl
  | cons c cs =>
    rw [List.dropWhile_cons_of_neg]
    simp [not_brace (h c List.mem_cons_self)]

theorem stripBraces_canonical {cs : List Char} (h : ∀ c ∈ cs, Canonical c) :
    stripBraces cs = cs := by
  rw [stripBraces, dropWhile_brace h,
    dropWhile_brace (fun c hc => h c (List.mem_reverse.mp hc)), List.reverse_reverse]

theorem filter_hyphenate {cs : List Char} (digits : ∀ c ∈ cs, isDigit 16 c = true) :
    (hyphenate cs).filter (fun c => c ≠ '-') = cs := by
  have keep : ∀ l : List Char, (∀ c ∈ l, c ∈ cs) → l.filter (fun c => decide (c ≠ '-')) = l := by
    intro l hl
    refine List.filter_eq_self.mpr (fun c hc => ?_)
    have hd := digits c (hl c hc)
    have hne : c ≠ '-' := by
      rintro rfl
      exact absurd hd (by decide)
    simpa using hne
  have minus : ∀ l : List Char,
      ('-' :: l).filter (fun c => decide (c ≠ '-')) = l.filter (fun c => decide (c ≠ '-')) := by
    intro l
    simp
  simp only [hyphenate, List.filter_append, minus]
  rw [keep _ (fun c h => List.mem_of_mem_take h),
    keep _ (fun c h => List.mem_of_mem_drop (List.mem_of_mem_take h)),
    keep _ (fun c h => List.mem_of_mem_drop (List.mem_of_mem_take h)),
    keep _ (fun c h => List.mem_of_mem_drop (List.mem_of_mem_take h)),
    keep _ (fun c h => List.mem_of_mem_drop h)]
  have split (a b : Nat) : cs.drop a = (cs.drop a).take b ++ cs.drop (a + b) := by
    rw [← List.drop_drop, List.take_append_drop]
  rw [← split 16 4, ← split 12 4, ← split 8 4, List.take_append_drop]

/-- The canonical string of a UUID names it. -/
theorem parse_str (u : UUID) : parse (str u) = some u := by
  have hc := hyphenate_canonical (fun c (hc : c ∈ hex u) => hex_digit hc)
  have hne : hex u ≠ [] := by
    intro h
    have := hex_length u
    simp [h] at this
  unfold parse
  simp only [str, String.toList_ofList, dropUrn_canonical hc, dropUuid_canonical hc,
    stripBraces_canonical hc, filter_hyphenate (fun c hc => hex_digit hc), hex_length, if_true]
  rw [parse_digits (Or.inr rfl) (fun c hc => hex_digit hc) hne (Or.inl rfl), hex_value]
  simp only
  rw [dif_pos u.isLt]
  rfl

theorem str_injective {u v : UUID} (h : str u = str v) : u = v := by
  have := parse_str u
  rw [h, parse_str] at this
  exact (Option.some.inj this).symm

/-- Groups of these lengths are what the hyphens are put between. -/
theorem hyphenate_groups {a b c d e : List Char} (ha : a.length = 8) (hb : b.length = 4)
    (hc : c.length = 4) (hd : d.length = 4) : hyphenate (a ++ (b ++ (c ++ (d ++ e)))) =
      a ++ '-' :: (b ++ '-' :: (c ++ '-' :: (d ++ '-' :: e))) := by
  have h8 : (a ++ (b ++ (c ++ (d ++ e)))).drop 8 = b ++ (c ++ (d ++ e)) := List.drop_left' ha
  have h12 : (a ++ (b ++ (c ++ (d ++ e)))).drop 12 = c ++ (d ++ e) := by
    have h := congrArg (List.drop 4) h8
    rwa [List.drop_drop, List.drop_left' hb] at h
  have h16 : (a ++ (b ++ (c ++ (d ++ e)))).drop 16 = d ++ e := by
    have h := congrArg (List.drop 4) h12
    rwa [List.drop_drop, List.drop_left' hc] at h
  have h20 : (a ++ (b ++ (c ++ (d ++ e)))).drop 20 = e := by
    have h := congrArg (List.drop 4) h16
    rwa [List.drop_drop, List.drop_left' hd] at h
  rw [hyphenate, h8, h12, h16, h20, List.take_left' ha, List.take_left' hb, List.take_left' hc,
    List.take_left' hd]

/-- Every text of 32 digits that are printed as they are is the text of a UUID. -/
theorem hex_surjective {cs : List Char} (hlen : cs.length = 32)
    (digits : ∀ c ∈ cs, ∃ d, d < 16 ∧ hexChar d = c) : ∃ u, hex u = cs := by
  obtain ⟨ds, hds, rfl⟩ : ∃ ds : List Nat, (∀ d ∈ ds, d < 16) ∧ ds.map hexChar = cs := by
    clear hlen
    induction cs with
    | nil => exact ⟨[], by simp, rfl⟩
    | cons c cs ih =>
      obtain ⟨d, hd, hc⟩ := digits c List.mem_cons_self
      obtain ⟨ds, hds, hmap⟩ := ih (fun e he => digits e (List.mem_cons_of_mem c he))
      refine ⟨d :: ds, ?_, by rw [List.map_cons, hc, hmap]⟩
      intro e he
      rcases List.mem_cons.mp he with rfl | he
      · exact hd
      · exact hds e he
  rw [List.length_map] at hlen
  have hlt : value 16 ds < 2 ^ 128 := by
    have h := value_lt hds
    rw [hlen] at h
    exact h
  refine ⟨BitVec.ofNatLT (value 16 ds) hlt, ?_⟩
  have hpad := padded_value hds
  rw [hlen] at hpad
  rw [hex, BitVec.toNat_ofNatLT, hpad]

theorem stripBraces_slash (cs : List Char) : ∃ cs', stripBraces ('/' :: cs) = '/' :: cs' := by
  have hslash : isBrace '/' = false := by decide
  have hkept : ∃ cs', (cs.reverse ++ ['/']).dropWhile isBrace = cs' ++ ['/'] := by
    induction cs.reverse with
    | nil => exact ⟨[], by simp [hslash]⟩
    | cons c l ih =>
      cases hc : isBrace c with
      | true => simpa [List.dropWhile, hc] using ih
      | false => exact ⟨c :: l, by simp [hc]⟩
  obtain ⟨cs', h⟩ := hkept
  refine ⟨cs'.reverse, ?_⟩
  simp [stripBraces, List.dropWhile, hslash, h]

/-- No name of a UUID begins with a slash. -/
theorem parse_slash {s : String} (h : s.toList.head? = some '/') : parse s = none := by
  obtain ⟨cs, hcs⟩ : ∃ cs, s.toList = '/' :: cs := by
    cases hs : s.toList with
    | nil => simp [hs] at h
    | cons c cs =>
      rw [hs] at h
      obtain rfl := Option.some.inj h
      exact ⟨cs, rfl⟩
  obtain ⟨cs', hstrip⟩ := stripBraces_slash (dropUuid (dropUrn cs))
  have hurn : dropUrn ('/' :: cs) = '/' :: dropUrn cs := rfl
  have huuid : dropUuid ('/' :: dropUrn cs) = '/' :: dropUuid (dropUrn cs) := rfl
  have hhex : (stripBraces (dropUuid (dropUrn s.toList))).filter (fun c => decide (c ≠ '-')) =
      '/' :: cs'.filter (fun c => decide (c ≠ '-')) := by
    rw [hcs, hurn, huuid, hstrip]
    rfl
  have hint (l : List Char) : PyInt.parse 16 ('/' :: l) = none := rfl
  simp only [parse, hhex, hint, ite_self]

/-- One UUID has many spellings. -/
example : parse "{0000000000000000000000000000000A}" = some 10 ∧
    parse "urn:uuid:0x--+000000000000000000000000000a" = none ∧
    parse "urn:uuid:00000000-0000-0000-0000-00000000000a" = some 10 := by decide

end Uuid
