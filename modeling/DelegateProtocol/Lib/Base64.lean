import Mathlib.Data.List.Basic

/-!
# Python's `base64.b64encode` and `base64.b64decode`

The decoder is the one of `binascii` in its default mode: characters outside
the alphabet are skipped, padding that completes a group ends the input, and
only a group left incomplete is an error. A string with a character outside
ASCII is refused before decoding.
-/

namespace Base64

/-- The character of a six-bit value. -/
def encodeChar (n : Nat) : Char :=
  if n < 26 then Char.ofNat (65 + n)
  else if n < 52 then Char.ofNat (71 + n)
  else if n < 62 then Char.ofNat (n - 4)
  else if n = 62 then '+' else '/'

def decodeChar (c : Char) : Option Nat :=
  if 65 ≤ c.toNat ∧ c.toNat ≤ 90 then some (c.toNat - 65)
  else if 97 ≤ c.toNat ∧ c.toNat ≤ 122 then some (c.toNat - 71)
  else if 48 ≤ c.toNat ∧ c.toNat ≤ 57 then some (c.toNat + 4)
  else if c = '+' then some 62
  else if c = '/' then some 63
  else none

/-- The four sextets of three bytes; the last group is padded. -/
def encode : List UInt8 → List Char
  | a :: b :: c :: rest =>
    encodeChar (a.toNat / 4) :: encodeChar (a.toNat % 4 * 16 + b.toNat / 16) ::
      encodeChar (b.toNat % 16 * 4 + c.toNat / 64) :: encodeChar (c.toNat % 64) :: encode rest
  | [a, b] =>
    [encodeChar (a.toNat / 4), encodeChar (a.toNat % 4 * 16 + b.toNat / 16),
      encodeChar (b.toNat % 16 * 4), '=']
  | [a] => [encodeChar (a.toNat / 4), encodeChar (a.toNat % 4 * 16), '=', '=']
  | [] => []

/-- `quad` characters of the current group are read, `left` holds the bits of
the last one that no byte has yet, and `pads` counts the padding behind it. -/
def decodeFrom : (quad left pads : Nat) → List Char → List UInt8 → Option (List UInt8)
  | quad, _, _, [], acc => if quad = 0 then some acc.reverse else none
  | quad, left, pads, c :: cs, acc =>
    if c = '=' then
      if 2 ≤ quad then
        if 4 ≤ quad + (pads + 1) then some acc.reverse
        else decodeFrom quad left (pads + 1) cs acc
      else decodeFrom quad left pads cs acc
    else match decodeChar c, quad with
      | none, _ => decodeFrom quad left pads cs acc
      | some v, 0 => decodeFrom 1 v 0 cs acc
      | some v, 1 => decodeFrom 2 (v % 16) 0 cs (UInt8.ofNat (left * 4 + v / 16) :: acc)
      | some v, 2 => decodeFrom 3 (v % 4) 0 cs (UInt8.ofNat (left * 16 + v / 4) :: acc)
      | some v, _ => decodeFrom 0 0 0 cs (UInt8.ofNat (left * 64 + v) :: acc)

def b64encode (data : List UInt8) : String := String.ofList (encode data)

/-- `none` is a ValueError (`binascii.Error` is one). -/
def b64decode (s : String) : Option (List UInt8) :=
  if s.toList.all (fun c => decide (c.toNat < 128)) then decodeFrom 0 0 0 s.toList [] else none

theorem encodeChar_spec {n : Nat} (h : n < 64) :
    decodeChar (encodeChar n) = some n ∧ encodeChar n ≠ '=' ∧ (encodeChar n).toNat < 128 := by
  have all : ∀ n : Fin 64, decodeChar (encodeChar n) = some n.val ∧ encodeChar n ≠ '=' ∧
      (encodeChar n).toNat < 128 := by decide
  exact all ⟨n, h⟩

theorem ofNat_toNat_eq (a : UInt8) {n : Nat} (h : n = a.toNat) : UInt8.ofNat n = a := by
  subst h
  simp

section Steps
variable {v left pads : Nat} (cs : List Char) (acc : List UInt8)

theorem decodeFrom_first (h : v < 64) :
    decodeFrom 0 left pads (encodeChar v :: cs) acc = decodeFrom 1 v 0 cs acc := by
  obtain ⟨hv, hne, _⟩ := encodeChar_spec h
  simp [decodeFrom, hv, hne]

theorem decodeFrom_second (h : v < 64) :
    decodeFrom 1 left pads (encodeChar v :: cs) acc =
      decodeFrom 2 (v % 16) 0 cs (UInt8.ofNat (left * 4 + v / 16) :: acc) := by
  obtain ⟨hv, hne, _⟩ := encodeChar_spec h
  simp [decodeFrom, hv, hne]

theorem decodeFrom_third (h : v < 64) :
    decodeFrom 2 left pads (encodeChar v :: cs) acc =
      decodeFrom 3 (v % 4) 0 cs (UInt8.ofNat (left * 16 + v / 4) :: acc) := by
  obtain ⟨hv, hne, _⟩ := encodeChar_spec h
  simp [decodeFrom, hv, hne]

theorem decodeFrom_fourth (h : v < 64) :
    decodeFrom 3 left pads (encodeChar v :: cs) acc =
      decodeFrom 0 0 0 cs (UInt8.ofNat (left * 64 + v) :: acc) := by
  obtain ⟨hv, hne, _⟩ := encodeChar_spec h
  simp [decodeFrom, hv, hne]

end Steps

/-- Two sextets give back the first byte of a group. -/
theorem decodeFrom_byte (a : UInt8) {low : Nat} (h : low < 16) (cs : List Char)
    (acc : List UInt8) :
    decodeFrom 0 0 0 (encodeChar (a.toNat / 4) :: encodeChar (a.toNat % 4 * 16 + low) :: cs) acc =
      decodeFrom 2 low 0 cs (a :: acc) := by
  have ha := a.toNat_lt
  rw [decodeFrom_first _ _ (by omega), decodeFrom_second _ _ (by omega),
    ofNat_toNat_eq a (by omega), show (a.toNat % 4 * 16 + low) % 16 = low by omega]

theorem decodeFrom_encode (data acc : List UInt8) :
    decodeFrom 0 0 0 (encode data) acc = some (acc.reverse ++ data) := by
  induction data using encode.induct generalizing acc with
  | case1 a b c rest ih =>
    have hb := b.toNat_lt
    have hc := c.toNat_lt
    rw [encode, decodeFrom_byte a (by omega), decodeFrom_third _ _ (by omega),
      decodeFrom_fourth _ _ (by omega), ofNat_toNat_eq c (by omega), ofNat_toNat_eq b (by omega),
      ih]
    simp
  | case2 a b =>
    have hb := b.toNat_lt
    rw [encode, decodeFrom_byte a (by omega), decodeFrom_third _ _ (by omega),
      ofNat_toNat_eq b (by omega)]
    simp [decodeFrom]
  | case3 a =>
    have hz := decodeFrom_byte a (show 0 < 16 by omega) ['=', '='] acc
    rw [Nat.add_zero] at hz
    rw [encode, hz]
    simp [decodeFrom]
  | case4 => simp [encode, decodeFrom]

theorem encode_ascii (data : List UInt8) : ∀ c ∈ encode data, c.toNat < 128 := by
  induction data using encode.induct with
  | case1 a b c rest ih =>
    have ha := a.toNat_lt
    have hb := b.toNat_lt
    have hc := c.toNat_lt
    intro x hx
    simp only [encode, List.mem_cons] at hx
    rcases hx with rfl | rfl | rfl | rfl | hx
    · exact (encodeChar_spec (by omega)).2.2
    · exact (encodeChar_spec (by omega)).2.2
    · exact (encodeChar_spec (by omega)).2.2
    · exact (encodeChar_spec (by omega)).2.2
    · exact ih x hx
  | case2 a b =>
    have ha := a.toNat_lt
    have hb := b.toNat_lt
    intro x hx
    simp only [encode, List.mem_cons, List.not_mem_nil, or_false] at hx
    rcases hx with rfl | rfl | rfl | rfl
    · exact (encodeChar_spec (by omega)).2.2
    · exact (encodeChar_spec (by omega)).2.2
    · exact (encodeChar_spec (by omega)).2.2
    · decide
  | case3 a =>
    have ha := a.toNat_lt
    intro x hx
    simp only [encode, List.mem_cons, List.not_mem_nil, or_false] at hx
    rcases hx with rfl | rfl | rfl | rfl
    · exact (encodeChar_spec (by omega)).2.2
    · exact (encodeChar_spec (by omega)).2.2
    · decide
    · decide
  | case4 => simp [encode]

/-- Decoding gives back what was encoded. -/
theorem b64decode_b64encode (data : List UInt8) : b64decode (b64encode data) = some data := by
  have hall : (encode data).all (fun c => decide (c.toNat < 128)) = true := by
    simpa using encode_ascii data
  simp [b64decode, b64encode, hall, decodeFrom_encode]

end Base64
