import DelegateProtocol.Lib.PyInt
import DelegateProtocol.Lib.Base64

/-!
# What the programs take from Python

Exceptions by their class, dictionaries of text fields, byte strings that fit
in memory, and `os.path.join`. A field access either yields the text or raises.
-/

namespace Runtime

inductive PyError where
  | keyError (key : String)
  | valueError
  | typeError
  | osError
  | overflowError
  | validationError
  | integrityError
  | databaseError
  | redisError
  deriving DecidableEq, Repr

/-- A message as the Redis client decodes it. Earlier entries win. -/
abbrev Fields := List (String × String)

def Fields.get? (fields : Fields) (key : String) : Option String := fields.lookup key

/-- `fields.get(key, default)`. -/
def Fields.getD (fields : Fields) (key default : String) : String := (fields.get? key).getD default

/-- `fields[key]`. -/
def Fields.item (fields : Fields) (key : String) : Except PyError String :=
  match fields.get? key with
  | some text => .ok text
  | none => .error (.keyError key)

/-- `int(text)`. -/
def intOf (text : String) : Except PyError Int :=
  match PyInt.int text with
  | some n => .ok n
  | none => .error .valueError

/-- `base64.b64decode(text)`. -/
def b64decode (text : String) : Except PyError (List UInt8) :=
  match Base64.b64decode text with
  | some data => .ok data
  | none => .error .valueError

/-- `sys.maxsize`, the length no Python byte string exceeds. -/
def maxsize : Nat := 2 ^ 63 - 1

structure Payload where
  data : List UInt8
  fits : data.length ≤ maxsize

def osPathJoin (a b : String) : String :=
  if b.toList.head? = some '/' then b
  else if a = "" ∨ a.toList.getLast? = some '/' then a ++ b
  else a ++ "/" ++ b

theorem maxsize_lt : maxsize < 10 ^ PyInt.maxStrDigits :=
  calc maxsize < 2 ^ 63 := by decide
    _ ≤ 10 ^ 63 := Nat.pow_le_pow_left (by decide) 63
    _ ≤ 10 ^ PyInt.maxStrDigits := Nat.pow_le_pow_right (by decide) (by decide)

/-- The length of a payload survives the trip through its decimal text. -/
theorem intOf_str {n : Nat} (h : n ≤ maxsize) : intOf (PyInt.str n) = .ok (n : Int) := by
  simp only [intOf, PyInt.int_str (Nat.lt_of_le_of_lt h maxsize_lt)]

theorem b64decode_b64encode (data : List UInt8) :
    b64decode (Base64.b64encode data) = .ok data := by
  simp only [b64decode, Base64.b64decode_b64encode]

end Runtime
