import DelegateProtocol.ChunkedTransfer
import DelegateProtocol.Lib.Uuid

/-!
# JSON bodies

`json.loads` makes Python objects of JSON values. What the views do with those of
the object they are sent, its truth, `str` and `int`, is Python's. The text of
floats, lists and dictionaries is left to a function from outside.
-/

namespace JsonBodies

open Runtime

inductive PyFloat where
  | finite (value : ℚ)
  | infinite (negative : Bool)
  | nan

inductive Json where
  | null
  | bool (b : Bool)
  | int (n : Int)
  | float (x : PyFloat)
  | str (text : String)
  | list (items : List Json)
  | dict (entries : List (String × Json))

/-- A JSON object. Earlier entries win. -/
abbrev Body := List (String × Json)

def Body.get? (body : Body) (key : String) : Option Json := List.lookup key body

/-- `body.get(key, default)`. -/
def Body.getD (body : Body) (key : String) (default : Json) : Json := (body.get? key).getD default

/-- `bool(value)`. -/
def Json.truthy : Json → Bool
  | .null => false
  | .bool b => b
  | .int n => n ≠ 0
  | .float (.finite q) => q ≠ 0
  | .float _ => true
  | .str text => text ≠ ""
  | .list items => !items.isEmpty
  | .dict entries => !entries.isEmpty

/-- `str(value)`. -/
def Json.text (repr : Json → String) : Json → String
  | .null => "None"
  | .bool true => "True"
  | .bool false => "False"
  | .int n => ChunkedTransfer.intText n
  | .str text => text
  | value => repr value

/-- `int(value)`, which may raise; floats are cut off towards zero. -/
def Json.toInt : Json → Option Int
  | .bool b => some (if b then 1 else 0)
  | .int n => some n
  | .float (.finite q) => some (q.num.tdiv q.den)
  | .str text => PyInt.int text
  | _ => none

/-- The value a lookup compares a `UUIDField` with, or an exception. -/
def Json.toUuid : Json → Option Uuid.UUID
  | .str text => Uuid.parse text
  | .int n => if h : n.toNat < 2 ^ 128 ∧ 0 ≤ n then some (BitVec.ofNatLT n.toNat h.1) else none
  | .bool b => some (if b then 1 else 0)
  | _ => none

/-- `value == text`. -/
def Json.isText (value : Json) (text : String) : Bool :=
  match value with
  | .str own => own = text
  | _ => false

/-- `[f for f in required if not body.get(f)]`. -/
def missing (required : List String) (body : Body) : List String :=
  required.filter (fun f => !(body.getD f .null).truthy)

/-- The object of text fields that other models take a body for. -/
def texts (fields : Fields) : Body := fields.map (fun f => (f.1, .str f.2))

theorem get?_texts (fields : Fields) (key : String) :
    (texts fields).get? key = (fields.get? key).map .str := by
  induction fields with
  | nil => rfl
  | cons f fields ih =>
    obtain ⟨k, v⟩ := f
    simp only [texts, List.map_cons, Body.get?, Fields.get?, List.lookup_cons]
    cases key == k with
    | true => rfl
    | false => exact ih

theorem getD_texts {fields : Fields} {key : String} (h : fields.getD key "" ≠ "") :
    (texts fields).getD key .null = .str (fields.getD key "") := by
  unfold Body.getD Fields.getD at *
  rw [get?_texts]
  cases hf : fields.get? key with
  | none => simp [hf] at h
  | some text => rfl

theorem truthy_texts (fields : Fields) (key : String) :
    ((texts fields).getD key .null).truthy = decide (fields.getD key "" ≠ "") := by
  unfold Body.getD Fields.getD
  rw [get?_texts]
  cases fields.get? key with
  | none => rfl
  | some text => rfl

@[simp] theorem isText_iff {value : Json} {text : String} : value.isText text = true ↔ value = .str text := by
  cases value with
  | str own => simp [Json.isText]
  | _ => simp [Json.isText]

end JsonBodies
