import DelegateProtocol.Runtime
import DelegateProtocol.Lib.Sha256
import Mathlib.Data.Rat.Floor

/-!
# Chunked transfers

The sender publishes DATA_START, one DATA_CHUNK for every slice of the payload
and DATA_END. The receiver polls the stream until a transfer is complete, fails
its checks, or makes no progress before the deadline. Clock readings, entry
numbers and the answers of XREAD come from outside.
-/

namespace ChunkedTransfer

open Runtime

def chunkSize : Nat := 256 * 1024

def sha256Bytes (data : List UInt8) : String := "sha256:" ++ Sha256.hexdigest data

section Sender
variable (baseFields : Fields) (transferId : String)

def startMessage (chunkSize : Nat) (data : List UInt8) : Fields :=
  [("type", "DATA_START"), ("transfer_id", transferId), ("total_size", PyInt.str data.length),
    ("chunk_size", PyInt.str chunkSize), ("checksum", sha256Bytes data)] ++ baseFields

def chunkMessage (seq : Nat) (chunk : List UInt8) : Fields :=
  [("type", "DATA_CHUNK"), ("transfer_id", transferId), ("sequence_no", PyInt.str seq),
    ("chunk_b64", Base64.b64encode chunk)] ++ baseFields

def endMessage (totalChunks : Nat) : Fields :=
  [("type", "DATA_END"), ("transfer_id", transferId),
    ("total_chunks", PyInt.str totalChunks)] ++ baseFields

end Sender

/-- The slices at the offsets of `range(0, len(data), size)`. -/
def slices (size : Nat) (data : List UInt8) : List (List UInt8) :=
  (List.range ((data.length + size - 1) / size)).map (fun n => (data.drop (n * size)).take size)

/-- What `send_bytes` publishes, in order; `transfer_id` is a fresh UUID. -/
def sendBytes (size : Nat) (baseFields : Fields) (transferId : String) (data : Payload) :
    List Fields :=
  let chunks := slices size data.data
  startMessage baseFields transferId size data.data ::
    (chunks.mapIdx (chunkMessage baseFields transferId) ++
      [endMessage baseFields transferId chunks.length])

structure Start where
  transferId : String
  totalSize : Int
  checksum : String

def readStart (fields : Fields) : Except PyError Start :=
  match fields.item "transfer_id" with
  | .error e => .error e
  | .ok transferId =>
    match fields.item "total_size" >>= intOf with
    | .error e => .error e
    | .ok totalSize =>
      match fields.item "checksum" with
      | .error e => .error e
      | .ok checksum => .ok ⟨transferId, totalSize, checksum⟩

def readSequenceNo (fields : Fields) : Except PyError Int :=
  fields.item "sequence_no" >>= intOf

def readChunk (fields : Fields) : Except PyError (List UInt8) :=
  fields.item "chunk_b64" >>= b64decode

inductive Failure where
  | timeout
  | sizeMismatch (received : Nat) (expected : Option Int)
  | checksumMismatch
  deriving DecidableEq

def intText : Int → String
  | .ofNat n => PyInt.str n
  | .negSucc n => "-" ++ PyInt.str (n + 1)

def Failure.message : Failure → String
  | .timeout => "timeout waiting for transfer progress"
  | .sizeMismatch received expected =>
    "size mismatch: received " ++ PyInt.str received ++ " expected " ++
      (expected.map intText).getD "None"
  | .checksumMismatch => "checksum mismatch"

/-- How `receive_once` ends; `TransferFailed` carries the last entry read. -/
inductive Ending where
  | returned (data : List UInt8) (lastId : Nat) (transferId : Option String)
  | transferFailed (why : Failure) (lastId : Nat)
  | raised (e : PyError)
  deriving DecidableEq

/-- The local variables of `receive_once`. -/
structure Receiving where
  transferId : Option String
  totalSize : Option Int
  checksumExpected : Option String
  started : Bool
  buf : List UInt8
  seenSeq : List Int
  deadline : ℚ

structure Arrival where
  id : Nat
  fields : Fields
  now : ℚ

structure Poll where
  now : ℚ
  messages : List Arrival

def Receiving.begin (waitTimeout now : ℚ) : Receiving :=
  ⟨none, none, none, false, [], [], now + waitTimeout⟩

/-- One message; an error leaves the loop. -/
def receiveMessage (waitTimeout : ℚ) (m : Arrival) (r : Receiving) : Except Ending Receiving :=
  let mtype := m.fields.get? "type"
  if mtype = some "DATA_START" then
    match readStart m.fields with
    | .error e => .error (.raised e)
    | .ok s =>
      .ok { transferId := some s.transferId, totalSize := some s.totalSize,
            checksumExpected := some s.checksum, started := true, buf := [], seenSeq := [],
            deadline := m.now + waitTimeout }
  else if mtype = some "DATA_CHUNK" ∧ r.started = true ∧
      m.fields.get? "transfer_id" = r.transferId then
    match readSequenceNo m.fields with
    | .error e => .error (.raised e)
    | .ok seq =>
      if seq ∈ r.seenSeq then .ok r
      else match readChunk m.fields with
        | .error e => .error (.raised e)
        | .ok chunk =>
          .ok { r with seenSeq := seq :: r.seenSeq, buf := r.buf ++ chunk,
                       deadline := m.now + waitTimeout }
  else if mtype = some "DATA_END" ∧ r.started = true ∧
      m.fields.get? "transfer_id" = r.transferId then
    if some (r.buf.length : Int) ≠ r.totalSize then
      .error (.transferFailed (.sizeMismatch r.buf.length r.totalSize) m.id)
    else if some (sha256Bytes r.buf) ≠ r.checksumExpected then
      .error (.transferFailed .checksumMismatch m.id)
    else .error (.returned r.buf m.id r.transferId)
  else .ok r

/-- The messages of one XREAD answer; `last_id` follows them. -/
def receiveBatch (waitTimeout : ℚ) :
    List Arrival → Nat → Receiving → Except Ending (Nat × Receiving)
  | [], lastId, r => .ok (lastId, r)
  | m :: ms, _, r =>
    match receiveMessage waitTimeout m r with
    | .error e => .error e
    | .ok r => receiveBatch waitTimeout ms m.id r

/-- `none` while the loop is still polling. -/
def receivePolls (waitTimeout : ℚ) : List Poll → Nat → Receiving → Option Ending
  | [], _, _ => none
  | p :: ps, lastId, r =>
    if r.deadline - p.now ≤ 0 then some (.transferFailed .timeout lastId)
    else match receiveBatch waitTimeout p.messages lastId r with
      | .error e => some e
      | .ok (lastId, r) => receivePolls waitTimeout ps lastId r

/-- The BLOCK argument of XREAD for the time that remains. -/
def blockMs (remaining : ℚ) : Int := ⌊max remaining (1 / 10) * 1000⌋

def receiveOnce (waitTimeout now : ℚ) (lastId : Nat) (polls : List Poll) : Option Ending :=
  receivePolls waitTimeout polls lastId (.begin waitTimeout now)

theorem slices_take (size n : Nat) (data : List UInt8) :
    ((List.range n).map (fun i => (data.drop (i * size)).take size)).flatten =
      data.take (n * size) := by
  induction n with
  | zero => simp
  | succ n ih =>
    rw [List.range_succ, List.map_append, List.flatten_append, ih, Nat.succ_mul, List.take_add]
    simp

/-- The slices put together are the payload. -/
theorem slices_flatten {size : Nat} (positive : 0 < size) (data : List UInt8) :
    (slices size data).flatten = data := by
  have hdiv := Nat.div_add_mod (data.length + size - 1) size
  have hmod := Nat.mod_lt (data.length + size - 1) positive
  unfold slices
  rw [slices_take]
  apply List.take_of_length_le
  rw [Nat.mul_comm]
  omega

theorem slices_length_le {size : Nat} (positive : 0 < size) (data : List UInt8) :
    (slices size data).length ≤ data.length := by
  simp only [slices, List.length_map, List.length_range]
  cases data.length with
  | zero => exact Nat.le_of_eq (Nat.div_eq_of_lt (by omega))
  | succ n =>
    apply Nat.div_le_of_le_mul
    have hn : n ≤ size * n := Nat.le_mul_of_pos_left n positive
    rw [Nat.mul_succ]
    omega

end ChunkedTransfer
