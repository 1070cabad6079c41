import DelegateProtocol.Transfers

/-!
# Overlapping transfers

Several senders publish into one stream. Their messages interleave, chunks may
be repeated, and messages of other types stand anywhere between them. Both
readers of transfers still only ever complete one of the transfers.
-/

namespace OverlappingTransfers

open ChunkedTransfer Handlers Models Reassembly Runtime Transfers Weaving WovenTransfers

/-- A call of `send_bytes`. -/
structure Sending where
  chunkSize : Nat
  positive : 0 < chunkSize
  baseFields : Fields
  transferId : String
  payload : Payload

def Sending.messages (s : Sending) : List Fields :=
  sendBytes s.chunkSize s.baseFields s.transferId s.payload

def Sending.transfer (s : Sending) : Transfer String UInt8 Header :=
  ⟨s.transferId, ((s.payload.data.length : Int), sha256Bytes s.payload.data),
    slices s.chunkSize s.payload.data⟩

def Sending.end (s : Sending) : Fields :=
  endMessage s.baseFields s.transferId (slices s.chunkSize s.payload.data).length

def IsChunkMessage (fields : Fields) : Prop := fields.get? "type" = some "DATA_CHUNK"

/-- A message of a type no transfer has. -/
def IsForeign (fields : Fields) : Prop :=
  fields.get? "type" ≠ some "DATA_START" ∧ fields.get? "type" ≠ some "DATA_CHUNK" ∧
    fields.get? "type" ≠ some "DATA_END"

/-- A message that can be read if it is a start or a chunk. -/
def Readable (fields : Fields) : Prop :=
  fields.get? "type" = some "DATA_START" ∨ fields.get? "type" = some "DATA_CHUNK" →
    pieceOf fields ≠ .other

section Readable
variable {fields : Fields}

theorem Readable.start (h : Readable fields) (ht : fields.get? "type" = some "DATA_START") :
    ∃ s, readStart fields = .ok s := by
  cases hs : readStart fields with
  | ok s => exact ⟨s, rfl⟩
  | error e => exact False.elim (h (Or.inl ht) (by simp [pieceOf, ht, hs]))

theorem Readable.chunk (h : Readable fields) (ht : fields.get? "type" = some "DATA_CHUNK") :
    ∃ seq chunk, readSequenceNo fields = .ok seq ∧ readChunk fields = .ok chunk := by
  cases hid : fields.get? "transfer_id" with
  | none => exact False.elim (h (Or.inr ht) (by simp [pieceOf, ht, hid]))
  | some id =>
    rcases chunkPiece_cases fields id with hp | ⟨seq, chunk, hs, hc, -⟩
    · exact False.elim (h (Or.inr ht) (by simp [pieceOf, ht, hid, hp]))
    · exact ⟨seq, chunk, hs, hc⟩

theorem outputVerdict_readable (h : Readable fields) (s : Option WireBuffer) :
    outputVerdict fields (s.map stateOf) = .ok (verdictOf s (pieceOf fields)) := by
  rcases outputVerdict_piece fields s with ⟨e, he⟩ | hv
  · exfalso
    unfold outputVerdict at he
    by_cases ht : fields.get? "type" = some "DATA_START"
    · obtain ⟨r, hr⟩ := h.start ht
      simp [ht, hr] at he
    · by_cases hc : fields.get? "type" = some "DATA_CHUNK"
      · obtain ⟨seq, chunk, hs, hr⟩ := h.chunk hc
        simp only [hc, Option.some.injEq, String.reduceEq, if_false, hs, hr, true_and,
          false_and] at he
        repeat' split at he
        all_goals cases he
      · simp only [if_neg ht, hc, false_and, if_false] at he
        repeat' split at he
        all_goals cases he
  · exact hv

theorem receiveMessage_readable {waitTimeout : ℚ} {m : Arrival} {r : Receiving}
    (h : Readable m.fields) (e : PyError) :
    receiveMessage waitTimeout m r ≠ .error (.raised e) := by
  intro he
  unfold receiveMessage at he
  by_cases ht : m.fields.get? "type" = some "DATA_START"
  · obtain ⟨s, hs⟩ := h.start ht
    simp [ht, hs] at he
  · by_cases hc : m.fields.get? "type" = some "DATA_CHUNK"
    · obtain ⟨seq, chunk, hs, hr⟩ := h.chunk hc
      simp only [hc, Option.some.injEq, String.reduceEq, if_false, hs, hr, true_and,
        false_and] at he
      repeat' split at he
      all_goals cases he
    · simp only [if_neg ht, hc, false_and, if_false] at he
      repeat' split at he
      all_goals cases he

theorem readable_foreign (h : IsForeign fields) : Readable fields := by
  rintro (ht | ht)
  · exact False.elim (h.1 ht)
  · exact False.elim (h.2.1 ht)

theorem pieceOf_foreign (h : IsForeign fields) : pieceOf fields = .other := by
  obtain ⟨hs, hc, he⟩ := h
  simp only [pieceOf, if_neg hs, if_neg hc, if_neg he]
  split <;> rfl

end Readable

def pieces (ms : List Arrival) : List WirePiece := ms.map (fun m => pieceOf m.fields)

section Receiver
variable {waitTimeout : ℚ} {r : Receiving} {s : Option WireBuffer}

/-- Where the cursor stands after a batch. -/
def lastOf (lastId : Nat) (ms : List Arrival) : Nat := (ms.getLast?.map Arrival.id).getD lastId

theorem lastOf_cons (lastId : Nat) (m : Arrival) (ms : List Arrival) :
    lastOf lastId (m :: ms) = lastOf m.id ms := by
  cases ms with
  | nil => rfl
  | cons m' ms => simp [lastOf, List.getLast?_cons]

theorem lastOf_cases (lastId : Nat) (ms : List Arrival) :
    lastOf lastId ms = lastId ∨ ∃ m ∈ ms, lastOf lastId ms = m.id := by
  unfold lastOf
  cases h : ms.getLast? with
  | none => exact Or.inl rfl
  | some m => exact Or.inr ⟨m, List.mem_of_getLast? h, rfl⟩

/-- The messages of a batch the loop gets to, the one that ends the call included. -/
def processed (waitTimeout : ℚ) : List Arrival → Receiving → List Arrival
  | [], _ => []
  | m :: ms, r =>
    match receiveMessage waitTimeout m r with
    | .error _ => [m]
    | .ok r => m :: processed waitTimeout ms r

/-- A batch is read to its end with nothing closed, or up to the message that
closes a buffer. -/
theorem receiveBatch_split {ms : List Arrival} (readable : ∀ m ∈ ms, Readable m.fields)
    (h : Matches r s) (lastId : Nat) :
    (∃ r', receiveBatch waitTimeout ms lastId r = .ok (lastOf lastId ms, r') ∧
      closings s (pieces ms) = [] ∧ Matches r' ((pieces ms).foldl advance s) ∧
      processed waitTimeout ms r = ms) ∨
    (∃ pre m post b, ms = pre ++ m :: post ∧ closings s (pieces pre) = [] ∧
      closes ((pieces pre).foldl advance s) (pieceOf m.fields) = some b ∧
      receiveBatch waitTimeout ms lastId r = .error (endingOf b m.id) ∧
      processed waitTimeout ms r = pre ++ [m]) := by
  induction ms generalizing r s lastId with
  | nil => exact Or.inl ⟨r, rfl, rfl, h, rfl⟩
  | cons m ms ih =>
    have hm := readable m (List.mem_cons_self ..)
    have hms : ∀ x ∈ ms, Readable x.fields := fun x hx => readable x (List.mem_cons_of_mem _ hx)
    have hstep := @receiveMessage_piece waitTimeout m r s h
    cases hr : receiveMessage waitTimeout m r with
    | error e =>
      rw [hr] at hstep
      cases hstep with
      | raised => exact False.elim (receiveMessage_readable hm _ hr)
      | @ends b hb =>
        exact Or.inr ⟨[], m, ms, b, rfl, rfl, hb, by simp only [receiveBatch, hr],
          by simp only [processed, hr, List.nil_append]⟩
    | ok r' =>
      rw [hr] at hstep
      cases hstep with
      | goesOn hnone hmatch =>
        rcases ih hms hmatch m.id with
          ⟨r'', hb, hc, hm', hp⟩ | ⟨pre, x, post, b, rfl, hc, hx, hb, hp⟩
        · refine Or.inl ⟨r'', by simp only [receiveBatch, hr, hb, lastOf_cons], ?_, hm',
            by simp only [processed, hr, hp]⟩
          simp only [pieces, List.map_cons, closings, hnone]
          exact hc
        · refine Or.inr ⟨m :: pre, x, post, b, rfl, ?_, hx, by simp only [receiveBatch, hr, hb],
            by simp only [processed, hr, hp, List.cons_append]⟩
          simp only [pieces, List.map_cons, closings, hnone]
          exact hc

end Receiver

theorem handleOutputMessage_open {host : Host} {execution : Named} {m : Fields}
    (readable : Readable m) {s : Option WireBuffer} (hc : closes s (pieceOf m) = none)
    (store : Store) :
    handleOutputMessage host execution m (s.map stateOf) store =
      .ok (store, (advance s (pieceOf m)).map stateOf) := by
  simp only [handleOutputMessage, outputVerdict_readable readable s, verdictOf, hc]

section Woven
variable {k : Nat} {sendings : Fin k → Sending} {w : List Fields}

/-- The senders' messages as they may stand in one stream. -/
def Overlap (sendings : Fin k → Sending) (w : List Fields) : Prop :=
  Woven (fun i => (sendings i).messages) IsChunkMessage IsForeign w

/-- A message of the stream is foreign or one of a sender's. -/
theorem overlap_cases (h : Overlap sendings w) {m : Fields} (hm : m ∈ w) :
    IsForeign m ∨ ∃ i, m ∈ (sendings i).messages := by
  rcases Weave.mem h hm with hf | ⟨i, n, -, hn⟩
  · exact Or.inl hf
  · exact Or.inr ⟨i, List.mem_of_getElem? hn⟩

theorem messages_pieces (s : Sending) :
    s.messages.map pieceOf = sends (fun n => (n : Int)) s.transfer :=
  sendBytes_pieces s.baseFields s.transferId s.positive s.payload

theorem messages_cases {s : Sending} {m : Fields} (hm : m ∈ s.messages) :
    m = startMessage s.baseFields s.transferId s.chunkSize s.payload.data ∨
      (∃ seq chunk, seq ≤ maxsize ∧ m = chunkMessage s.baseFields s.transferId seq chunk) ∨
      m = s.end := by
  simp only [Sending.messages, sendBytes, List.mem_cons, List.mem_append, List.not_mem_nil,
    or_false] at hm
  rcases hm with rfl | hm | rfl
  · exact Or.inl rfl
  · obtain ⟨n, hn, rfl⟩ := List.mem_mapIdx.mp hm
    have hle := slices_length_le s.positive s.payload.data
    exact Or.inr (Or.inl ⟨n, _, by have := s.payload.fits; omega, rfl⟩)
  · exact Or.inr (Or.inr rfl)

theorem messages_readable {s : Sending} {m : Fields} (hm : m ∈ s.messages) : Readable m := by
  rcases messages_cases hm with rfl | ⟨seq, chunk, hseq, rfl⟩ | rfl
  · intro _
    simp [pieceOf_start]
  · intro _
    simp [pieceOf_chunk _ _ hseq]
  · rintro (ht | ht) <;> simp [Sending.end, endMessage, Fields.get?] at ht

theorem overlap_readable (h : Overlap sendings w) : ∀ m ∈ w, Readable m := by
  intro m hm
  rcases overlap_cases h hm with hf | ⟨i, hi⟩
  · exact readable_foreign hf
  · exact messages_readable hi

theorem natCast_injective : ∀ m n : Nat, (m : Int) = (n : Int) → m = n := by
  intro m n h
  omega

theorem whole_bytes (s : Sending) :
    (whole (fun n => (n : Int)) s.transfer).bytes = s.payload.data := by
  simp [whole, filled, Sending.transfer, slices_flatten s.positive]

theorem whole_valid (s : Sending) : (stateOf (whole (fun n => (n : Int)) s.transfer)).Valid := by
  constructor
  · change ((whole (fun n => (n : Int)) s.transfer).bytes.length : Int) = _
    rw [whole_bytes]
    rfl
  · change sha256Bytes (whole (fun n => (n : Int)) s.transfer).bytes = _
    rw [whole_bytes]
    rfl

theorem whole_ending (s : Sending) (id : Nat) :
    endingOf (whole (fun n => (n : Int)) s.transfer) id =
      .returned s.payload.data id (some s.transferId) := by
  have hsize : (s.payload.data.length : Int) =
      (whole (fun n => (n : Int)) s.transfer).header.1 := rfl
  have hsum : sha256Bytes s.payload.data = (whole (fun n => (n : Int)) s.transfer).header.2 := rfl
  simp only [endingOf, whole_bytes, ← hsize, ← hsum, ne_eq, not_true_eq_false, if_false]
  rfl

/-- Three bytes in two chunks, and an empty payload. -/
def twoSendings : Fin 2 → Sending
  | 0 => ⟨2, by decide, [], "t0", threeBytes⟩
  | 1 => ⟨1, by decide, [], "t1", ⟨[], by decide⟩⟩

/-- The second transfer overtakes the first, whose first chunk comes twice. -/
def twoOverlapping : List Fields :=
  let first := (twoSendings 0).messages
  let second := (twoSendings 1).messages
  first.take 2 ++ second.take 1 ++ (first.drop 1).take 1 ++ [[("type", "LOG")]] ++
    second.drop 1 ++ first.drop 2

theorem twoOverlapping_overlap : Overlap twoSendings twoOverlapping := by
  have start : Weave (fun i => (twoSendings i).messages) IsChunkMessage IsForeign _ [] := .nil
  have first := (start.next 0 rfl).next 0 rfl
  have restarted := first.next 1 rfl
  have copied := restarted.again (List.mem_append_left _ (List.mem_append_right _
    (List.mem_singleton_self _))) (show IsChunkMessage _ from rfl)
  have logged := copied.alien
    (show IsForeign [("type", "LOG")] from ⟨by decide, by decide, by decide⟩)
  have all := ((logged.next 1 rfl).next 0 rfl).next 0 rfl
  apply all.woven
  intro i
  match i with
  | 0 => rfl
  | 1 => rfl

end Woven

end OverlappingTransfers
