import DelegateProtocol.Handlers
import DelegateProtocol.Lib.WovenTransfers

/-!
# Chunked transfers as reassembly

A message is a piece of a transfer, or none of its pieces. Both readers of
transfers, the receiver's loop and the dispatcher's output handler, do to their
variables what a reassembler does to its buffer, unless they raise; and the
messages of a sender are the pieces of one whole transfer.
-/

namespace Transfers

open ChunkedTransfer Handlers Models Reassembly Runtime Weaving WovenTransfers

/-- The header of a transfer: its declared size and checksum. -/
abbrev Header := Int × String

abbrev WirePiece := Piece String Int UInt8 Header

abbrev WireBuffer := Buffer String Int UInt8 Header

def chunkPiece (fields : Fields) (transferId : String) : WirePiece :=
  match readSequenceNo fields, readChunk fields with
  | .ok seq, .ok chunk => .chunk transferId seq chunk
  | _, _ => .other

/-- What a message is to a reassembler. -/
def pieceOf (fields : Fields) : WirePiece :=
  if fields.get? "type" = some "DATA_START" then
    match readStart fields with
    | .ok s => .start s.transferId (s.totalSize, s.checksum)
    | .error _ => .other
  else match fields.get? "transfer_id" with
    | none => .other
    | some transferId =>
      if fields.get? "type" = some "DATA_CHUNK" then chunkPiece fields transferId
      else if fields.get? "type" = some "DATA_END" then .finish transferId
      else .other

def stateOf (b : WireBuffer) : OutputState := ⟨b.id, b.header.1, b.header.2, b.bytes, b.seen⟩

/-- What the handler makes of a piece. -/
def verdictOf (s : Option WireBuffer) (p : WirePiece) : Verdict :=
  match closes s p with
  | some b => if (stateOf b).Valid then .received b.bytes b.header.2 else .validationFailed
  | none => .waiting ((advance s p).map stateOf)

section Output
variable {fields : Fields} {s : Option WireBuffer}

theorem stateOf_add (b : WireBuffer) (seq : Int) (chunk : List UInt8) :
    stateOf (b.add seq chunk) = if seq ∈ (stateOf b).seenSeq then stateOf b
      else { stateOf b with seenSeq := seq :: b.seen, buf := b.bytes ++ chunk } := by
  unfold Buffer.add
  by_cases h : seq ∈ b.seen
  · rw [if_pos h, if_pos (show seq ∈ (stateOf b).seenSeq from h)]
  · rw [if_neg h, if_neg (show seq ∉ (stateOf b).seenSeq from h)]
    rfl

/-- Anything but a start or a piece of the transfer in progress is skipped. -/
theorem verdictOf_foreign (b : WireBuffer) {p : WirePiece} (hstart : ∀ id h, p ≠ .start id h)
    (hchunk : ∀ seq chunk, p ≠ .chunk b.id seq chunk) (hfinish : p ≠ .finish b.id) :
    verdictOf (some b) p = .waiting (some (stateOf b)) := by
  cases p with
  | start id h => exact False.elim (hstart id h rfl)
  | chunk id seq chunk =>
    have hid : id ≠ b.id := by
      rintro rfl
      exact hchunk seq chunk rfl
    simp [verdictOf, closes, advance, hid]
  | finish id =>
    have hid : id ≠ b.id := by
      rintro rfl
      exact hfinish rfl
    simp [verdictOf, closes, advance, hid]
  | other => rfl

theorem outputVerdict_chunk {b : WireBuffer} (hc : fields.get? "type" = some "DATA_CHUNK")
    (hid : fields.get? "transfer_id" = some b.id) :
    (∃ e, outputVerdict fields (some (stateOf b)) = .error e) ∨
      outputVerdict fields (some (stateOf b)) =
        .ok (verdictOf (some b) (chunkPiece fields b.id)) := by
  have own : some b.id = some (stateOf b).transferId := rfl
  simp only [outputVerdict, hc, hid, chunkPiece, Option.some.injEq, String.reduceEq, if_false,
    own, and_self, if_true]
  cases readSequenceNo fields with
  | error e => exact Or.inl ⟨e, rfl⟩
  | ok seq =>
    by_cases hs : seq ∈ (stateOf b).seenSeq
    · right
      simp only [if_pos hs]
      cases readChunk fields with
      | error e => rfl
      | ok chunk => simp [verdictOf, closes, advance, stateOf_add, if_pos hs]
    · simp only [if_neg hs]
      cases readChunk fields with
      | error e => exact Or.inl ⟨e, rfl⟩
      | ok chunk =>
        right
        simp only [verdictOf, closes, advance, if_true, Option.map_some, stateOf_add, if_neg hs]
        rfl

/-- The output handler reassembles, or raises. -/
theorem outputVerdict_piece (fields : Fields) (s : Option WireBuffer) :
    (∃ e, outputVerdict fields (s.map stateOf) = .error e) ∨
      outputVerdict fields (s.map stateOf) = .ok (verdictOf s (pieceOf fields)) := by
  by_cases hstart : fields.get? "type" = some "DATA_START"
  · simp only [outputVerdict, if_pos hstart, pieceOf]
    cases hr : readStart fields with
    | error e => exact Or.inl ⟨e, rfl⟩
    | ok r =>
      right
      cases s <;> rfl
  · cases s with
    | none =>
      right
      simp only [outputVerdict, pieceOf, chunkPiece, if_neg hstart, Option.map_none]
      repeat' split
      all_goals rfl
    | some b =>
      simp only [Option.map_some, pieceOf, if_neg hstart]
      cases htid : fields.get? "transfer_id" with
      | none =>
        right
        simp [outputVerdict, hstart, htid, verdictOf, closes, advance]
      | some id =>
        by_cases hid : id = b.id
        · subst hid
          by_cases hc : fields.get? "type" = some "DATA_CHUNK"
          · simp only [if_pos hc]
            exact outputVerdict_chunk hc htid
          · right
            by_cases he : fields.get? "type" = some "DATA_END"
            · rw [outputVerdict_closes ⟨he, htid⟩]
              simp only [if_neg hc, if_pos he, verdictOf, closes, if_true]
              split <;> rfl
            · simp [outputVerdict, hstart, hc, he, verdictOf, closes, advance]
        · have hne : some id ≠ some (stateOf b).transferId := by simpa [stateOf] using hid
          right
          simp only [outputVerdict, if_neg hstart, htid, hne, and_false, if_false]
          rw [verdictOf_foreign b]
          · intro i h
            simp only [chunkPiece]
            repeat' split
            all_goals simp
          · intro seq chunk
            simp only [chunkPiece]
            repeat' split
            all_goals simp [hid]
          · simp only [chunkPiece]
            repeat' split
            all_goals simp [hid]

end Output

/-- The receiver's variables hold what the buffer holds. -/
def Matches (r : Receiving) : Option WireBuffer → Prop
  | none => r.started = false
  | some b => r.started = true ∧ r.transferId = some b.id ∧ r.totalSize = some b.header.1 ∧
      r.checksumExpected = some b.header.2 ∧ r.buf = b.bytes ∧ r.seenSeq = b.seen

/-- How a call ends whose transfer is closed by the entry `id`. -/
def endingOf (b : WireBuffer) (id : Nat) : Ending :=
  if (b.bytes.length : Int) ≠ b.header.1 then
    .transferFailed (.sizeMismatch b.bytes.length (some b.header.1)) id
  else if sha256Bytes b.bytes ≠ b.header.2 then .transferFailed .checksumMismatch id
  else .returned b.bytes id (some b.id)

/-- What the receiver's loop makes of a piece. -/
inductive Receives (s : Option WireBuffer) (p : WirePiece) (id : Nat) :
    Except Ending Receiving → Prop
  | raised {e : PyError} : Receives s p id (.error (.raised e))
  | goesOn {r : Receiving} : closes s p = none → Matches r (advance s p) → Receives s p id (.ok r)
  | ends {b : WireBuffer} : closes s p = some b → Receives s p id (.error (endingOf b id))

section Receiver
variable {waitTimeout : ℚ} {m : Arrival} {r : Receiving} {s : Option WireBuffer}

theorem Receives.skip {b : WireBuffer} {p : WirePiece} (h : Matches r (some b))
    (hstart : ∀ id h, p ≠ .start id h) (hchunk : ∀ seq chunk, p ≠ .chunk b.id seq chunk)
    (hfinish : p ≠ .finish b.id) (id : Nat) : Receives (some b) p id (.ok r) := by
  cases p with
  | start i hd => exact False.elim (hstart i hd rfl)
  | chunk i seq chunk =>
    have hid : i ≠ b.id := by
      rintro rfl
      exact hchunk seq chunk rfl
    exact .goesOn rfl (by simpa [advance, hid] using h)
  | finish i =>
    have hid : i ≠ b.id := by
      rintro rfl
      exact hfinish rfl
    exact .goesOn (by simp [closes, hid]) (by simpa [advance, hid] using h)
  | other => exact .goesOn rfl h

theorem chunkPiece_cases (fields : Fields) (id : String) :
    chunkPiece fields id = .other ∨ ∃ seq chunk, readSequenceNo fields = .ok seq ∧
      readChunk fields = .ok chunk ∧ chunkPiece fields id = .chunk id seq chunk := by
  unfold chunkPiece
  cases readSequenceNo fields with
  | error e => exact Or.inl rfl
  | ok seq =>
    cases readChunk fields with
    | error e => exact Or.inl rfl
    | ok chunk => exact Or.inr ⟨seq, chunk, rfl, rfl, rfl⟩

theorem receiveMessage_chunk {b : WireBuffer} (h : Matches r (some b))
    (hc : m.fields.get? "type" = some "DATA_CHUNK")
    (hid : m.fields.get? "transfer_id" = some b.id) :
    Receives (some b) (chunkPiece m.fields b.id) m.id (receiveMessage waitTimeout m r) := by
  obtain ⟨hstarted, htid, hsize, hsum, hbuf, hseen⟩ := h
  simp only [receiveMessage, hc, hid, hstarted, htid, Option.some.injEq, String.reduceEq, if_false,
    and_self, if_true]
  cases hs : readSequenceNo m.fields with
  | error e => exact .raised
  | ok seq =>
    by_cases hmem : seq ∈ r.seenSeq
    · simp only [if_pos hmem]
      rcases chunkPiece_cases m.fields b.id with hp | ⟨seq', chunk, hs', -, hp⟩
      · rw [hp]
        exact .goesOn rfl ⟨hstarted, htid, hsize, hsum, hbuf, hseen⟩
      · cases hs.symm.trans hs'
        rw [hp]
        refine .goesOn rfl ?_
        rw [hseen] at hmem
        simp only [advance, if_true, Buffer.add, if_pos hmem]
        exact ⟨hstarted, htid, hsize, hsum, hbuf, hseen⟩
    · simp only [if_neg hmem]
      cases hr : readChunk m.fields with
      | error e => exact .raised
      | ok chunk =>
        have hp : chunkPiece m.fields b.id = .chunk b.id seq chunk := by
          simp [chunkPiece, hs, hr]
        rw [hp]
        refine .goesOn rfl ?_
        rw [hseen] at hmem
        simp only [advance, if_true, Buffer.add, if_neg hmem]
        exact ⟨rfl, rfl, hsize, hsum, by rw [hbuf], by rw [hseen]⟩

/-- The end of the transfer that is going on ends the call. -/
theorem receiveMessage_end {b : WireBuffer} (h : Matches r (some b))
    (he : m.fields.get? "type" = some "DATA_END")
    (hf : m.fields.get? "transfer_id" = some b.id) :
    receiveMessage waitTimeout m r = .error (endingOf b m.id) := by
  obtain ⟨hstarted, htid, hsize, hsum, hbuf, -⟩ := h
  simp only [receiveMessage, he, hstarted, hf, htid, hsize, hsum, hbuf, endingOf,
    Option.some.injEq, String.reduceEq, false_and, if_false, and_self, if_true, ne_eq]
  split
  · rfl
  · split <;> rfl

/-- The receiver reassembles, or raises, until a transfer is closed. -/
theorem receiveMessage_piece (h : Matches r s) :
    Receives s (pieceOf m.fields) m.id (receiveMessage waitTimeout m r) := by
  by_cases hstart : m.fields.get? "type" = some "DATA_START"
  · simp only [receiveMessage, if_pos hstart, pieceOf]
    cases hr : readStart m.fields with
    | error e => exact .raised
    | ok start =>
      refine .goesOn ?_ ?_
      · cases s <;> rfl
      · cases s <;> exact ⟨rfl, rfl, rfl, rfl, rfl, rfl⟩
  · cases s with
    | none =>
      have hfalse : r.started = false := h
      have hskip : receiveMessage waitTimeout m r = .ok r := by
        simp [receiveMessage, hstart, hfalse]
      rw [hskip]
      simp only [pieceOf, if_neg hstart]
      refine .goesOn ?_ ?_
      · repeat' split
        all_goals rfl
      · simp only [chunkPiece]
        repeat' split
        all_goals exact h
    | some b =>
      have htid : r.transferId = some b.id := h.2.1
      simp only [pieceOf, if_neg hstart]
      cases hf : m.fields.get? "transfer_id" with
      | none =>
        have hskip : receiveMessage waitTimeout m r = .ok r := by
          simp [receiveMessage, hstart, hf, htid]
        rw [hskip]
        exact .goesOn rfl h
      | some id =>
        by_cases hid : id = b.id
        · subst hid
          by_cases hc : m.fields.get? "type" = some "DATA_CHUNK"
          · simp only [if_pos hc]
            exact receiveMessage_chunk h hc hf
          · by_cases he : m.fields.get? "type" = some "DATA_END"
            · rw [receiveMessage_end h he hf]
              simp only [if_neg hc, if_pos he]
              exact .ends (by simp [closes])
            · have hskip : receiveMessage waitTimeout m r = .ok r := by
                simp [receiveMessage, hstart, hc, he]
              rw [hskip]
              simp only [if_neg hc, if_neg he]
              exact .goesOn rfl h
        · have hskip : receiveMessage waitTimeout m r = .ok r := by
            simp [receiveMessage, hstart, hf, htid, hid]
          rw [hskip]
          apply Receives.skip h
          · intro i hd
            simp only [chunkPiece]
            repeat' split
            all_goals simp
          · intro seq chunk
            simp only [chunkPiece]
            repeat' split
            all_goals simp [hid]
          · simp only [chunkPiece]
            repeat' split
            all_goals simp [hid]

end Receiver

section Sender
variable (base : Fields) (transferId : String)

theorem pieceOf_start (size : Nat) (data : Payload) :
    pieceOf (startMessage base transferId size data.data) =
      .start transferId ((data.data.length : Int), sha256Bytes data.data) := by
  have hsize := intOf_str data.fits
  simp [pieceOf, readStart, startMessage, Fields.get?, Fields.item, List.lookup_cons, hsize, bind,
    Except.bind]

theorem pieceOf_chunk {seq : Nat} (h : seq ≤ maxsize) (chunk : List UInt8) :
    pieceOf (chunkMessage base transferId seq chunk) = .chunk transferId (seq : Int) chunk := by
  have hseq := intOf_str h
  have hchunk := b64decode_b64encode chunk
  simp [pieceOf, chunkPiece, readSequenceNo, readChunk, chunkMessage, Fields.get?, Fields.item,
    List.lookup_cons, hseq, hchunk, bind, Except.bind]

theorem pieceOf_end (total : Nat) : pieceOf (endMessage base transferId total) = .finish transferId := by
  simp [pieceOf, endMessage, Fields.get?, List.lookup_cons]

/-- What a sender publishes is one whole transfer of its payload. -/
theorem sendBytes_pieces {size : Nat} (positive : 0 < size) (data : Payload) :
    (sendBytes size base transferId data).map pieceOf =
      sends (fun n => (n : Int)) ⟨transferId, ((data.data.length : Int), sha256Bytes data.data),
        slices size data.data⟩ := by
  have hchunks : ((slices size data.data).mapIdx (chunkMessage base transferId)).map pieceOf =
      (slices size data.data).mapIdx (fun n bytes => Piece.chunk transferId (n : Int) bytes) := by
    apply List.ext_getElem?
    intro n
    simp only [List.getElem?_map, List.getElem?_mapIdx, Option.map_map]
    cases hn : (slices size data.data)[n]? with
    | none => rfl
    | some chunk =>
      have hlt := (List.getElem?_eq_some_iff.mp hn).1
      have hle := slices_length_le positive data.data
      have hseq : n ≤ maxsize := Nat.le_trans (Nat.le_trans hlt.le hle) data.fits
      exact congrArg some (pieceOf_chunk base transferId hseq chunk)
  simp only [sendBytes, List.map_cons, List.map_append, pieceOf_start, hchunks, pieceOf_end,
    List.map_nil, sends, chunkPieces]

end Sender

end Transfers
