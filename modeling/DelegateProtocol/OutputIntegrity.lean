import DelegateProtocol.TerminalStatus
import DelegateProtocol.Transfers

/-!
# What SUCCEEDED vouches for

A watcher sets SUCCEEDED only when a transfer on the output stream is complete.
Whatever else it handles before or after, a row that says SUCCEEDED names a file
with the recorded checksum, and the file is what one transfer carried.
-/

namespace OutputIntegrity

open ChunkedTransfer Handlers Models Reassembly Runtime StepMachine Streams TerminalStatus Transfers
  WatchExecution ReadingOrder

/-- The messages of the output stream a run has handled, in order. -/
def outputs (o : List Seen) : List Fields := (handledOf .output o).map Prod.snd

/-- The bytes are those of one transfer among the messages: the first copies of
its chunks between its DATA_START, behind which no other one stands, and its
DATA_END. -/
def Transferred (ms : List Fields) (data : List UInt8) (checksum : String) : Prop :=
  ∃ pre start mid fin post id, ms = pre ++ start :: (mid ++ fin :: post) ∧
    start.get? "type" = some "DATA_START" ∧
    readStart start = .ok ⟨id, (data.length : Int), checksum⟩ ∧
    (∀ m ∈ mid, m.get? "type" ≠ some "DATA_START") ∧
    fin.get? "type" = some "DATA_END" ∧ fin.get? "transfer_id" = some id ∧
    data = content (copiesOf id (mid.map pieceOf))

def Stored (s : System) (o : List Seen) (e : Execution) : Prop :=
  ∃ data, s.world.store.media e.outputPath = some data ∧
    sha256Bytes data = e.outputChecksum ∧ Transferred (outputs o) data e.outputChecksum

theorem outputs_append (o o' : List Seen) : outputs (o ++ o') = outputs o ++ outputs o' := by
  simp [outputs, handledOf_append]

theorem Transferred.append {ms : List Fields} {data : List UInt8} {checksum : String}
    (h : Transferred ms data checksum) (ms' : List Fields) :
    Transferred (ms ++ ms') data checksum := by
  obtain ⟨pre, start, mid, fin, post, id, rfl, rest⟩ := h
  exact ⟨pre, start, mid, fin, post ++ ms', id, by simp, rest⟩

/-- A piece that starts a transfer is a readable DATA_START. -/
theorem pieceOf_eq_start {fields : Fields} {id : String} {header : Header}
    (h : pieceOf fields = .start id header) :
    fields.get? "type" = some "DATA_START" ∧ readStart fields = .ok ⟨id, header.1, header.2⟩ := by
  unfold pieceOf at h
  by_cases ht : fields.get? "type" = some "DATA_START"
  · rw [if_pos ht] at h
    cases hr : readStart fields with
    | error e => simp [hr] at h
    | ok s =>
      simp only [hr, Piece.start.injEq] at h
      obtain ⟨rfl, rfl⟩ := h
      exact ⟨ht, rfl⟩
  · rw [if_neg ht] at h
    simp only [chunkPiece] at h
    repeat' split at h
    all_goals cases h

theorem pieceOf_closes {fields : Fields} {b : WireBuffer} (h : Closes fields (stateOf b)) :
    pieceOf fields = .finish b.id := by
  obtain ⟨ht, hid⟩ := h
  have hid' : fields.get? "transfer_id" = some b.id := hid
  simp [pieceOf, ht, hid']

/-- What the reassembler holds when a message closes it was carried by one transfer. -/
theorem transferred_of_closes {ms : List Fields} {fin : Fields} {b : WireBuffer}
    (readable : ∀ m ∈ ms, m.get? "type" = some "DATA_START" → ∃ s, readStart m = .ok s)
    (held : after (ms.map pieceOf) = some b) (hc : Closes fin (stateOf b))
    (size : (b.bytes.length : Int) = b.header.1) :
    Transferred (ms ++ [fin]) b.bytes b.header.2 := by
  obtain ⟨pre, mid, hsplit, since⟩ := after_eq_some held
  obtain ⟨pre', rest, rfl, -, hrest⟩ := List.map_eq_append_iff.mp hsplit
  obtain ⟨start, mid', rfl, hstart, rfl⟩ := List.map_eq_cons_iff.mp hrest
  obtain ⟨htype, hread⟩ := pieceOf_eq_start hstart
  refine ⟨pre', start, mid', fin, [], b.id, by simp, htype, ?_, ?_, hc.1, hc.2, since.bytes⟩
  · rw [hread, size]
  · intro m hm ht
    obtain ⟨s, hs⟩ := readable m (by simp [hm]) ht
    have hp : pieceOf m = .start s.transferId (s.totalSize, s.checksum) := by
      simp [pieceOf, ht, hs]
    apply since.no_start s.transferId (s.totalSize, s.checksum)
    rw [← hp]
    exact List.mem_map_of_mem hm

/-- The handler's state is what the messages so far leave in a reassembler. -/
structure Follows (s : System) (o : List Seen) : Prop where
  state : s.watch.outputState = (after ((outputs o).map pieceOf)).map stateOf
  readable : ∀ m ∈ outputs o, m.get? "type" = some "DATA_START" → ∃ r, readStart m = .ok r

structure Sound (host : Host) (s : System) (o : List Seen) : Prop where
  follows : Raised s ∨ Follows s o
  stored : ∀ e, s.row = some e → e.status = .succeeded →
    e.outputPath = outPath host s.watch.execution ∧ Stored s o e

section Steps
variable {host : Host} {s t : System} {a : Act} {o o' : List Seen}

theorem Stored.later {e : Execution} (h : Stored s o e)
    (media : t.world.store.media e.outputPath = s.world.store.media e.outputPath) :
    Stored t (o ++ o') e := by
  obtain ⟨data, hfile, hsum, htr⟩ := h
  refine ⟨data, by rw [media]; exact hfile, hsum, ?_⟩
  rw [outputs_append]
  exact htr.append _

/-- Handling an output message keeps the handler's state in step. -/
theorem Follows.output (hf : Follows s o) {m : Message} (hk : m.kind = .output)
    {state : Option OutputState}
    (h : ∃ verdict, outputVerdict m.fields s.watch.outputState = .ok verdict ∧
      (verdict = .waiting state ∨ ((∀ x, verdict ≠ .waiting x) ∧ state = none)))
    (ht : t.watch.outputState = state) : Follows t (o ++ [.handled m]) := by
  obtain ⟨verdict, hv, hcase⟩ := h
  have houts : outputs (o ++ [.handled m]) = outputs o ++ [m.fields] := by
    rw [outputs_append]
    simp [outputs, handledOf, hk]
  have hafter : after ((outputs o ++ [m.fields]).map pieceOf) =
      advance (after ((outputs o).map pieceOf)) (pieceOf m.fields) := by
    rw [List.map_append, List.map_singleton, after_snoc]
  have hpiece := outputVerdict_piece m.fields (after ((outputs o).map pieceOf))
  rw [← hf.state, hv] at hpiece
  have hverdict : verdict = verdictOf (after ((outputs o).map pieceOf)) (pieceOf m.fields) := by
    rcases hpiece with ⟨e, he⟩ | he
    · cases he
    · exact Except.ok.inj he
  constructor
  · rw [ht, houts, hafter]
    cases hc : closes (after ((outputs o).map pieceOf)) (pieceOf m.fields) with
    | none =>
      simp only [verdictOf, hc] at hverdict
      rcases hcase with hw | ⟨hn, -⟩
      · rw [hverdict] at hw
        exact (Verdict.waiting.inj hw).symm
      · exact False.elim (hn _ hverdict)
    | some b =>
      rcases hcase with hw | ⟨-, hn⟩
      · rw [hw] at hverdict
        simp only [verdictOf, hc] at hverdict
        by_cases hvalid : (stateOf b).Valid
        · simp [hvalid] at hverdict
        · simp [hvalid] at hverdict
      · rw [hn, advance_closes hc]
        rfl
  · rw [houts]
    intro x hx htype
    rcases List.mem_append.mp hx with hx | hx
    · exact hf.readable x hx htype
    · obtain rfl := List.mem_singleton.mp hx
      cases hr : readStart m.fields with
      | ok r => exact ⟨r, rfl⟩
      | error e => simp [outputVerdict, htype, hr] at hv

theorem Sound.frame (hi : Sound host s o) (live : ¬ Raised s ∨ Raised t) (hrow : t.row = s.row)
    (hexec : t.watch.execution = s.watch.execution)
    (hmedia : t.world.store.media (outPath host s.watch.execution) =
      s.world.store.media (outPath host s.watch.execution))
    (hstate : t.watch.outputState = s.watch.outputState) (hout : outputs o' = []) :
    Sound host t (o ++ o') := by
  have houts : outputs (o ++ o') = outputs o := by
    rw [outputs_append, hout, List.append_nil]
  constructor
  · rcases hi.follows with hr | hf
    · rcases live with hl | hl
      · exact False.elim (hl hr)
      · exact Or.inl hl
    · right
      exact ⟨by rw [hstate, houts]; exact hf.state, by rw [houts]; exact hf.readable⟩
  · intro e he hs
    rw [hrow] at he
    obtain ⟨hpath, hst⟩ := hi.stored e he hs
    rw [← hpath] at hmedia
    exact ⟨by rw [hexec]; exact hpath, hst.later hmedia⟩

/-- A valid output that is written is stored as one transfer carried it. -/
theorem Sound.received (hi : Sound host s o) (live : ¬ Raised s) {m : Message} {data : List UInt8}
    {checksum : String} (hk : m.kind = .output)
    (hv : outputVerdict m.fields s.watch.outputState = .ok (.received data checksum))
    (hexec : t.watch.execution = s.watch.execution) (hstate : t.watch.outputState = none)
    (hstore : t.world.store = acceptOutput host s.watch.execution data checksum s.world.store) :
    Sound host t (o ++ [.handled m]) := by
  rcases hi.follows with hr | hf
  · exact False.elim (live hr)
  · constructor
    · right
      exact hf.output hk ⟨_, hv, Or.inr ⟨by simp, rfl⟩⟩ hstate
    · intro e he _
      rw [System.row, hexec, hstore, acceptOutput_row] at he
      obtain ⟨e₀, -, rfl⟩ := Option.map_eq_some_iff.mp he
      obtain ⟨state, hs, hc, valid, rfl, rfl⟩ := outputVerdict_received hv
      rw [hf.state] at hs
      obtain ⟨b, hb, rfl⟩ := Option.map_eq_some_iff.mp hs
      have htr := transferred_of_closes hf.readable hb hc valid.1
      refine ⟨by rw [hexec], b.bytes, ?_, valid.2, ?_⟩
      · rw [hstore]
        simp [acceptOutput, stateOf]
      · rw [outputs_append]
        simpa [outputs, handledOf, hk, stateOf] using htr

theorem Sound.message (hi : Sound host s o) (live : ¬ Raised s) {m : Message} {store : Store}
    {logSeq : Nat} {state : Option OutputState}
    (h : Effects host s.watch m s.world.store store logSeq state)
    (hexec : t.watch.execution = s.watch.execution) (hstate : t.watch.outputState = state)
    (hstore : t.world.store = store) : Sound host t (o ++ [.handled m]) := by
  have none_of (hk : m.kind ≠ .output) : outputs [.handled m] = [] := by simp [outputs, handledOf, hk]
  cases h with
  | skip hk _ _ =>
    refine hi.frame (Or.inl live) ?_ hexec ?_ hstate (none_of hk)
    · rw [System.row, hexec, hstore]
      rfl
    · rw [hstore]
  | log hk _ =>
    refine hi.frame (Or.inl live) ?_ hexec ?_ hstate (none_of (by simp [hk]))
    · rw [System.row, hexec, hstore]
      rfl
    · rw [hstore]
  | status hk _ =>
    have hout := none_of (by simp [hk])
    have houts : outputs (o ++ [.handled m]) = outputs o := by
      rw [outputs_append, hout, List.append_nil]
    constructor
    · rcases hi.follows with hr | hf
      · exact False.elim (live hr)
      · right
        exact ⟨by rw [hstate, houts]; exact hf.state, by rw [houts]; exact hf.readable⟩
    · intro e he hsucc
      rw [System.row, hexec, hstore, handleStatus_row] at he
      obtain ⟨e₀, he₀, rfl⟩ := Option.map_eq_some_iff.mp he
      cases hn : newStatus m.fields with
      | none =>
        have hsucc₀ : e₀.status = .succeeded := by simpa [hn] using hsucc
        obtain ⟨hpath, hst⟩ := hi.stored e₀ he₀ hsucc₀
        refine ⟨by rw [hexec]; exact hpath, Stored.later (e := e₀) hst ?_⟩
        rw [hstore, handleStatus_media]
      | some status =>
        have hs : status = .succeeded := by simpa [hn] using hsucc
        rw [hs] at hn
        exact False.elim (newStatus_ne_succeeded hn)
  | waiting hk hv =>
    rcases hi.follows with hr | hf
    · exact False.elim (live hr)
    · constructor
      · right
        exact hf.output hk ⟨_, hv, Or.inl rfl⟩ hstate
      · intro e he hsucc
        rw [System.row, hexec, hstore] at he
        obtain ⟨hpath, hst⟩ := hi.stored e he hsucc
        refine ⟨by rw [hexec]; exact hpath, hst.later ?_⟩
        rw [hstore]
  | received hk hv _ => exact hi.received live hk hv hexec hstate hstore
  | failed hk hv =>
    rcases hi.follows with hr | hf
    · exact False.elim (live hr)
    · constructor
      · right
        exact hf.output hk ⟨_, hv, Or.inr ⟨by simp, rfl⟩⟩ hstate
      · intro e he hsucc
        rw [System.row, hexec, hstore, rejectOutput_row] at he
        obtain ⟨e₀, -, rfl⟩ := Option.map_eq_some_iff.mp he
        cases hsucc

theorem Sound.moves (hi : Sound host s o) {input : Input} {world : World} {watch : Watch}
    (h : Moves host s.world s.watch input world watch o') : Sound host ⟨world, watch⟩ (o ++ o') := by
  have live : ¬ Raised s := by
    rintro ⟨e, he⟩
    exact moves_live h _ he
  cases h with
  | message hp _ he => exact hi.message live (effect_ok he) rfl rfl rfl
  | messageRaised hp _ _ =>
    constructor
    · exact Or.inl ⟨_, rfl⟩
    · intro e he hs
      obtain ⟨hpath, hst⟩ := hi.stored e he hs
      exact ⟨hpath, hst.later rfl⟩
  | @saved request grant transferId rest db hp hs =>
    have houts : outputs (o ++ [.answered request grant transferId]) = outputs o := by
      rw [outputs_append]
      exact List.append_nil _
    constructor
    · rcases hi.follows with hr | hf
      · exact False.elim (live hr)
      · right
        exact ⟨by rw [houts]; exact hf.state, by rw [houts]; exact hf.readable⟩
    · intro e he hsucc
      have hrow : db.execution s.watch.execution.id = some e := he
      rw [(saveTransfer_ok hs).1] at hrow
      obtain ⟨e₀, -, rfl⟩ := Option.map_eq_some_iff.mp hrow
      cases hsucc
  | requestRowGone _ hm _ =>
    exact hi.frame (Or.inl live) rfl rfl rfl rfl (by simp [outputs, handledOf, hm.1])
  | request _ hm _ =>
    exact hi.frame (Or.inl live) rfl rfl rfl rfl (by simp [outputs, handledOf, hm.1])
  | _ => exact hi.frame (Or.inl live) rfl rfl rfl rfl rfl

theorem Sound.step (hi : Sound host s o) (h : (watching host).step s a = some (t, o')) :
    Sound host t (o ++ o') := by
  cases a with
  | watcher input => exact hi.moves (watching_watcher h)
  | publish key fields =>
    obtain ⟨rfl, rfl⟩ := watching_publish h
    refine hi.frame ?_ rfl rfl rfl rfl rfl
    by_cases hr : Raised s
    · exact Or.inr hr
    · exact Or.inl hr
  | others store =>
    obtain ⟨hl, rfl, rfl⟩ := watching_others h
    refine hi.frame ?_ hl.1 rfl hl.2.2 rfl rfl
    by_cases hr : Raised s
    · exact Or.inr hr
    · exact Or.inl hr

/-- A step that handles a status message finds SUCCEEDED or does not leave it. -/
theorem moves_status {input : Input} {world : World} {watch : Watch}
    (h : Moves host s.world s.watch input world watch o') {m : Message}
    (hm : Seen.handled m ∈ o') (hk : m.kind = .status) {e : Execution}
    (hrow : world.store.db.execution s.watch.execution.id = some e)
    (hs : e.status = .succeeded) : ∃ e', s.row = some e' ∧ e'.status = .succeeded := by
  cases h with
  | requestRowGone _ hreq _ =>
    obtain rfl := Seen.handled.inj (List.mem_singleton.mp hm)
    exact ⟨e, hrow, hs⟩
  | request _ hreq _ =>
    obtain rfl := Seen.handled.inj (List.mem_singleton.mp hm)
    exact ⟨e, hrow, hs⟩
  | messageRaised _ _ _ => exact ⟨e, hrow, hs⟩
  | message _ _ he =>
    obtain rfl := Seen.handled.inj (List.mem_singleton.mp hm)
    cases effect_ok he with
    | skip _ _ _ => exact ⟨e, hrow, hs⟩
    | log hk' _ => simp [hk] at hk'
    | status _ _ =>
      have hrow' := hrow
      rw [handleStatus_row] at hrow'
      obtain ⟨e₀, he₀, rfl⟩ := Option.map_eq_some_iff.mp hrow'
      cases hn : newStatus m.fields with
      | none => exact ⟨e₀, he₀, by simpa [hn] using hs⟩
      | some status =>
        have hsucc : status = .succeeded := by simpa [hn] using hs
        rw [hsucc] at hn
        exact False.elim (newStatus_ne_succeeded hn)
    | waiting hk' _ => simp [hk] at hk'
    | received hk' _ _ => simp [hk] at hk'
    | failed hk' _ => simp [hk] at hk'
  | _ => simp at hm

end Steps

section Runs
variable {host : Host} {world : World} {execution : Named} {keys : Keys}

theorem sound_run {ok : System → Act → Prop}
    (fresh : ∀ e, world.store.db.execution execution.id = some e → e.status ≠ .succeeded)
    {as : List Act} {s : System} {o : List Seen}
    (h : Run (watching host) ok ⟨world, .start execution keys⟩ as s o) : Sound host s o := by
  refine h.invariant (fun s o => Sound host s o) ⟨Or.inr ⟨rfl, by simp [outputs, handledOf]⟩, ?_⟩ ?_
  · intro e he hs
    exact False.elim (fresh e he hs)
  · intro s o a t o' hi _ hs
    exact hi.step hs

/-- Where a row was not SUCCEEDED when its watcher began and is now, it names a
file with the recorded checksum whose bytes one transfer carried; and no status
message ever makes it SUCCEEDED. -/
theorem succeeded_stores_transfer
    (fresh : ∀ e, world.store.db.execution execution.id = some e → e.status ≠ .succeeded)
    {as : List Act} {s : System} {o : List Seen}
    (h : Run (watching host) Free ⟨world, .start execution keys⟩ as s o) :
    (∀ e, s.row = some e → e.status = .succeeded → Stored s o e) ∧
    (∀ a t o' m, (watching host).step s a = some (t, o') → Seen.handled m ∈ o' →
      m.kind = .status → ∀ e, t.row = some e → e.status = .succeeded →
      ∃ e', s.row = some e' ∧ e'.status = .succeeded) := by
  have sound := sound_run fresh h
  constructor
  · intro e he hs
    exact (sound.stored e he hs).2
  · intro a t o' m hstep hm hk e he hs
    cases a with
    | watcher input =>
      have hmoves := watching_watcher hstep
      rw [System.row, (moves_same hmoves).1] at he
      exact moves_status hmoves hm hk he hs
    | publish key fields =>
      obtain ⟨-, rfl⟩ := watching_publish hstep
      cases hm
    | others store =>
      obtain ⟨-, -, rfl⟩ := watching_others hstep
      cases hm

/-- The worker sends three bytes in two chunks. -/
def sendsOutput : List Act :=
  (ChunkedTransfer.sendBytes 2 [] "t0" threeBytes).map
      (fun fields => .publish smallKeys.output fields) ++ pollAll ++
    List.replicate 4 (.watcher .handle)

theorem sendsOutput_stored :
    ∃ s o e, Run (watching smallHost) Free (smallStart .running) sendsOutput s o ∧
      s.row = some e ∧ e.status = .succeeded ∧ Stored s o e := by
  have hrun : (replay (watching smallHost) (smallStart .running) sendsOutput).any
      (fun r => decide (r.1.row.map (·.status) = some .succeeded)) = true := by decide +kernel
  have fresh : ∀ e, (smallWorld .running).store.db.execution smallExecution.id = some e →
      e.status ≠ .succeeded := by
    intro e he
    have hrow : (smallWorld .running).store.db.execution smallExecution.id =
        some (smallRow .running) := by decide +kernel
    cases hrow.symm.trans he
    decide
  obtain ⟨s, o, h, hs⟩ := run_of_replay_test hrun
  obtain ⟨e, he, hsucc⟩ := Option.map_eq_some_iff.mp (of_decide_eq_true hs)
  exact ⟨s, o, e, h, he, hsucc, (succeeded_stores_transfer fresh h).1 e he hsucc⟩

end Runs

end OutputIntegrity
