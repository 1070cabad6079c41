import DelegateProtocol.OverlappingTransfers
import DelegateProtocol.Worker

/-!
# The two readers of transfers agree

The receiver is called again and again, each call going on from the entry the
one before ended with; the output handler is folded over the same entries. Both
come to the same outcomes at the same entries.
-/

namespace ReaderAgreement

open AppendLog ChunkedTransfer Handlers Models OverlappingTransfers Reassembly Runtime Transfers

/-- What a transfer amounts to at its end. -/
inductive Outcome where
  | valid (data : List UInt8)
  | rejected
  deriving DecidableEq

/-- A poll: when it is made, how many entries XREAD returns, and the clock while
they are processed. -/
structure Polled where
  now : ℚ
  count : Nat
  fits : count ≤ Worker.receiveCount
  clock : Nat → ℚ

/-- A call of `receive_once`. -/
structure Call where
  now : ℚ
  polls : List Polled

def arrivals (log : Log Fields) (lastId : Nat) (p : Polled) : List Arrival :=
  (log.read lastId p.count).map (fun entry => ⟨entry.1, entry.2, p.clock entry.1⟩)

/-- The answers of XREAD to the polls of a call, and where they leave the cursor. -/
def answers (log : Log Fields) : Nat → List Polled → List Poll × Nat
  | lastId, [] => ([], lastId)
  | lastId, p :: ps =>
    let ms := arrivals log lastId p
    let later := answers log (lastOf lastId ms) ps
    (⟨p.now, ms⟩ :: later.1, later.2)

/-- Calls of the receiver one after another, with what each of them comes to and
the cursor in the end; an error is one the caller does not go on from here. -/
def receiveAll (waitTimeout : ℚ) (log : Log Fields) :
    Nat → List Call → Except Ending (List (Nat × Outcome) × Nat)
  | lastId, [] => .ok ([], lastId)
  | lastId, call :: calls =>
    match receiveOnce waitTimeout call.now lastId (answers log lastId call.polls).1 with
    | none => .ok ([], (answers log lastId call.polls).2)
    | some (.returned data id _) =>
      match receiveAll waitTimeout log id calls with
      | .error e => .error e
      | .ok (outcomes, cursor) => .ok ((id, .valid data) :: outcomes, cursor)
    | some (.transferFailed .timeout id) => .error (.transferFailed .timeout id)
    | some (.transferFailed _ id) =>
      match receiveAll waitTimeout log id calls with
      | .error e => .error e
      | .ok (outcomes, cursor) => .ok ((id, .rejected) :: outcomes, cursor)
    | some (.raised e) => .error (.raised e)

/-- What a message has come to, as the audit log and the file tell it. -/
def shown (host : Host) (execution : Named) (before after : Store) : Option Outcome :=
  match after.db.audit.drop before.db.audit.length with
  | [event] =>
    if event.eventType = "OUTPUT_RECEIVED" then (after.media (outPath host execution)).map .valid
    else if event.eventType = "OUTPUT_VALIDATION_FAILED" then some .rejected
    else none
  | _ => none

/-- The output handler over a list of entries: what they come to, up to the one
it raises at. -/
def handleAll (host : Host) (execution : Named) :
    List (Nat × Fields) → Option OutputState → Store → List (Nat × Outcome) × Option PyError
  | [], _, _ => ([], none)
  | (id, fields) :: later, state, store =>
    match handleOutputMessage host execution fields state store with
    | .error e => ([], some e)
    | .ok (store', state') =>
      let rest := handleAll host execution later state' store'
      ((shown host execution store store').toList.map (fun o => (id, o)) ++ rest.1, rest.2)

/-- The outcomes of a handler that raises at the first file it cannot write. -/
def upToWrite (writable : Bool) (outcomes : List (Nat × Outcome)) :
    List (Nat × Outcome) × Option PyError :=
  if writable = true ∨ ∀ o ∈ outcomes, o.2 = .rejected then (outcomes, none)
  else (outcomes.takeWhile (fun o => o.2 = .rejected), some .osError)

def outcomeOf (b : WireBuffer) : Outcome :=
  if (stateOf b).Valid then .valid b.bytes else .rejected

/-- The buffers that are closed along a list of entries, and where. -/
def outcomes : Option WireBuffer → List (Nat × Fields) → List (Nat × Outcome)
  | _, [] => []
  | s, (id, fields) :: later =>
    (closes s (pieceOf fields)).toList.map (fun b => (id, outcomeOf b)) ++
      outcomes (advance s (pieceOf fields)) later

def wire (entries : List (Nat × Fields)) : List WirePiece := entries.map (fun e => pieceOf e.2)

section Outcomes
variable {s : Option WireBuffer} {pre post entries : List (Nat × Fields)}

theorem outcomes_append :
    outcomes s (pre ++ post) = outcomes s pre ++ outcomes ((wire pre).foldl advance s) post := by
  induction pre generalizing s with
  | nil => rfl
  | cons e pre ih =>
    obtain ⟨id, fields⟩ := e
    simp only [List.cons_append, outcomes, ih, List.append_assoc, wire, List.map_cons,
      List.foldl_cons]

theorem outcomes_none (h : closings s (wire entries) = []) : outcomes s entries = [] := by
  induction entries generalizing s with
  | nil => rfl
  | cons e entries ih =>
    obtain ⟨id, fields⟩ := e
    simp only [wire, List.map_cons, closings, List.append_eq_nil_iff, Option.toList_eq_nil_iff] at h
    simp only [outcomes, h.1, Option.toList_none, List.map_nil, List.nil_append]
    exact ih h.2

end Outcomes

section Receiver
variable {waitTimeout : ℚ} {log : Log Fields} {r : Receiving} {s : Option WireBuffer}

theorem pieces_arrivals (p : Polled) (entries : List (Nat × Fields)) :
    pieces (entries.map (fun entry => ⟨entry.1, entry.2, p.clock entry.1⟩)) = wire entries := by
  simp [pieces, wire, Function.comp_def]

/-- A poll answers with the entries that come next. -/
theorem arrivals_next (log : Log Fields) (lastId : Nat) (p : Polled) :
    ∃ entries, arrivals log lastId p =
        entries.map (fun entry => ⟨entry.1, entry.2, p.clock entry.1⟩) ∧
      log.unread lastId = entries ++ log.unread (lastOf lastId (arrivals log lastId p)) := by
  refine ⟨log.read lastId p.count, rfl, ?_⟩
  have hsplit := (List.take_append_drop p.count (log.unread lastId)).symm
  cases hr : (log.read lastId p.count).reverse with
  | nil =>
    have hnil : log.read lastId p.count = [] := by simpa using hr
    simp [arrivals, hnil, lastOf]
  | cons e rest =>
    obtain ⟨n, m⟩ := e
    have hread : log.read lastId p.count = rest.reverse ++ [(n, m)] := by
      rw [← List.reverse_reverse (log.read lastId p.count), hr, List.reverse_cons]
    have hlast : lastOf lastId (arrivals log lastId p) = n := by
      simp [arrivals, hread, lastOf]
    unfold Log.read at hread
    rw [hread, List.append_assoc, List.singleton_append] at hsplit
    rw [hlast, Log.read, hread]
    exact unread_through hsplit

/-- What a call comes to: it runs out of time, or waits on with nothing closed,
or ends with the first buffer that is closed. -/
theorem receivePolls_next (readable : ∀ e ∈ log.unread lastId, Readable e.2) (h : Matches r s)
    (polls : List Polled) :
    (∃ id, receivePolls waitTimeout (answers log lastId polls).1 lastId r =
      some (.transferFailed .timeout id)) ∨
    (receivePolls waitTimeout (answers log lastId polls).1 lastId r = none ∧
      ∃ entries, log.unread lastId = entries ++ log.unread (answers log lastId polls).2 ∧
        outcomes s entries = []) ∨
    (∃ entries b id, log.unread lastId = entries ++ log.unread id ∧
      outcomes s entries = [(id, outcomeOf b)] ∧ (wire entries).foldl advance s = none ∧
      receivePolls waitTimeout (answers log lastId polls).1 lastId r = some (endingOf b id)) := by
  induction polls generalizing lastId r s with
  | nil => exact Or.inr (Or.inl ⟨rfl, [], rfl, rfl⟩)
  | cons p ps ih =>
    by_cases hlate : r.deadline - p.now ≤ 0
    · exact Or.inl ⟨lastId, by simp only [answers, receivePolls, if_pos hlate]⟩
    · obtain ⟨entries, harr, hunread⟩ := arrivals_next log lastId p
      have hnow : ∀ m ∈ arrivals log lastId p, Readable m.fields := by
        rw [harr]
        intro m hm
        obtain ⟨e, he, rfl⟩ := List.mem_map.mp hm
        exact readable e (by rw [hunread]; exact List.mem_append_left _ he)
      have hlater : ∀ e ∈ log.unread (lastOf lastId (arrivals log lastId p)), Readable e.2 :=
        fun e he => readable e (by rw [hunread]; exact List.mem_append_right _ he)
      rcases @receiveBatch_split waitTimeout r s _ hnow h lastId with
        ⟨r', hb, hc, hm, -⟩ | ⟨pre, m, post, b, hsplit, hc, hclose, hb, -⟩
      · have hnext : receivePolls waitTimeout (answers log lastId (p :: ps)).1 lastId r =
            receivePolls waitTimeout
              (answers log (lastOf lastId (arrivals log lastId p)) ps).1
              (lastOf lastId (arrivals log lastId p)) r' := by
          simp only [answers, receivePolls, if_neg hlate, hb]
        rw [harr, pieces_arrivals] at hc hm
        rw [hnext]
        rcases ih hlater hm with ht | ⟨hn, more, hmore, hnone⟩ | ⟨more, b, id, hmore, hone, hadv, he⟩
        · exact Or.inl ht
        · refine Or.inr (Or.inl ⟨hn, entries ++ more, ?_, ?_⟩)
          · rw [hunread, hmore, List.append_assoc]
            rfl
          · rw [outcomes_append, outcomes_none hc, hnone]
            rfl
        · refine Or.inr (Or.inr ⟨entries ++ more, b, id, ?_, ?_, ?_, he⟩)
          · rw [hunread, hmore, List.append_assoc]
          · rw [outcomes_append, outcomes_none hc, hone]
            rfl
          · rw [wire, List.map_append, List.foldl_append]
            exact hadv
      · rw [harr] at hsplit
        obtain ⟨before, after, rfl, hbefore, hafter⟩ := List.map_eq_append_iff.mp hsplit
        obtain ⟨e, rest, rfl, rfl, rfl⟩ := List.map_eq_cons_iff.mp hafter
        subst hbefore
        rw [pieces_arrivals] at hc hclose
        rw [List.append_assoc, List.cons_append] at hunread
        refine Or.inr (Or.inr ⟨before ++ [e], b, e.1, unread_through hunread, ?_, ?_, ?_⟩)
        · rw [outcomes_append, outcomes_none hc]
          simp [outcomes, hclose]
        · rw [wire, List.map_append, List.foldl_append]
          exact advance_closes hclose
        · simp only [answers, receivePolls, if_neg hlate, hb]

/-- Calls that do not run out of time come to what the entries come to that
they have got through. -/
theorem receiveAll_outcomes {calls : List Call} {lastId : Nat}
    (readable : ∀ e ∈ log.unread lastId, Readable e.2)
    (inTime : ∀ id, receiveAll waitTimeout log lastId calls ≠ .error (.transferFailed .timeout id)) :
    ∃ os cursor entries, receiveAll waitTimeout log lastId calls = .ok (os, cursor) ∧
      log.unread lastId = entries ++ log.unread cursor ∧ os = outcomes none entries := by
  induction calls generalizing lastId with
  | nil => exact ⟨[], lastId, [], rfl, rfl, rfl⟩
  | cons call calls ih =>
    have hm : Matches (.begin waitTimeout call.now) none := rfl
    have hnext := @receivePolls_next waitTimeout log
    rcases hnext readable hm call.polls with
      ⟨id, ht⟩ | ⟨hn, entries, hnext, hnone⟩ | ⟨entries, b, id, hnext, hone, hadv, he⟩
    · refine False.elim (inTime id ?_)
      simp only [receiveAll, receiveOnce, ht]
    · exact ⟨[], _, entries, by simp only [receiveAll, receiveOnce, hn], hnext, hnone.symm⟩
    · have hrest : ∀ e ∈ log.unread id, Readable e.2 :=
        fun e hmem => readable e (by rw [hnext]; exact List.mem_append_right _ hmem)
      have hstep : receiveAll waitTimeout log lastId (call :: calls) =
          match receiveAll waitTimeout log id calls with
          | .error e => .error e
          | .ok (os, cursor) => .ok ((id, outcomeOf b) :: os, cursor) := by
        simp only [receiveAll, receiveOnce, he, outcomeOf, OutputState.Valid, stateOf, endingOf]
        by_cases hsize : (b.bytes.length : Int) = b.header.1
        · by_cases hsum : sha256Bytes b.bytes = b.header.2
          · simp [hsize, hsum]
          · simp [hsize, hsum]
        · simp [hsize]
      have inTime' (last : Nat) :
          receiveAll waitTimeout log id calls ≠ .error (.transferFailed .timeout last) := by
        intro ht
        exact inTime last (by rw [hstep, ht])
      obtain ⟨os, cursor, more, hall, hmore, hos⟩ := ih hrest inTime'
      refine ⟨(id, outcomeOf b) :: os, cursor, entries ++ more, by rw [hstep, hall], ?_, ?_⟩
      · rw [hnext, hmore, List.append_assoc]
      · rw [outcomes_append, hone, hadv, hos]
        rfl

end Receiver

section Handler
variable {host : Host} {execution : Named} {s : Option WireBuffer} {fields : Fields}

theorem shown_quiet (store : Store) : shown host execution store store = none := by
  simp [shown]

theorem shown_accepted (store : Store) (data : List UInt8) (checksum : String) :
    shown host execution store (acceptOutput host execution data checksum store) =
      some (.valid data) := by
  simp [shown, acceptOutput, DB.record, DB.updateExecution]

theorem shown_rejected (store : Store) :
    shown host execution store (rejectOutput execution store) = some .rejected := by
  simp [shown, rejectOutput, DB.record, DB.updateExecution]

theorem upToWrite_rejected (writable : Bool) (id : Nat) (os : List (Nat × Outcome)) :
    upToWrite writable ((id, .rejected) :: os) =
      ((id, .rejected) :: (upToWrite writable os).1, (upToWrite writable os).2) := by
  by_cases h : writable = true ∨ ∀ o ∈ os, o.2 = .rejected
  · have h' : writable = true ∨ ∀ o ∈ (id, Outcome.rejected) :: os, o.2 = .rejected := by
      simpa using h
    simp only [upToWrite, if_pos h, if_pos h']
  · have h' : ¬(writable = true ∨ ∀ o ∈ (id, Outcome.rejected) :: os, o.2 = .rejected) := by
      simpa using h
    simp only [upToWrite, if_neg h, if_neg h', List.takeWhile_cons, decide_true, if_true]

/-- The handler comes to the outcomes of the entries, up to a file that it cannot
write. -/
theorem handleAll_outcomes {entries : List (Nat × Fields)} (readable : ∀ e ∈ entries, Readable e.2)
    (store : Store) :
    handleAll host execution entries (s.map stateOf) store =
      upToWrite (host.writable (outPath host execution)) (outcomes s entries) := by
  induction entries generalizing s store with
  | nil => simp [handleAll, outcomes, upToWrite]
  | cons e entries ih =>
    obtain ⟨id, fields⟩ := e
    have hv := outputVerdict_readable (readable _ (List.mem_cons_self ..)) s
    have later := fun s => @ih s (fun e he => readable e (List.mem_cons_of_mem _ he))
    cases hc : closes s (pieceOf fields) with
    | none =>
      have hstep := @handleOutputMessage_open host execution fields
        (readable _ (List.mem_cons_self ..)) s hc store
      simp only [handleAll, hstep, shown_quiet, outcomes, hc, later, Option.toList_none,
        List.map_nil, List.nil_append]
    | some b =>
      have hnone : advance s (pieceOf fields) = none := advance_closes hc
      have hrest := later none
      simp only [Option.map_none] at hrest
      by_cases hvalid : (stateOf b).Valid
      · cases hw : host.writable (outPath host execution) with
        | true =>
          have hstep : handleOutputMessage host execution fields (s.map stateOf) store =
              .ok (acceptOutput host execution b.bytes b.header.2 store, none) := by
            simp only [handleOutputMessage, hv, verdictOf, hc, if_pos hvalid, hw, if_true]
          simp [handleAll, hstep, shown_accepted, outcomes, hc, hnone, hrest, upToWrite, hw,
            outcomeOf, hvalid]
        | false =>
          simp [handleAll, handleOutputMessage, hv, verdictOf, hc, hvalid, hw, outcomes, upToWrite,
            outcomeOf]
      · have hstep : handleOutputMessage host execution fields (s.map stateOf) store =
            .ok (rejectOutput execution store, none) := by
          simp only [handleOutputMessage, hv, verdictOf, hc, if_neg hvalid]
        have hout : outcomes s ((id, fields) :: entries) =
            (id, .rejected) :: outcomes none entries := by
          simp [outcomes, hc, hnone, outcomeOf, hvalid]
        rw [hout]
        simp only [handleAll, hstep, shown_rejected, hrest, upToWrite_rejected, Option.toList_some,
          List.map_cons, List.map_nil, List.singleton_append]

end Handler

/-- However XREAD splits the stream, the calls of the receiver get through the
entries of a stream in order and come to what the handler comes to on them. -/
theorem readers_agree {host : Host} {execution : Named} {waitTimeout : ℚ} {log : Log Fields}
    {calls : List Call} (store : Store) (readable : ∀ e ∈ log.unread 0, Readable e.2)
    (inTime : ∀ id, receiveAll waitTimeout log 0 calls ≠ .error (.transferFailed .timeout id)) :
    ∃ os cursor entries, receiveAll waitTimeout log 0 calls = .ok (os, cursor) ∧
      log.unread 0 = entries ++ log.unread cursor ∧
      handleAll host execution entries none store =
        upToWrite (host.writable (outPath host execution)) os := by
  obtain ⟨os, cursor, entries, hall, hnext, rfl⟩ := receiveAll_outcomes readable inTime
  refine ⟨_, cursor, entries, hall, hnext, ?_⟩
  have hread : ∀ e ∈ entries, Readable e.2 :=
    fun e he => readable e (by rw [hnext]; exact List.mem_append_left _ he)
  exact handleAll_outcomes (s := none) hread store

/-- A stream of two overlapping transfers, read in three polls. -/
def overlappingLog : Log Fields := ⟨twoOverlapping, 0, Nat.zero_le _⟩

def threePolls : List Call :=
  [⟨0, [⟨0, 3, by decide, fun _ => 0⟩, ⟨0, 100, by decide, fun _ => 0⟩]⟩,
    ⟨0, [⟨0, 100, by decide, fun _ => 0⟩]⟩]

theorem overlappingLog_agree :
    ∃ os cursor entries, receiveAll 15 overlappingLog 0 threePolls = .ok (os, cursor) ∧
      overlappingLog.unread 0 = entries ++ overlappingLog.unread cursor ∧
      handleAll smallHost smallExecution entries none ⟨DB.empty, fun _ => none⟩ =
        upToWrite (smallHost.writable (outPath smallHost smallExecution)) os := by
  have readable : ∀ e ∈ overlappingLog.unread 0, Readable e.2 := by
    intro e he
    obtain ⟨i, -, hi⟩ := entry_of_unread he
    exact overlap_readable twoOverlapping_overlap _ (List.mem_of_getElem? hi)
  have received : receiveAll 15 overlappingLog 0 threePolls = .ok ([(6, .valid [])], 8) := by
    decide +kernel
  have inTime : ∀ id, receiveAll 15 overlappingLog 0 threePolls ≠
      .error (.transferFailed .timeout id) := by
    intro id ht
    rw [received] at ht
    cases ht
  exact readers_agree ⟨DB.empty, fun _ => none⟩ readable inTime

end ReaderAgreement
