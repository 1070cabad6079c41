import DelegateProtocol.Lib.StepMachine
import DelegateProtocol.ReaderAgreement

/-!
# How a worker receives its workspace

The attempts of `_receive_workspace` on a stream to which others keep appending.
An attempt goes on reading where the one before it ended, whether that one ran
out of time or closed a transfer, and only a transfer whose checks hold is
extracted. The run ends where the function returns.
-/

namespace WorkspaceReception

open AppendLog ChunkedTransfer Handlers OverlappingTransfers ReaderAgreement Reassembly Runtime
  StepMachine Streams Transfers Worker

structure Site where
  events : Log Fields
  stage : Stage

inductive Turn where
  | arrives (fields : Fields)
  | work (work : Work)

inductive Seen where
  | requested
  | processed (attempt id : Nat) (fields : Fields)
  | extracts (data : List UInt8)

/-- What `_receive_workspace` returns when it ends here. -/
def returned : Stage → Option Bool
  | .givingUp => some false
  | .mirroring => some true
  | _ => none

def taken (attempt : Nat) (entries : List (Nat × Fields)) : List Seen :=
  entries.map (fun e => .processed attempt e.1 e.2)

/-- The messages that one round of the receiver's loop gets to. -/
def round (task : Task) (events : Log Fields) (attempt lastId : Nat) (r : Receiving) (now : ℚ)
    (count : Nat) (clock : Nat → ℚ) : List Seen :=
  if r.deadline - now ≤ 0 then []
  else taken attempt ((processed task.waitTimeout
      ((events.read lastId count).map (fun entry => ⟨entry.1, entry.2, clock entry.1⟩)) r).map
    (fun m => (m.id, m.fields)))

def seenOf (task : Task) (events : Log Fields) : Stage → Work → List Seen
  | .requesting _ _, .publish => [.requested]
  | .receiving attempt lastId r, .poll now count clock =>
    round task events attempt lastId r now count clock
  | .extracting data _, .prepare _ => [.extracts data]
  | _, _ => []

def step (task : Task) (s : Site) : Turn → Option (Site × List Seen)
  | .arrives fields => some ({ s with events := s.events.append fields }, [])
  | .work work =>
    if returned s.stage = none then
      match Worker.step task s.events s.stage work with
      | none => none
      | some (stage, deeds) =>
        some (⟨(published .events deeds).foldl Log.append s.events, stage⟩,
          seenOf task s.events s.stage work)
    else none

def receiving (task : Task) : Machine Site Turn Seen := ⟨step task⟩

def Seen.reading? : Seen → Option (Nat × Nat × Fields)
  | .processed attempt id fields => some (attempt, id, fields)
  | _ => none

def Seen.data? : Seen → Option (List UInt8)
  | .extracts data => some data
  | _ => none

def Seen.request? : Seen → Option Unit
  | .requested => some ()
  | _ => none

/-- The entries processed, each with the attempt that did. -/
def readings (seen : List Seen) : List (Nat × Nat × Fields) := seen.filterMap Seen.reading?

def extracted (seen : List Seen) : List (List UInt8) := seen.filterMap Seen.data?

def requests (seen : List Seen) : Nat := (seen.filterMap Seen.request?).length

def segment (attempt : Nat) (seen : List Seen) : List (Nat × Fields) :=
  ((readings seen).filter (fun p => p.1 = attempt)).map Prod.snd

/-- The payload of a transfer that starts and ends in these entries. -/
inductive Delivered (payload : Nat → List UInt8) : List UInt8 → List (Nat × Fields) → Prop
  | ended {pre mid : List (Nat × Fields)} {n k : Nat} {first last : Fields} {id : String}
      {header : Header} : pieceOf first = .start id header → pieceOf last = .finish id →
      Delivered payload (payload n) (pre ++ (n, first) :: mid ++ [(k, last)])

/-- The messages can be read, each start declares the payload of its sender, and
no other bytes that the chunks of the stream can add up to have its checksum. -/
structure Faithful (payload : Nat → List UInt8) (log : Log Fields) : Prop where
  readable : ∀ n m, log.Entry n m → Readable m
  declared : ∀ n m id header, log.Entry n m → pieceOf m = .start id header →
    header = (((payload n).length : Int), sha256Bytes (payload n))
  noCollision : ∀ n m id header, log.Entry n m → pieceOf m = .start id header →
    ∀ chunks : List (List UInt8), chunks.Sublist (contents (log.history.map pieceOf)) →
      chunks.flatten.length = (payload n).length →
      sha256Bytes chunks.flatten = sha256Bytes (payload n) → chunks.flatten = payload n

section Observations
variable {attempt : Nat} {seen seen' : List Seen} {entries : List (Nat × Fields)}

theorem readings_append : readings (seen ++ seen') = readings seen ++ readings seen' :=
  List.filterMap_append ..

theorem extracted_append : extracted (seen ++ seen') = extracted seen ++ extracted seen' :=
  List.filterMap_append ..

theorem requests_append : requests (seen ++ seen') = requests seen + requests seen' := by
  simp [requests]

theorem segment_append : segment attempt (seen ++ seen') =
    segment attempt seen ++ segment attempt seen' := by
  simp [segment, readings_append]

@[simp] theorem readings_taken : readings (taken attempt entries) =
    entries.map (fun e => (attempt, e)) := by
  simp [readings, taken, List.filterMap_map, Function.comp_def, Seen.reading?]

@[simp] theorem extracted_taken : extracted (taken attempt entries) = [] := by
  simp [extracted, taken, List.filterMap_map, Function.comp_def, Seen.data?]

@[simp] theorem requests_taken : requests (taken attempt entries) = 0 := by
  simp [requests, taken, List.filterMap_map, Function.comp_def, Seen.request?]

@[simp] theorem segment_taken : segment attempt (taken attempt entries) = entries := by
  simp [segment, List.filter_map, Function.comp_def]

/-- What an attempt has processed is part of what has been. -/
theorem segment_sublist : (segment attempt seen).Sublist ((readings seen).map Prod.snd) :=
  List.filter_sublist.map _

/-- No attempt past the last has processed anything. -/
theorem segment_none (h : ∀ p ∈ readings seen, p.1 < attempt) : segment attempt seen = [] := by
  simp only [segment, List.map_eq_nil_iff, List.filter_eq_nil_iff, decide_eq_true_eq]
  intro p hp he
  have := h p hp
  omega

end Observations

/-- What has been processed stands at the start of the stream, and the cursor is
right behind it. -/
structure Reading (log : Log Fields) (seen : List Seen) (cursor : Nat) : Prop where
  bound : cursor ≤ log.history.length
  next : log.unread 0 = (readings seen).map Prod.snd ++ log.unread cursor
  sorted : ((readings seen).map Prod.fst).Pairwise (· ≤ ·)

section Attempt
variable {payload : Nat → List UInt8} {log : Log Fields} {seen : List Seen} {attempt cursor : Nat}

theorem Reading.start (log : Log Fields) : Reading log [] 0 where
  bound := Nat.zero_le _
  next := rfl
  sorted := .nil

theorem Reading.grow {log' : Log Fields} {ms : List Fields} (h : Reading log seen cursor)
    (grown : log'.history = log.history ++ ms) (kept : log'.removed = log.removed) :
    Reading log' seen cursor where
  bound := by
    rw [grown, List.length_append]
    exact Nat.le_add_right_of_le h.bound
  next := by
    rw [unread_grown grown kept (Nat.zero_le _), unread_grown grown kept h.bound, h.next,
      List.append_assoc]
  sorted := h.sorted

/-- Observations of anything else leave the reading as it is. -/
theorem Reading.aside {seen' : List Seen} (h : Reading log seen cursor)
    (quiet : readings seen' = []) : Reading log (seen ++ seen') cursor := by
  have same : readings (seen ++ seen') = readings seen := by
    rw [readings_append, quiet, List.append_nil]
  exact ⟨h.bound, by rw [same]; exact h.next, by rw [same]; exact h.sorted⟩

/-- The attempt goes on to the entries that come next. -/
theorem Reading.take {entries : List (Nat × Fields)} {cursor' : Nat} (h : Reading log seen cursor)
    (bound : cursor' ≤ log.history.length) (last : ∀ p ∈ readings seen, p.1 ≤ attempt)
    (next : log.unread cursor = entries ++ log.unread cursor') :
    Reading log (seen ++ taken attempt entries) cursor' where
  bound := bound
  next := by
    rw [h.next, next, readings_append, readings_taken]
    simp
  sorted := by
    rw [readings_append, readings_taken, List.map_append, List.pairwise_append]
    refine ⟨h.sorted, ?_, ?_⟩
    · simp [Function.comp_def, List.pairwise_replicate]
    · intro a ha b hb
      obtain ⟨p, hp, rfl⟩ := List.mem_map.mp ha
      have hb' : b = attempt := by
        simp only [List.map_map, List.mem_map, Function.comp_apply] at hb
        obtain ⟨e, -, rfl⟩ := hb
        rfl
      rw [hb']
      exact last p hp

/-- The entries of an attempt are entries of the stream, in its order. -/
theorem Reading.fields (h : Reading log seen cursor) (attempt : Nat) :
    ((segment attempt seen).map Prod.snd).Sublist log.history := by
  have hmap : ((log.unread 0).map Prod.snd) = log.history.drop (log.floor 0) :=
    number_map_snd _ _
  rw [h.next, List.map_append] at hmap
  have part : ((segment attempt seen).map Prod.snd).Sublist (log.history.drop (log.floor 0)) := by
    rw [← hmap]
    exact (segment_sublist.map _).trans (List.sublist_append_left _ _)
  exact part.trans (List.drop_sublist _ _)

theorem Reading.entry (h : Reading log seen cursor) {n : Nat} {m : Fields}
    (hm : (n, m) ∈ segment attempt seen) : log.Entry n m := by
  apply entry_of_unread (c := 0)
  rw [h.next]
  exact List.mem_append_left _ (segment_sublist.subset hm)

/-- A transfer that passes its checks is the one whose payload its start declares. -/
theorem Reading.delivered (h : Reading log seen cursor) (faithful : Faithful payload log)
    {entries : List (Nat × Fields)} {k : Nat} {m : Fields} {b : WireBuffer}
    (hseg : segment attempt seen = entries ++ [(k, m)])
    (hclose : closes (after (wire entries)) (pieceOf m) = some b) (hvalid : (stateOf b).Valid) :
    Delivered payload b.bytes (segment attempt seen) := by
  obtain ⟨hfinish, pre, mid, hstart, -⟩ := closes_eq_some hclose
  obtain ⟨before, rest, rfl, hbefore, hrest⟩ := List.map_eq_append_iff.mp hstart
  obtain ⟨⟨n, first⟩, middle, rfl, hfirst, hmiddle⟩ := List.map_eq_cons_iff.mp hrest
  have hmem : (n, first) ∈ segment attempt seen := by
    rw [hseg]
    simp
  have hentry := h.entry hmem
  have hheader := faithful.declared n first _ _ hentry hfirst
  obtain ⟨cs, hsub, hbytes⟩ := closes_contents hclose
  have hchunks : cs.Sublist (contents (log.history.map pieceOf)) := by
    refine hsub.trans (List.Sublist.filterMap _ ?_)
    have hall := (h.fields attempt).map pieceOf
    rw [hseg, List.map_append, List.map_append, List.map_map] at hall
    exact (List.sublist_append_left _ _).trans hall
  have hdata : b.bytes = payload n := by
    rw [hbytes]
    have hsize : (b.bytes.length : Int) = b.header.1 := hvalid.1
    have hsum : sha256Bytes b.bytes = b.header.2 := hvalid.2
    rw [hheader, hbytes] at hsize hsum
    exact faithful.noCollision n first _ _ hentry hfirst cs hchunks (Int.ofNat_inj.mp hsize) hsum
  rw [hseg, hdata]
  exact .ended hfirst hfinish

/-- What a round of the receiver's loop can come to. -/
inductive Round (payload : Nat → List UInt8) (log : Log Fields) (seen : List Seen)
    (attempt : Nat) : Stage → List Seen → Prop
  | goesOn {lastId : Nat} {r : Receiving} {seen' : List Seen} : Reading log (seen ++ seen') lastId →
      Matches r (after (wire (segment attempt (seen ++ seen')))) →
      Round payload log seen attempt (.receiving attempt lastId r) seen'
  | failed {lastId : Nat} {why : Failure} {seen' : List Seen} :
      Reading log (seen ++ seen') lastId →
      Round payload log seen attempt (.retrying attempt lastId why) seen'
  | complete {lastId : Nat} {data : List UInt8} {transferId : Option String}
      {seen' : List Seen} : Reading log (seen ++ seen') lastId →
      Delivered payload data (segment attempt (seen ++ seen')) →
      Round payload log seen attempt (.extracting data transferId) seen'

theorem entries_of_arrivals {entries : List (Nat × Fields)} {clock : Nat → ℚ} :
    (entries.map (fun e => (⟨e.1, e.2, clock e.1⟩ : Arrival))).map (fun m => (m.id, m.fields)) =
      entries := by
  simp [Function.comp_def]

theorem round_reads {task : Task} {r : Receiving} (faithful : Faithful payload log)
    (reading : Reading log seen cursor) (last : ∀ p ∈ readings seen, p.1 ≤ attempt)
    (holds : Matches r (after (wire (segment attempt seen)))) (now : ℚ) {count : Nat}
    (fits : count ≤ receiveCount) (clock : Nat → ℚ) :
    Round payload log seen attempt (poll task log attempt cursor r now count clock).1
      (round task log attempt cursor r now count clock) := by
  unfold poll round
  by_cases hlate : r.deadline - now ≤ 0
  · simp only [if_pos hlate]
    exact .failed (reading.aside rfl)
  · simp only [if_neg hlate]
    obtain ⟨entries, harr, hnext⟩ := arrivals_next log cursor ⟨now, count, fits, clock⟩
    simp only [arrivals] at harr
    have hnow : ∀ m ∈ (log.read cursor count).map (fun e => (⟨e.1, e.2, clock e.1⟩ : Arrival)),
        Readable m.fields := by
      intro m hm
      obtain ⟨e, he, rfl⟩ := List.mem_map.mp hm
      exact faithful.readable _ _ (entry_of_unread (List.mem_of_mem_take he))
    rcases @receiveBatch_split task.waitTimeout r _ _ hnow holds cursor with
      ⟨r', hb, -, hm, hp⟩ | ⟨pre, m, post, b, hsplit, -, hclose, hb, hp⟩
    · have hbound : lastOf cursor ((log.read cursor count).map
          (fun e => (⟨e.1, e.2, clock e.1⟩ : Arrival))) ≤ log.history.length := by
        rcases lastOf_cases cursor ((log.read cursor count).map
          (fun e => (⟨e.1, e.2, clock e.1⟩ : Arrival))) with h | ⟨m, hmem, h⟩
        · rw [h]
          exact reading.bound
        · rw [h]
          obtain ⟨e, he, rfl⟩ := List.mem_map.mp hmem
          exact entry_le (entry_of_unread (List.mem_of_mem_take he))
      simp only [hb, hp]
      rw [harr, entries_of_arrivals]
      rw [harr] at hbound hm
      simp only [arrivals, harr] at hnext
      refine .goesOn (reading.take hbound last hnext) ?_
      rw [segment_append, segment_taken, wire, List.map_append, after, List.foldl_append]
      rw [pieces_arrivals ⟨now, count, fits, clock⟩] at hm
      exact hm
    · rw [harr] at hsplit
      obtain ⟨before, rest, rfl, rfl, hrest⟩ := List.map_eq_append_iff.mp hsplit
      obtain ⟨e, after', rfl, rfl, rfl⟩ := List.map_eq_cons_iff.mp hrest
      rw [pieces_arrivals ⟨now, count, fits, clock⟩] at hclose
      rw [List.append_assoc, List.cons_append] at hnext
      have hentry : log.Entry e.1 e.2 := entry_of_unread (c := cursor) (by rw [hnext]; simp)
      have hread := reading.take (entry_le hentry) last (unread_through hnext)
      have htaken : (before.map (fun e => (⟨e.1, e.2, clock e.1⟩ : Arrival)) ++
          [(⟨e.1, e.2, clock e.1⟩ : Arrival)]).map (fun m => (m.id, m.fields)) = before ++ [e] := by
        rw [List.map_append, entries_of_arrivals]
        rfl
      simp only [hb, hp, htaken, endingOf]
      split
      · exact .failed hread
      · rename_i hsize
        split
        · exact .failed hread
        · rename_i hsum
          have hseg : segment attempt (seen ++ taken attempt (before ++ [e])) =
              (segment attempt seen ++ before) ++ [(e.1, e.2)] := by
            rw [segment_append, segment_taken, List.append_assoc]
          have hwhole : closes (after (wire (segment attempt seen ++ before))) (pieceOf e.2) =
              some b := by
            rw [after, wire, List.map_append, List.foldl_append]
            exact hclose
          exact .complete hread (hread.delivered faithful hseg hwhole
            ⟨not_not.mp hsize, not_not.mp hsum⟩)

end Attempt

/-- The cursor with which the next round starts. -/
def cursorOf : Stage → Option Nat
  | .requesting _ lastId | .requested _ lastId | .waiting _ lastId => some lastId
  | .receiving _ lastId _ | .retrying _ lastId _ => some lastId
  | _ => none

/-- What is known where the function stands. -/
def Phase (payload : Nat → List UInt8) (task : Task) (seen : List Seen) : Stage → Prop
  | .requesting attempt _ =>
    requests seen + 1 = attempt ∧ attempt ≤ task.maxRetries ∧ extracted seen = []
  | .requested attempt _ | .waiting attempt _ =>
    requests seen = attempt ∧ (∀ p ∈ readings seen, p.1 < attempt) ∧ extracted seen = []
  | .receiving attempt _ r => requests seen = attempt ∧ extracted seen = [] ∧
    Matches r (after (wire (segment attempt seen)))
  | .retrying attempt _ _ => requests seen = attempt ∧ extracted seen = []
  | .givingUp => extracted seen = []
  | .extracting data _ => extracted seen = [] ∧
    Delivered payload data (segment (requests seen) seen)
  | .extracted _ _ | .mirroring => ∃ data, extracted seen = [data] ∧
    Delivered payload data (segment (requests seen) seen)
  | .ended .notPrepared => (extracted seen).length ≤ 1
  | _ => False

theorem Phase.once {payload : Nat → List UInt8} {task : Task} {seen : List Seen} {stage : Stage}
    (h : Phase payload task seen stage) : (extracted seen).length ≤ 1 := by
  have none (hn : extracted seen = []) : (extracted seen).length ≤ 1 := by
    rw [hn]
    exact Nat.zero_le _
  have one {data : List UInt8} (hd : extracted seen = [data]) : (extracted seen).length ≤ 1 := by
    rw [hd]
    exact Nat.le_refl _
  cases stage with
  | requesting attempt lastId => exact none h.2.2
  | requested attempt lastId => exact none h.2.2
  | waiting attempt lastId => exact none h.2.2
  | receiving attempt lastId r => exact none h.2.1
  | retrying attempt lastId why => exact none h.2
  | givingUp => exact none h
  | extracting data transferId => exact none h.1
  | extracted size transferId =>
    obtain ⟨data, hd, -⟩ := h
    exact one hd
  | mirroring =>
    obtain ⟨data, hd, -⟩ := h
    exact one hd
  | ended outcome =>
    cases outcome with
    | notPrepared => exact h
    | _ => exact False.elim h
  | _ => exact False.elim h

structure Inv (payload : Nat → List UInt8) (task : Task) (s : Site) (seen : List Seen) : Prop where
  reading : ∃ cursor, Reading s.events seen cursor ∧
    ∀ lastId, cursorOf s.stage = some lastId → cursor = lastId
  last : ∀ p ∈ readings seen, p.1 ≤ requests seen
  bounded : requests seen ≤ task.maxRetries
  phase : Phase payload task seen s.stage

section Attempts
variable {payload : Nat → List UInt8} {task : Task} {log : Log Fields} {s t : Site}
variable {seen seen' : List Seen}

theorem Faithful.before {log' : Log Fields} (h : Faithful payload log')
    (grown : log.history <+: log'.history) : Faithful payload log where
  readable n m hm := h.readable n m (entry_grows grown hm)
  declared n m id header hm := h.declared n m id header (entry_grows grown hm)
  noCollision n m id header hm hp chunks hc :=
    h.noCollision n m id header (entry_grows grown hm) hp chunks
      (hc.trans ((grown.sublist.map pieceOf).filterMap _))

theorem foldl_append_history (log : Log Fields) (ms : List Fields) :
    (ms.foldl Log.append log).history = log.history ++ ms ∧
      (ms.foldl Log.append log).removed = log.removed := by
  induction ms generalizing log with
  | nil => exact ⟨(List.append_nil _).symm, rfl⟩
  | cons m ms ih =>
    obtain ⟨hh, hr⟩ := ih (log.append m)
    exact ⟨by rw [List.foldl_cons, hh, history_append, List.append_assoc]; rfl, hr⟩

/-- The stream only grows. -/
theorem step_grows {turn : Turn} (h : step task s turn = some (t, seen')) :
    ∃ ms, t.events.history = s.events.history ++ ms ∧ t.events.removed = s.events.removed := by
  cases turn with
  | arrives fields =>
    simp only [step, Option.some.injEq, Prod.mk.injEq] at h
    obtain ⟨rfl, -⟩ := h
    exact ⟨[fields], rfl, rfl⟩
  | work work =>
    simp only [step] at h
    split at h
    · split at h
      · cases h
      · simp only [Option.some.injEq, Prod.mk.injEq] at h
        obtain ⟨rfl, -⟩ := h
        exact ⟨_, foldl_append_history _ _⟩
    · cases h

/-- The loop goes on to another attempt, or ends. -/
theorem phase_attempt (lastId : Nat) (quiet : extracted seen = []) :
    Phase payload task seen (task.attempt (requests seen + 1) lastId) := by
  unfold Task.attempt
  split
  · rename_i h
    exact ⟨rfl, h, quiet⟩
  · exact quiet

theorem cursorOf_attempt {attempt lastId id : Nat}
    (h : cursorOf (task.attempt attempt lastId) = some id) : lastId = id := by
  unfold Task.attempt at h
  split at h
  · exact Option.some.inj h
  · cases h

/-- Steps that neither publish events nor read any. -/
theorem Inv.aside {events : Log Fields} {stage stage' : Stage}
    (hi : Inv payload task ⟨events, stage⟩ seen) (quiet : readings seen' = [])
    (silent : requests seen' = 0)
    (stays : ∀ id, cursorOf stage' = some id → cursorOf stage = some id)
    (phase : Phase payload task (seen ++ seen') stage') :
    Inv payload task ⟨events, stage'⟩ (seen ++ seen') where
  reading := by
    obtain ⟨cursor, reading, here⟩ := hi.reading
    exact ⟨cursor, reading.aside quiet, fun id hid => here id (stays id hid)⟩
  last := by
    rw [readings_append, quiet, List.append_nil, requests_append, silent]
    exact hi.last
  bounded := by
    rw [requests_append, silent]
    exact hi.bounded
  phase := phase

theorem Inv.quiet {events : Log Fields} {stage stage' : Stage}
    (hi : Inv payload task ⟨events, stage⟩ seen)
    (stays : ∀ id, cursorOf stage' = some id → cursorOf stage = some id)
    (phase : Phase payload task seen stage') :
    Inv payload task ⟨events, stage'⟩ (seen ++ []) :=
  hi.aside rfl rfl stays (by rw [List.append_nil]; exact phase)

theorem Inv.requested {events : Log Fields} {attempt lastId : Nat}
    (hi : Inv payload task ⟨events, .requesting attempt lastId⟩ seen) (fields : Fields) :
    Inv payload task ⟨events.append fields, .requested attempt lastId⟩ (seen ++ [.requested]) := by
  obtain ⟨cursor, reading, here⟩ := hi.reading
  obtain ⟨hattempt, hle, hextracted⟩ := hi.phase
  have hread : readings (seen ++ [.requested]) = readings seen := by
    rw [readings_append]
    exact List.append_nil _
  have hreq : requests (seen ++ [.requested]) = attempt := by
    rw [requests_append, ← hattempt]
    rfl
  have hlast : ∀ p ∈ readings seen, p.1 < attempt := by
    intro p hp
    have := hi.last p hp
    omega
  constructor
  · have grown : Reading (events.append fields) seen cursor := reading.grow rfl rfl
    exact ⟨cursor, grown.aside rfl, here⟩
  · intro p hp
    rw [hread] at hp
    rw [hreq]
    exact Nat.le_of_lt (hlast p hp)
  · rw [hreq]
    exact hle
  · refine ⟨hreq, by rw [hread]; exact hlast, ?_⟩
    rw [extracted_append, hextracted]
    rfl

theorem Inv.polled {events : Log Fields} {attempt lastId : Nat} {r : Receiving}
    (hi : Inv payload task ⟨events, .receiving attempt lastId r⟩ seen)
    (faithful : Faithful payload events) (now : ℚ) {count : Nat} (fits : count ≤ receiveCount)
    (clock : Nat → ℚ) :
    Inv payload task ⟨events, (poll task events attempt lastId r now count clock).1⟩
      (seen ++ round task events attempt lastId r now count clock) := by
  obtain ⟨cursor, reading, here⟩ := hi.reading
  obtain rfl := here lastId rfl
  obtain ⟨hattempt, hextracted, holds⟩ := hi.phase
  have hlast := hi.last
  rw [hattempt] at hlast
  have hround := @round_reads payload events seen attempt cursor task r faithful reading hlast
    holds now count fits clock
  obtain ⟨entries, htaken⟩ : ∃ entries, round task events attempt cursor r now count clock =
      taken attempt entries := by
    unfold round
    split
    · exact ⟨[], rfl⟩
    · exact ⟨_, rfl⟩
  rw [htaken] at hround ⊢
  have hreq : requests (seen ++ taken attempt entries) = attempt := by
    rw [requests_append, requests_taken, Nat.add_zero, hattempt]
  have hext : extracted (seen ++ taken attempt entries) = [] := by
    rw [extracted_append, extracted_taken, hextracted]
    rfl
  have hle : ∀ p ∈ readings (seen ++ taken attempt entries),
      p.1 ≤ requests (seen ++ taken attempt entries) := by
    intro p hp
    rw [hreq]
    rw [readings_append, readings_taken] at hp
    rcases List.mem_append.mp hp with hp | hp
    · exact hlast p hp
    · obtain ⟨e, -, rfl⟩ := List.mem_map.mp hp
      exact Nat.le_refl _
  have hbound : requests (seen ++ taken attempt entries) ≤ task.maxRetries := by
    rw [hreq, ← hattempt]
    exact hi.bounded
  generalize (poll task events attempt cursor r now count clock).1 = stage at hround ⊢
  generalize hseen : seen ++ taken attempt entries = seen' at hreq hext hle hbound ⊢
  cases hround with
  | goesOn hr hm =>
    rw [hseen] at hr hm
    exact ⟨⟨_, hr, fun id hid => Option.some.inj hid⟩, hle, hbound, hreq, hext, hm⟩
  | failed hr =>
    rw [hseen] at hr
    exact ⟨⟨_, hr, fun id hid => Option.some.inj hid⟩, hle, hbound, hreq, hext⟩
  | complete hr hd =>
    rw [hseen] at hr hd
    exact ⟨⟨_, hr, fun id hid => by cases hid⟩, hle, hbound, hext, by rw [hreq]; exact hd⟩

theorem Inv.prepared {events : Log Fields} {data : List UInt8} {transferId : Option String}
    (hi : Inv payload task ⟨events, .extracting data transferId⟩ seen) (ok : Bool) :
    Inv payload task
      ⟨events, if ok = true then .extracted data.length transferId else .ended .notPrepared⟩
      (seen ++ [.extracts data]) := by
  obtain ⟨hextracted, hdelivered⟩ := hi.phase
  have hdata : extracted (seen ++ [.extracts data]) = [data] := by
    rw [extracted_append, hextracted]
    rfl
  have hread : readings (seen ++ [.extracts data]) = readings seen := by
    rw [readings_append]
    exact List.append_nil _
  have hreq : requests (seen ++ [.extracts data]) = requests seen := requests_append
  cases ok with
  | true =>
    refine hi.aside rfl rfl (fun id hid => by cases hid) ⟨data, hdata, ?_⟩
    rw [hreq, segment, hread]
    exact hdelivered
  | false =>
    refine hi.aside rfl rfl (fun id hid => by cases hid) ?_
    exact Nat.le_of_eq (congrArg List.length hdata)

theorem poll_publishes (events : Log Fields) (attempt lastId : Nat) (r : Receiving) (now : ℚ)
    (count : Nat) (clock : Nat → ℚ) :
    published .events (poll task events attempt lastId r now count clock).2 = [] := by
  have hreceived (ending : Ending) : published .events (Worker.received attempt ending).2 = [] := by
    cases ending <;> rfl
  unfold poll
  split
  · exact hreceived _
  · split
    · exact hreceived _
    · rfl

/-- What one command of the function keeps. -/
theorem Inv.worked {events : Log Fields} {stage stage' : Stage} {work : Work} {deeds : List Deed}
    (hi : Inv payload task ⟨events, stage⟩ seen) (faithful : Faithful payload events)
    (h : Worker.step task events stage work = some (stage', deeds)) (running : returned stage = none) :
    Inv payload task ⟨(published .events deeds).foldl Log.append events, stage'⟩
      (seen ++ seenOf task events stage work) := by
  have phase := hi.phase
  cases stage with
  | requesting attempt lastId =>
    cases work with
    | publish =>
      simp only [Worker.step, Option.some.injEq, Prod.mk.injEq] at h
      obtain ⟨rfl, rfl⟩ := h
      exact hi.requested _
    | _ => cases h
  | requested attempt lastId =>
    cases work with
    | publish =>
      simp only [Worker.step, Option.some.injEq, Prod.mk.injEq] at h
      obtain ⟨rfl, rfl⟩ := h
      exact hi.quiet (fun id hid => hid) phase
    | _ => cases h
  | waiting attempt lastId =>
    cases work with
    | start now =>
      simp only [Worker.step, Option.some.injEq, Prod.mk.injEq] at h
      obtain ⟨rfl, rfl⟩ := h
      obtain ⟨hattempt, hlast, hextracted⟩ := phase
      refine hi.quiet (fun id hid => hid) ⟨hattempt, hextracted, ?_⟩
      rw [segment_none hlast]
      rfl
    | _ => cases h
  | receiving attempt lastId r =>
    cases work with
    | poll now count clock =>
      simp only [Worker.step] at h
      split at h
      · rename_i fits
        have hpoll := Option.some.inj h
        have hstage : (poll task events attempt lastId r now count clock).1 = stage' := by rw [hpoll]
        have hdeeds : (poll task events attempt lastId r now count clock).2 = deeds := by rw [hpoll]
        rw [← hstage, ← hdeeds, poll_publishes]
        exact hi.polled faithful now fits clock
      · cases h
    | _ => cases h
  | retrying attempt lastId why =>
    cases work with
    | publish =>
      simp only [Worker.step, Option.some.injEq, Prod.mk.injEq] at h
      obtain ⟨rfl, rfl⟩ := h
      obtain ⟨rfl, hextracted⟩ := phase
      exact hi.quiet (fun id hid => congrArg some (cursorOf_attempt hid))
        (phase_attempt lastId hextracted)
    | _ => cases h
  | extracting data transferId =>
    cases work with
    | prepare ok =>
      simp only [Worker.step, Option.some.injEq, Prod.mk.injEq] at h
      obtain ⟨rfl, rfl⟩ := h
      exact hi.prepared ok
    | _ => cases h
  | extracted size transferId =>
    cases work with
    | publish =>
      simp only [Worker.step, Option.some.injEq, Prod.mk.injEq] at h
      obtain ⟨rfl, rfl⟩ := h
      exact hi.quiet (fun id hid => by cases hid) phase
    | _ => cases h
  | givingUp => cases running
  | mirroring => cases running
  | ended outcome => cases h
  | _ => exact False.elim phase

theorem Inv.step {turn : Turn} (hi : Inv payload task s seen) (faithful : Faithful payload t.events)
    (h : step task s turn = some (t, seen')) : Inv payload task t (seen ++ seen') := by
  have hgrows := step_grows h
  cases turn with
  | arrives fields =>
    simp only [WorkspaceReception.step, Option.some.injEq, Prod.mk.injEq] at h
    obtain ⟨rfl, rfl⟩ := h
    obtain ⟨cursor, reading, here⟩ := hi.reading
    have grown : Reading (s.events.append fields) seen cursor := reading.grow rfl rfl
    rw [List.append_nil]
    exact ⟨⟨cursor, grown, here⟩, hi.last, hi.bounded, hi.phase⟩
  | work work =>
    simp only [WorkspaceReception.step] at h
    split at h
    · rename_i running
      split at h
      · cases h
      · rename_i stage' deeds hwork
        simp only [Option.some.injEq, Prod.mk.injEq] at h
        obtain ⟨rfl, rfl⟩ := h
        obtain ⟨ms, hms, -⟩ := hgrows
        exact hi.worked (faithful.before ⟨ms, hms.symm⟩) hwork running
    · cases h

theorem inv_start (payload : Nat → List UInt8) (task : Task) (log : Log Fields) :
    Inv payload task ⟨log, task.attempt 1 0⟩ [] where
  reading := ⟨0, .start log, fun _ hid => cursorOf_attempt hid⟩
  last p hp := by cases hp
  bounded := Nat.zero_le _
  phase := phase_attempt 0 rfl

theorem run_inv {turns : List Turn}
    (run : Run (receiving task) Free ⟨log, task.attempt 1 0⟩ turns s seen) :
    Faithful payload s.events → Inv payload task s seen := by
  refine run.invariant (fun s seen => Faithful payload s.events → Inv payload task s seen)
    (fun _ => inv_start payload task log) ?_
  intro s seen turn t seen' hi _ hs faithful
  obtain ⟨ms, hms, -⟩ := step_grows hs
  exact (hi (faithful.before ⟨ms, hms.symm⟩)).step faithful hs

/-- No entry is processed twice. -/
theorem Reading.increasing {cursor : Nat} (h : Reading log seen cursor) :
    ((readings seen).map (fun p => p.2.1)).Pairwise (· < ·) := by
  have hall := number_increasing (log.floor 0 + 1) (log.history.drop (log.floor 0))
  have hunread : log.unread 0 = number (log.floor 0 + 1) (log.history.drop (log.floor 0)) := rfl
  rw [← hunread, h.next, List.map_append, List.map_map] at hall
  exact (List.pairwise_append.mp hall).1

/-- The attempts process the stream from its start, each going on where the one
before it ended, send at most one request each, and extract at most once: the
payload of a transfer that starts and ends in the last attempt. -/
theorem workspace_received {turns : List Turn}
    (run : Run (receiving task) Free ⟨log, task.attempt 1 0⟩ turns s seen)
    (faithful : Faithful payload s.events) :
    (∃ cursor, s.events.unread 0 = (readings seen).map Prod.snd ++ s.events.unread cursor) ∧
      ((readings seen).map Prod.fst).Pairwise (· ≤ ·) ∧
      ((readings seen).map (fun p => p.2.1)).Pairwise (· < ·) ∧
      (∀ p ∈ readings seen, p.1 ≤ requests seen) ∧ requests seen ≤ task.maxRetries ∧
      (extracted seen).length ≤ 1 ∧
      (returned s.stage = some true → ∃ data, extracted seen = [data] ∧
        Delivered payload data (segment (requests seen) seen)) ∧
      (returned s.stage = some false → extracted seen = []) := by
  have hi := run_inv run faithful
  obtain ⟨cursor, reading, -⟩ := hi.reading
  refine ⟨⟨cursor, reading.next⟩, reading.sorted, reading.increasing, hi.last, hi.bounded,
    hi.phase.once, ?_, ?_⟩
  · intro h
    have phase := hi.phase
    cases hs : s.stage with
    | mirroring =>
      rw [hs] at phase
      exact phase
    | _ => rw [hs] at h; cases h
  · intro h
    have phase := hi.phase
    cases hs : s.stage with
    | givingUp =>
      rw [hs] at phase
      exact phase
    | _ => rw [hs] at h; cases h

end Attempts

def twiceTask : Task where
  executionId := "e"
  fileName := "*"
  tenantId := "t"
  delegateId := "d"
  waitTimeout := 15
  maxRetries := 2
  tempWorkspaceDir := "tmp"

def firstSending : Sending := ⟨2, Nat.two_pos, [], "t0", threeBytes⟩

def secondSending : Sending := ⟨2, Nat.two_pos, [], "t1", threeBytes⟩

def requestMessage : Fields := dataRequest twiceTask.baseFields twiceTask.fileName

/-- The first transfer stalls after its first chunk and goes on when the second
has been requested. -/
def stalled : List Turn :=
  [.work .publish, .work .publish, .work (.start 0)] ++
    (firstSending.messages.take 2).map .arrives ++
    [.work (.poll 0 100 (fun _ => 0)), .work (.poll 100 100 (fun _ => 0)), .work .publish,
      .work .publish, .work .publish, .work (.start 100)] ++
    (firstSending.messages.drop 2 ++ secondSending.messages).map .arrives ++
    [.work (.poll 100 100 (fun _ => 0)), .work (.prepare true), .work .publish]

def stalledHistory : List Fields :=
  requestMessage :: firstSending.messages.take 2 ++ requestMessage ::
    firstSending.messages.drop 2 ++ secondSending.messages

theorem messages_declare {sending : Sending} {m : Fields} {id : String} {header : Header}
    (hm : m ∈ sending.messages) (hp : pieceOf m = .start id header) :
    header = ((sending.payload.data.length : Int), sha256Bytes sending.payload.data) := by
  rcases messages_cases hm with rfl | ⟨seq, chunk, hseq, rfl⟩ | rfl
  · rw [pieceOf_start] at hp
    cases hp
    rfl
  · rw [pieceOf_chunk _ _ hseq] at hp
    cases hp
  · rw [Sending.end, pieceOf_end] at hp
    cases hp

theorem stalled_messages {m : Fields} (hm : m ∈ stalledHistory) :
    IsForeign m ∨ ∃ sending : Sending, sending.payload.data = [1, 2, 3] ∧ m ∈ sending.messages := by
  have foreign : IsForeign requestMessage := ⟨by decide, by decide, by decide⟩
  simp only [stalledHistory, List.mem_append, List.mem_cons] at hm
  rcases hm with ((rfl | hm) | rfl | hm) | hm
  · exact Or.inl foreign
  · exact Or.inr ⟨firstSending, rfl, List.mem_of_mem_take hm⟩
  · exact Or.inl foreign
  · exact Or.inr ⟨firstSending, rfl, List.mem_of_mem_drop hm⟩
  · exact Or.inr ⟨secondSending, rfl, hm⟩

theorem stalled_faithful {log : Log Fields} (h : log.history = stalledHistory) :
    Faithful (fun _ => [1, 2, 3]) log where
  readable n m hm := by
    obtain ⟨i, -, hi⟩ := hm
    rcases stalled_messages (h ▸ List.mem_of_getElem? hi) with hf | ⟨sending, -, hs⟩
    · exact readable_foreign hf
    · exact messages_readable hs
  declared n m id header hm hp := by
    obtain ⟨i, -, hi⟩ := hm
    rcases stalled_messages (h ▸ List.mem_of_getElem? hi) with hf | ⟨sending, hdata, hs⟩
    · rw [pieceOf_foreign hf] at hp
      cases hp
    · rw [messages_declare hs hp, hdata]
  noCollision n m id header _ _ chunks hsub := by
    have hcontents : contents (stalledHistory.map pieceOf) = [[1, 2], [3], [1, 2], [3]] := by
      decide +kernel
    have hall : ∀ chunks ∈ ([[1, 2], [3], [1, 2], [3]] : List (List UInt8)).sublists,
        chunks.flatten.length = 3 → sha256Bytes chunks.flatten = sha256Bytes [1, 2, 3] →
          chunks.flatten = [1, 2, 3] := by
      decide +kernel
    rw [h, hcontents] at hsub
    exact hall chunks (List.mem_sublists.mpr hsub)

/-- The second attempt, which first gets the rest of the stalled transfer, ends
with the second transfer. -/
theorem stalled_received : ∃ s seen,
    Run (receiving twiceTask) Free ⟨.empty, twiceTask.attempt 1 0⟩ stalled s seen ∧
      returned s.stage = some true ∧
      ((readings seen).map Prod.fst).Pairwise (· ≤ ·) ∧ requests seen ≤ 2 ∧
      ∃ data, extracted seen = [data] ∧
        Delivered (fun _ => [1, 2, 3]) data (segment (requests seen) seen) := by
  have hrun : (replay (receiving twiceTask) ⟨.empty, twiceTask.attempt 1 0⟩ stalled).any
      (fun p => p.1.events.history = stalledHistory && returned p.1.stage = some true) = true := by
    decide +kernel
  obtain ⟨s, seen, run, hend⟩ := run_of_replay_test hrun
  simp only [Bool.and_eq_true, decide_eq_true_eq] at hend
  obtain ⟨-, hsorted, -, -, hrequests, -, htrue, -⟩ :=
    workspace_received run (stalled_faithful hend.1)
  exact ⟨s, seen, run, hend.2, hsorted, hrequests, htrue hend.2⟩

end WorkspaceReception
