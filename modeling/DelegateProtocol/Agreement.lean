import DelegateProtocol.Deliveries
import DelegateProtocol.OutputIntegrity
import DelegateProtocol.OverlappingTransfers

/-!
# A delivery and its watcher agree

One delivery and the watcher of its execution, step by step in any order. The
status the watcher leaves behind is the outcome of the delivery: the reports
that make a status terminal are the last ones of the status stream, a complete
output is never reported along with a failure, and whoever has handled the last
message of a stream finds nothing there that could change the row again.
-/

namespace Agreement

open AppendLog ChunkedTransfer Handlers Models Reassembly Runtime StepMachine Streams WovenTransfers
  WatchExecution ReadingOrder TerminalStatus Transfers OverlappingTransfers OutputIntegrity Worker
  Deliveries

/-- The streams of the task are not there yet. -/
def Fresh (job : Job) (world : World) : Prop :=
  ∀ k, ¬ (world.redis (job.task.keys.key k)).Exists

/-- The row is as `create_execution` leaves it. -/
def Queued (job : Job) (world : World) : Prop :=
  ∃ e, world.store.db.execution job.execution.id = some e ∧ e.status = .queued

/-- The messages of a stream a watcher has handled, in order. -/
def handledOn (k : Kind) (o : List (Event Unit)) : List Fields :=
  (handledOf k (seenBy o)).map Prod.snd

/-- The last message of an output has been published. -/
def allSent : Stage → Bool
  | .sending _ _ [] => true
  | .succeeding => true
  | .ended outcome => decide (outcome = .succeeded)
  | _ => false

/-- A terminal status is what the deeds of the delivery say it is. -/
structure Backed (host : Host) (job : Job) (store : Store) (deeds : List Deed) (e : Execution) :
    Prop where
  succeeded : e.status = .succeeded → ∃ zip transferId, Deed.built zip ∈ deeds ∧
    published .output deeds = sendBytes chunkSize job.task.baseFields transferId zip ∧
    e.outputPath = outPath host job.execution ∧ store.media e.outputPath = some zip.data
  failed : e.status = .failed → job.task.status "TASK_FAILED" ∈ deeds
  transferFailed : e.status = .transferFailed → job.task.status "TRANSFER_FAILED" ∈ deeds ∧
    ∀ n, 1 ≤ n → n ≤ job.task.maxRetries → ∃ why, Deed.attemptFailed n why ∈ deeds

/-- A watcher that has made the row terminal has nothing left to handle. -/
structure Settled (host : Host) (job : Job) (s : Site Unit) (o : List (Event Unit)) : Prop where
  done : ∀ e, s.system.row = some e → e.Terminal → inHand s.watch.point = []
  backed : ∀ e, s.system.row = some e → Backed host job s.world.store (deedsOf () o) e
  sent : ∀ e, s.system.row = some e → e.status = .succeeded → allSent (s.stages ()) = true

section Messages
variable {task : Task} {stage stage' : Stage} {deeds deeds' : List Deed}

theorem newStatus_message (text : String) :
    newStatus (statusMessage task.baseFields text) = statusMapping.lookup text := by
  simp [newStatus, statusMessage, Task.baseFields, Fields.getD, Fields.get?, List.lookup_cons]

theorem lookup_failed {text : String} (h : statusMapping.lookup text = some .failed) :
    text = "TASK_FAILED" := by
  obtain ⟨pre, post, hl, -⟩ := List.lookup_eq_some_iff.mp h
  have hmem : (text, Status.failed) ∈ statusMapping := by
    rw [hl]
    simp
  simpa [statusMapping] using hmem

theorem lookup_transferFailed {text : String}
    (h : statusMapping.lookup text = some .transferFailed) : text = "TRANSFER_FAILED" := by
  obtain ⟨pre, post, hl, -⟩ := List.lookup_eq_some_iff.mp h
  have hmem : (text, Status.transferFailed) ∈ statusMapping := by
    rw [hl]
    simp
  simpa [statusMapping] using hmem

theorem statusMessage_injective {text text' : String}
    (h : statusMessage task.baseFields text = statusMessage task.baseFields text') :
    text = text' := by
  simpa [statusMessage] using h

/-- Where the delivery stands once it has reported a failure. -/
theorem statuses_failed (h : "TASK_FAILED" ∈ statuses stage) :
    statuses stage = ["TRANSFERRING_INPUT", "EXECUTING"] ++ ["TASK_FAILED"] ∧
      (Sent task deeds stage → published .output deeds = []) := by
  cases stage with
  | ended outcome =>
    cases outcome with
    | failed => exact ⟨rfl, id⟩
    | _ => simp [statuses] at h
  | _ => simp [statuses] at h

theorem statuses_transferFailed (h : "TRANSFER_FAILED" ∈ statuses stage) :
    statuses stage = ["TRANSFERRING_INPUT"] ++ ["TRANSFER_FAILED"] ∧
      (Sent task deeds stage → published .output deeds = []) ∧
      tried task stage = task.maxRetries + 1 := by
  cases stage with
  | gaveUp => exact ⟨rfl, id, rfl⟩
  | ended outcome =>
    cases outcome with
    | transferFailed => exact ⟨rfl, id, rfl⟩
    | _ => simp [statuses] at h
  | _ => simp [statuses] at h

/-- Whatever output there is belongs to one archive that has been built. -/
theorem sent_output (hs : Sent task deeds stage) (some : published .output deeds ≠ []) :
    ∃ zip transferId pending, Deed.built zip ∈ deeds ∧
      published .output deeds ++ pending = sendBytes chunkSize task.baseFields transferId zip ∧
      (pending = [] → allSent stage = true) := by
  cases stage with
  | sending zip transferId pending =>
    refine ⟨zip, transferId, pending, hs.1, hs.2, ?_⟩
    rintro rfl
    rfl
  | succeeding =>
    obtain ⟨zip, transferId, built, all⟩ := hs
    exact ⟨zip, transferId, [], built, (List.append_nil _).trans all, fun _ => rfl⟩
  | ended outcome =>
    cases outcome with
    | succeeded =>
      obtain ⟨zip, transferId, built, all⟩ := hs
      exact ⟨zip, transferId, [], built, (List.append_nil _).trans all, fun _ => rfl⟩
    | _ => exact False.elim (some hs)
  | _ => exact False.elim (some hs)

/-- A delivery whose output is out sends no more of it. -/
theorem allSent_does (h : Does task stage stage' deeds) (hs : allSent stage = true) :
    allSent stage' = true ∧ published .output deeds = [] := by
  cases h <;> first | exact ⟨rfl, rfl⟩ | cases hs

def outputSending (task : Task) (transferId : String) (zip : Payload) : Sending :=
  ⟨chunkSize, by decide, task.baseFields, transferId, zip⟩

/-- Only the last message of an output ends it, and then it is whole. -/
theorem output_closes {transferId : String} {zip : Payload} {ms : List Fields} {m : Fields}
    (hpre : ms ++ [m] <+: sendBytes chunkSize task.baseFields transferId zip) {b : WireBuffer}
    (held : after (ms.map pieceOf) = some b) (hc : Closes m (stateOf b)) :
    ms ++ [m] = sendBytes chunkSize task.baseFields transferId zip ∧ b.bytes = zip.data ∧
      (stateOf b).Valid := by
  have hpieces : (outputSending task transferId zip).messages.map pieceOf =
      sends (fun n => (n : Int)) (outputSending task transferId zip).transfer :=
    messages_pieces _
  have hp : pieceOf m = .finish b.id := pieceOf_closes hc
  have hcloses : closes (after (ms.map pieceOf)) (pieceOf m) = some b := by
    rw [held, hp]
    simp [closes]
  have hpre' : ms.map pieceOf ++ [pieceOf m] <+:
      sends (fun n => (n : Int)) (outputSending task transferId zip).transfer := by
    have hmap := List.IsPrefix.map pieceOf hpre
    rw [List.map_append] at hmap
    rw [← hpieces]
    exact hmap
  obtain ⟨rfl, hall⟩ := sends_closes natCast_injective hpre' hcloses
  refine ⟨hpre.eq_of_length ?_, whole_bytes _, whole_valid _⟩
  have hlen := congrArg List.length hall
  rw [← hpieces] at hlen
  simpa [outputSending, Sending.messages] using hlen

theorem mem_published {k : Kind} {fields : Fields} :
    fields ∈ published k deeds ↔ Deed.publish k fields ∈ deeds := by
  induction deeds with
  | nil => simp [published]
  | cons deed deeds ih =>
    cases deed with
    | publish k' fields' =>
      by_cases hk : k' = k
      · simp [published, hk, ih]
      · simp [published, hk, ih, Ne.symm hk]
    | _ => simp [published, ih]

end Messages

/-- The messages whose handling makes a row terminal, with what it holds then. -/
inductive Concludes (host : Host) (watch : Watch) (store : Store) (e : Execution) : Message → Prop
  | reported {m : Message} : m.kind = .status → newStatus m.fields = some e.status →
      Concludes host watch store e m
  | received {m : Message} {state : OutputState} : m.kind = .output →
      watch.outputState = some state → Closes m.fields state → e.status = .succeeded →
      e.outputPath = outPath host watch.execution → store.media e.outputPath = some state.buf →
      Concludes host watch store e m
  | rejected {m : Message} {state : OutputState} : m.kind = .output →
      watch.outputState = some state → Closes m.fields state → ¬ state.Valid →
      Concludes host watch store e m

section Rows
variable {host : Host} {world world' : World} {watch watch' : Watch} {input : Input}
variable {seen : List Seen} {e : Execution}

theorem effects_concludes {m : Message} {store store' : Store} {logSeq : Nat}
    {state : Option OutputState} (h : Effects host watch m store store' logSeq state)
    (before : ∀ e, store.db.execution watch.execution.id = some e → ¬ e.Terminal)
    (after : store'.db.execution watch.execution.id = some e) (term : e.Terminal) :
    Concludes host watch store' e m := by
  cases h with
  | skip _ _ _ => exact False.elim (before e after term)
  | log _ _ => exact False.elim (before e after term)
  | status hk _ =>
    rw [handleStatus_row] at after
    obtain ⟨e₀, he₀, rfl⟩ := Option.map_eq_some_iff.mp after
    cases hn : newStatus m.fields with
    | none =>
      rw [hn] at term
      exact False.elim (before e₀ he₀ term)
    | some status => exact .reported hk hn
  | waiting _ _ => exact False.elim (before e after term)
  | received hk hv _ =>
    obtain ⟨s, hs, hc, -, rfl, rfl⟩ := outputVerdict_received hv
    rw [acceptOutput_row] at after
    obtain ⟨e₀, -, rfl⟩ := Option.map_eq_some_iff.mp after
    exact .received hk hs hc rfl rfl (by simp [acceptOutput])
  | failed hk hv =>
    obtain ⟨s, hs, hc, invalid⟩ := outputVerdict_failed hv
    exact .rejected hk hs hc invalid

/-- Only the handling of a status or output message makes a row terminal. -/
theorem moves_concludes (h : Moves host world watch input world' watch' seen)
    (before : ∀ e, world.store.db.execution watch.execution.id = some e → ¬ e.Terminal)
    (after : world'.store.db.execution watch.execution.id = some e) (term : e.Terminal) :
    ∃ m rest, watch.point = .handling (m :: rest) ∧ watch'.point = .handling rest ∧
      Concludes host watch world'.store e m := by
  cases h with
  | message hp _ he =>
    exact ⟨_, _, hp, rfl, effects_concludes (effect_ok he) before after term⟩
  | saved _ hs =>
    have hrow := after
    rw [(saveTransfer_ok hs).1] at hrow
    obtain ⟨e₀, -, rfl⟩ := Option.map_eq_some_iff.mp hrow
    simp [Execution.Terminal, terminalStatuses] at term
  | _ => exact False.elim (before e after term)

/-- With nothing left to handle, a terminal row and the files stay. -/
theorem moves_rests (h : Moves host world watch input world' watch' seen)
    (hrow : world.store.db.execution watch.execution.id = some e) (idle : Idle watch.point)
    (done : inHand watch.point = []) :
    world'.store.db.execution watch.execution.id = some e ∧
      world'.store.media = world.store.media ∧ inHand watch'.point = [] := by
  cases h with
  | expire _ => exact ⟨hrow, rfl, rfl⟩
  | rowGone _ _ => exact ⟨hrow, rfl, rfl⟩
  | finish _ _ _ => exact ⟨hrow, rfl, rfl⟩
  | poll _ _ _ => exact ⟨hrow, rfl, rfl⟩
  | readLost _ => exact ⟨hrow, rfl, rfl⟩
  | batchDone _ => exact ⟨hrow, rfl, rfl⟩
  | delete _ => exact ⟨hrow, rfl, rfl⟩
  | deleteLost _ => exact ⟨hrow, rfl, rfl⟩
  | deleteUnanswered _ => exact ⟨hrow, rfl, rfl⟩
  | read hp _ => simp [hp, Idle] at idle
  | requestRowGone hp _ _ => simp [hp, inHand] at done
  | request hp _ _ => simp [hp, inHand] at done
  | message hp _ _ => simp [hp, inHand] at done
  | messageRaised hp _ _ => simp [hp, inHand] at done
  | requestRaised hp _ => simp [hp, Idle] at idle
  | rejected hp _ => simp [hp, Idle] at idle
  | fileNotFound hp _ => simp [hp, Idle] at idle
  | granted hp _ => simp [hp, Idle] at idle
  | xadd hp => simp [hp, Idle] at idle
  | xaddLost hp => simp [hp, Idle] at idle
  | xaddUnanswered hp => simp [hp, Idle] at idle
  | saved hp _ => simp [hp, Idle] at idle
  | saveRaised hp _ => simp [hp, Idle] at idle

end Rows

section Handled
variable {host : Host} {job : Job} {world : World} {turns : List (Turn Unit)} {s : Site Unit}
variable {o : List (Event Unit)}

theorem sentOn_unit (k : Kind) (o : List (Event Unit)) :
    sentOn k o = published k (deedsOf () o) := by
  induction o with
  | nil => rfl
  | cons x o ih =>
    cases x with
    | watcher seen => exact ih
    | worker i deed =>
      have hd : deedsOf () (Event.worker i deed :: o) = deed :: deedsOf () o := rfl
      cases deed with
      | publish k' fields =>
        rw [hd]
        by_cases hk : k' = k
        · simpa [sentOn, Event.message, published, hk] using ih
        · simpa [sentOn, Event.message, published, hk] using ih
      | _ => exact ih

theorem Fresh.removed (fresh : Fresh job world) (k : Kind) :
    (world.redis (job.task.keys.key k)).removed =
      (world.redis (job.task.keys.key k)).history.length := by
  have hgone := fresh k
  have hle := (world.redis (job.task.keys.key k)).removed_le
  unfold Log.Exists at hgone
  omega

/-- What a watcher has handled and has in hand are the first messages published. -/
theorem inHand_published (fresh : Fresh job world)
    (h : Run (delivering host job.task) Free (.start job world) turns s o) {k : Kind}
    (hk : k ≠ .events) :
    handledOn k o ++ (ofKind k (inHand s.watch.point)).map Prod.snd <+:
      published k (deedsOf () o) := by
  obtain ⟨as, hr⟩ := watching_run h
  obtain ⟨hi, hc⟩ := consecutive_run hr
  have hlog : s.system.log k = s.world.redis (job.task.keys.key k) := by
    rw [System.log, Site.system, (same_run h).2]
  have all : (entries (world.redis (job.task.keys.key k)).removed (s.system.log k)).map Prod.snd =
      published k (deedsOf () o) := by
    rw [entries, number_map_snd, hlog, history_run h hk, fresh.removed k, List.drop_left,
      sentOn_unit]
  by_cases hd : Seen.deleted ∈ seenBy o
  · obtain ⟨why, hp⟩ := hc.closed hd
    have empty : inHand s.watch.point = [] := by
      rw [show s.watch.point = .ended why from hp]
      rfl
    rw [← all, empty]
    simpa [ofKind, handledOn] using (hc.first k).map Prod.snd
  · rw [← all, (hc.whole hd k).2, List.map_append]
    exact (List.prefix_append_right_inj _).mpr ((hi.next k).map Prod.snd)

theorem next_published (fresh : Fresh job world)
    (h : Run (delivering host job.task) Free (.start job world) turns s o) {m : Message}
    {rest : List Message} (hp : s.watch.point = .handling (m :: rest)) (hk : m.kind ≠ .events) :
    handledOn m.kind o ++ m.fields :: (ofKind m.kind rest).map Prod.snd <+:
      published m.kind (deedsOf () o) := by
  have hall := inHand_published fresh h hk
  rwa [hp, inHand, ofKind_cons_self, List.map_cons] at hall

theorem eq_nil_of_ofKind {ms : List Message} (h : ∀ m ∈ ms, ofKind m.kind ms = []) : ms = [] := by
  cases ms with
  | nil => rfl
  | cons m ms =>
    have hm := h m (List.mem_cons_self ..)
    rw [ofKind_cons_self] at hm
    cases hm

/-- What comes after the last element of a list is nothing. -/
theorem eq_nil_of_last {α : Type} {a b l : List α} {x : α} (h : a ++ x :: b <+: l ++ [x])
    (new : x ∉ l) : b = [] := by
  obtain ⟨c, hc⟩ := h
  rw [List.append_assoc, List.cons_append] at hc
  rcases List.append_eq_append_iff.mp hc with ⟨l', rfl, hl⟩ | ⟨a', rfl, ha⟩
  · cases l' with
    | nil => simp_all
    | cons y l' =>
      obtain ⟨rfl, -⟩ := List.cons.inj hl
      exact False.elim (new (by simp))
  · cases a' with
    | nil => simp_all
    | cons y a' => simp at ha

variable {m : Message} {rest : List Message}

theorem later_rank (h : Run (delivering host job.task) Free (.start job world) turns s o)
    (hp : s.watch.point = .handling (m :: rest)) : ∀ x ∈ rest, rank m.kind ≤ rank x.kind := by
  obtain ⟨as, hr⟩ := watching_run h
  have sorted := (consecutive_run hr).1.sorted
  rw [show inHand s.system.watch.point = m :: rest by rw [Site.system, hp]; rfl] at sorted
  exact (List.pairwise_cons.mp sorted).1

/-- A report that is the last one of a delivery without output is the last message. -/
theorem last_report (fresh : Fresh job world)
    (h : Run (delivering host job.task) Free (.start job world) turns s o)
    (hp : s.watch.point = .handling (m :: rest)) (hk : m.kind = .status) {text : String}
    (hm : statusMessage job.task.baseFields text = m.fields) {before : List String}
    (hs : statuses (s.stages ()) = before ++ [text]) (new : text ∉ before)
    (quiet : published .output (deedsOf () o) = []) : rest = [] := by
  have hstatus : ofKind .status rest = [] := by
    have hpre := next_published fresh h hp (by simp [hk])
    rw [hk, (script_run h ()).statuses, hs, List.map_append, List.map_singleton, ← hm] at hpre
    refine List.map_eq_nil_iff.mp (eq_nil_of_last hpre ?_)
    intro hmem
    obtain ⟨text', htext', heq⟩ := List.mem_map.mp hmem
    rw [statusMessage_injective heq] at htext'
    exact new htext'
  have houtput : ofKind .output rest = [] := by
    have hpre := @inHand_published host job world turns s o fresh h .output (by decide)
    rw [quiet, hp, inHand, ofKind_cons_ne (by simp [hk])] at hpre
    have hnil := List.append_eq_nil_iff.mp (List.prefix_nil.mp hpre)
    exact List.map_eq_nil_iff.mp hnil.2
  refine eq_nil_of_ofKind fun x hx => ?_
  have hle := later_rank h hp x hx
  cases hx' : x.kind with
  | events => simp [hk, hx', rank] at hle
  | log => simp [hk, hx', rank] at hle
  | status => exact hstatus
  | output => exact houtput

/-- The message that closes an output is the last one, and the output is whole. -/
theorem last_output (fresh : Fresh job world)
    (h : Run (delivering host job.task) Free (.start job world) turns s o)
    (hp : s.watch.point = .handling (m :: rest)) (hk : m.kind = .output) {b : WireBuffer}
    (held : after ((handledOn .output o).map pieceOf) = some b) (hc : Closes m.fields (stateOf b)) :
    rest = [] ∧ (stateOf b).Valid ∧ allSent (s.stages ()) = true ∧
      ∃ zip transferId, Deed.built zip ∈ deedsOf () o ∧
        published .output (deedsOf () o) =
          sendBytes chunkSize job.task.baseFields transferId zip ∧ b.bytes = zip.data := by
  have hpre := next_published fresh h hp (by simp [hk])
  rw [hk] at hpre
  have sent : published .output (deedsOf () o) ≠ [] := by
    intro hn
    rw [hn] at hpre
    simpa using List.prefix_nil.mp hpre
  obtain ⟨zip, transferId, pending, built, whole, all⟩ := sent_output (script_run h ()).output sent
  have first : handledOn .output o ++ [m.fields] <+: published .output (deedsOf () o) := by
    refine List.IsPrefix.trans ?_ hpre
    exact ⟨(ofKind .output rest).map Prod.snd, List.append_assoc _ _ _⟩
  have hsend : handledOn .output o ++ [m.fields] <+:
      sendBytes chunkSize job.task.baseFields transferId zip := by
    rw [← whole]
    exact first.trans (List.prefix_append _ _)
  obtain ⟨hall, hbytes, valid⟩ := output_closes hsend held hc
  have hlen := hpre.length_le
  have htotal := congrArg List.length (whole.trans hall.symm)
  simp only [List.length_append, List.length_cons, List.length_map, List.length_nil] at hlen htotal
  have hrest : ofKind .output rest = [] := List.eq_nil_of_length_eq_zero (by omega)
  have hpending : pending = [] := List.eq_nil_of_length_eq_zero (by omega)
  refine ⟨?_, valid, all hpending, zip, transferId, built, ?_, hbytes⟩
  · refine eq_nil_of_ofKind fun x hx => ?_
    have hle := later_rank h hp x hx
    cases hx' : x.kind with
    | output => exact hrest
    | _ => simp [hk, hx', rank] at hle
  · rw [hpending, List.append_nil] at whole
    exact whole

end Handled

section Settling
variable {host : Host} {job : Job} {world : World} {turns : List (Turn Unit)} {s t : Site Unit}
variable {o o' : List (Event Unit)} {store store' : Store} {deeds deeds' : List Deed}
variable {e : Execution}

theorem Backed.open (h : ¬ e.Terminal) : Backed host job store deeds e where
  succeeded hs := False.elim (h (by simp [Execution.Terminal, terminalStatuses, hs]))
  failed hs := False.elim (h (by simp [Execution.Terminal, terminalStatuses, hs]))
  transferFailed hs := False.elim (h (by simp [Execution.Terminal, terminalStatuses, hs]))

theorem Backed.later (h : Backed host job store deeds e)
    (media : store'.media (outPath host job.execution) = store.media (outPath host job.execution))
    (quiet : e.status = .succeeded → published .output deeds' = []) :
    Backed host job store' (deeds ++ deeds') e where
  succeeded hs := by
    obtain ⟨zip, transferId, built, all, path, file⟩ := h.succeeded hs
    refine ⟨zip, transferId, List.mem_append_left _ built, ?_, path, ?_⟩
    · rw [published_append, quiet hs, List.append_nil]
      exact all
    · rw [path, media, ← path]
      exact file
  failed hs := List.mem_append_left _ (h.failed hs)
  transferFailed hs := by
    obtain ⟨reported, all⟩ := h.transferFailed hs
    refine ⟨List.mem_append_left _ reported, fun n hn hle => ?_⟩
    obtain ⟨why, hw⟩ := all n hn hle
    exact ⟨why, List.mem_append_left _ hw⟩

theorem Settled.start (queued : Queued job world) : Settled host job (.start job world) [] := by
  obtain ⟨e₀, hrow, hq⟩ := queued
  have only (e : Execution) (he : (Site.start job world : Site Unit).system.row = some e) :
      ¬ e.Terminal := by
    cases hrow.symm.trans he
    simp [Execution.Terminal, terminalStatuses, hq]
  refine ⟨fun e he hterm => False.elim (only e he hterm), fun e he => .open (only e he), ?_⟩
  intro e he hs
  exact False.elim (only e he (by simp [Execution.Terminal, terminalStatuses, hs]))

/-- The report that a watcher takes from its hand is one of the delivery. -/
theorem reported_text (fresh : Fresh job world)
    (h : Run (delivering host job.task) Free (.start job world) turns s o) {m : Message}
    {rest : List Message} (hp : s.watch.point = .handling (m :: rest)) (hk : m.kind = .status) :
    ∃ text ∈ statuses (s.stages ()), statusMessage job.task.baseFields text = m.fields ∧
      job.task.status text ∈ deedsOf () o := by
  have hpre := next_published fresh h hp (by simp [hk])
  have hmem : m.fields ∈ published .status (deedsOf () o) := by
    rw [hk] at hpre
    exact hpre.subset (by simp)
  have hstatus := hmem
  rw [(script_run h ()).statuses] at hstatus
  obtain ⟨text, htext, hm⟩ := List.mem_map.mp hstatus
  refine ⟨text, htext, hm, ?_⟩
  rw [Task.status, hm]
  exact mem_published.mp hmem

/-- Whatever makes the row terminal is the end of what the delivery has to say. -/
theorem concluded (fresh : Fresh job world) (queued : Queued job world)
    (h : Run (delivering host job.task) Free (.start job world) turns s o) {m : Message}
    {rest : List Message} (hp : s.watch.point = .handling (m :: rest))
    (hc : Concludes host s.watch store e m) (term : e.Terminal) :
    rest = [] ∧ Backed host job store (deedsOf () o) e ∧
      (e.status = .succeeded → allSent (s.stages ()) = true) := by
  have script := script_run h ()
  have held {state : OutputState} (hs : s.watch.outputState = some state) :
      ∃ b, after ((handledOn .output o).map pieceOf) = some b ∧ stateOf b = state := by
    obtain ⟨as, hr⟩ := watching_run h
    have unset : ∀ e, world.store.db.execution job.execution.id = some e →
        e.status ≠ .succeeded := by
      obtain ⟨e₀, hrow, hq⟩ := queued
      intro e he
      cases hrow.symm.trans he
      simp [hq]
    rcases (sound_run unset hr).follows with ⟨why, hw⟩ | hf
    · rw [show s.system.watch.point = .handling (m :: rest) from hp] at hw
      cases hw
    · exact Option.map_eq_some_iff.mp (hf.state.symm.trans hs)
  cases hc with
  | reported hk mapped =>
    obtain ⟨text, htext, hm, reported⟩ := reported_text fresh h hp hk
    have hn := mapped
    rw [← hm, newStatus_message] at hn
    cases hstatus : e.status with
    | failed =>
      rw [hstatus] at hn
      obtain rfl := lookup_failed hn
      obtain ⟨hlist, quiet⟩ := statuses_failed htext
      refine ⟨last_report fresh h hp hk hm hlist (by decide) (quiet script.output), ?_, by simp⟩
      exact ⟨by simp [hstatus], fun _ => reported, by simp [hstatus]⟩
    | transferFailed =>
      rw [hstatus] at hn
      obtain rfl := lookup_transferFailed hn
      obtain ⟨hlist, quiet, tries⟩ := @statuses_transferFailed job.task _ (deedsOf () o) htext
      refine ⟨last_report fresh h hp hk hm hlist (by decide) (quiet script.output), ?_, by simp⟩
      refine ⟨by simp [hstatus], by simp [hstatus], fun _ => ⟨reported, fun n hn hle => ?_⟩⟩
      exact script.attempts n hn (by omega)
    | succeeded =>
      rw [hstatus] at mapped
      exact False.elim (newStatus_ne_succeeded mapped)
    | _ => simp [Execution.Terminal, terminalStatuses, hstatus] at term
  | received hk hs hc succ path file =>
    obtain ⟨b, hb, rfl⟩ := held hs
    obtain ⟨hrest, -, all, zip, transferId, built, whole, hbytes⟩ := last_output fresh h hp hk hb hc
    refine ⟨hrest, ⟨fun _ => ?_, by simp [succ], by simp [succ]⟩, fun _ => all⟩
    rw [(same_run h).1] at path
    exact ⟨zip, transferId, built, whole, path, file.trans (congrArg some hbytes)⟩
  | rejected hk hs hc invalid =>
    obtain ⟨b, hb, rfl⟩ := held hs
    exact False.elim (invalid (last_output fresh h hp hk hb hc).2.1)

/-- A watcher's step leaves a row settled. -/
theorem Settled.watcher (fresh : Fresh job world) (queued : Queued job world)
    (h : Run (delivering host job.task) Free (.start job world) turns s o)
    (hi : Settled host job s o) {input : Input} {system : System} {seen : List Seen}
    (hm : Moves host s.world s.watch input system.world system.watch seen) :
    Settled host job (s.withSystem system) (o ++ seen.map .watcher) := by
  have hexec := (moves_same hm).1
  have deeds : deedsOf () (o ++ seen.map .watcher) = deedsOf () o := by
    rw [deedsOf_append, deedsOf_watcher, List.append_nil]
  have row (e : Execution) (he : (s.withSystem system).system.row = some e) :
      system.world.store.db.execution s.watch.execution.id = some e := by
    rw [← hexec]
    exact he
  by_cases hterm : ∃ e, s.system.row = some e ∧ e.Terminal
  · obtain ⟨e, hrow, hterm⟩ := hterm
    obtain ⟨as, hr⟩ := watching_run h
    obtain ⟨hrow', media, hand⟩ :=
      moves_rests hm hrow ((calm_run hr).idle e hrow hterm) (hi.done e hrow hterm)
    refine ⟨fun _ _ _ => hand, fun e' he' => ?_, fun e' he' hs => ?_⟩
    · cases hrow'.symm.trans (row e' he')
      have later : Backed host job system.world.store (deedsOf () o ++ []) e :=
        (hi.backed e hrow).later (by rw [media]) (fun _ => rfl)
      rw [deeds]
      rwa [List.append_nil] at later
    · cases hrow'.symm.trans (row e' he')
      exact hi.sent e hrow hs
  · have before : ∀ e, s.system.row = some e → ¬ e.Terminal :=
      fun e he ht => hterm ⟨e, he, ht⟩
    have ended (e : Execution) (he : (s.withSystem system).system.row = some e)
        (ht : e.Terminal) : inHand system.watch.point = [] ∧
          Backed host job system.world.store (deedsOf () o) e ∧
          (e.status = .succeeded → allSent (s.stages ()) = true) := by
      obtain ⟨m, rest, hp, hp', hc⟩ := moves_concludes hm before (row e he) ht
      obtain ⟨rfl, backed, all⟩ := concluded fresh queued h hp hc ht
      exact ⟨by rw [hp']; rfl, backed, all⟩
    refine ⟨fun e he ht => (ended e he ht).1, fun e he => ?_, fun e he hs => ?_⟩
    · rw [deeds]
      by_cases ht : e.Terminal
      · exact (ended e he ht).2.1
      · exact .open ht
    · exact (ended e he (by simp [Execution.Terminal, terminalStatuses, hs])).2.2 hs

/-- A step that neither touches the row nor the output file keeps it settled. -/
theorem Settled.aside (hi : Settled host job s o) (hrow : t.system.row = s.system.row)
    (hpoint : t.watch.point = s.watch.point)
    (media : t.world.store.media (outPath host job.execution) =
      s.world.store.media (outPath host job.execution))
    (all : allSent (s.stages ()) = true →
      allSent (t.stages ()) = true ∧ published .output (deedsOf () o') = []) :
    Settled host job t (o ++ o') := by
  refine ⟨fun e he ht => ?_, fun e he => ?_, fun e he hs => ?_⟩
  · rw [hpoint]
    exact hi.done e (hrow.symm.trans he) ht
  · rw [deedsOf_append]
    have before := hrow.symm.trans he
    exact (hi.backed e before).later media (fun hs => (all (hi.sent e before hs)).2)
  · exact (all (hi.sent e (hrow.symm.trans he) hs)).1

theorem Settled.step (fresh : Fresh job world) (queued : Queued job world)
    (h : Run (delivering host job.task) Free (.start job world) turns s o)
    (hi : Settled host job s o) {turn : Turn Unit}
    (hs : (delivering host job.task).step s turn = some (t, o')) :
    Settled host job t (o ++ o') := by
  cases delivering_taken hs with
  | watcher hm => exact hi.watcher fresh queued h (watching_watcher hm)
  | @worker i work stage deeds hd =>
    have same := performs_store deeds job.task.keys s.world
    refine hi.aside ?_ rfl ?_ ?_
    · simp only [System.row, Site.system, same]
    · simp only [same]
    · intro all
      rw [deedsOf_worker, if_pos rfl]
      simp only [Function.update_self]
      exact allSent_does (step_does hd) all
  | elsewhere _ => exact hi.aside rfl rfl rfl (fun all => ⟨all, rfl⟩)
  | others hl =>
    have hfile := hl.2.2
    rw [(same_run h).1] at hfile
    exact hi.aside hl.1 rfl hfile (fun all => ⟨all, rfl⟩)

theorem settled_run (fresh : Fresh job world) (queued : Queued job world)
    (h : Run (delivering host job.task) Free (.start job world) turns s o) :
    Settled host job s o :=
  h.invariant_along (fun _ s o => Settled host job s o) (.start queued)
    (fun hr hi _ hs => hi.step fresh queued hr hs)

/-- A terminal row is not written any more. -/
theorem terminal_row_stays (fresh : Fresh job world) (queued : Queued job world)
    (h : Run (delivering host job.task) Free (.start job world) turns s o)
    {turns' : List (Turn Unit)} (h' : Run (delivering host job.task) Free s turns' t o')
    (hrow : s.system.row = some e) (hterm : e.Terminal) : t.system.row = some e := by
  have both : (∃ turns o, Run (delivering host job.task) Free (.start job world) turns t o) ∧
      t.system.row = some e := by
    refine h'.state_invariant (fun t =>
      (∃ turns o, Run (delivering host job.task) Free (.start job world) turns t o) ∧
        t.system.row = some e) ⟨⟨_, _, h⟩, hrow⟩ ?_
    rintro s turn t o' ⟨⟨turns, o, hr⟩, he⟩ _ hs
    refine ⟨⟨_, _, hr.snoc trivial hs⟩, ?_⟩
    have hi := settled_run fresh queued hr
    cases delivering_taken hs with
    | watcher hm =>
      have moves := watching_watcher hm
      obtain ⟨as, hw⟩ := watching_run hr
      have idle := (calm_run hw).idle e he hterm
      have kept := (moves_rests moves he idle (hi.done e he hterm)).1
      rw [← (moves_same moves).1] at kept
      exact kept
    | @worker i work stage deeds hd =>
      have same := performs_store deeds job.task.keys s.world
      simp only [System.row, Site.system, same]
      exact he
    | elsewhere _ => exact he
    | others hl => exact hl.1.trans he
  exact both.2

end Settling

end Agreement
