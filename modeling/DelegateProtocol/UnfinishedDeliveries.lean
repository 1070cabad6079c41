import DelegateProtocol.CatchingUp
import DelegateProtocol.Lib.SerialTransfers

/-!
# What unfinished deliveries leave behind

Deliveries can be cut off anywhere. As long as none has come to its last report
or to the end of its output, nothing they have published ends the execution or
the watcher, and the events stream holds whole transfers one after the other.
-/

namespace UnfinishedDeliveries

open Agreement AppendLog CatchingUp ChunkedTransfer Deliveries Handlers Models OutputIntegrity
open OverlappingTransfers ReadingOrder Reassembly Runtime SerialTransfers StepMachine Streams
open TerminalStatus Transfers WatchExecution WovenTransfers
open Worker (Deed Does Script Sent Stage Task dataRequest published published_append statusMessage
  statuses step_does)

/-- The delivery has made its last report, or sent the end of its output. -/
def finishing : Stage → Bool
  | .gaveUp | .succeeding | .sending _ _ [] => true
  | .ended .transferFailed | .ended .failed | .ended .succeeded => true
  | _ => false

def looping : Point → Bool
  | .cleaning _ | .ended _ => false
  | _ => true

/-- What is still to be sent of an answer. -/
def toSend : Point → List Fields
  | .sending _ _ _ pending _ => pending
  | _ => []

/-- A request being authorised is one of the task, and the row still has the terms
it had when it was read. -/
def TakenUp (job : Job) (row : Option Execution) : Point → Prop
  | .authorizing read request _ =>
    request.fields = workspaceRequest job.task ∧ ∃ e, row = some e ∧ SameTerms read e
  | _ => True

def IsSending (t : Transfer String UInt8 Header) : Prop := ∃ x : Sending, x.transfer = t

/-- The events stream of a watcher in its loop. -/
structure Facing (job : Job) (s : System) : Prop where
  requests : ∀ m ∈ available s, m.get? "type" = some "DATA_REQUEST" →
    m = workspaceRequest job.task
  readable : ∀ m ∈ available s, Readable m
  taken : TakenUp job s.row s.watch.point
  pending : ∃ x : Sending, toSend s.watch.point <:+ x.messages
  serial : Serial (fun n => (n : Int)) IsSending ((available s).map pieceOf)
    ((toSend s.watch.point).map pieceOf)

section Steps
variable {host : Host} {job : Job} {s t : System} {input : Input} {seen : List Seen}

theorem unread_available {k : Kind} {entry : Nat × Fields} (h : entry ∈ unread s k) :
    entry.2 ∈ (s.log k).history.drop (s.log k).removed := by
  have hmem := List.mem_map_of_mem (f := Prod.snd) h
  rw [unread, Log.unread, number_map_snd] at hmem
  refine (List.drop_suffix_drop_left _ ?_).subset hmem
  exact Nat.le_max_right _ _

theorem available_xadd (s : System) (fields : Fields) (watch : Watch)
    (hkeys : watch.keys = s.watch.keys) :
    available ⟨s.world.xadd s.watch.keys.events fields, watch⟩ = available s ++ [fields] := by
  have grown : (System.mk (s.world.xadd s.watch.keys.events fields) watch).log .events =
      (s.log .events).append fields := by
    simp [System.log, hkeys, World.xadd, Keys.key]
  simp only [available, grown, Log.append]
  exact List.drop_append_of_le_length (Log.removed_le _)

/-- What a delivery does adds its requests to the stream. -/
theorem available_performs (keys : s.watch.keys = job.task.keys) (deeds : List Deed) :
    available ⟨deeds.foldl (perform job.task.keys) s.world, s.watch⟩ =
      available s ++ published .events deeds := by
  have hlog := @performs_log job.task deeds s.world .events
  simp only [available, System.log, keys, hlog]
  exact List.drop_append_of_le_length (Log.removed_le _)

theorem request_foreign (task : Task) : IsForeign (workspaceRequest task) := by
  simp [IsForeign, workspaceRequest, dataRequest, Task.baseFields, Fields.get?, List.lookup_cons]

/-- The end of a transfer is its last message only. -/
theorem messages_body (x : Sending) : x.messages = x.messages.dropLast ++ [x.end] ∧
    ∀ m ∈ x.messages.dropLast, m.get? "type" ≠ some "DATA_END" := by
  have concat : x.messages = startMessage x.baseFields x.transferId x.chunkSize x.payload.data ::
      (slices x.chunkSize x.payload.data).mapIdx (chunkMessage x.baseFields x.transferId) ++
        [x.end] := rfl
  rw [concat, List.dropLast_concat]
  refine ⟨rfl, fun m hm => ?_⟩
  rcases List.mem_cons.mp hm with rfl | hm
  · simp [startMessage, Fields.get?]
  · obtain ⟨n, _, rfl⟩ := List.mem_mapIdx.mp hm
    simp [chunkMessage, Fields.get?]

/-- Nothing is on the way, and nothing new is on the stream. -/
theorem Facing.quiet (hf : Facing job s) (hav : available t = available s)
    (hfrom : toSend s.watch.point = []) (hto : toSend t.watch.point = [])
    (taken : TakenUp job t.row t.watch.point) : Facing job t := by
  refine ⟨hav ▸ hf.requests, hav ▸ hf.readable, taken, ?_, ?_⟩
  · obtain ⟨x, -⟩ := hf.pending
    exact ⟨x, hto ▸ List.nil_suffix⟩
  · have serial := hf.serial
    rw [hfrom] at serial
    rw [hav, hto]
    exact serial

/-- A watcher that has left its loop does not come back. -/
theorem moves_looping (h : Moves host s.world s.watch input t.world t.watch seen)
    (loop : looping t.watch.point = true) : looping s.watch.point = true := by
  cases hp : s.watch.point with
  | cleaning why =>
    generalize t.world = world at h
    generalize t.watch = watch at h loop
    cases h with
    | delete _ => cases loop
    | deleteLost _ => cases loop
    | deleteUnanswered _ => cases loop
    | _ => simp_all
  | ended why => exact False.elim (moves_live h why hp)
  | _ => rfl

/-- By cases on what the watcher does; only an answer adds to the stream. -/
theorem Facing.moves (hf : Facing job s) (order : InOrder s)
    (h : Moves host s.world s.watch input t.world t.watch seen)
    (loop : looping t.watch.point = true) : Facing job t := by
  obtain ⟨world, watch⟩ := t
  have resting {p : Point} (hp : s.watch.point = p) (hfrom : toSend p = [])
      (hredis : world.redis = s.world.redis) (hkeys : watch.keys = s.watch.keys)
      (hto : toSend watch.point = [])
      (taken : TakenUp job (System.mk world watch).row watch.point) :
      Facing job ⟨world, watch⟩ := by
    refine hf.quiet ?_ (hp ▸ hfrom) hto taken
    simp only [available, System.log, hredis, hkeys]
  cases h with
  | expire _ => cases loop
  | rowGone _ _ => cases loop
  | finish _ _ _ => cases loop
  | poll hp _ _ => exact resting hp rfl rfl rfl rfl trivial
  | read hp _ => exact resting hp rfl rfl rfl rfl trivial
  | readLost hp => exact resting hp rfl rfl rfl rfl trivial
  | batchDone hp => exact resting hp rfl rfl rfl rfl trivial
  | requestRowGone hp _ _ => exact resting hp rfl rfl rfl rfl trivial
  | @request m rest read hp hm hread =>
    refine ⟨hf.requests, hf.readable, ?_, ?_, ?_⟩
    · obtain ⟨later, hunread, -⟩ := order.head hp
      rw [hm.1] at hunread
      have hmem : (m.id, m.fields) ∈ unread s .events := by
        rw [unread, hunread]
        exact List.mem_cons_self
      exact ⟨hf.requests _ (unread_available hmem) hm.2, read, hread, rfl, rfl, rfl⟩
    · obtain ⟨x, -⟩ := hf.pending
      exact ⟨x, List.nil_suffix⟩
    · have serial := hf.serial
      rw [show toSend s.watch.point = [] by rw [hp]; rfl] at serial
      exact serial
  | message hp _ _ => exact resting hp rfl rfl rfl rfl trivial
  | messageRaised _ _ _ => cases loop
  | requestRaised _ _ => cases loop
  | rejected hp _ => exact resting hp rfl rfl rfl rfl trivial
  | fileNotFound hp _ => exact resting hp rfl rfl rfl rfl trivial
  | @granted read request rest grant transferId hp _ =>
    have serial := hf.serial
    rw [show toSend s.watch.point = [] by rw [hp]; rfl] at serial
    have pieces := messages_pieces (answer s.watch.execution request.fields transferId grant.zip)
    refine ⟨hf.requests, hf.readable, trivial, ?_, ?_⟩
    · exact ⟨answer s.watch.execution request.fields transferId grant.zip, List.suffix_refl _⟩
    · have begun : Serial (fun n => (n : Int)) IsSending ((available s).map pieceOf) _ :=
        .begin serial ⟨answer s.watch.execution request.fields transferId grant.zip, rfl⟩
      rw [← pieces] at begun
      exact begun
  | @xadd request grant transferId m pending rest hp =>
    have serial := hf.serial
    obtain ⟨x, hx⟩ := hf.pending
    rw [hp] at serial hx
    have hm : m ∈ x.messages := hx.subset List.mem_cons_self
    have hav : available ⟨s.world.xadd s.watch.keys.events m,
        s.watch.goto (.sending request grant transferId pending rest)⟩ = available s ++ [m] :=
      available_xadd s m _ rfl
    change Facing job ⟨s.world.xadd s.watch.keys.events m,
      s.watch.goto (.sending request grant transferId pending rest)⟩
    refine ⟨?_, ?_, trivial, ⟨x, (List.suffix_cons _ _).trans hx⟩, ?_⟩
    · intro m' hm' ht
      rw [hav] at hm'
      rcases List.mem_append.mp hm' with hm' | hm'
      · exact hf.requests m' hm' ht
      · cases List.mem_singleton.mp hm'
        exact False.elim (messages_request hm ht)
    · intro m' hm'
      rw [hav] at hm'
      rcases List.mem_append.mp hm' with hm' | hm'
      · exact hf.readable m' hm'
      · cases List.mem_singleton.mp hm'
        exact messages_readable hm
    · rw [hav, List.map_append]
      exact .next serial
  | xaddLost _ => cases loop
  | xaddUnanswered _ => cases loop
  | saved hp _ => exact resting hp rfl rfl rfl rfl trivial
  | saveRaised _ _ => cases loop
  | delete _ => cases loop
  | deleteLost _ => cases loop
  | deleteUnanswered _ => cases loop

/-- Requests are added to the stream while the watcher stands still. -/
theorem Facing.grown {ms : List Fields} (hf : Facing job s)
    (requests : ∀ m ∈ ms, m = workspaceRequest job.task) (hav : available t = available s ++ ms)
    (hpoint : t.watch.point = s.watch.point) (hrow : t.row = s.row) : Facing job t := by
  refine ⟨?_, ?_, ?_, ?_, ?_⟩
  · intro m hm ht
    rw [hav] at hm
    rcases List.mem_append.mp hm with hm | hm
    · exact hf.requests m hm ht
    · exact requests m hm
  · intro m hm
    rw [hav] at hm
    rcases List.mem_append.mp hm with hm | hm
    · exact hf.readable m hm
    · rw [requests m hm]
      exact readable_foreign (request_foreign _)
  · rw [hpoint, hrow]
    exact hf.taken
  · rw [hpoint]
    exact hf.pending
  · rw [hpoint, hav, List.map_append]
    refine hf.serial.others ?_
    intro p hp
    obtain ⟨m, hm, rfl⟩ := List.mem_map.mp hp
    rw [requests m hm, pieceOf_foreign (request_foreign _)]
    trivial

end Steps

section Workers
variable {task : Task} {events : Log Fields} {stage stage' : Stage} {work : Worker.Work}
variable {deeds : List Deed}

/-- All a delivery puts on the events stream is its request. -/
theorem step_requests (h : Worker.step task events stage work = some (stage', deeds)) :
    ∀ m ∈ published .events deeds, m = workspaceRequest task := by
  cases step_does h with
  | requested fields =>
    cases work with
    | publish =>
      cases h
      simp [published, workspaceRequest]
    | _ => cases h
  | _ => simp [published, Worker.Task.status, Worker.Task.log]

theorem finishing_does (h : Does task stage stage' deeds) (open' : finishing stage' = false) :
    finishing stage = false := by
  cases h with
  | transferFailed _ => cases open'
  | outputSent _ => cases open'
  | succeeded => cases open'
  | _ => rfl

/-- A delivery that goes on has reported nothing that ends an execution. -/
theorem statuses_open (h : finishing stage = false) :
    statuses stage <+: ["TRANSFERRING_INPUT", "EXECUTING"] := by
  cases stage with
  | gaveUp => cases h
  | succeeding => cases h
  | ended outcome =>
    cases outcome with
    | transferFailed => cases h
    | failed => cases h
    | succeeded => cases h
    | _ => exact ⟨_, rfl⟩
  | _ => exact ⟨_, rfl⟩

/-- What it has sent of its output is not the end of it. -/
theorem sent_open (h : finishing stage = false) (hs : Sent task deeds stage) {m : Fields}
    (hm : m ∈ published .output deeds) : Readable m ∧ m.get? "type" ≠ some "DATA_END" := by
  have none (hn : published .output deeds = []) :
      Readable m ∧ m.get? "type" ≠ some "DATA_END" := by
    rw [hn] at hm
    cases hm
  cases stage with
  | sending zip transferId pending =>
    obtain ⟨-, all⟩ := hs
    have hpending : pending ≠ [] := by
      rintro rfl
      cases h
    have hmem : m ∈ (outputSending task transferId zip).messages.dropLast := by
      change m ∈ (sendBytes chunkSize task.baseFields transferId zip).dropLast
      rw [← all, List.dropLast_append_of_ne_nil hpending]
      exact List.mem_append_left _ hm
    exact ⟨messages_readable (List.dropLast_subset _ hmem), (messages_body _).2 m hmem⟩
  | succeeding => cases h
  | ended outcome =>
    cases outcome with
    | succeeded => cases h
    | _ => exact none hs
  | _ => exact none hs

end Workers

section Runs
variable {ι : Type} [DecidableEq ι] {host : Host} {job : Job} {world : World}
variable {ok : Site ι → Turn ι → Prop} {turns : List (Turn ι)} {s t : Site ι}
variable {o o' : List (Event ι)} {turn : Turn ι}

theorem facing_taken (order : InOrder s.system) (keys : s.watch.keys = job.task.keys)
    (hf : looping s.watch.point = true → Facing job s.system)
    (h : Taken host job.task s turn t o') (loop : looping t.watch.point = true) :
    Facing job t.system := by
  cases h with
  | @watcher input system seen hs =>
    have hm := watching_watcher hs
    have hin : looping s.watch.point = true := moves_looping hm loop
    exact (hf hin).moves order hm loop
  | @worker i work stage deeds hd =>
    have hav : available ⟨deeds.foldl (perform job.task.keys) s.system.world, s.system.watch⟩ =
        available s.system ++ published .events deeds := available_performs keys deeds
    refine (hf loop).grown (step_requests hd) hav rfl ?_
    simp only [System.row, Site.system, performs_store]
  | @elsewhere key fields hkey =>
    have same : (s.world.xadd key fields).redis (job.task.keys.key .events) =
        s.world.redis (job.task.keys.key .events) := Function.update_of_ne (hkey .events) _ _
    have hav : available (s.withSystem ⟨s.world.xadd key fields, s.watch⟩).system =
        available s.system ++ [] := by
      simp only [available, System.log, Site.system, Site.withSystem, keys, same, List.append_nil]
    exact (hf loop).grown (by simp) hav rfl rfl
  | others hl =>
    exact (hf loop).grown (by simp) (List.append_nil _).symm rfl hl.1

/-- What stands on a stream of the task and has not been removed. -/
theorem kept_run (fresh : Fresh job world)
    (h : Run (delivering host job.task) ok (.start job world) turns s o)
    (loop : looping s.watch.point = true) (k : Kind) :
    (s.system.log k).removed = (world.redis (job.task.keys.key k)).history.length := by
  obtain ⟨as, hr⟩ := watching_run h
  have hc := (consecutive_run hr).2
  have kept : Seen.deleted ∉ seenBy o := by
    intro hd
    obtain ⟨why, hw⟩ := hc.closed hd
    rw [show s.watch.point = .ended why from hw] at loop
    cases loop
  rw [(hc.whole kept k).1, ← fresh.removed k]

theorem facing_run (fresh : Fresh job world)
    (h : Run (delivering host job.task) ok (.start job world) turns s o)
    (loop : looping s.watch.point = true) : Facing job s.system := by
  have all : looping s.watch.point = true → Facing job s.system := by
    refine h.invariant_along (fun _ s _ => looping s.watch.point = true → Facing job s.system) ?_ ?_
    · intro _
      have empty : available (Site.start job world : Site ι).system = [] := by
        simp only [available, System.log, Site.system, Site.start, Watch.start, fresh.removed,
          List.drop_length]
      refine ⟨by simp [empty], by simp [empty], trivial, ⟨twoSendings 0, List.nil_suffix⟩, ?_⟩
      rw [empty]
      exact .nil
    · intro turns s o turn t o' hr hf _ hs loop
      obtain ⟨as, hw⟩ := watching_run hr
      exact facing_taken (consecutive_run hw).1 (same_run hr).2 hf (delivering_taken hs) loop
  exact all loop

/-- A message on a stream has been put there by one of the deliveries. -/
theorem mem_sentOn {k : Kind} {m : Fields} {o : List (Event ι)} (hm : m ∈ sentOn k o) :
    ∃ j, m ∈ published k (deedsOf j o) := by
  obtain ⟨x, hx, hsent⟩ := List.mem_filterMap.mp hm
  cases x with
  | watcher seen => cases hsent
  | worker j deed =>
    refine ⟨j, mem_published.mpr (List.mem_filterMap.mpr ⟨_, hx, ?_⟩)⟩
    cases deed with
    | publish k' fields =>
      simp only [Event.message] at hsent
      split at hsent
      · rename_i hk
        cases hsent
        simp [Event.deed, hk]
      · cases hsent
    | _ => cases hsent

/-- What the deliveries have published does not end the execution. -/
theorem harmless_run (fresh : Fresh job world)
    (h : Run (delivering host job.task) ok (.start job world) turns s o)
    (loop : looping s.watch.point = true) (unfinished : ∀ j, finishing (s.stages j) = false)
    {k : Kind} {entry : Nat × Fields} (hentry : entry ∈ unread s.system k) :
    Harmless job.task entry.2 k := by
  have hmem := unread_available hentry
  have sent (hk : k ≠ .events) : ∃ j, entry.2 ∈ published k (deedsOf j o) := by
    refine mem_sentOn ?_
    have hlog : (s.system.log k).history =
        (world.redis (job.task.keys.key k)).history ++ sentOn k o := by
      rw [System.log, Site.system, (same_run h).2, history_run h hk]
    rw [hlog, kept_run fresh h loop, List.drop_left] at hmem
    exact hmem
  cases k with
  | events => exact (facing_run fresh h loop).requests entry.2 hmem
  | log => trivial
  | status =>
    obtain ⟨j, hj⟩ := sent (by decide)
    rw [(script_run h j).statuses] at hj
    obtain ⟨text, htext, hm⟩ := List.mem_map.mp hj
    intro status hs
    rw [← hm, newStatus_message] at hs
    rcases List.mem_pair.mp ((statuses_open (unfinished j)).subset htext) with rfl | rfl
    · cases hs
      decide
    · cases hs
      decide
  | output =>
    obtain ⟨j, hj⟩ := sent (by decide)
    exact sent_open (unfinished j) (script_run h j).output hj

/-- A message that can end an execution is not harmless. -/
theorem concludes_harmful {watch : Watch} {store : Store} {e : Execution} {m : Message}
    (h : Concludes host watch store e m) (term : e.Terminal) :
    ¬ Harmless job.task m.fields m.kind := by
  intro harmless
  cases h with
  | reported hk mapped =>
    rw [hk] at harmless
    exact harmless e.status mapped term
  | received hk _ hc _ _ _ =>
    rw [hk] at harmless
    exact harmless.2 hc.1
  | rejected hk _ hc _ =>
    rw [hk] at harmless
    exact harmless.2 hc.1

/-- By induction on the run: no delivery had finished before, either. -/
theorem open_run (fresh : Fresh job world) (queued : Queued job world)
    (h : Run (delivering host job.task) ok (.start job world) turns s o)
    (loop : looping s.watch.point = true) (unfinished : ∀ j, finishing (s.stages j) = false) :
    ∃ e, s.system.row = some e ∧ ¬ e.Terminal := by
  have all : looping s.watch.point = true → (∀ j, finishing (s.stages j) = false) →
      ∃ e, s.system.row = some e ∧ ¬ e.Terminal := by
    refine h.invariant_along (fun _ s _ => looping s.watch.point = true →
      (∀ j, finishing (s.stages j) = false) → ∃ e, s.system.row = some e ∧ ¬ e.Terminal) ?_ ?_
    · intro _ _
      obtain ⟨e, hrow, hq⟩ := queued
      exact ⟨e, hrow, by simp [Execution.Terminal, terminalStatuses, hq]⟩
    · intro turns s o turn t o' hr ih _ hs loop unfinished
      cases delivering_taken hs with
      | @watcher input system seen hw =>
        have hm := watching_watcher hw
        have hin := moves_looping hm loop
        obtain ⟨e, hrow, open'⟩ := ih hin unfinished
        have hrow' : s.system.world.store.db.execution s.system.watch.execution.id = some e := hrow
        obtain ⟨f, -, hf⟩ := moves_row hm
        rw [hrow', Option.map_some] at hf
        refine ⟨f e, ?_, fun term => ?_⟩
        · rw [← hf, ← (moves_same hm).1]
          rfl
        · have before : ∀ e', s.system.world.store.db.execution s.system.watch.execution.id =
              some e' → ¬ e'.Terminal := by
            intro e' he'
            cases hrow'.symm.trans he'
            exact open'
          obtain ⟨m, rest, hp, -, hc⟩ := moves_concludes hm before hf term
          obtain ⟨as, hw⟩ := watching_run hr
          obtain ⟨later, hunread, -⟩ := (consecutive_run hw).1.head hp
          have hmem : (m.id, m.fields) ∈ unread s.system m.kind := by
            rw [unread, hunread]
            exact List.mem_cons_self
          exact concludes_harmful hc term (harmless_run fresh hr hin unfinished hmem)
      | @worker i work stage deeds hd =>
        have before (j : ι) : finishing (s.stages j) = false := by
          by_cases hj : j = i
          · subst hj
            have hafter := unfinished j
            simp only [Function.update_self] at hafter
            exact finishing_does (step_does hd) hafter
          · have hafter := unfinished j
            simp only [Function.update_of_ne hj] at hafter
            exact hafter
        obtain ⟨e, hrow, open'⟩ := ih loop before
        refine ⟨e, ?_, open'⟩
        rw [← hrow]
        simp only [System.row, Site.system, performs_store]
      | elsewhere _ => exact ih loop unfinished
      | others hl =>
        obtain ⟨e, hrow, open'⟩ := ih loop unfinished
        exact ⟨e, hl.1.trans hrow, open'⟩
  exact all loop unfinished

/-- As long as every delivery can still go on, the watcher in its loop serves
the execution. -/
theorem serving_run (fresh : Fresh job world) (queued : Queued job world)
    (h : Run (delivering host job.task) ok (.start job world) turns s o)
    (loop : looping s.watch.point = true) (unfinished : ∀ j, finishing (s.stages j) = false)
    {e : Execution} (hrow : s.system.row = some e)
    (grants : Grants host s.world.store.db job.task e) : Serving host job s.system := by
  obtain ⟨as, hr⟩ := watching_run h
  have open' : ¬ e.Terminal := by
    obtain ⟨e', hrow', open'⟩ := open_run fresh queued h loop unfinished
    cases hrow.symm.trans hrow'
    exact open'
  have facing := facing_run fresh h loop
  refine ⟨(same_run h).1, (same_run h).2, (consecutive_run hr).1, ⟨e, hrow, open', grants⟩,
    fun k entry hentry => harmless_run fresh h loop unfinished hentry, ?_, ?_⟩
  · have unset : ∀ e, world.store.db.execution job.execution.id = some e →
        e.status ≠ .succeeded := by
      obtain ⟨e₀, hrow, hq⟩ := queued
      intro e he
      cases hrow.symm.trans he
      simp [hq]
    rcases (sound_run unset hr).follows with ⟨why, hw⟩ | hf
    · rw [show s.watch.point = .ended (.raised why) from hw] at loop
      cases loop
    · exact ⟨_, hf.state⟩
  · cases hp : s.watch.point with
    | authorizing read request rest =>
      have taken := facing.taken
      rw [Site.system, hp] at taken
      obtain ⟨hrequest, e', hrow', terms⟩ := taken
      cases hrow.symm.trans hrow'
      rw [Site.system, hp]
      exact ⟨hrequest, grants.later terms.symm rfl⟩
    | sending request grant transferId pending rest =>
      obtain ⟨x, hx⟩ := facing.pending
      rw [Site.system, hp] at hx ⊢
      exact fun m hm => messages_request (hx.subset hm)
    | cleaning why =>
      rw [hp] at loop
      cases loop
    | ended why =>
      rw [hp] at loop
      cases loop
    | _ =>
      rw [Site.system, hp]
      trivial

end Runs

end UnfinishedDeliveries
