import DelegateProtocol.Agreement
import DelegateProtocol.Announcements
import DelegateProtocol.ExecutionIntegrity
import DelegateProtocol.Lib.Unwinding

/-!
# One delivery and the dispatcher

The worker announces the execution, the main loop starts a watcher for it, and
the worker, the loop and all watchers take their steps in any order, each XREAD
returning as much as it likes. What the dispatcher does for other executions
goes on next to it. For the delivered execution such a run is one of a delivery
and a single watcher.
-/

namespace OneDelivery

open AppendLog Handlers Models Runtime StepMachine Streams WatchExecution ReadingOrder Worker
  Deliveries StreamDispatcher Announcements Agreement ExecutionIntegrity Unwinding

structure Deployment where
  dispatcher : Dispatcher
  stage : Stage

inductive Move where
  | dispatcher (a : Action)
  | worker (work : Work)

inductive Happening where
  | shown (shown : Shown)
  | done (deed : Deed)

def Happening.deed : Happening → Option Deed
  | .shown _ => none
  | .done deed => some deed

/-- What the delivery has done. -/
def deedsIn (o : List Happening) : List Deed := o.filterMap Happening.deed

/-- What a happening is to the delivery and the watcher of its execution. -/
def Happening.event (job : Job) : Happening → Option (Event Unit)
  | .shown (.thread execution seen) =>
    if execution.id = job.execution.id then some (.watcher seen) else none
  | .shown _ => none
  | .done deed => some (.worker () deed)

def eventsOf (job : Job) (o : List Happening) : List (Event Unit) :=
  o.filterMap (Happening.event job)

def Deployment.row (job : Job) (s : Deployment) : Option Execution :=
  s.dispatcher.world.store.db.execution job.execution.id

/-- The messages of the worker arrive where the dispatcher reads. -/
def arrive (keys : Keys) (d : Dispatcher) (deeds : List Deed) : Dispatcher :=
  { d with world := deeds.foldl (perform keys) d.world }

def deploying (host : Host) (task : Task) : Machine Deployment Move Happening where
  step s move :=
    match move with
    | .dispatcher a => ((dispatching host).step s.dispatcher a).map
        (fun r => (⟨r.1, s.stage⟩, r.2.map .shown))
    | .worker work =>
      (Worker.step task (s.dispatcher.world.redis task.keys.events) s.stage work).map
        (fun r => (⟨arrive task.keys s.dispatcher r.2, r.1⟩, r.2.map .done))

/-- The execution a message announces. -/
def announcedId (fields : Fields) : Option Uuid.UUID :=
  if fields.get? "type" = some "EXECUTION_STARTED" then
    (fields.get? "execution_id").bind Uuid.parse
  else none

/-- The process is not restarted, nobody else writes to the streams of the task
or announces its execution, and the views leave its row alone. -/
def Undisturbed (host : Host) (job : Job) (s : Deployment) : Move → Prop
  | .dispatcher (.publish key fields) => (∀ k ∈ kinds, job.task.keys.key k ≠ key) ∧
    (key = globalExecutionEventsStream → announcedId fields ≠ some job.execution.id)
  | .dispatcher (.others store) =>
    LeavesAlone host job.execution s.dispatcher.world.store store
  | .dispatcher .restart => False
  | _ => True

instance (host : Host) (job : Job) (s : Deployment) (move : Move) :
    Decidable (Undisturbed host job s move) :=
  match move with
  | .dispatcher (.publish _ _) => inferInstanceAs (Decidable (_ ∧ (_ → _)))
  | .dispatcher (.others _) => inferInstanceAs (Decidable (LeavesAlone _ _ _ _))
  | .dispatcher .restart => isFalse id
  | .dispatcher (.loop _) | .dispatcher (.thread _ _) | .worker _ => isTrue trivial

/-- The row has been created for the worker's delegate and queued, and nothing of
the delivery is there yet. -/
structure Ready (job : Job) (d : Dispatcher) : Prop where
  fresh : Fresh job d.world
  queued : Queued job d.world
  assigned : ∃ e delegateId, d.world.store.db.execution job.execution.id = some e ∧
    e.delegateId = some delegateId ∧ Uuid.str delegateId = job.task.delegateId
  unwatched : ∀ watch ∈ d.threads, watch.execution.id ≠ job.execution.id
  silent : ∀ entry ∈ d.log.unread d.loop.lastId,
    announcedId entry.2 ≠ some job.execution.id

/-- The world with all other streams emptied. -/
def restrict (world : World) (keep : String → Bool) : World :=
  { world with redis := fun key => if keep key = true then world.redis key else Log.empty }

section Restrict
variable {host : Host} {world world' : World} {watch watch' : Watch} {input : Input}
variable {seen : List Seen} {keep : String → Bool} {key : String} {fields : Fields}

theorem restrict_xadd (h : keep key = true) :
    restrict (world.xadd key fields) keep = (restrict world keep).xadd key fields := by
  simp only [restrict, World.xadd, World.mk.injEq, true_and, if_pos h]
  funext key'
  by_cases hk : key' = key
  · subst hk
    simp [h]
  · simp [hk]

theorem restrict_xadd_outside (h : keep key = false) :
    restrict (world.xadd key fields) keep = restrict world keep := by
  simp only [restrict, World.xadd, World.mk.injEq, true_and]
  funext key'
  by_cases hk : key' = key
  · subst hk
    simp [h]
  · simp [hk]

theorem restrict_deleteKeys {keys : Keys} (own : ∀ k, keep (keys.key k) = true) :
    restrict (world.deleteKeys keys) keep = (restrict world keep).deleteKeys keys := by
  unfold restrict World.deleteKeys
  congr 1
  funext key
  by_cases hk : ∃ k ∈ kinds, keys.key k = key
  · obtain ⟨k, hmem, rfl⟩ := hk
    have hex : ∃ k' ∈ kinds, keys.key k' = keys.key k := ⟨k, hmem, rfl⟩
    simp only [if_pos hex, if_pos (own k)]
  · simp only [if_neg hk]

theorem restrict_xread (own : ∀ k, keep (watch.keys.key k) = true) (counts : Kind → Nat) :
    xread (restrict world keep) watch counts = xread world watch counts := by
  simp [xread, restrict, own]

theorem restrict_handle (m : Message) (rest : List Message) :
    handle host (restrict world keep) watch m rest =
      (restrict (handle host world watch m rest).1 keep, (handle host world watch m rest).2) := by
  have same : (restrict world keep).store = world.store := rfl
  unfold handle
  rw [same]
  split
  · split <;> rfl
  · split <;> rfl

theorem restrict_authorize (read : Execution) (request : Message) (rest : List Message)
    (transferId : String) :
    authorize host (restrict world keep) watch read request rest transferId =
      (restrict (authorize host world watch read request rest transferId).1 keep,
        (authorize host world watch read request rest transferId).2) := by
  have same : (restrict world keep).store = world.store := rfl
  unfold authorize
  rw [same]
  split <;> rfl

theorem restrict_save (request : Message) (grant : Grant) (transferId : String)
    (rest : List Message) :
    save (restrict world keep) watch request grant transferId rest =
      (restrict (save world watch request grant transferId rest).1 keep,
        (save world watch request grant transferId rest).2) := by
  have same : (restrict world keep).store = world.store := rfl
  unfold save
  rw [same]
  split <;> rfl

theorem restrict_step (own : ∀ k, keep (watch.keys.key k) = true)
    (h : WatchExecution.step host world watch input = some (world', watch', seen)) :
    WatchExecution.step host (restrict world keep) watch input =
      some (restrict world' keep, watch', seen) := by
  have events : keep watch.keys.events = true := own .events
  unfold WatchExecution.step at h
  split at h
  case h_1 hp =>
    cases h
    simp only [WatchExecution.step, hp]
    rfl
  case h_2 hp =>
    have hr : (restrict world keep).store = world.store := rfl
    simp only [WatchExecution.step, hp, hr]
    split at h
    · cases h
      rfl
    · split at h
      · rename_i ht
        cases h
        simp [ht]
      · rename_i ht
        cases h
        simp [ht]
  case h_3 counts hp =>
    split at h
    · rename_i hc
      cases h
      simp only [WatchExecution.step, hp, if_pos hc, restrict_xread own]
    · cases h
  case h_4 hp =>
    cases h
    simp only [WatchExecution.step, hp]
  case h_5 hp =>
    cases h
    simp only [WatchExecution.step, hp]
  case h_6 m rest hp =>
    obtain ⟨rfl, rfl, rfl⟩ : world' = (handle host world watch m rest).1 ∧
        watch' = (handle host world watch m rest).2 ∧ seen = [.handled m] := by
      cases h
      exact ⟨rfl, rfl, rfl⟩
    simp only [WatchExecution.step, hp, restrict_handle]
  case h_7 read request rest transferId hp =>
    simp only [WatchExecution.step, hp, restrict_authorize]
    rw [Option.some.inj h]
  case h_8 hp =>
    cases h
    simp only [WatchExecution.step, hp, restrict_xadd events]
  case h_9 applied hp =>
    cases h
    cases applied with
    | false => simp [WatchExecution.step, hp]
    | true => simp [WatchExecution.step, hp, restrict_xadd events]
  case h_10 hp =>
    simp only [WatchExecution.step, hp, restrict_save]
    rw [Option.some.inj h]
  case h_11 hp =>
    cases h
    simp only [WatchExecution.step, hp, ← restrict_deleteKeys own]
    rfl
  case h_12 applied hp =>
    cases h
    cases applied with
    | false => simp [WatchExecution.step, hp]
    | true => simp [WatchExecution.step, hp, restrict_deleteKeys own]
  case h_13 => cases h
end Restrict

/-- Every thread reads streams of its own execution and of one delegate. -/
def Keyed (d : Dispatcher) : Prop :=
  ∀ watch ∈ d.threads, ∃ delegateId : Uuid.UUID,
    watch.keys = streamKeys watch.execution.text (Uuid.str delegateId)

structure Orderly (d : Dispatcher) : Prop where
  behind : d.loop.lastId ≤ d.log.history.length
  batch : ∀ entry ∈ toHandle d.loop.point, entry.1 ≤ d.log.history.length
  keyed : Keyed d

/-- What is still to be handled by a loop that has handled one entry and has more in hand. -/
def ahead (log : Log Fields) : Nat → List (Nat × Fields) → List (Nat × Fields)
  | lastId, [] => log.unread lastId
  | _, (id, fields) :: rest => (id, fields) :: ahead log id rest

def upcoming (d : Dispatcher) : List (Nat × Fields) :=
  match d.loop.point with
  | .reading => d.log.unread d.loop.lastId
  | .handling rest => ahead d.log d.loop.lastId rest
  | .crashed _ => []

section Dispatching
variable {host : Host} {task : Task} {d t : Dispatcher} {a : Action} {o : List Shown}
variable {world : World}

theorem Keyed.step (hk : Keyed d) (h : Moved host d a t o) : Keyed t := by
  cases h with
  | consume _ ha =>
    cases ha with
    | skip _ => exact hk
    | watch _ _ _ _ => exact forall_mem_concat hk ⟨_, rfl⟩
  | @thread i watch watch' input world seen hget hm =>
    obtain ⟨hexec, hkeys⟩ := moves_same hm
    refine forall_mem_set hk ?_
    rw [hexec, hkeys]
    exact hk watch (List.mem_of_getElem? hget)
  | restart =>
    intro watch hw
    cases hw
  | _ => exact hk

theorem Orderly.start (world : World) : Orderly (.start world) := by
  refine ⟨Nat.zero_le _, ?_, ?_⟩
  · intro entry he
    cases he
  · intro watch hw
    cases hw

/-- The stream grows, or is cut, while the loop keeps its place. -/
theorem Orderly.grow (ho : Orderly d) (grown : d.log.history <+: t.log.history)
    (loop : t.loop = d.loop) (threads : t.threads = d.threads) : Orderly t := by
  refine ⟨?_, ?_, ?_⟩
  · rw [loop]
    exact Nat.le_trans ho.behind grown.length_le
  · rw [loop]
    exact fun entry he => Nat.le_trans (ho.batch entry he) grown.length_le
  · intro watch hw
    rw [threads] at hw
    exact ho.keyed watch hw

theorem Orderly.step (ho : Orderly d) (h : Moved host d a t o) : Orderly t := by
  have keyed := ho.keyed.step h
  cases h with
  | read _ _ =>
    refine ⟨ho.behind, ?_, keyed⟩
    intro entry he
    exact entry_le (entry_of_unread (List.take_subset _ _ he))
  | readLost _ => exact ho
  | batchDone _ =>
    refine ⟨ho.behind, ?_, keyed⟩
    intro entry he
    cases he
  | @consume id fields rest _ hp ha =>
    have batch := ho.batch
    rw [hp] at batch
    obtain ⟨hid, hpoint, hlog⟩ := announced_loop ha
    refine ⟨?_, ?_, keyed⟩
    · rw [hid, hlog]
      exact batch (id, fields) (List.mem_cons_self ..)
    · rw [hpoint, hlog]
      exact fun entry he => batch entry (List.mem_cons_of_mem _ he)
  | @crash id fields rest _ hp _ =>
    have batch := ho.batch
    rw [hp] at batch
    refine ⟨batch (id, fields) (List.mem_cons_self ..), ?_, keyed⟩
    intro entry he
    cases he
  | @thread i watch watch' input world seen hget hm =>
    have same : (Dispatcher.mk world d.loop (d.threads.set i watch')).log = d.log := by
      obtain ⟨delegateId, hkeys⟩ := ho.keyed watch (List.mem_of_getElem? hget)
      refine moves_outside hm fun k => ?_
      rw [hkeys]
      exact key_ne_global _ _ k
    exact ⟨by rw [same]; exact ho.behind, by rw [same]; exact ho.batch, keyed⟩
  | publish => exact ho.grow (xadd_history d.world _ _ _).1 rfl rfl
  | others => exact ⟨ho.behind, ho.batch, keyed⟩
  | restart => exact .start d.world

theorem orderly_of_reachable (h : Reachable (dispatching host) (.start world) d) : Orderly d := by
  obtain ⟨as, o, hr⟩ := h
  exact hr.state_invariant Orderly (.start world) (fun ho _ hs => ho.step (dispatching_moved hs))

/-- What a delivery does the dispatcher meets as messages of others. -/
theorem Orderly.arrive (ho : Orderly d) (deeds : List Deed) (keys : Keys) :
    Orderly (arrive keys d deeds) := by
  induction deeds generalizing d with
  | nil => exact ho
  | cons deed deeds ih =>
    have publish (key : String) (fields : Fields) :
        Orderly { d with world := d.world.xadd key fields } :=
      ho.grow (xadd_history d.world key fields _).1 rfl rfl
    cases deed with
    | announce fields => exact ih (publish _ fields)
    | publish k fields => exact ih (publish _ fields)
    | attemptFailed _ _ => exact ih ho
    | built _ => exact ih ho

theorem Orderly.deploying {s s' : Deployment} {move : Move} {o : List Happening}
    (ho : Orderly s.dispatcher) (hs : (deploying host task).step s move = some (s', o)) :
    Orderly s'.dispatcher := by
  cases move with
  | dispatcher a =>
    simp only [OneDelivery.deploying, Option.map_eq_some_iff] at hs
    obtain ⟨⟨d, shown⟩, hd, he⟩ := hs
    cases he
    exact ho.step (dispatching_moved hd)
  | worker work =>
    simp only [OneDelivery.deploying, Option.map_eq_some_iff] at hs
    obtain ⟨⟨stage, deeds⟩, -, he⟩ := hs
    cases he
    exact ho.arrive deeds task.keys

/-- What a loop has in hand it has read. -/
theorem ahead_earlier {log : Log Fields} {lastId : Nat} {rest : List (Nat × Fields)}
    (h : rest <+: log.unread lastId) : ahead log lastId rest = log.unread lastId := by
  induction rest generalizing lastId with
  | nil => rfl
  | cons entry rest ih =>
    obtain ⟨later, hl⟩ := h
    obtain ⟨-, -, -, hunread⟩ := unread_cons hl.symm
    rw [ahead, ih (hunread ▸ List.prefix_append _ _), hunread]
    exact hl

theorem ahead_cut {log log' : Log Fields} {fields : List Fields} {lastId : Nat}
    {rest : List (Nat × Fields)} (grown : log'.history = log.history ++ fields)
    (cut : log.removed ≤ log'.removed) (behind : lastId ≤ log.history.length)
    (batch : ∀ entry ∈ rest, entry.1 ≤ log.history.length) :
    (ahead log' lastId rest).Sublist
      (ahead log lastId rest ++ number (log.history.length + 1) fields) := by
  induction rest generalizing lastId with
  | nil => exact unread_cut grown cut behind
  | cons entry rest ih =>
    obtain ⟨hentry, hrest⟩ := List.forall_mem_cons.mp batch
    exact (ih hentry hrest).cons_cons entry

/-- A loop that has only seen a stream that is never cut. -/
theorem upcoming_of_reachable (h : Reachable (dispatching host) (.start world) d) :
    (upcoming d).Sublist (d.log.unread d.loop.lastId) := by
  obtain ⟨as, o, hr⟩ := h
  have consuming : Filed d ∧ Consuming d o := by
    refine hr.invariant (fun d o => Filed d ∧ Consuming d o) ⟨.start world, .start world⟩ ?_
    rintro s o a t o' ⟨hf, hc⟩ _ hs
    exact ⟨hf.step (dispatching_moved hs), hc.step hf (dispatching_moved hs)⟩
  have hnext := consuming.2.next
  unfold upcoming
  split
  · exact List.Sublist.refl _
  · rename_i rest hp
    rw [hp, toHandle] at hnext
    rw [ahead_earlier hnext]
  · exact List.nil_sublist _

end Dispatching

/-- The streams of the task and the global one. -/
def ownKey (job : Job) (key : String) : Bool :=
  decide (key = globalExecutionEventsStream ∨ ∃ k ∈ kinds, job.task.keys.key k = key)

def watches (job : Job) (watch : Watch) : Bool := decide (watch.execution.id = job.execution.id)

/-- The watcher of the execution, or the one that is to be started. -/
def watcherOf (job : Job) (d : Dispatcher) : Watch :=
  (d.threads.find? (watches job)).getD (.start job.execution job.task.keys)

def siteOf (job : Job) (s : Deployment) : Site Unit where
  world := restrict s.dispatcher.world (ownKey job)
  watch := watcherOf job s.dispatcher
  stages _ := s.stage

def announcesJob (job : Job) (entry : Nat × Fields) : Bool :=
  decide (announcedId entry.2 = some job.execution.id)

/-- The announcements of the execution that the loop has not taken. -/
def pending (job : Job) (d : Dispatcher) : List (Nat × Fields) :=
  (upcoming d).filter (announcesJob job)

/-- The announcement is still to be made. -/
def unannounced : Stage → Bool
  | .identifying | .announcing => true
  | _ => false

/-- The execution is announced once, and has one watcher at most. -/
structure Alone (job : Job) (s : Deployment) : Prop where
  own : ∀ entry ∈ pending job s.dispatcher, entry.2 = job.task.announcement
  once : (pending job s.dispatcher).length + (unannounced s.stage).toNat +
    s.dispatcher.threads.countP (watches job) ≤ 1
  watchers : ∀ watch ∈ s.dispatcher.threads, watches job watch = true →
    watch.execution = job.execution ∧ watch.keys = job.task.keys
  assigned : ∃ tenantId delegateId,
    Confinement.owner s.dispatcher.world.store.db job.execution.id =
      some (tenantId, some delegateId) ∧ Uuid.str delegateId = job.task.delegateId

/-- What happens to the delivered execution is a run of its delivery and one watcher. -/
def Lifts (host : Host) (job : Job) (s t : Deployment) (o : List Happening) : Prop :=
  ∃ turns, Run (delivering host job.task) Free (siteOf job s) turns (siteOf job t) (eventsOf job o)

section Projection
variable {host : Host} {job : Job} {s t : Deployment} {d d' : Dispatcher} {o : List Happening}

theorem ownKey_key (k : Kind) : ownKey job (job.task.keys.key k) = true := by
  simp only [ownKey, decide_eq_true_eq]
  exact Or.inr ⟨k, mem_kinds k, rfl⟩

theorem ownKey_global : ownKey job globalExecutionEventsStream = true := by
  simp [ownKey]

theorem Lifts.same (h : siteOf job t = siteOf job s) (quiet : eventsOf job o = []) :
    Lifts host job s t o := by
  refine ⟨[], ?_⟩
  rw [h, quiet]
  exact .start

theorem Lifts.turn (turn : Turn Unit)
    (h : (delivering host job.task).step (siteOf job s) turn =
      some (siteOf job t, eventsOf job o)) : Lifts host job s t o :=
  ⟨[turn], .single trivial h⟩

theorem deedsIn_shown (shown : List Shown) : deedsIn (shown.map .shown) = [] := by
  induction shown with
  | nil => rfl
  | cons x shown ih => exact ih

theorem deedsIn_done (deeds : List Deed) : deedsIn (deeds.map .done) = deeds := by
  induction deeds with
  | nil => rfl
  | cons deed deeds ih => exact congrArg (List.cons deed) ih

theorem deedsIn_append (o o' : List Happening) : deedsIn (o ++ o') = deedsIn o ++ deedsIn o' :=
  List.filterMap_append

theorem mem_deedsIn {deed : Deed} (h : deed ∈ deedsIn o) : .done deed ∈ o := by
  obtain ⟨x, hx, he⟩ := List.mem_filterMap.mp h
  cases x with
  | shown _ => cases he
  | done deed' =>
    cases he
    exact hx

theorem eventsOf_done (deeds : List Deed) :
    eventsOf job (deeds.map .done) = deeds.map (.worker ()) := by
  induction deeds with
  | nil => rfl
  | cons deed deeds ih => exact congrArg (List.cons (Event.worker () deed)) ih

theorem eventsOf_thread (execution : Named) (seen : List Seen) :
    eventsOf job ((seen.map (Shown.thread execution)).map .shown) =
      if execution.id = job.execution.id then seen.map .watcher else [] := by
  induction seen with
  | nil => simp [eventsOf]
  | cons x seen ih =>
    have first : Happening.event job (.shown (.thread execution x)) =
        if execution.id = job.execution.id then some (.watcher x) else none := rfl
    simp only [eventsOf, List.map_cons, List.filterMap_cons, first] at ih ⊢
    split at ih
    · rename_i hid
      simp only [if_pos hid, ih]
    · rename_i hid
      simp only [if_neg hid, ih]

theorem deedsOf_eventsOf (o : List Happening) : deedsOf () (eventsOf job o) = deedsIn o := by
  unfold deedsOf eventsOf deedsIn
  rw [List.filterMap_filterMap]
  congr 1
  funext x
  cases x with
  | done deed => rfl
  | shown shown =>
    cases shown with
    | thread execution seen =>
      simp only [Happening.event, Happening.deed]
      split <;> rfl
    | _ => rfl

/-- An announcement names the execution its watcher is started for. -/
theorem announces_id {fields : Fields} {execution : Named}
    (h : Announces fields execution.text) : announcedId fields = some execution.id := by
  simp [announcedId, h.1, h.2.1, execution.names]

theorem pending_same (hlog : d'.log = d.log) (hloop : d'.loop = d.loop) :
    pending job d' = pending job d := by
  rw [pending, upcoming, hlog, hloop]
  rfl

/-- What is put on the global stream is pending if it announces the execution. -/
theorem pending_grown (ho : Orderly d) {fields : List Fields}
    (grown : d'.log.history = d.log.history ++ fields) (cut : d.log.removed ≤ d'.log.removed)
    (hloop : d'.loop = d.loop) :
    (pending job d').Sublist (pending job d ++
      (number (d.log.history.length + 1) fields).filter (announcesJob job)) := by
  rw [pending, pending, ← List.filter_append]
  refine List.Sublist.filter _ ?_
  have batch := ho.batch
  unfold upcoming
  rw [hloop]
  split
  · exact unread_cut grown cut ho.behind
  · rename_i rest hp
    rw [hp] at batch
    exact ahead_cut grown cut ho.behind batch
  · exact List.nil_sublist _

/-- Nothing that announces the execution, nothing more that is pending. -/
theorem pending_foreign (ho : Orderly d) {fields : List Fields}
    (grown : d'.log.history = d.log.history ++ fields) (cut : d.log.removed ≤ d'.log.removed)
    (hloop : d'.loop = d.loop)
    (foreign : ∀ m ∈ fields, announcedId m ≠ some job.execution.id) :
    (pending job d').Sublist (pending job d) := by
  have hsub := @pending_grown job d d' ho fields grown cut hloop
  have none : (number (d.log.history.length + 1) fields).filter (announcesJob job) = [] := by
    refine List.filter_eq_nil_iff.mpr fun entry he => ?_
    have hmem : entry.2 ∈ fields := by
      rw [← number_map_snd (d.log.history.length + 1) fields]
      exact List.mem_map_of_mem he
    simpa [announcesJob] using foreign entry.2 hmem
  rwa [none, List.append_nil] at hsub

/-- The loop takes the first of the entries it has not taken. -/
theorem pending_take {id : Nat} {fields : Fields} {rest : List (Nat × Fields)}
    (hp : d.loop.point = .handling ((id, fields) :: rest)) (hlog : d'.log = d.log)
    (hid : d'.loop.lastId = id) (hp' : d'.loop.point = .handling rest) :
    pending job d = (if announcedId fields = some job.execution.id then [(id, fields)] else []) ++
      pending job d' := by
  have split : upcoming d = (id, fields) :: upcoming d' := by
    simp only [upcoming, hp, hp', hlog, hid, ahead]
  rw [pending, pending, split]
  by_cases ha : announcedId fields = some job.execution.id
  · simp [announcesJob, ha]
  · simp [announcesJob, ha]

end Projection

section WorkerSteps
variable {host : Host} {job : Job} {s t : Deployment} {o : List Happening}
variable {task : Task} {stage stage' : Stage} {deeds : List Deed}

@[simp] theorem arrive_threads (keys : Keys) (d : Dispatcher) (deeds : List Deed) :
    (arrive keys d deeds).threads = d.threads := rfl

theorem restrict_performs (deeds : List Deed) (world : World) :
    deeds.foldl (perform job.task.keys) (restrict world (ownKey job)) =
      restrict (deeds.foldl (perform job.task.keys) world) (ownKey job) := by
  induction deeds generalizing world with
  | nil => rfl
  | cons deed deeds ih =>
    rw [List.foldl_cons, List.foldl_cons, ← ih]
    congr 1
    cases deed with
    | announce fields => exact (restrict_xadd ownKey_global).symm
    | publish k fields => exact (restrict_xadd (ownKey_key k)).symm
    | _ => rfl

/-- The announcement is made once, by the step that leaves the announcing stage. -/
theorem does_announces (h : Does task stage stage' deeds) :
    ((∀ deed ∈ deeds, ∀ fields, deed ≠ .announce fields) ∧
        (unannounced stage' = true → unannounced stage = true)) ∨
      (deeds = [.announce task.announcement] ∧ unannounced stage = true ∧
        unannounced stage' = false) := by
  have attempt (n lastId : Nat) : unannounced (task.attempt n lastId) = false := by
    unfold Task.attempt
    split <;> rfl
  cases h with
  | announced => exact Or.inr ⟨rfl, rfl, rfl⟩
  | madeWorkspace => exact Or.inl ⟨by simp, by simp [attempt]⟩
  | retried _ => exact Or.inl ⟨by simp [Task.log], by simp [attempt]⟩
  | _ => exact Or.inl ⟨by simp [Task.log, Task.status], by simp [unannounced]⟩

theorem performs_global (quiet : ∀ deed ∈ deeds, ∀ fields, deed ≠ .announce fields)
    (world : World) :
    (deeds.foldl (perform task.keys) world).redis globalExecutionEventsStream =
      world.redis globalExecutionEventsStream := by
  induction deeds generalizing world with
  | nil => rfl
  | cons deed deeds ih =>
    rw [List.foldl_cons, ih (fun x hx => quiet x (List.mem_cons_of_mem _ hx))]
    cases deed with
    | announce fields => exact False.elim (quiet _ (List.mem_cons_self ..) fields rfl)
    | publish k fields => exact Function.update_of_ne (Ne.symm (key_ne_global _ _ k)) _ _
    | _ => rfl

theorem worker_lifts {work : Work}
    (hw : Worker.step job.task (s.dispatcher.world.redis job.task.keys.events) s.stage work =
      some (stage, deeds)) :
    Lifts host job s ⟨arrive job.task.keys s.dispatcher deeds, stage⟩ (deeds.map .done) := by
  refine .turn (.worker () work) ?_
  have events : (siteOf job s).world.redis job.task.keys.events =
      s.dispatcher.world.redis job.task.keys.events := if_pos (ownKey_key .events)
  have stages : (siteOf job s).stages () = s.stage := rfl
  simp only [delivering, events, stages, hw, eventsOf_done]
  simp only [siteOf, arrive, restrict_performs]
  congr 2

theorem Alone.worker (ha : Alone job s) (ho : Orderly s.dispatcher)
    (h : Does job.task s.stage stage deeds) :
    Alone job ⟨arrive job.task.keys s.dispatcher deeds, stage⟩ := by
  have once := ha.once
  have assigned := ha.assigned
  rw [← performs_store deeds job.task.keys s.dispatcher.world] at assigned
  rcases does_announces h with ⟨quiet, stays⟩ | ⟨rfl, before, after⟩
  · have hlog : (arrive job.task.keys s.dispatcher deeds).log = s.dispatcher.log :=
      performs_global quiet _
    have same : pending job (arrive job.task.keys s.dispatcher deeds) = pending job s.dispatcher :=
      pending_same hlog rfl
    have hle : (unannounced stage).toNat ≤ (unannounced s.stage).toNat := Bool.toNat_le_toNat stays
    refine ⟨by rw [same]; exact ha.own, ?_, ha.watchers, assigned⟩
    rw [same]
    simp only [arrive_threads]
    omega
  · have hlog : (arrive job.task.keys s.dispatcher [.announce job.task.announcement]).log =
        s.dispatcher.log.append job.task.announcement := by
      simp [arrive, Dispatcher.log, perform, World.xadd]
    have grown := @pending_grown job s.dispatcher
      (arrive job.task.keys s.dispatcher [.announce job.task.announcement]) ho
      [job.task.announcement] (by rw [hlog]; rfl) (by rw [hlog]; exact Nat.le_refl _) rfl
    refine ⟨?_, ?_, ha.watchers, assigned⟩
    · intro entry he
      rcases List.mem_append.mp (grown.subset he) with he | he
      · exact ha.own entry he
      · obtain rfl := List.mem_singleton.mp (List.mem_of_mem_filter he)
        rfl
    · have hle := grown.length_le
      have hone := List.length_filter_le (announcesJob job)
        (number (s.dispatcher.log.history.length + 1) [job.task.announcement])
      rw [List.length_append] at hle
      simp only [number_length, List.length_singleton] at hone
      simp only [before, after, arrive_threads, Bool.toNat_true, Bool.toNat_false] at once ⊢
      omega

end WorkerSteps

section DispatcherSteps
variable {host : Host} {job : Job} {s t : Deployment} {d : Dispatcher} {o : List Happening}
variable {execution : Named} {fields : Fields} {e : Execution} {delegateId : Uuid.UUID}

theorem Alone.watcherOf_same (ha : Alone job s) :
    (watcherOf job s.dispatcher).execution = job.execution ∧
      (watcherOf job s.dispatcher).keys = job.task.keys := by
  unfold watcherOf
  cases hf : s.dispatcher.threads.find? (watches job) with
  | none => exact ⟨rfl, rfl⟩
  | some watch => exact ha.watchers watch (List.mem_of_find?_eq_some hf) (List.find?_some hf)

/-- A step that leaves threads and owners, and adds nothing that is pending. -/
theorem Alone.settle (ha : Alone job s) (fewer : (pending job d).Sublist (pending job s.dispatcher))
    (threads : d.threads = s.dispatcher.threads)
    (db : d.world.store.db = s.dispatcher.world.store.db) : Alone job ⟨d, s.stage⟩ := by
  have once := ha.once
  have hle := fewer.length_le
  refine ⟨fun entry he => ha.own entry (fewer.subset he), ?_, ?_, ?_⟩
  · simp only [threads]
    omega
  · simp only [threads]
    exact ha.watchers
  · simp only [db]
    exact ha.assigned

/-- Nothing of the delivered execution changes, and its watcher does not move. -/
theorem Alone.others_lifts (ha : Alone job s)
    (aside : LeavesAlone host job.execution s.dispatcher.world.store t.dispatcher.world.store)
    (streams : ∀ key, ownKey job key = true →
      t.dispatcher.world.redis key = s.dispatcher.world.redis key)
    (watcher : watcherOf job t.dispatcher = watcherOf job s.dispatcher)
    (stage : t.stage = s.stage) (quiet : eventsOf job o = []) : Lifts host job s t o := by
  refine .turn (.others t.dispatcher.world.store) ?_
  have hl : LeavesAlone host (siteOf job s).system.watch.execution
      (siteOf job s).system.world.store t.dispatcher.world.store := by
    rw [show (siteOf job s).system.watch.execution = job.execution from
      ha.watcherOf_same.1]
    exact aside
  have world : restrict t.dispatcher.world (ownKey job) =
      { restrict s.dispatcher.world (ownKey job) with store := t.dispatcher.world.store } := by
    unfold restrict
    congr 1
    funext key
    by_cases hk : ownKey job key = true
    · simp only [if_pos hk, streams key hk]
    · simp only [if_neg hk]
  simp only [delivering, WatchExecution.watching, if_pos hl, quiet]
  simp only [siteOf, world, watcher, stage]
  rfl

/-- The loop goes past an entry. -/
theorem Alone.goto (ha : Alone job s) {id : Nat} {rest : List (Nat × Fields)}
    (hp : s.dispatcher.loop.point = .handling ((id, fields) :: rest)) :
    Alone job ⟨s.dispatcher.goto id (.handling rest), s.stage⟩ := by
  have split := @pending_take job s.dispatcher (s.dispatcher.goto id (.handling rest)) id fields
    rest hp rfl rfl rfl
  refine ha.settle ?_ rfl rfl
  rw [split]
  exact List.sublist_append_right _ _

/-- The watcher that is started for the announced execution is the one it waits for. -/
theorem Alone.starts (ha : Alone job s) {id : Nat}
    {rest : List (Nat × Fields)} (hp : s.dispatcher.loop.point = .handling ((id, fields) :: rest))
    (announces : Announces fields execution.text) (hid : execution.id = job.execution.id)
    (hrow : s.dispatcher.world.store.db.execution execution.id = some e)
    (hassigned : e.delegateId = some delegateId) :
    execution = job.execution ∧
      streamKeys execution.text (Uuid.str delegateId) = job.task.keys := by
  have split := @pending_take job s.dispatcher (s.dispatcher.goto id (.handling rest)) id fields
    rest hp rfl rfl rfl
  have hown : fields = job.task.announcement := by
    refine ha.own (id, fields) ?_
    rw [split, if_pos ((announces_id announces).trans (congrArg some hid))]
    exact List.mem_append_left _ (List.mem_singleton_self _)
  have htext : execution.text = job.task.executionId := by
    have hget := announces.2.1
    rw [hown] at hget
    simpa [Task.announcement, Fields.get?, List.lookup_cons] using hget.symm
  obtain ⟨tenantId, assignedId, howner, hstr⟩ := ha.assigned
  rw [Confinement.owner, ← hid, hrow] at howner
  have same : delegateId = assignedId := by
    simpa [hassigned] using (Prod.mk.inj (Option.some.inj howner)).2
  exact ⟨named_ext (htext.trans job.names), by rw [htext, same, hstr]; rfl⟩

/-- Starting a watcher leaves streams, rows and files as they are. -/
theorem watch_world (d : Dispatcher) (fields : Fields) (execution : Named) (e : Execution)
    (delegateId : Uuid.UUID) (other : Named) :
    (d.watch fields execution e delegateId).world.redis = d.world.redis ∧
      LeavesAlone host other d.world.store
        (d.watch fields execution e delegateId).world.store := by
  simp only [Dispatcher.watch]
  split <;> exact ⟨rfl, rfl, rfl, rfl⟩

theorem Alone.watch (ha : Alone job s) {id : Nat}
    {rest : List (Nat × Fields)} (hp : s.dispatcher.loop.point = .handling ((id, fields) :: rest))
    (announces : Announces fields execution.text)
    (hrow : s.dispatcher.world.store.db.execution execution.id = some e)
    (hassigned : e.delegateId = some delegateId) (quiet : eventsOf job o = [])
    (hd : (s.dispatcher.goto id (.handling rest)).watch fields execution e delegateId = d) :
    Alone job ⟨d, s.stage⟩ ∧ Lifts host job s ⟨d, s.stage⟩ o := by
  obtain ⟨hredis, haside⟩ : d.world.redis = s.dispatcher.world.redis ∧
      LeavesAlone host job.execution s.dispatcher.world.store d.world.store := by
    rw [← hd]
    exact watch_world (s.dispatcher.goto id (.handling rest)) fields execution e delegateId _
  have hthreads : d.threads = s.dispatcher.threads ++
      [.start execution (streamKeys execution.text (Uuid.str delegateId))] := by
    rw [← hd]
    rfl
  have split := @pending_take job s.dispatcher d id fields rest hp
    (congrFun hredis globalExecutionEventsStream) (by rw [← hd]; rfl) (by rw [← hd]; rfl)
  have own : ∀ entry ∈ pending job d, entry.2 = job.task.announcement := by
    intro entry he
    refine ha.own entry ?_
    rw [split]
    exact List.mem_append_right _ he
  have watchers : ∀ watch ∈ d.threads, watches job watch = true →
      watch.execution = job.execution ∧ watch.keys = job.task.keys := by
    rw [hthreads]
    refine forall_mem_concat ha.watchers fun hwatches => ?_
    exact ha.starts hp announces (of_decide_eq_true hwatches) hrow hassigned
  have assigned := ha.assigned
  rw [Confinement.owner, ← haside.1] at assigned
  have once := ha.once
  rw [split, List.length_append] at once
  by_cases hid : execution.id = job.execution.id
  · obtain ⟨rfl, hkeys⟩ := ha.starts hp announces hid hrow hassigned
    rw [hkeys] at hthreads
    rw [if_pos (announces_id announces), List.length_singleton] at once
    have new : watches job (.start job.execution job.task.keys) = true := by
      simp [watches, Watch.start]
    have none : s.dispatcher.threads.find? (watches job) = none := by
      have zero : s.dispatcher.threads.countP (watches job) = 0 := by omega
      rw [List.find?_eq_none]
      exact List.countP_eq_zero.mp zero
    refine ⟨⟨own, ?_, watchers, assigned⟩,
      ha.others_lifts haside (fun key _ => congrFun hredis key) ?_ rfl quiet⟩
    · simp only [hthreads, List.countP_append, List.countP_singleton, if_pos new]
      omega
    · simp only [watcherOf, hthreads, List.find?_append, none, List.find?_singleton, if_pos new]
      rfl
  · have new : watches job (.start execution
        (streamKeys execution.text (Uuid.str delegateId))) = false := by
      simp [watches, Watch.start, hid]
    refine ⟨⟨own, ?_, watchers, assigned⟩,
      ha.others_lifts haside (fun key _ => congrFun hredis key) ?_ rfl quiet⟩
    · simp only [hthreads, List.countP_append, List.countP_singleton, new]
      simp only [Bool.false_eq_true, if_false]
      omega
    · simp [watcherOf, hthreads, List.find?_append, new]

/-- A step of the main loop. -/
theorem Alone.loop (ha : Alone job s) {input : LoopInput} {shown : List Shown}
    (h : Moved host s.dispatcher (.loop input) d shown) :
    Alone job ⟨d, s.stage⟩ ∧ Lifts host job s ⟨d, s.stage⟩ (shown.map .shown) := by
  cases h with
  | @read count hp _ =>
    refine ⟨ha.settle ?_ rfl rfl, .same rfl rfl⟩
    have same : upcoming (s.dispatcher.goto s.dispatcher.loop.lastId
        (.handling (s.dispatcher.log.read s.dispatcher.loop.lastId count))) =
        upcoming s.dispatcher := by
      simp only [upcoming, hp]
      exact ahead_earlier (List.take_prefix _ _)
    rw [pending, pending, same]
  | readLost _ => exact ⟨ha, .same rfl rfl⟩
  | batchDone hp =>
    refine ⟨ha.settle ?_ rfl rfl, .same rfl rfl⟩
    have same : upcoming s.dispatcher.prune = upcoming s.dispatcher := by
      simp only [upcoming, hp, Dispatcher.prune, ahead]
      rfl
    rw [pending, pending, same]
  | crash hp _ => exact ⟨ha.settle (List.nil_sublist _) rfl rfl, .same rfl rfl⟩
  | consume hp hann =>
    cases hann with
    | skip _ => exact ⟨ha.goto hp, .same rfl rfl⟩
    | watch announces _ hrow hassigned => exact ha.watch hp announces hrow hassigned rfl rfl

/-- The streams of a watcher of another execution are not those of the task. -/
theorem Alone.outside (ha : Alone job s) (ho : Orderly s.dispatcher) {watch : Watch}
    (hw : watch ∈ s.dispatcher.threads) (hn : watches job watch = false) {key : String}
    (own : ownKey job key = true) (k : Kind) : watch.keys.key k ≠ key := by
  obtain ⟨other, hkeys⟩ := ho.keyed watch hw
  obtain ⟨tenantId, delegateId, -, hstr⟩ := ha.assigned
  rw [hkeys]
  rintro rfl
  rcases of_decide_eq_true own with hglobal | ⟨k', -, hk'⟩
  · exact key_ne_global _ _ k hglobal
  · have hsame : (streamKeys job.task.executionId (Uuid.str delegateId)).key k' =
        (streamKeys watch.execution.text (Uuid.str other)).key k := by
      rw [hstr]
      exact hk'
    have htext := job.names.symm.trans (key_execution hsame)
    have heq : watch.execution = job.execution := named_ext htext.symm
    simp [watches, heq] at hn

section Threads
variable {i : Nat} {input : Input} {watch watch' : Watch} {world : World} {seen : List Seen}

/-- A watcher steps, and all stay where they were. -/
theorem Alone.stepped (ha : Alone job s) (ho : Orderly s.dispatcher)
    (hget : s.dispatcher.threads[i]? = some watch)
    (hm : Moves host s.dispatcher.world watch input world watch' seen) :
    Alone job ⟨⟨world, s.dispatcher.loop, s.dispatcher.threads.set i watch'⟩, s.stage⟩ := by
  have hmem := List.mem_of_getElem? hget
  obtain ⟨hexec, hkeys⟩ := moves_same hm
  have same : watches job watch' = watches job watch := by
    unfold watches
    rw [hexec]
  obtain ⟨delegateId, hkeyed⟩ := ho.keyed watch hmem
  have global (k : Kind) : watch.keys.key k ≠ globalExecutionEventsStream := by
    rw [hkeyed]
    exact key_ne_global _ _ k
  have hlog : (Dispatcher.mk world s.dispatcher.loop
      (s.dispatcher.threads.set i watch')).log = s.dispatcher.log := moves_outside hm global
  have hpend := @pending_same job s.dispatcher _ hlog rfl
  refine ⟨by rw [hpend]; exact ha.own, ?_, ?_, ?_⟩
  · rw [hpend]
    simp only [countP_set_same hget same]
    exact ha.once
  · refine forall_mem_set ha.watchers fun hwatches => ?_
    rw [hexec, hkeys]
    exact ha.watchers watch hmem (same.symm.trans hwatches)
  · simp only [Confinement.moves_owner hm]
    exact ha.assigned

/-- The watcher of the execution reads and writes nothing but its own keys, so
it takes the same step where there is nothing else. -/
theorem Alone.own_lifts (ha : Alone job s) (hget : s.dispatcher.threads[i]? = some watch)
    (hw : watches job watch = true)
    (hs : WatchExecution.step host s.dispatcher.world watch input = some (world, watch', seen)) :
    Lifts host job s ⟨⟨world, s.dispatcher.loop, s.dispatcher.threads.set i watch'⟩, s.stage⟩
      ((seen.map (Shown.thread watch.execution)).map .shown) := by
  obtain ⟨-, hown⟩ := ha.watchers watch (List.mem_of_getElem? hget) hw
  have same : watches job watch' = true := by
    unfold watches at hw ⊢
    rw [(moves_same (step_moves hs)).1]
    exact hw
  have count : s.dispatcher.threads.countP (watches job) ≤ 1 := by
    have := ha.once
    omega
  obtain ⟨hfind, hfind'⟩ := find?_set_pos hget hw same count
  have own (k : Kind) : ownKey job (watch.keys.key k) = true := by
    rw [hown]
    exact ownKey_key k
  have hstep : WatchExecution.step host (restrict s.dispatcher.world (ownKey job)) watch input =
      some (restrict world (ownKey job), watch', seen) := restrict_step own hs
  have hwatch : watcherOf job s.dispatcher = watch := by
    rw [watcherOf, hfind]
    rfl
  have hid : watch.execution.id = job.execution.id := of_decide_eq_true hw
  refine .turn (.watcher input) ?_
  simp only [delivering, WatchExecution.watching, Site.system, siteOf, hwatch, hstep,
    eventsOf_thread, if_pos hid]
  simp only [watcherOf, hfind']
  rfl

/-- A watcher of another execution touches nothing of this one. -/
theorem Alone.other_lifts (ha : Alone job s) (ho : Orderly s.dispatcher)
    (hget : s.dispatcher.threads[i]? = some watch) (hw : watches job watch = false)
    (hm : Moves host s.dispatcher.world watch input world watch' seen) :
    Lifts host job s ⟨⟨world, s.dispatcher.loop, s.dispatcher.threads.set i watch'⟩, s.stage⟩
      ((seen.map (Shown.thread watch.execution)).map .shown) := by
  have hne : job.execution.id ≠ watch.execution.id := by
    intro he
    simp [watches, he] at hw
  have same : watches job watch' = false := by
    unfold watches at hw ⊢
    rw [(moves_same hm).1]
    exact hw
  refine ha.others_lifts (moves_aside hm hne) ?_ ?_ rfl ?_
  · intro key hkey
    exact moves_outside hm (ha.outside ho (List.mem_of_getElem? hget) hw hkey)
  · simp only [watcherOf, find?_set_neg hget hw same]
  · rw [eventsOf_thread, if_neg (Ne.symm hne)]

/-- A step of any watcher. -/
theorem Alone.thread (ha : Alone job s) (ho : Orderly s.dispatcher)
    {shown : List Shown} (h : threadStep host s.dispatcher i input = some (d, shown)) :
    Alone job ⟨d, s.stage⟩ ∧ Lifts host job s ⟨d, s.stage⟩ (shown.map .shown) := by
  unfold threadStep at h
  cases hget : s.dispatcher.threads[i]? with
  | none => simp [hget] at h
  | some watch =>
    cases hs : WatchExecution.step host s.dispatcher.world watch input with
    | none => simp [hget, hs] at h
    | some r =>
      obtain ⟨world, watch', seen⟩ := r
      simp only [hget, hs, Option.some.injEq, Prod.mk.injEq] at h
      obtain ⟨rfl, rfl⟩ := h
      have hm := step_moves hs
      refine ⟨ha.stepped ho hget hm, ?_⟩
      cases hw : watches job watch with
      | true => exact ha.own_lifts hget hw hs
      | false => exact ha.other_lifts ho hget hw hm

end Threads

/-- A message of somebody else. -/
theorem Alone.publish (ha : Alone job s) (ho : Orderly s.dispatcher) {key : String}
    (hkeys : ∀ k ∈ kinds, job.task.keys.key k ≠ key)
    (foreign : key = globalExecutionEventsStream → announcedId fields ≠ some job.execution.id) :
    Alone job ⟨{ s.dispatcher with world := s.dispatcher.world.xadd key fields }, s.stage⟩ ∧
      Lifts host job s
        ⟨{ s.dispatcher with world := s.dispatcher.world.xadd key fields }, s.stage⟩ [] := by
  by_cases hg : key = globalExecutionEventsStream
  · subst hg
    have hlog : (Dispatcher.mk (s.dispatcher.world.xadd globalExecutionEventsStream fields)
        s.dispatcher.loop s.dispatcher.threads).log = s.dispatcher.log.append fields := by
      simp [Dispatcher.log, World.xadd]
    have fewer := @pending_foreign job s.dispatcher (.mk (s.dispatcher.world.xadd
      globalExecutionEventsStream fields) s.dispatcher.loop s.dispatcher.threads) ho [fields]
      (by rw [hlog]; rfl) (by rw [hlog]; exact Nat.le_refl _) rfl
      (fun m hm => List.mem_singleton.mp hm ▸ foreign rfl)
    refine ⟨ha.settle fewer rfl rfl, .turn (.elsewhere globalExecutionEventsStream fields) ?_⟩
    simp only [delivering, if_pos hkeys]
    simp only [siteOf, restrict_xadd ownKey_global]
    rfl
  · have hout : ownKey job key = false := by
      simp only [ownKey, decide_eq_false_iff_not]
      rintro (h | ⟨k, hk, h⟩)
      · exact hg h
      · exact hkeys k hk h
    have hlog : (Dispatcher.mk (s.dispatcher.world.xadd key fields) s.dispatcher.loop
        s.dispatcher.threads).log = s.dispatcher.log := Function.update_of_ne (Ne.symm hg) _ _
    have hpend := @pending_same job s.dispatcher _ hlog rfl
    refine ⟨ha.settle (by rw [hpend]) rfl rfl, .same ?_ rfl⟩
    simp only [siteOf, restrict_xadd_outside hout]
    rfl

/-- Every step of the deployment is a run of the delivery and its watcher. -/
theorem Alone.step (ha : Alone job s) (ho : Orderly s.dispatcher) {move : Move}
    (ok : Undisturbed host job s move) (h : (deploying host job.task).step s move = some (t, o)) :
    Alone job t ∧ Lifts host job s t o := by
  cases move with
  | worker work =>
    simp only [deploying, Option.map_eq_some_iff] at h
    obtain ⟨⟨stage, deeds⟩, hw, he⟩ := h
    cases he
    exact ⟨ha.worker ho (step_does hw), worker_lifts hw⟩
  | dispatcher a =>
    simp only [deploying, Option.map_eq_some_iff] at h
    obtain ⟨⟨d, shown⟩, hd, he⟩ := h
    cases he
    cases a with
    | loop input => exact ha.loop (dispatching_moved hd)
    | thread i input => exact ha.thread ho hd
    | publish key fields =>
      cases hd
      exact ha.publish ho ok.1 ok.2
    | others store =>
      cases hd
      refine ⟨⟨ha.own, ha.once, ha.watchers, ?_⟩, ha.others_lifts ok (fun _ _ => rfl) rfl rfl rfl⟩
      have assigned := ha.assigned
      rw [Confinement.owner, ← ok.1] at assigned
      exact assigned
    | restart => exact False.elim ok

/-- The delivery and the watcher of its execution, as they are in the deployment. -/
structure Delivers (job : Job) (s : Deployment) (site : Site Unit) : Prop where
  orderly : Orderly s.dispatcher
  alone : Alone job s
  same : site = siteOf job s

theorem deploying_follows (host : Host) (job : Job) :
    Follows (deploying host job.task) (Undisturbed host job) (delivering host job.task)
      (Delivers job) (Happening.event job) := by
  rintro s _ move t o ⟨ho, ha, rfl⟩ ok hs
  obtain ⟨alone, turns, run⟩ := ha.step ho ok hs
  exact ⟨turns, siteOf job t, run, ho.deploying hs, alone, rfl⟩

end DispatcherSteps

section Runs
variable {host : Host} {job : Job} {d : Dispatcher} {s t : Deployment} {moves moves' : List Move}
variable {o o' : List Happening} {world : World}

theorem Ready.alone (hd : Reachable (dispatching host) (.start world) d) (ready : Ready job d) :
    Alone job ⟨d, .identifying⟩ := by
  have none : pending job d = [] := by
    refine List.filter_eq_nil_iff.mpr fun entry he => ?_
    simpa [announcesJob] using ready.silent entry ((upcoming_of_reachable hd).subset he)
  have unwatched : d.threads.countP (watches job) = 0 := by
    refine List.countP_eq_zero.mpr fun watch hw => ?_
    simpa [watches] using ready.unwatched watch hw
  obtain ⟨e, delegateId, hrow, hassigned, hstr⟩ := ready.assigned
  refine ⟨?_, ?_, fun watch hw hwatches => ?_, e.tenantId, delegateId, ?_, hstr⟩
  · simp [none]
  · simp [none, unwatched, unannounced]
  · have hne := ready.unwatched watch hw
    simp [watches, hne] at hwatches
  · rw [Confinement.owner, hrow, Option.map_some, hassigned]

theorem Ready.site (ready : Ready job d) :
    siteOf job ⟨d, .identifying⟩ = .start job (restrict d.world (ownKey job)) := by
  have none : d.threads.find? (watches job) = none := by
    refine List.find?_eq_none.mpr fun watch hw => ?_
    simpa [watches] using ready.unwatched watch hw
  simp only [siteOf, watcherOf, none]
  rfl

theorem restrict_fresh (fresh : Fresh job d.world) :
    Fresh job (restrict d.world (ownKey job)) := by
  intro k
  have same : (restrict d.world (ownKey job)).redis (job.task.keys.key k) =
      d.world.redis (job.task.keys.key k) := if_pos (ownKey_key k)
  rw [same]
  exact fresh k

/-- A run of the deployment, seen from the delivered execution. -/
theorem lifted_run (hd : Reachable (dispatching host) (.start world) d) (ready : Ready job d)
    (h : Run (deploying host job.task) (Undisturbed host job) ⟨d, .identifying⟩ moves s o) :
    Delivers job s (siteOf job s) ∧
      ∃ turns, Run (delivering host job.task) Free (.start job (restrict d.world (ownKey job)))
        turns (siteOf job s) (eventsOf job o) := by
  have start : Delivers job ⟨d, .identifying⟩ (.start job (restrict d.world (ownKey job))) :=
    ⟨orderly_of_reachable hd, ready.alone hd, ready.site.symm⟩
  obtain ⟨turns, _, run, hs⟩ := (deploying_follows host job).run start h
  obtain rfl := hs.same
  exact ⟨hs, turns, run⟩

theorem siteOf_row (ha : Alone job s) : (siteOf job s).system.row = s.row job := by
  have hexec : (siteOf job s).system.watch.execution = job.execution := ha.watcherOf_same.1
  rw [System.row, hexec]
  rfl

/-- Whatever the order of the steps, in every state of a delivery the status is
backed by what the delivery has done, and once it is terminal the row stays. -/
theorem status_backed (hd : Reachable (dispatching host) (.start world) d) (ready : Ready job d)
    (h : Run (deploying host job.task) (Undisturbed host job) ⟨d, .identifying⟩ moves s o) :
    (∀ e, s.row job = some e → Backed host job s.dispatcher.world.store (deedsIn o) e) ∧
    (∀ moves' t o', Run (deploying host job.task) (Undisturbed host job) s moves' t o' →
      ∀ e, s.row job = some e → e.Terminal → t.row job = some e) := by
  obtain ⟨hs, turns, run⟩ := lifted_run hd ready h
  have fresh := restrict_fresh ready.fresh
  have queued : Queued job (restrict d.world (ownKey job)) := ready.queued
  constructor
  · intro e he
    rw [← deedsOf_eventsOf]
    exact (settled_run fresh queued run).backed e ((siteOf_row hs.alone).trans he)
  · intro moves' t o' h' e he hterm
    obtain ⟨turns', _, run', ht⟩ := (deploying_follows host job).run hs h'
    obtain rfl := ht.same
    have kept := terminal_row_stays fresh queued run run' ((siteOf_row hs.alone).trans he) hterm
    exact (siteOf_row ht.alone).symm.trans kept

/-- What the views write leaves an execution alone. -/
theorem administered_undisturbed {isDir : String → Bool} {store : Store} {e : Execution}
    (hrow : s.row job = some e)
    (adm : Confinement.Administered host isDir s.dispatcher (.others store)) :
    Undisturbed host job s (.dispatcher (.others store)) := by
  obtain ⟨media, write⟩ := adm
  have row : s.dispatcher.world.store.db.execution job.execution.id = some e := hrow
  exact ⟨(Views.viewWrite_execution write hrow).trans row.symm, Views.viewWrite_logsOf write _,
    by rw [media]⟩

end Runs

def smallDeployment : Deployment := ⟨.start (smallWorld .queued), .identifying⟩

def watcherMoves (inputs : List Input) : List Move := inputs.map (fun i => .dispatcher (.thread 0 i))

/-- The worker announces itself and asks for the workspace, the watcher answers. -/
def getsWorkspace : List Move :=
  [Work.prepare true, .publish].map .worker ++
    [LoopInput.xread 1, .handle, .handle].map (fun i => .dispatcher (.loop i)) ++
    [Work.publish, .prepare true, .publish, .publish, .start 0].map .worker ++
    watcherMoves [.check false, .xread (fun _ => maxCount), .handle, .authorize "t0", .xadd, .xadd,
      .xadd, .save, .handle, .handle, .handle]

def deliversOutput : List Move :=
  getsWorkspace ++
    [Work.poll 1 100 (fun _ => 1), .prepare true, .publish, .mirrored "/tmp/w", .prepare true,
      .execute [], .zip emptyZip "t2", .publish, .publish, .publish, .publish, .publish].map .worker ++
    watcherMoves ([.check false, .xread (fun _ => maxCount)] ++ List.replicate 12 .handle ++
      [.check false, .delete])

theorem smallDeployment_ready : Ready smallJob (.start (smallWorld .queued)) where
  fresh k := by cases k <;> decide
  queued := ⟨smallRow .queued, by decide +kernel, rfl⟩
  assigned := ⟨smallRow .queued, smallDelegate.id, by decide +kernel, rfl, rfl⟩
  unwatched watch hw := by cases hw
  silent entry he := by cases he

theorem deliversOutput_backed : ∃ s o e,
    Run (deploying smallHost smallTask) (Undisturbed smallHost smallJob) smallDeployment
      deliversOutput s o ∧
    s.row smallJob = some e ∧ e.status = .succeeded ∧
    Backed smallHost smallJob s.dispatcher.world.store (deedsIn o) e := by
  have hrun : (replay ((deploying smallHost smallTask).guarded (Undisturbed smallHost smallJob))
      smallDeployment deliversOutput).any
      (fun r => decide ((r.1.row smallJob).map (·.status) = some .succeeded)) = true := by
    decide +kernel
  obtain ⟨s, o, h, hs⟩ := guarded_run_of_replay_test hrun
  obtain ⟨e, he, succeeded⟩ := Option.map_eq_some_iff.mp (of_decide_eq_true hs)
  have backed := @status_backed smallHost smallJob (.start (smallWorld .queued)) s deliversOutput o
    (smallWorld .queued) ⟨[], [], .start⟩ smallDeployment_ready h
  exact ⟨s, o, e, h, he, succeeded, backed.1 e he⟩

end OneDelivery
