import Mathlib.Logic.Function.Basic
import DelegateProtocol.ExecutionCreation
import DelegateProtocol.RevokedRequests
import DelegateProtocol.SharedRedis

/-!
# From a request to the keyspace of its delegate

Requests to create executions are served by the threads of one process, which share
the Celery clients of the delegates. What a client has sent lies in Redis, in the list
its prefix and the queue name. Workers, like everybody else with a certificate, are
clients that may send any command with any effect on the keys it writes, as often as
Redis admits it. The database has other writers.
-/

namespace TaskRouting

open AclDurability AclScope Confinement ExecutionCreation Handlers JsonBodies Ledgers
open AclReconciliation (delegateA)
open Models RedisAcl RevokedRequests Runtime SharedRedis StepMachine Streams Uuid Views
open WatchExecution
open AclPersistence (Command Redis seeded)
open SavedCopies (Lasting)

/-- A Celery app whose broker keys have a `global_keyprefix`. -/
structure Client where
  name : String
  keyprefix : String

abbrev Clients := String → Option Client

def newClient (delegateId : String) : Client where
  name := "control_plane_client_" ++ delegateId
  keyprefix := delegatePrefix delegateId

/-- `_client_for(delegate_id)`, under its lock. -/
def clientFor (clients : Clients) (delegateId : String) : Client × Clients :=
  match clients delegateId with
  | some client => (client, clients)
  | none =>
    (newClient delegateId, Function.update clients delegateId (some (newClient delegateId)))

inductive Stage where
  | checking
  | inserting (delegate : Delegate) (tenantId fixture : String)
  | sending (delegate : Delegate) (tenantId : String)
  | recording (delegate : Delegate) (tenantId : String)
  | answered

structure Creation where
  outside : Outside
  body : Body
  stage : Stage

/-- A task and the key of Redis it is under. -/
structure Item where
  key : String
  task : BrokerTask

/-- The stores of a request, and what its process keeps in memory. -/
structure Service where
  db : DB
  items : List Item
  clients : Clients

def Service.stores (service : Service) : Stores := ⟨service.db, service.items.map Item.task⟩

inductive Event where
  | sent (task : BrokerTask)
  | put (item : Item)
  | wrote (name : String) (item : Item)
  | answered (answer : Answer)

/-- `send_execute_task(...)`, through the client that is kept for the delegate. -/
def taskOf (clients : Clients) (c : Creation) (delegate : Delegate) : BrokerTask :=
  { executeTask c.outside c.body delegate with
    keyprefix := Client.keyprefix (clientFor clients (str delegate.id)).1 }

/-- The list of the broker a task is put into. -/
def queueKey (task : BrokerTask) : String := task.keyprefix ++ task.queue

def Service.withClient (service : Service) (delegate : Delegate) : Service :=
  { service with clients := (clientFor service.clients (str delegate.id)).2 }

/-- What the broker has taken by the end of `send_task`. -/
def Service.puts (service : Service) (c : Creation) (delegate : Delegate) : List Item :=
  let task := taskOf service.clients c delegate
  List.replicate c.outside.sending.puts ⟨queueKey task, task⟩

def Service.send (service : Service) (c : Creation) (delegate : Delegate) : Service :=
  { service.withClient delegate with items := service.items ++ service.puts c delegate }

/-- A call of `send_task`, and what it puts. -/
def Service.sends (service : Service) (c : Creation) (delegate : Delegate) : List Event :=
  .sent (taskOf service.clients c delegate) :: (service.puts c delegate).map .put

/-- The next stage of a request. -/
def advance (host : Host) (service : Service) (c : Creation) :
    Option (Service × Stage × List Event) :=
  match c.stage with
  | .checking =>
    match check host c.outside c.body service.db with
    | .rejected why => some (service, .answered, [.answered (.rejected why)])
    | .raised => some (service, .answered, [.answered .raised])
    | .passed delegate tenantId fixture =>
      some (service, .inserting delegate tenantId fixture, [])
  | .inserting delegate tenantId fixture =>
    match insertRow c.outside service.db delegate tenantId fixture with
    | none => some (service, .answered, [.answered .raised])
    | some db => some ({ service with db := db }, .sending delegate tenantId, [])
  | .sending delegate tenantId =>
    match c.outside.sending with
    | .taken _ =>
      some (service.send c delegate, .recording delegate tenantId, service.sends c delegate)
    | .raised _ =>
      some (service.send c delegate, .answered, service.sends c delegate ++ [.answered .raised])
  | .recording delegate tenantId =>
    let finished := finish c.outside service.stores delegate tenantId
    some ({ service with db := finished.2.db }, .answered, [.answered finished.1])
  | .answered => none

structure Routing where
  service : Service
  redis : Redis
  creations : List Creation

def Routing.withItems (s : Routing) (items : List Item) : Routing :=
  { s with service := { s.service with items := items } }

inductive Action where
  | request (outside : Outside) (body : Body)
  | creation (i : Nat)
  | reboot
  | write (db : DB)
  | control (command : Command)
  | client (name : String) (request : Request) (outcome : List Item)

/-- Tasks are kept in memory only. -/
def itemsAfter (items : List Item) : Command → List Item
  | .restart => []
  | _ => items

def routing (host : Host) : Machine Routing Action Event where
  step s act :=
    match act with
    | .request outside body =>
      some ({ s with creations := s.creations ++ [⟨outside, body, .checking⟩] }, [])
    | .creation i =>
      match s.creations[i]? with
      | none => none
      | some c =>
        (advance host s.service c).map (fun r =>
          ({ s with service := r.1, creations := s.creations.set i { c with stage := r.2.1 } },
            r.2.2))
    | .reboot =>
      some ({ s with service := { s.service with clients := fun _ => none }, creations := [] }, [])
    | .write db => some ({ s with service := { s.service with db := db } }, [])
    | .control command =>
      if OfDelegate command then
        some ({ s.withItems (itemsAfter s.service.items command) with
          redis := s.redis.apply command.event }, [])
      else none
    | .client name request outcome =>
      if Admits s.redis.live name request ∧ ∀ item ∈ outcome, item.key ∈ request.writes then
        some (s.withItems (s.service.items.filter (fun item => item.key ∉ request.writes) ++
          outcome), outcome.map (.wrote name))
      else none

/-- Nobody has asked for an execution yet. -/
def Routing.start (db : DB) (redis : Redis) : Routing where
  service := ⟨db, [], fun _ => none⟩
  redis := redis
  creations := []

/-- Delegates keep their tenant and queue, and executions their owner. -/
structure Preserves (db db' : DB) : Prop where
  delegates : ∀ id row, db.delegate id = some row → ∃ row', db'.delegate id = some row' ∧
    row'.tenantId = row.tenantId ∧ row'.queue = row.queue
  owners : ∀ id whose, owner db id = some whose → owner db' id = some whose

/-- What the other writers of the database do: the views, and the watchers. -/
inductive Written (host : Host) (isDir : String → Bool) (db : DB) : DB → Prop
  | view {db' : DB} : ViewWrite host isDir db db' → Written host isDir db db'
  | watcher {world world' : World} {watch watch' : Watch} {input : Input} {seen : List Seen} :
      world.store.db = db → Moves host world watch input world' watch' seen →
      Written host isDir db world'.store.db

/-- The row of the delegate a task is for, and its execution. -/
def Routed (db : DB) (a : UUID) (task : BrokerTask) : Prop :=
  ∃ id row, task.executionId = str id ∧ db.delegate a = some row ∧
    owner db id = some (row.tenantId, some a) ∧ task.keyprefix = delegatePrefix (str a) ∧
    task.queue = row.queue

/-- The delegate a request has read is there, perhaps revoked by now. -/
def Known (db : DB) (delegate : Delegate) (tenantId : String) : Prop :=
  ∃ row, db.delegate delegate.id = some row ∧ row.tenantId = tenantId ∧
    row.queue = delegate.queue

section Rows
variable {host : Host} {isDir : String → Bool} {db db' : DB} {a : UUID} {task : BrokerTask}
variable {delegate : Delegate} {tenantId fixture : String} {o : Outside} {body : Body}

theorem Preserves.of_delegates (same : db'.delegates = db.delegates)
    (owners : ∀ id whose, owner db id = some whose → owner db' id = some whose) :
    Preserves db db' where
  owners := owners
  delegates id row hrow := by
    refine ⟨row, ?_, rfl, rfl⟩
    rw [DB.delegate, same]
    exact hrow

theorem Preserves.refl (db : DB) : Preserves db db := .of_delegates rfl (fun _ _ h => h)

theorem viewWrite_preserves (h : ViewWrite host isDir db db') : Preserves db db' where
  owners id whose ho := by
    obtain ⟨e, he, rfl⟩ := Option.map_eq_some_iff.mp ho
    rw [owner, viewWrite_execution h he]
    rfl
  delegates id row hrow := by
    cases h with
    | register _ hc =>
      refine ⟨row, ?_, rfl, rfl⟩
      have fresh := createDelegate_fresh hc
      rw [createDelegate_delegate hc, if_neg, hrow]
      rintro rfl
      rw [hrow] at fresh
      cases fresh
    | @revoke revoked =>
      rw [saveDelegateStatus_delegate]
      by_cases hid : id = revoked
      · rw [if_pos hid, ← hid, hrow]
        exact ⟨_, rfl, rfl, rfl⟩
      · rw [if_neg hid]
        exact ⟨row, hrow, rfl, rfl⟩
    | create _ hc =>
      obtain ⟨executions, -, rfl⟩ := createExecution_some hc
      exact ⟨row, hrow, rfl, rfl⟩
    | audit => exact ⟨row, hrow, rfl, rfl⟩

theorem Written.preserves (h : Written host isDir db db') : Preserves db db' := by
  cases h with
  | view hview => exact viewWrite_preserves hview
  | watcher hdb hmoves =>
    subst hdb
    refine .of_delegates (moves_delegates hmoves) ?_
    intro id whose ho
    rw [moves_owner hmoves, ho]

theorem record_preserves (event : AuditEvent) : Preserves db (db.record event) :=
  .of_delegates rfl (fun _ _ h => h)

/-- The row that is inserted, and those that stay. -/
theorem insertRow_owner (h : insertRow o db delegate tenantId fixture = some db') :
    db.execution o.executionId = none ∧ Preserves db db' ∧
      owner db' o.executionId = some (tenantId, some delegate.id) := by
  unfold insertRow at h
  split at h
  · have fresh := createExecution_fresh h
    have rows := createExecution_execution h
    obtain ⟨executions, -, rfl⟩ := createExecution_some h
    refine ⟨fresh, .of_delegates rfl ?_, ?_⟩
    · intro id whose ho
      obtain ⟨e, he, rfl⟩ := Option.map_eq_some_iff.mp ho
      rw [owner, rows, if_neg, he]
      · rfl
      · rintro rfl
        rw [he] at fresh
        cases fresh
    · rw [owner, rows, if_pos rfl]
      rfl
  · cases h

theorem Known.preserves (h : Known db delegate tenantId) (kept : Preserves db db') :
    Known db' delegate tenantId := by
  obtain ⟨row, hrow, rfl, hqueue⟩ := h
  obtain ⟨row', hrow', htenant, hqueue'⟩ := kept.delegates _ row hrow
  exact ⟨row', hrow', htenant, hqueue'.trans hqueue⟩

theorem Routed.preserves (h : Routed db a task) (kept : Preserves db db') : Routed db' a task := by
  obtain ⟨id, row, hid, hrow, ho, hprefix, hqueue⟩ := h
  obtain ⟨row', hrow', htenant, hqueue'⟩ := kept.delegates _ row hrow
  refine ⟨id, row', hid, hrow', ?_, hprefix, hqueue.trans hqueue'.symm⟩
  rw [kept.owners _ _ ho, htenant]

/-- A request that passes the checks has read the row of its delegate. -/
theorem check_known (h : check host o body db = .passed delegate tenantId fixture) :
    Known db delegate tenantId := by
  unfold check at h
  split at h
  · cases h
  · split at h
    · cases h
    · cases h
    · rename_i id _ _
      cases hd : db.delegate id with
      | none => simp [hd] at h
      | some row =>
        simp only [hd] at h
        split at h
        · cases h
        · split at h
          · cases h
          · split at h
            · split at h
              · cases h
                have hid : delegate.id = id := KeyedTable.get?_some_key hd
                exact ⟨delegate, hid ▸ hd, rfl, rfl⟩
              · cases h
            · cases h

end Rows

/-- Only the prefix of a delegate is kept under its id. -/
def Scoped (clients : Clients) : Prop :=
  ∀ delegateId client, clients delegateId = some client → client = newClient delegateId

def sentTask? : Event → Option BrokerTask
  | .sent task => some task
  | _ => none

/-- The tasks that were sent. -/
def sent (o : List Event) : Multiset BrokerTask := paid sentTask? o

def putItem? : Event → Option Item
  | .put item => some item
  | _ => none

/-- What the broker has taken. -/
def putItems (o : List Event) : List Item := o.filterMap putItem?

def executionIds (tasks : Multiset BrokerTask) : Multiset String :=
  tasks.map BrokerTask.executionId

/-- The execution whose task a request is about to send. -/
def sending (c : Creation) : Multiset String :=
  match c.stage with
  | .sending _ _ => {str c.outside.executionId}
  | _ => 0

/-- What a request relies on at its stage. -/
def Relies (db : DB) (puts : List Item) (c : Creation) : Prop :=
  match c.stage with
  | .inserting delegate tenantId _ => Known db delegate tenantId
  | .sending delegate tenantId =>
    Known db delegate tenantId ∧
      owner db c.outside.executionId = some (tenantId, some delegate.id)
  | .recording _ _ => ∃ item ∈ puts, item.task.executionId = str c.outside.executionId
  | _ => True

/-- What one stage can do. -/
inductive Advances (host : Host) (service : Service) (c : Creation) :
    Service → Stage → List Event → Prop
  | checked {delegate : Delegate} {tenantId fixture : String} : c.stage = .checking →
      check host c.outside c.body service.db = .passed delegate tenantId fixture →
      Advances host service c service (.inserting delegate tenantId fixture) []
  | refused {answer : Answer} : (∀ id, answer ≠ .created id) →
      Advances host service c service .answered [.answered answer]
  | inserted {delegate : Delegate} {tenantId fixture : String} {db : DB} :
      c.stage = .inserting delegate tenantId fixture →
      insertRow c.outside service.db delegate tenantId fixture = some db →
      Advances host service c { service with db := db } (.sending delegate tenantId) []
  | taken {delegate : Delegate} {tenantId : String} {again : Nat} :
      c.stage = .sending delegate tenantId → c.outside.sending = .taken again →
      Advances host service c (service.send c delegate) (.recording delegate tenantId)
        (service.sends c delegate)
  | raised {delegate : Delegate} {tenantId : String} : c.stage = .sending delegate tenantId →
      Advances host service c (service.send c delegate) .answered
        (service.sends c delegate ++ [.answered .raised])
  | recorded {delegate : Delegate} {tenantId : String} {event : AuditEvent} :
      c.stage = .recording delegate tenantId →
      Advances host service c { service with db := service.db.record event } .answered
        [.answered (.created c.outside.executionId)]

section Stages
variable {host : Host} {service service' : Service} {c : Creation} {stage : Stage}
variable {o o' : List Event} {delegate : Delegate} {tenantId : String} {puts puts' : List Item}
variable {clients : Clients} {db db' : DB}

theorem sent_append : sent (o ++ o') = sent o + sent o' := paid_append

theorem putItems_append : putItems (o ++ o') = putItems o ++ putItems o' := List.filterMap_append

theorem mem_putItems {item : Item} : item ∈ putItems o ↔ .put item ∈ o := by
  rw [putItems, List.mem_filterMap]
  constructor
  · rintro ⟨event, hevent, hput⟩
    cases event with
    | put item' =>
      cases hput
      exact hevent
    | _ => cases hput
  · exact fun h => ⟨.put item, h, rfl⟩

theorem mem_sent {task : BrokerTask} : task ∈ sent o ↔ .sent task ∈ o := by
  rw [sent, mem_paid]
  constructor
  · rintro ⟨event, hevent, hpays⟩
    cases event with
    | sent task' =>
      cases hpays
      exact hevent
    | _ => cases hpays
  · exact fun h => ⟨.sent task, h, rfl⟩

theorem sent_sends (service : Service) (c : Creation) (delegate : Delegate) (o : List Event)
    (quiet : sent o = 0) :
    sent (service.sends c delegate ++ o) = {taskOf service.clients c delegate} := by
  have puts (items : List Item) : sent (items.map .put ++ o) = 0 := by
    induction items with
    | nil => exact quiet
    | cons item items ih => exact ih
  exact congrArg (Multiset.cons _) (puts _)

theorem sends_unanswered {answer : Answer} :
    .answered answer ∉ service.sends c delegate := by
  simp [Service.sends]

theorem clientFor_scoped (own : Scoped clients) (delegateId : String) :
    (clientFor clients delegateId).1 = newClient delegateId ∧
      Scoped (clientFor clients delegateId).2 := by
  unfold clientFor
  cases hc : clients delegateId with
  | some client => exact ⟨own delegateId client hc, own⟩
  | none =>
    refine ⟨rfl, ?_⟩
    intro id client hid
    change Function.update clients delegateId (some (newClient delegateId)) id = some client at hid
    by_cases same : id = delegateId
    · subst same
      rw [Function.update_self] at hid
      exact (Option.some.inj hid).symm
    · rw [Function.update_of_ne same] at hid
      exact own id client hid

/-- A task goes under the prefix of its delegate. -/
theorem taskOf_eq (own : Scoped clients) :
    taskOf clients c delegate = executeTask c.outside c.body delegate := by
  rw [taskOf, (clientFor_scoped own _).1]
  rfl

theorem advance_advances (h : advance host service c = some (service', stage, o)) :
    Advances host service c service' stage o := by
  unfold advance at h
  cases hstage : c.stage with
  | checking =>
    simp only [hstage] at h
    cases hc : check host c.outside c.body service.db with
    | rejected why =>
      simp only [hc] at h
      cases h
      exact .refused (fun _ he => by cases he)
    | raised =>
      simp only [hc] at h
      cases h
      exact .refused (fun _ he => by cases he)
    | passed delegate tenantId fixture =>
      simp only [hc] at h
      cases h
      exact .checked hstage hc
  | inserting delegate tenantId fixture =>
    simp only [hstage] at h
    cases hrow : insertRow c.outside service.db delegate tenantId fixture with
    | none =>
      simp only [hrow] at h
      cases h
      exact .refused (fun _ he => by cases he)
    | some db =>
      simp only [hrow] at h
      cases h
      exact .inserted hstage hrow
  | sending delegate tenantId =>
    simp only [hstage] at h
    cases hs : c.outside.sending with
    | taken again =>
      simp only [hs] at h
      cases h
      exact .taken hstage hs
    | raised puts =>
      simp only [hs] at h
      cases h
      exact .raised hstage
  | recording delegate tenantId =>
    simp only [hstage, finish, Service.stores] at h
    by_cases ha : c.outside.audits = true
    · simp only [if_pos ha] at h
      cases h
      exact .recorded hstage
    · simp only [if_neg ha] at h
      cases h
      exact .refused (fun _ he => by cases he)
  | answered => simp [hstage] at h

theorem Relies.later (h : Relies db puts c) (kept : Preserves db db') (more : puts ⊆ puts') :
    Relies db' puts' c := by
  unfold Relies at h ⊢
  split at h
  · exact h.preserves kept
  · exact ⟨h.1.preserves kept, kept.owners _ _ h.2⟩
  · obtain ⟨item, hitem, hid⟩ := h
    exact ⟨item, more hitem, hid⟩
  · trivial

theorem routed_of_sending (own : Scoped service.clients)
    (hstage : c.stage = .sending delegate tenantId) (h : Relies service.db puts c) :
    Routed service.db delegate.id (taskOf service.clients c delegate) := by
  rw [Relies, hstage] at h
  obtain ⟨⟨row, hrow, rfl, hqueue⟩, ho⟩ := h
  rw [taskOf_eq own]
  exact ⟨c.outside.executionId, row, rfl, hrow, ho, rfl, hqueue.symm⟩

theorem Advances.keeps (h : Advances host service c service' stage o) :
    Preserves service.db service'.db ∧ (Scoped service.clients → Scoped service'.clients) := by
  cases h with
  | checked _ _ => exact ⟨.refl _, id⟩
  | refused _ => exact ⟨.refl _, id⟩
  | inserted _ hrow => exact ⟨(insertRow_owner hrow).2.1, id⟩
  | taken _ _ => exact ⟨.refl _, fun own => (clientFor_scoped own _).2⟩
  | raised _ => exact ⟨.refl _, fun own => (clientFor_scoped own _).2⟩
  | recorded _ => exact ⟨record_preserves _, id⟩

theorem Advances.relies (h : Advances host service c service' stage o)
    (before : Relies service.db puts c) :
    Relies service'.db (puts ++ putItems o) { c with stage := stage } := by
  cases h with
  | checked _ hc => exact check_known hc
  | refused _ => trivial
  | inserted hstage hrow =>
    rw [Relies, hstage] at before
    obtain ⟨-, kept, ho⟩ := insertRow_owner hrow
    exact ⟨before.preserves kept, ho⟩
  | @taken delegate _ again _ hs =>
    refine ⟨⟨queueKey (taskOf service.clients c delegate), taskOf service.clients c delegate⟩,
      List.mem_append_right _ (mem_putItems.mpr ?_), rfl⟩
    simp [Service.sends, Service.puts, hs, Sending.puts]
  | raised _ => trivial
  | recorded _ => trivial

theorem Advances.routed (h : Advances host service c service' stage o)
    (own : Scoped service.clients) (before : Relies service.db puts c) :
    ∀ task ∈ sent o, ∃ a, Routed service.db a task := by
  have only {delegate : Delegate} {tenantId : String} {o : List Event} (quiet : sent o = 0)
      (hstage : c.stage = .sending delegate tenantId) (task : BrokerTask)
      (htask : task ∈ sent (service.sends c delegate ++ o)) : ∃ a, Routed service.db a task := by
    rw [sent_sends service c delegate o quiet] at htask
    rw [Multiset.mem_singleton.mp htask]
    exact ⟨_, routed_of_sending own hstage before⟩
  intro task htask
  cases h with
  | taken hstage _ =>
    rw [← List.append_nil (service.sends c _)] at htask
    exact only rfl hstage task htask
  | raised hstage => exact only rfl hstage task htask
  | _ => exact absurd htask (Multiset.notMem_zero _)

theorem Advances.answered (h : Advances host service c service' stage o)
    (before : Relies service.db puts c) {id : UUID} (hid : .answered (.created id) ∈ o) :
    ∃ item ∈ puts, item.task.executionId = str id := by
  cases h with
  | refused other => exact absurd (Event.answered.inj (List.mem_singleton.mp hid)).symm (other id)
  | taken _ _ => exact absurd hid sends_unanswered
  | raised _ =>
    rcases List.mem_append.mp hid with hid | hid
    · exact absurd hid sends_unanswered
    · cases List.mem_singleton.mp hid
  | recorded hstage =>
    rw [Relies, hstage] at before
    cases List.mem_singleton.mp hid
    exact before
  | _ => simp at hid

/-- What is put is the task of the call, under its own key. -/
theorem Advances.put (h : Advances host service c service' stage o) {item : Item}
    (hitem : .put item ∈ o) : .sent item.task ∈ o ∧ item.key = queueKey item.task := by
  have call {delegate : Delegate} (hput : .put item ∈ service.sends c delegate) :
      .sent item.task ∈ service.sends c delegate ∧ item.key = queueKey item.task := by
    have hmem : item ∈ service.puts c delegate := by
      simpa [Service.sends] using hput
    obtain rfl := List.eq_of_mem_replicate hmem
    exact ⟨List.mem_cons_self .., rfl⟩
  cases h with
  | taken _ _ => exact call hitem
  | raised _ =>
    rcases List.mem_append.mp hitem with hput | hanswer
    · exact ⟨List.mem_append_left _ (call hput).1, (call hput).2⟩
    · cases List.mem_singleton.mp hanswer
  | _ => simp at hitem

/-- A stage pays for what it sends, unless it inserts a row. -/
theorem Advances.pays (h : Advances host service c service' stage o) :
    executionIds (sent o) + sending { c with stage := stage } ≤ sending c ∨
      sent o = 0 ∧ service.db.execution c.outside.executionId = none ∧
        sending { c with stage := stage } = {str c.outside.executionId} := by
  cases h with
  | inserted _ hrow => exact Or.inr ⟨rfl, (insertRow_owner hrow).1, rfl⟩
  | @taken delegate _ _ hstage _ =>
    left
    have one := sent_sends service c delegate [] rfl
    rw [List.append_nil] at one
    rw [one]
    simp only [sending, hstage]
    exact le_rfl
  | @raised delegate _ hstage =>
    left
    rw [sent_sends service c delegate [.answered .raised] rfl]
    simp only [sending, hstage]
    exact le_rfl
  | _ => exact Or.inl (Multiset.zero_le _)

end Stages

/-- What a step can do. -/
inductive Routes (host : Host) (s : Routing) : Action → Routing → List Event → Prop
  | request {outside : Outside} {body : Body} : Routes host s (.request outside body)
      { s with creations := s.creations ++ [⟨outside, body, .checking⟩] } []
  | creation {i : Nat} {c : Creation} {service : Service} {stage : Stage} {o : List Event} :
      s.creations[i]? = some c → Advances host s.service c service stage o →
      Routes host s (.creation i)
        { s with service := service, creations := s.creations.set i { c with stage := stage } } o
  | reboot : Routes host s .reboot
      { s with service := { s.service with clients := fun _ => none }, creations := [] } []
  | write {db : DB} : Routes host s (.write db) { s with service := { s.service with db := db } } []
  | control {command : Command} : OfDelegate command →
      Routes host s (.control command)
        { s.withItems (itemsAfter s.service.items command) with
          redis := s.redis.apply command.event } []
  | client {name : String} {request : Request} {outcome : List Item} :
      Admits s.redis.live name request → (∀ item ∈ outcome, item.key ∈ request.writes) →
      Routes host s (.client name request outcome)
        (s.withItems (s.service.items.filter (fun item => item.key ∉ request.writes) ++
          outcome)) (outcome.map (.wrote name))

/-- The database has other writers. -/
def Administers (host : Host) (isDir : String → Bool) (s : Routing) : Action → Prop
  | .write db => Written host isDir s.service.db db
  | _ => True

structure Sound (s : Routing) (o : List Event) : Prop where
  clients : Scoped s.service.clients
  relies : ∀ c ∈ s.creations, Relies s.service.db (putItems o) c
  routed : ∀ task ∈ sent o, ∃ a, Routed s.service.db a task
  once : (executionIds (sent o) + (s.creations.map sending).sum).Nodup
  put : ∀ item, .put item ∈ o → .sent item.task ∈ o ∧ item.key = queueKey item.task
  answered : ∀ id, .answered (.created id) ∈ o →
    ∃ item ∈ putItems o, item.task.executionId = str id

section Runs
variable {host : Host} {isDir : String → Bool} {s t : Routing} {act : Action} {o o' : List Event}
variable {db : DB} {redis : Redis} {as : List Action}

theorem routing_routes (h : (routing host).step s act = some (t, o)) : Routes host s act t o := by
  cases act with
  | request outside body =>
    cases h
    exact .request
  | creation i =>
    simp only [routing] at h
    cases hget : s.creations[i]? with
    | none => simp [hget] at h
    | some c =>
      simp only [hget, Option.map_eq_some_iff] at h
      obtain ⟨⟨service, stage, o'⟩, ha, he⟩ := h
      cases he
      exact .creation hget (advance_advances ha)
  | reboot =>
    cases h
    exact .reboot
  | write db =>
    cases h
    exact .write
  | control command =>
    simp only [routing] at h
    split at h
    · rename_i hof
      cases h
      exact .control hof
    · cases h
  | client name request outcome =>
    simp only [routing] at h
    split at h
    · rename_i hadmits
      cases h
      exact .client hadmits.1 hadmits.2
    · cases h

/-- The execution of what has been sent, or is about to be, has a row. -/
theorem Sound.has_row (h : Sound s o) {id : UUID}
    (hid : str id ∈ executionIds (sent o) + (s.creations.map sending).sum) :
    s.service.db.execution id ≠ none := by
  have owned {whose : String × Option UUID} (ho : owner s.service.db id = some whose) :
      s.service.db.execution id ≠ none := by
    intro hnone
    rw [owner, hnone] at ho
    cases ho
  rcases Multiset.mem_add.mp hid with hsent | hsending
  · obtain ⟨task, htask, he⟩ := Multiset.mem_map.mp hsent
    obtain ⟨a, id', row, hid', -, ho, -⟩ := h.routed task htask
    have same : id' = id := str_injective (hid'.symm.trans he)
    exact owned (same ▸ ho)
  · obtain ⟨c, hc, hmem⟩ := mem_owed.mp hsending
    have relies := h.relies c hc
    unfold sending at hmem
    split at hmem
    · rename_i delegate tenantId hstage
      rw [Relies, hstage] at relies
      have same : c.outside.executionId = id :=
        str_injective (Multiset.mem_singleton.mp hmem).symm
      exact owned (same ▸ relies.2)
    · exact absurd hmem (Multiset.notMem_zero _)

/-- A stage leaves every execution with at most one task. -/
theorem Sound.once_advances (h : Sound s o) {i : Nat} {c : Creation} {service : Service}
    {stage : Stage} (hget : s.creations[i]? = some c)
    (ha : Advances host s.service c service stage o') :
    (executionIds (sent (o ++ o')) +
      ((s.creations.set i { c with stage := stage }).map sending).sum).Nodup := by
  have replaced : ((s.creations.set i { c with stage := stage }).map sending).sum + sending c =
      (s.creations.map sending).sum + sending { c with stage := stage } := owed_set hget
  have total : executionIds (sent (o ++ o')) = executionIds (sent o) + executionIds (sent o') := by
    rw [sent_append, executionIds, Multiset.map_add]
    rfl
  rcases ha.pays with pays | ⟨quiet, fresh, hsending⟩
  · refine Multiset.nodup_of_le ?_ h.once
    refine le_of_add_le_add_right (a := sending c) ?_
    calc executionIds (sent (o ++ o')) +
          ((s.creations.set i { c with stage := stage }).map sending).sum + sending c
        = executionIds (sent o) + (s.creations.map sending).sum +
            (executionIds (sent o') + sending { c with stage := stage }) := by
          rw [total, add_assoc, replaced]
          ac_rfl
      _ ≤ executionIds (sent o) + (s.creations.map sending).sum + sending c :=
          add_le_add le_rfl pays
  · have unsent : str c.outside.executionId ∉
        executionIds (sent o) + (s.creations.map sending).sum :=
      fun hmem => h.has_row hmem fresh
    refine Multiset.nodup_of_le ?_ (Multiset.nodup_cons.mpr ⟨unsent, h.once⟩)
    calc executionIds (sent (o ++ o')) +
          ((s.creations.set i { c with stage := stage }).map sending).sum
        ≤ executionIds (sent o) +
            (((s.creations.set i { c with stage := stage }).map sending).sum + sending c) := by
          rw [total, quiet, executionIds, executionIds, Multiset.map_zero, add_zero]
          exact add_le_add le_rfl (Multiset.le_add_right _ _)
      _ = str c.outside.executionId ::ₘ
            (executionIds (sent o) + (s.creations.map sending).sum) := by
          rw [replaced, hsending, ← Multiset.singleton_add]
          ac_rfl

theorem putItems_mono : putItems o ⊆ putItems (o ++ o') := by
  rw [putItems_append]
  exact List.subset_append_left _ _

/-- What a request was answered, and what it put, stays so. -/
theorem Sound.earlier (h : Sound s o)
    (put : ∀ item, .put item ∈ o' → .sent item.task ∈ o' ∧ item.key = queueKey item.task)
    (answered : ∀ id, .answered (.created id) ∈ o' →
      ∃ item ∈ putItems o, item.task.executionId = str id) :
    (∀ item, .put item ∈ o ++ o' → .sent item.task ∈ o ++ o' ∧ item.key = queueKey item.task) ∧
    ∀ id, .answered (.created id) ∈ o ++ o' →
      ∃ item ∈ putItems (o ++ o'), item.task.executionId = str id := by
  constructor
  · intro item hitem
    rcases List.mem_append.mp hitem with hitem | hitem
    · exact (h.put item hitem).imp_left (List.mem_append_left _)
    · exact (put item hitem).imp_left (List.mem_append_right _)
  · intro id hid
    obtain ⟨item, hitem, he⟩ : ∃ item ∈ putItems o, item.task.executionId = str id := by
      rcases List.mem_append.mp hid with hid | hid
      · exact h.answered id hid
      · exact answered id hid
    exact ⟨item, putItems_mono hitem, he⟩

/-- Steps that leave the requests alone. -/
theorem Sound.quiet (h : Sound s o) (quiet : ∀ event ∈ o', ∃ name item, event = .wrote name item)
    {t : Routing} (clients : Scoped t.service.clients) (kept : Preserves s.service.db t.service.db)
    (relies : ∀ c ∈ t.creations, Relies s.service.db (putItems o) c)
    (pays : (t.creations.map sending).sum ≤ (s.creations.map sending).sum) :
    Sound t (o ++ o') := by
  have no {event : Event} (hevent : event ∈ o') (other : ∀ name item, event ≠ .wrote name item) :
      False := by
    obtain ⟨name, item, he⟩ := quiet event hevent
    exact other name item he
  have unsent : sent o' = 0 := by
    refine Multiset.eq_zero_of_forall_notMem ?_
    intro task htask
    exact no (mem_sent.mp htask) (fun _ _ he => nomatch he)
  have same : sent (o ++ o') = sent o := by
    rw [sent_append, unsent, add_zero]
  obtain ⟨put, answered⟩ := h.earlier
    (fun item hitem => (no hitem (fun _ _ he => nomatch he)).elim)
    (fun id hid => (no hid (fun _ _ he => nomatch he)).elim)
  refine ⟨clients, ?_, ?_, ?_, put, answered⟩
  · intro c hc
    exact (relies c hc).later kept putItems_mono
  · intro task htask
    rw [same] at htask
    obtain ⟨a, ha⟩ := h.routed task htask
    exact ⟨a, ha.preserves kept⟩
  · rw [same]
    exact Multiset.nodup_of_le (add_le_add le_rfl pays) h.once

theorem Sound.step (h : Sound s o) (adm : Administers host isDir s act)
    (hr : Routes host s act t o') : Sound t (o ++ o') := by
  cases hr with
  | request =>
    refine h.quiet (by simp) h.clients (.refl _) (forall_mem_concat h.relies trivial) ?_
    rw [List.map_append, List.sum_append]
    exact (add_zero _).le
  | @creation i c service stage _ hget ha =>
    have before := h.relies c (List.mem_of_getElem? hget)
    have more : sent (o ++ o') = sent o + sent o' := sent_append
    obtain ⟨put, answered⟩ := h.earlier (fun _ => ha.put) (fun _ => ha.answered before)
    refine ⟨ha.keeps.2 h.clients, ?_, ?_, h.once_advances hget ha, put, answered⟩
    · rw [putItems_append]
      refine forall_mem_set ?_ (ha.relies before)
      intro x hx
      exact (h.relies x hx).later ha.keeps.1 (List.subset_append_left _ _)
    · intro task htask
      rw [more] at htask
      rcases Multiset.mem_add.mp htask with htask | htask
      · obtain ⟨a, hrouted⟩ := h.routed task htask
        exact ⟨a, hrouted.preserves ha.keeps.1⟩
      · obtain ⟨a, hrouted⟩ := ha.routed h.clients before task htask
        exact ⟨a, hrouted.preserves ha.keeps.1⟩
  | reboot =>
    refine h.quiet (by simp) ?_ (.refl _) (by simp) (Multiset.zero_le _)
    intro delegateId client hclient
    cases hclient
  | write => exact h.quiet (by simp) h.clients adm.preserves h.relies le_rfl
  | control _ => exact h.quiet (by simp) h.clients (.refl _) h.relies le_rfl
  | @client name request outcome _ _ =>
    refine h.quiet ?_ h.clients (.refl _) h.relies le_rfl
    intro event hevent
    obtain ⟨item, -, rfl⟩ := List.mem_map.mp hevent
    exact ⟨name, item, rfl⟩

theorem sound_run (h : Run (routing host) (Administers host isDir) (.start db redis) as s o) :
    Sound s o := by
  refine h.invariant Sound ?_ ?_
  · refine ⟨?_, by simp [Routing.start], by simp [sent], ?_, by simp, by simp⟩
    · intro delegateId client hclient
      cases hclient
    · exact Multiset.nodup_zero
  · intro s o act t o' hi adm hs
    exact hi.step adm (routing_routes hs)

end Runs

def Routing.at (s : Routing) (i : Nat) (service : Service) (c : Creation) : Routing :=
  { s with service := service, creations := s.creations.set i c }

section Alone
variable {host : Host} {isDir : String → Bool} {s : Routing} {i : Nat} {c : Creation}
variable {service service' : Service} {stage : Stage} {o : List Event}

theorem advance_run (hi : i < s.creations.length)
    (h : advance host service c = some (service', stage, o)) :
    Run (routing host) (Administers host isDir) (s.at i service c) [.creation i]
      (s.at i service' { c with stage := stage }) o := by
  refine Run.single trivial ?_
  have hget : (s.creations.set i c)[i]? = some c := List.getElem?_set_self hi
  simp only [routing, Routing.at, hget, h, Option.map_some, List.set_set]

theorem send_stores (d : Delegate) (own : Scoped service.clients) :
    (service.send c d).stores = take c.outside c.body service.stores d := by
  simp only [Service.send, Service.puts, Service.withClient, Service.stores, take, taskOf_eq own,
    List.map_append, List.map_replicate]

theorem finish_stores {outside : Outside} {delegate : Delegate} {tenantId : String} :
    ({ service with db := (finish outside service.stores delegate tenantId).2.db } :
      Service).stores = (finish outside service.stores delegate tenantId).2 := by
  unfold finish
  split <;> rfl

/-- From the row that is inserted to the answer. -/
theorem sending_alone (host : Host) (isDir : String → Bool) (service : Service)
    (outside : Outside) (body : Body) (delegate : Delegate) (tenantId : String)
    (hi : i < s.creations.length) (own : Scoped service.clients) :
    let rest := match outside.sending with
      | .taken _ => finish outside (take outside body service.stores delegate) delegate tenantId
      | .raised _ => (.raised, take outside body service.stores delegate)
    ∃ as service' o, (∀ act ∈ as, act = .creation i) ∧
      Run (routing host) (Administers host isDir)
        (s.at i service ⟨outside, body, .sending delegate tenantId⟩) as
        (s.at i service' ⟨outside, body, .answered⟩) o ∧
      service'.stores = rest.2 ∧ .answered rest.1 ∈ o := by
  have sentAs := send_stores (c := ⟨outside, body, .sending delegate tenantId⟩) delegate own
  cases hs : outside.sending with
  | taken again =>
    have first : advance host service ⟨outside, body, .sending delegate tenantId⟩ =
        some (service.send ⟨outside, body, .sending delegate tenantId⟩ delegate,
          .recording delegate tenantId,
          service.sends ⟨outside, body, .sending delegate tenantId⟩ delegate) := by
      simp only [advance, hs]
    have recording : advance host
        (service.send ⟨outside, body, .sending delegate tenantId⟩ delegate)
        ⟨outside, body, .recording delegate tenantId⟩ = some (_, _, _) := rfl
    refine ⟨_, _, _, ?_, (advance_run hi first).append (advance_run hi recording), ?_, ?_⟩
    · simp
    · rw [finish_stores, sentAs]
    · rw [sentAs]
      simp
  | raised puts =>
    have first : advance host service ⟨outside, body, .sending delegate tenantId⟩ =
        some (service.send ⟨outside, body, .sending delegate tenantId⟩ delegate, .answered,
          service.sends ⟨outside, body, .sending delegate tenantId⟩ delegate ++
            [.answered .raised]) := by
      simp only [advance, hs]
    exact ⟨_, _, _, by simp, advance_run hi first, sentAs, by simp⟩

/-- The stages of a request that nothing comes between are `create_execution`. -/
theorem creation_alone {outside : Outside} {body : Body}
    (hget : s.creations[i]? = some ⟨outside, body, .checking⟩) (own : Scoped s.service.clients) :
    ∃ as service o, (∀ act ∈ as, act = .creation i) ∧
      Run (routing host) (Administers host isDir) s as
        (s.at i service ⟨outside, body, .answered⟩) o ∧
      service.stores = (createExecution host outside body s.service.stores).2 ∧
      .answered (createExecution host outside body s.service.stores).1 ∈ o := by
  obtain ⟨hi, hc⟩ := List.getElem?_eq_some_iff.mp hget
  have start : s.at i s.service ⟨outside, body, .checking⟩ = s := by
    rw [Routing.at, ← hc, List.set_getElem_self]
  have run {service service' : Service} {before stage : Stage} {o : List Event}
      (h : advance host service ⟨outside, body, before⟩ = some (service', stage, o)) :
      Run (routing host) (Administers host isDir) (s.at i service ⟨outside, body, before⟩)
        [.creation i] (s.at i service' ⟨outside, body, stage⟩) o := advance_run hi h
  have stores : s.service.stores.db = s.service.db := rfl
  rw [createExecution, stores]
  cases hcheck : check host outside body s.service.db with
  | rejected why =>
    have first : advance host s.service ⟨outside, body, .checking⟩ =
        some (s.service, .answered, [.answered (.rejected why)]) := by
      simp only [advance, hcheck]
    exact ⟨_, _, _, by simp, start ▸ run first, rfl, List.mem_singleton_self _⟩
  | raised =>
    have first : advance host s.service ⟨outside, body, .checking⟩ =
        some (s.service, .answered, [.answered .raised]) := by
      simp only [advance, hcheck]
    exact ⟨_, _, _, by simp, start ▸ run first, rfl, List.mem_singleton_self _⟩
  | passed delegate tenantId fixture =>
    have first : advance host s.service ⟨outside, body, .checking⟩ =
        some (s.service, .inserting delegate tenantId fixture, []) := by
      simp only [advance, hcheck]
    have inserting := start ▸ run first
    simp only
    cases hrow : insertRow outside s.service.db delegate tenantId fixture with
    | none =>
      have second : advance host s.service ⟨outside, body, .inserting delegate tenantId fixture⟩ =
          some (s.service, .answered, [.answered .raised]) := by
        simp only [advance, hrow]
      exact ⟨_, _, _, by simp, inserting.append (run second), rfl, by simp⟩
    | some db =>
      have second : advance host s.service ⟨outside, body, .inserting delegate tenantId fixture⟩ =
          some (⟨db, s.service.items, s.service.clients⟩, .sending delegate tenantId, []) := by
        simp only [advance, hrow]
      obtain ⟨as, service', o, only, rest, hstores, hanswer⟩ :=
        sending_alone host isDir ⟨db, s.service.items, s.service.clients⟩ outside body delegate
          tenantId hi own
      refine ⟨_, service', _, ?_, (inserting.append (run second)).append rest, hstores, ?_⟩
      · simpa using only
      · exact List.mem_append_right _ hanswer

end Alone

/-- However requests for executions interleave with each other, with restarts of the
control plane and with the other writers of the database: every task that is sent
names an execution of the delegate under whose prefix and in whose queue it is, and
of that delegate's tenant; no execution's task is sent twice; an execution is answered
as created only if the broker has taken its task; and a request that from some state on is left to
itself does what `create_execution` does there. -/
theorem sent_once {host : Host} {isDir : String → Bool} {db : DB} {redis : Redis}
    {as : List Action} {s : Routing} {o : List Event}
    (h : Run (routing host) (Administers host isDir) (.start db redis) as s o) :
    (∀ task, .sent task ∈ o → ∃ a, Routed s.service.db a task) ∧
    (executionIds (sent o)).Nodup ∧
    (∀ id, .answered (.created id) ∈ o → ∃ item, .put item ∈ o ∧ .sent item.task ∈ o ∧
      item.task.executionId = str id) ∧
    ∀ i outside body, s.creations[i]? = some ⟨outside, body, .checking⟩ →
      ∃ stages service o', (∀ act ∈ stages, act = .creation i) ∧
        Run (routing host) (Administers host isDir) s stages
          (s.at i service ⟨outside, body, .answered⟩) o' ∧
        service.stores = (createExecution host outside body s.service.stores).2 ∧
        .answered (createExecution host outside body s.service.stores).1 ∈ o' := by
  have sound := sound_run h
  refine ⟨?_, Multiset.nodup_of_le (Multiset.le_add_right _ _) sound.once, ?_, ?_⟩
  · intro task htask
    exact sound.routed task (mem_sent.mpr htask)
  · intro id hid
    obtain ⟨item, hitem, he⟩ := sound.answered id hid
    have hput := mem_putItems.mp hitem
    exact ⟨item, hput, (sound.put item hput).1, he⟩
  · intro i outside body hget
    exact creation_alone hget sound.clients

def brokerUp (executionId : UUID) (sending : Sending) : Outside where
  selects := true
  isDir _ := true
  executionId := executionId
  inserts := true
  sending := sending
  audits := true

/-- One of the requests gets no answer from the broker, which has taken its task twice. -/
def twoRequests : List Action :=
  [.request (brokerUp 1 (.taken 0)) goodBody, .request (brokerUp 2 (.raised 2)) goodBody,
    .creation 0, .creation 1, .creation 1, .creation 0, .creation 1, .creation 0, .creation 0]

def oneUser : Acl := provisionDelegate (seeded "hash") (str smallDelegate.id) "secret"

def Quiet : Action → Prop
  | .write _ => False
  | _ => True

theorem administers_of_quiet {host : Host} {isDir : String → Bool} {start s : Routing}
    {as : List Action} {o : List Event} (h : Run (routing host) Free start as s o)
    (quiet : ∀ act ∈ as, Quiet act) : Run (routing host) (Administers host isDir) start as s o := by
  refine (h.restrict quiet).mono ?_
  intro s act hact
  cases act with
  | write db => exact absurd hact not_false
  | _ => trivial

theorem twoRequests_once : ∃ s o,
    Run (routing smallHost) (Administers smallHost (fun _ => true))
      (.start oneDelegate.db ⟨oneUser, oneUser⟩) twoRequests s o ∧
    (sent o).card = 2 ∧ (executionIds (sent o)).Nodup := by
  have hrun : (replay (routing smallHost) (.start oneDelegate.db ⟨oneUser, oneUser⟩)
      twoRequests).any (fun r => decide ((r.2.filterMap sentTask?).length = 2)) = true := by
    decide +kernel
  obtain ⟨s, o, h, hsent⟩ := run_of_replay_test hrun
  have quiet : ∀ act ∈ twoRequests, Quiet act := by simp [twoRequests, Quiet]
  have run : Run (routing smallHost) (Administers smallHost (fun _ => true))
      (.start oneDelegate.db ⟨oneUser, oneUser⟩) twoRequests s o := administers_of_quiet h quiet
  exact ⟨s, o, run, of_decide_eq_true hsent, (sent_once run).2.1⟩

end TaskRouting
