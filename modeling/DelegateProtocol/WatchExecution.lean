import DelegateProtocol.Handlers
import DelegateProtocol.Lib.AppendLog
import DelegateProtocol.Lib.StepMachine

/-!
# The watcher of one execution

`watch_execution` as a machine. Each poll, each XADD of an answer and each read that
a decision rests on is a step of its own. What belongs together is one step: the audit
row with the row of a status, the file with the row and the audit row of an output, the
row with the audit row of a transfer that was sent, and at the end the DELETE with its
audit row and the return. The inputs say what the outside decides: the clock, how much
XREAD returns of each stream, the fresh transfer id, which commands lose the connection.
Between two steps anybody may publish on any stream, and other processes may change
every row and file but the watched execution's.
-/

namespace WatchExecution

open AppendLog Handlers Models Runtime StepMachine Streams

structure World where
  store : Store
  redis : String → Log Fields

def World.xadd (world : World) (key : String) (fields : Fields) : World :=
  { world with redis := Function.update world.redis key ((world.redis key).append fields) }

def World.deleteKeys (world : World) (keys : Keys) : World where
  store := world.store
  redis key :=
    if ∃ k ∈ kinds, keys.key k = key then (world.redis key).delete else world.redis key

def World.record (world : World) (event : AuditEvent) : World :=
  { world with store := { world.store with db := world.store.db.record event } }

structure Message where
  kind : Kind
  id : Nat
  fields : Fields

def Message.type (m : Message) : Option String := m.fields.get? "type"

def Message.IsRequest (m : Message) : Prop := m.kind = .events ∧ m.type = some "DATA_REQUEST"

instance (m : Message) : Decidable m.IsRequest := inferInstanceAs (Decidable (_ ∧ _))

/-- Why a watcher has left its loop. -/
inductive Why where
  | rowGone
  | terminal
  | lifetime
  | raised (e : PyError)
  deriving DecidableEq

/-- Where the thread stands, with its local variables at that point. -/
inductive Point where
  | top
  | reading
  | handling (rest : List Message)
  | authorizing (read : Execution) (request : Message) (rest : List Message)
  | sending (request : Message) (grant : Grant) (transferId : String) (pending : List Fields)
      (rest : List Message)
  | cleaning (why : Why)
  | ended (why : Why)

structure Watch where
  execution : Named
  keys : Keys
  lastIds : Kind → Nat
  logSeq : Nat
  outputState : Option OutputState
  point : Point

def Watch.start (execution : Named) (keys : Keys) : Watch :=
  ⟨execution, keys, fun _ => 0, 0, none, .top⟩

def Watch.goto (watch : Watch) (point : Point) : Watch := { watch with point := point }

def Watch.seenUpTo (watch : Watch) (m : Message) : Watch :=
  { watch with lastIds := Function.update watch.lastIds m.kind m.id }

inductive Input where
  | check (expired : Bool)
  | xread (counts : Kind → Nat)
  | xreadLost
  | handle
  | authorize (transferId : String)
  | xadd
  | xaddLost (applied : Bool)
  | save
  | delete
  | deleteLost (applied : Bool)

/-- What a run makes visible. -/
inductive Seen where
  | handled (m : Message)
  | authorized (request : Message)
  | published (key : String) (message : Fields) (request : Message) (grant : Grant)
  | answered (request : Message) (grant : Grant) (transferId : String)
  | deleted

def maxCount : Nat := 50

/-- The answer of XREAD: of every stream the first so many unread entries. -/
def xread (world : World) (watch : Watch) (counts : Kind → Nat) : List Message :=
  kinds.flatMap (fun k =>
    ((world.redis (watch.keys.key k)).read (watch.lastIds k) (counts k)).map
      (fun entry => ⟨k, entry.1, entry.2⟩))

/-- What a message other than a data request does to the store, to the number
of log lines and to the output being reassembled. -/
def effect (host : Host) (watch : Watch) (m : Message) (store : Store) :
    Except PyError (Store × Nat × Option OutputState) :=
  match m.kind with
  | .events => .ok (store, watch.logSeq, watch.outputState)
  | .log =>
    if m.type = some "LOG" then
      match handleLog watch.execution m.fields (watch.logSeq + 1) store with
      | .error e => .error e
      | .ok store => .ok (store, watch.logSeq + 1, watch.outputState)
    else .ok (store, watch.logSeq, watch.outputState)
  | .status =>
    if m.type = some "STATUS" then
      .ok (handleStatus watch.execution m.fields store, watch.logSeq, watch.outputState)
    else .ok (store, watch.logSeq, watch.outputState)
  | .output =>
    match handleOutputMessage host watch.execution m.fields watch.outputState store with
    | .error e => .error e
    | .ok (store, state) => .ok (store, watch.logSeq, state)

def handle (host : Host) (world : World) (watch : Watch) (m : Message) (rest : List Message) :
    World × Watch :=
  if m.IsRequest then
    match world.store.db.execution watch.execution.id with
    | none => (world, (watch.seenUpTo m).goto (.handling rest))
    | some read => (world, (watch.seenUpTo m).goto (.authorizing read m rest))
  else
    match effect host watch m world.store with
    | .error e => (world, (watch.seenUpTo m).goto (.ended (.raised e)))
    | .ok (store, logSeq, state) =>
      ({ world with store := store },
        { (watch.seenUpTo m).goto (.handling rest) with logSeq := logSeq, outputState := state })

def authorize (host : Host) (world : World) (watch : Watch) (read : Execution)
    (request : Message) (rest : List Message) (transferId : String) :
    World × Watch × List Seen :=
  match decideRequest host world.store.db read request.fields with
  | .error e => (world, watch.goto (.ended (.raised e)), [])
  | .ok .rejected =>
    (world.record (requestEvent "DATA_REQUEST_REJECTED" watch.execution request.fields),
      watch.goto (.handling rest), [])
  | .ok .fileNotFound =>
    (world.record (requestEvent "DATA_REQUEST_FILE_NOT_FOUND" watch.execution request.fields),
      watch.goto (.handling rest), [.authorized request])
  | .ok (.granted grant) =>
    (world, watch.goto (.sending request grant transferId
      (workspaceMessages watch.execution request.fields transferId grant.zip) rest),
      [.authorized request])

def save (world : World) (watch : Watch) (request : Message) (grant : Grant)
    (transferId : String) (rest : List Message) : World × Watch × List Seen :=
  match saveTransfer watch.execution request.fields grant.execution transferId world.store.db with
  | .error e => (world, watch.goto (.ended (.raised e)), [])
  | .ok db =>
    ({ world with store := { world.store with db := db } }, watch.goto (.handling rest),
      [.answered request grant transferId])

def step (host : Host) (world : World) (watch : Watch) (input : Input) :
    Option (World × Watch × List Seen) :=
  match watch.point, input with
  | .top, .check true =>
    some (world.record { eventType := "DISPATCHER_WATCH_TIMED_OUT",
                         executionId := watch.execution.text },
      watch.goto (.cleaning .lifetime), [])
  | .top, .check false =>
    match world.store.db.execution watch.execution.id with
    | none => some (world, watch.goto (.ended .rowGone), [])
    | some e =>
      if e.Terminal then some (world, watch.goto (.cleaning .terminal), [])
      else some (world, watch.goto .reading, [])
  | .reading, .xread counts =>
    if ∀ k ∈ kinds, counts k ≤ maxCount then
      some (world, watch.goto (.handling (xread world watch counts)), [])
    else none
  | .reading, .xreadLost => some (world, watch.goto .top, [])
  | .handling [], .handle => some (world, watch.goto .top, [])
  | .handling (m :: rest), .handle =>
    let (world, watch) := handle host world watch m rest
    some (world, watch, [.handled m])
  | .authorizing read request rest, .authorize transferId =>
    some (authorize host world watch read request rest transferId)
  | .sending request grant transferId (m :: pending) rest, .xadd =>
    some (world.xadd watch.keys.events m,
      watch.goto (.sending request grant transferId pending rest),
      [.published watch.keys.events m request grant])
  | .sending request grant _ (m :: _) _, .xaddLost applied =>
    some (if applied then world.xadd watch.keys.events m else world,
      watch.goto (.ended (.raised .redisError)),
      if applied then [.published watch.keys.events m request grant] else [])
  | .sending request grant transferId [] rest, .save =>
    some (save world watch request grant transferId rest)
  | .cleaning why, .delete =>
    some ((world.deleteKeys watch.keys).record
        { eventType := "STREAMS_CLEANED", executionId := watch.execution.text },
      watch.goto (.ended why), [.deleted])
  | .cleaning _, .deleteLost applied =>
    some (if applied then world.deleteKeys watch.keys else world,
      watch.goto (.ended (.raised .redisError)), if applied then [.deleted] else [])
  | _, _ => none

/-- The steps of a watcher, one constructor for every way through the code. -/
inductive Moves (host : Host) (world : World) (watch : Watch) :
    Input → World → Watch → List Seen → Prop
  | expire : watch.point = .top →
      Moves host world watch (.check true)
        (world.record { eventType := "DISPATCHER_WATCH_TIMED_OUT",
                        executionId := watch.execution.text })
        (watch.goto (.cleaning .lifetime)) []
  | rowGone : watch.point = .top → world.store.db.execution watch.execution.id = none →
      Moves host world watch (.check false) world (watch.goto (.ended .rowGone)) []
  | finish {e : Execution} : watch.point = .top →
      world.store.db.execution watch.execution.id = some e → e.Terminal →
      Moves host world watch (.check false) world (watch.goto (.cleaning .terminal)) []
  | poll {e : Execution} : watch.point = .top →
      world.store.db.execution watch.execution.id = some e → ¬ e.Terminal →
      Moves host world watch (.check false) world (watch.goto .reading) []
  | read {counts : Kind → Nat} : watch.point = .reading → (∀ k, counts k ≤ maxCount) →
      Moves host world watch (.xread counts) world
        (watch.goto (.handling (xread world watch counts))) []
  | readLost : watch.point = .reading →
      Moves host world watch .xreadLost world (watch.goto .top) []
  | batchDone : watch.point = .handling [] →
      Moves host world watch .handle world (watch.goto .top) []
  | requestRowGone {m : Message} {rest : List Message} : watch.point = .handling (m :: rest) →
      m.IsRequest → world.store.db.execution watch.execution.id = none →
      Moves host world watch .handle world ((watch.seenUpTo m).goto (.handling rest)) [.handled m]
  | request {m : Message} {rest : List Message} {read : Execution} :
      watch.point = .handling (m :: rest) → m.IsRequest →
      world.store.db.execution watch.execution.id = some read →
      Moves host world watch .handle world
        ((watch.seenUpTo m).goto (.authorizing read m rest)) [.handled m]
  | message {m : Message} {rest : List Message} {store : Store} {logSeq : Nat}
      {state : Option OutputState} : watch.point = .handling (m :: rest) → ¬ m.IsRequest →
      effect host watch m world.store = .ok (store, logSeq, state) →
      Moves host world watch .handle { world with store := store }
        { (watch.seenUpTo m).goto (.handling rest) with logSeq := logSeq, outputState := state }
        [.handled m]
  | messageRaised {m : Message} {rest : List Message} {e : PyError} :
      watch.point = .handling (m :: rest) → ¬ m.IsRequest →
      effect host watch m world.store = .error e →
      Moves host world watch .handle world
        ((watch.seenUpTo m).goto (.ended (.raised e))) [.handled m]
  | requestRaised {read : Execution} {request : Message} {rest : List Message} {e : PyError}
      {transferId : String} : watch.point = .authorizing read request rest →
      decideRequest host world.store.db read request.fields = .error e →
      Moves host world watch (.authorize transferId) world (watch.goto (.ended (.raised e))) []
  | rejected {read : Execution} {request : Message} {rest : List Message} {transferId : String} :
      watch.point = .authorizing read request rest →
      decideRequest host world.store.db read request.fields = .ok .rejected →
      Moves host world watch (.authorize transferId)
        (world.record (requestEvent "DATA_REQUEST_REJECTED" watch.execution request.fields))
        (watch.goto (.handling rest)) []
  | fileNotFound {read : Execution} {request : Message} {rest : List Message}
      {transferId : String} : watch.point = .authorizing read request rest →
      decideRequest host world.store.db read request.fields = .ok .fileNotFound →
      Moves host world watch (.authorize transferId)
        (world.record (requestEvent "DATA_REQUEST_FILE_NOT_FOUND" watch.execution request.fields))
        (watch.goto (.handling rest)) [.authorized request]
  | granted {read : Execution} {request : Message} {rest : List Message} {grant : Grant}
      {transferId : String} : watch.point = .authorizing read request rest →
      decideRequest host world.store.db read request.fields = .ok (.granted grant) →
      Moves host world watch (.authorize transferId) world
        (watch.goto (.sending request grant transferId
          (workspaceMessages watch.execution request.fields transferId grant.zip) rest))
        [.authorized request]
  | xadd {request : Message} {grant : Grant} {transferId : String} {m : Fields}
      {pending : List Fields} {rest : List Message} :
      watch.point = .sending request grant transferId (m :: pending) rest →
      Moves host world watch .xadd (world.xadd watch.keys.events m)
        (watch.goto (.sending request grant transferId pending rest))
        [.published watch.keys.events m request grant]
  | xaddLost {request : Message} {grant : Grant} {transferId : String} {m : Fields}
      {pending : List Fields} {rest : List Message} :
      watch.point = .sending request grant transferId (m :: pending) rest →
      Moves host world watch (.xaddLost false) world
        (watch.goto (.ended (.raised .redisError))) []
  | xaddUnanswered {request : Message} {grant : Grant} {transferId : String} {m : Fields}
      {pending : List Fields} {rest : List Message} :
      watch.point = .sending request grant transferId (m :: pending) rest →
      Moves host world watch (.xaddLost true) (world.xadd watch.keys.events m)
        (watch.goto (.ended (.raised .redisError)))
        [.published watch.keys.events m request grant]
  | saved {request : Message} {grant : Grant} {transferId : String} {rest : List Message}
      {db : DB} : watch.point = .sending request grant transferId [] rest →
      saveTransfer watch.execution request.fields grant.execution transferId world.store.db =
        .ok db →
      Moves host world watch .save { world with store := { world.store with db := db } }
        (watch.goto (.handling rest)) [.answered request grant transferId]
  | saveRaised {request : Message} {grant : Grant} {transferId : String} {rest : List Message}
      {e : PyError} : watch.point = .sending request grant transferId [] rest →
      saveTransfer watch.execution request.fields grant.execution transferId world.store.db =
        .error e →
      Moves host world watch .save world (watch.goto (.ended (.raised e))) []
  | delete {why : Why} : watch.point = .cleaning why →
      Moves host world watch .delete
        ((world.deleteKeys watch.keys).record
          { eventType := "STREAMS_CLEANED", executionId := watch.execution.text })
        (watch.goto (.ended why)) [.deleted]
  | deleteLost {why : Why} : watch.point = .cleaning why →
      Moves host world watch (.deleteLost false) world
        (watch.goto (.ended (.raised .redisError))) []
  | deleteUnanswered {why : Why} : watch.point = .cleaning why →
      Moves host world watch (.deleteLost true) (world.deleteKeys watch.keys)
        (watch.goto (.ended (.raised .redisError))) [.deleted]

section StepMoves
variable {host : Host} {world world' : World} {watch watch' : Watch} {input : Input}
variable {seen : List Seen}

theorem handle_moves {m : Message} {rest : List Message}
    (h : watch.point = .handling (m :: rest)) :
    Moves host world watch .handle (handle host world watch m rest).1
      (handle host world watch m rest).2 [.handled m] := by
  unfold handle
  by_cases hm : m.IsRequest
  · rw [if_pos hm]
    cases hr : world.store.db.execution watch.execution.id with
    | none => exact .requestRowGone h hm hr
    | some read => exact .request h hm hr
  · rw [if_neg hm]
    cases he : effect host watch m world.store with
    | error e => exact .messageRaised h hm he
    | ok r => exact .message h hm he

theorem authorize_moves {read : Execution} {request : Message} {rest : List Message}
    (h : watch.point = .authorizing read request rest) (transferId : String) :
    Moves host world watch (.authorize transferId)
      (authorize host world watch read request rest transferId).1
      (authorize host world watch read request rest transferId).2.1
      (authorize host world watch read request rest transferId).2.2 := by
  unfold authorize
  cases hd : decideRequest host world.store.db read request.fields with
  | error e => exact .requestRaised h hd
  | ok decision =>
    cases decision with
    | rejected => exact .rejected h hd
    | fileNotFound => exact .fileNotFound h hd
    | granted grant => exact .granted h hd

theorem save_moves {request : Message} {grant : Grant} {transferId : String}
    {rest : List Message} (h : watch.point = .sending request grant transferId [] rest) :
    Moves host world watch .save (save world watch request grant transferId rest).1
      (save world watch request grant transferId rest).2.1
      (save world watch request grant transferId rest).2.2 := by
  unfold save
  cases hs : saveTransfer watch.execution request.fields grant.execution transferId
      world.store.db with
  | error e => exact .saveRaised h hs
  | ok db => exact .saved h hs

theorem step_moves (h : step host world watch input = some (world', watch', seen)) :
    Moves host world watch input world' watch' seen := by
  unfold step at h
  split at h
  case h_1 hp =>
    cases h
    exact .expire hp
  case h_2 hp =>
    cases hr : world.store.db.execution watch.execution.id with
    | none =>
      simp only [hr] at h
      cases h
      exact .rowGone hp hr
    | some e =>
      simp only [hr] at h
      by_cases ht : e.Terminal
      · rw [if_pos ht] at h
        cases h
        exact .finish hp hr ht
      · rw [if_neg ht] at h
        cases h
        exact .poll hp hr ht
  case h_3 counts hp =>
    by_cases hc : ∀ k ∈ kinds, counts k ≤ maxCount
    · rw [if_pos hc] at h
      cases h
      exact .read hp (fun k => hc k (mem_kinds k))
    · rw [if_neg hc] at h
      cases h
  case h_4 hp =>
    cases h
    exact .readLost hp
  case h_5 hp =>
    cases h
    exact .batchDone hp
  case h_6 m rest hp =>
    cases h
    exact handle_moves hp
  case h_7 read request rest transferId hp =>
    have hm : Moves host world watch (.authorize transferId) _ _ _ :=
      authorize_moves hp transferId
    rw [Option.some.inj h] at hm
    exact hm
  case h_8 hp =>
    cases h
    exact .xadd hp
  case h_9 applied hp =>
    cases h
    cases applied with
    | false => exact .xaddLost hp
    | true => exact .xaddUnanswered hp
  case h_10 hp =>
    have hm : Moves host world watch .save _ _ _ := save_moves hp
    rw [Option.some.inj h] at hm
    exact hm
  case h_11 hp =>
    cases h
    exact .delete hp
  case h_12 applied hp =>
    cases h
    cases applied with
    | false => exact .deleteLost hp
    | true => exact .deleteUnanswered hp
  case h_13 => cases h

/-- What handling a message other than a data request leads to. -/
theorem moves_effect (h : Moves host world watch .handle world' watch' seen) {m : Message}
    {rest : List Message} (hp : watch.point = .handling (m :: rest)) (hm : ¬ m.IsRequest)
    {store : Store} {logSeq : Nat} {state : Option OutputState}
    (he : effect host watch m world.store = .ok (store, logSeq, state)) :
    world' = { world with store := store } ∧
      watch' = { (watch.seenUpTo m).goto (.handling rest) with
        logSeq := logSeq, outputState := state } := by
  cases h with
  | batchDone hp' => simp [hp] at hp'
  | requestRowGone hp' hm' _ =>
    rw [hp] at hp'
    cases hp'
    exact False.elim (hm hm')
  | request hp' hm' _ =>
    rw [hp] at hp'
    cases hp'
    exact False.elim (hm hm')
  | message hp' _ he' =>
    rw [hp] at hp'
    cases hp'
    rw [he] at he'
    cases he'
    exact ⟨rfl, rfl⟩
  | messageRaised hp' _ he' =>
    rw [hp] at hp'
    cases hp'
    rw [he] at he'
    cases he'

/-- The ways a message other than a data request is handled. -/
inductive Effects (host : Host) (watch : Watch) (m : Message) (store : Store) :
    Store → Nat → Option OutputState → Prop
  | skip : m.kind ≠ .output → (m.kind = .log → m.type ≠ some "LOG") →
      (m.kind = .status → m.type ≠ some "STATUS") →
      Effects host watch m store store watch.logSeq watch.outputState
  | log : m.kind = .log → m.type = some "LOG" →
      Effects host watch m store
        { store with
          db := store.db.addLog ⟨watch.execution.id, watch.logSeq + 1, m.fields.getD "message" ""⟩ }
        (watch.logSeq + 1) watch.outputState
  | status : m.kind = .status → m.type = some "STATUS" →
      Effects host watch m store (handleStatus watch.execution m.fields store) watch.logSeq
        watch.outputState
  | waiting {state : Option OutputState} : m.kind = .output →
      outputVerdict m.fields watch.outputState = .ok (.waiting state) →
      Effects host watch m store store watch.logSeq state
  | received {data : List UInt8} {checksum : String} : m.kind = .output →
      outputVerdict m.fields watch.outputState = .ok (.received data checksum) →
      host.writable (outPath host watch.execution) = true →
      Effects host watch m store (acceptOutput host watch.execution data checksum store)
        watch.logSeq none
  | failed : m.kind = .output →
      outputVerdict m.fields watch.outputState = .ok .validationFailed →
      Effects host watch m store (rejectOutput watch.execution store) watch.logSeq none

theorem effect_ok {m : Message} {store store' : Store} {logSeq : Nat}
    {state : Option OutputState} (h : effect host watch m store = .ok (store', logSeq, state)) :
    Effects host watch m store store' logSeq state := by
  unfold effect at h
  cases hk : m.kind with
  | events =>
    rw [hk] at h
    cases h
    exact .skip (by simp [hk]) (by simp [hk]) (by simp [hk])
  | log =>
    simp only [hk] at h
    by_cases ht : m.type = some "LOG"
    · rw [if_pos ht] at h
      cases hl : handleLog watch.execution m.fields (watch.logSeq + 1) store with
      | error e => simp [hl] at h
      | ok written =>
        obtain ⟨-, rfl⟩ := handleLog_ok hl
        simp only [hl] at h
        cases h
        exact .log hk ht
    · rw [if_neg ht] at h
      cases h
      exact .skip (by simp [hk]) (fun _ => ht) (by simp [hk])
  | status =>
    simp only [hk] at h
    by_cases ht : m.type = some "STATUS"
    · rw [if_pos ht] at h
      cases h
      exact .status hk ht
    · rw [if_neg ht] at h
      cases h
      exact .skip (by simp [hk]) (by simp [hk]) (fun _ => ht)
  | output =>
    simp only [hk, handleOutputMessage] at h
    cases hv : outputVerdict m.fields watch.outputState with
    | error e => simp [hv] at h
    | ok verdict =>
      cases verdict with
      | waiting s =>
        simp only [hv] at h
        cases h
        exact .waiting hk hv
      | received data checksum =>
        simp only [hv] at h
        by_cases hw : host.writable (outPath host watch.execution) = true
        · rw [if_pos hw] at h
          cases h
          exact .received hk hv hw
        · simp [hw] at h
      | validationFailed =>
        simp only [hv] at h
        cases h
        exact .failed hk hv

theorem effects_delegates {m : Message} {store store' : Store} {logSeq : Nat}
    {state : Option OutputState} (h : Effects host watch m store store' logSeq state) :
    store'.db.delegates = store.db.delegates := by
  cases h with
  | status _ _ =>
    unfold handleStatus
    cases newStatus m.fields <;> rfl
  | _ => rfl

/-- No step writes to the delegates. -/
theorem moves_delegates (h : Moves host world watch input world' watch' seen) :
    world'.store.db.delegates = world.store.db.delegates := by
  cases h with
  | message _ _ he => exact effects_delegates (effect_ok he)
  | saved _ hs =>
    rw [saveTransfer_db hs]
    rfl
  | _ => rfl

end StepMoves

structure System where
  world : World
  watch : Watch

def System.row (s : System) : Option Execution :=
  s.world.store.db.execution s.watch.execution.id

/-- The thread has died of an exception. -/
def Raised (s : System) : Prop := ∃ e, s.watch.point = .ended (.raised e)

instance (s : System) : Decidable (Raised s) :=
  match h : s.watch.point with
  | .ended (.raised e) => isTrue ⟨e, h⟩
  | .top | .reading | .handling _ | .authorizing _ _ _ | .sending _ _ _ _ _ | .cleaning _
  | .ended .rowGone | .ended .terminal | .ended .lifetime =>
    isFalse (by rintro ⟨e, he⟩; rw [h] at he; cases he)

def System.log (s : System) (k : Kind) : Log Fields := s.world.redis (s.watch.keys.key k)

inductive Act where
  | watcher (input : Input)
  | publish (key : String) (fields : Fields)
  | others (store : Store)

/-- The watched execution's row, its log rows and its output file are as before. -/
def LeavesAlone (host : Host) (execution : Named) (old new : Store) : Prop :=
  new.db.execution execution.id = old.db.execution execution.id ∧
    new.db.logsOf execution.id = old.db.logsOf execution.id ∧
    new.media (outPath host execution) = old.media (outPath host execution)

instance (host : Host) (execution : Named) (old new : Store) :
    Decidable (LeavesAlone host execution old new) := inferInstanceAs (Decidable (_ ∧ _ ∧ _))

def watching (host : Host) : Machine System Act Seen where
  step s act :=
    match act with
    | .watcher input =>
      (step host s.world s.watch input).map (fun r => (⟨r.1, r.2.1⟩, r.2.2))
    | .publish key fields => some (⟨s.world.xadd key fields, s.watch⟩, [])
    | .others store =>
      if LeavesAlone host s.watch.execution s.world.store store then
        some (⟨{ s.world with store := store }, s.watch⟩, [])
      else none

section Watching
variable {host : Host} {s t : System} {o : List Seen}

theorem watching_watcher {input : Input}
    (h : (watching host).step s (.watcher input) = some (t, o)) :
    Moves host s.world s.watch input t.world t.watch o := by
  simp only [watching, Option.map_eq_some_iff] at h
  obtain ⟨⟨world, watch, seen⟩, hs, he⟩ := h
  cases he
  exact step_moves hs

theorem watching_publish {key : String} {fields : Fields}
    (h : (watching host).step s (.publish key fields) = some (t, o)) :
    t = ⟨s.world.xadd key fields, s.watch⟩ ∧ o = [] := by
  cases h
  exact ⟨rfl, rfl⟩

theorem watching_others {store : Store}
    (h : (watching host).step s (.others store) = some (t, o)) :
    LeavesAlone host s.watch.execution s.world.store store ∧
      t = ⟨{ s.world with store := store }, s.watch⟩ ∧ o = [] := by
  simp only [watching] at h
  by_cases hl : LeavesAlone host s.watch.execution s.world.store store
  · rw [if_pos hl] at h
    cases h
    exact ⟨hl, rfl, rfl⟩
  · rw [if_neg hl] at h
    cases h

end Watching

def smallDelegate : Delegate where
  id := 10
  tenantId := "tenant-a"
  name := "delegate-a"
  queue := "default"
  concurrency := 1
  status := .active

def smallKeys : Keys := streamKeys smallExecution.text (Uuid.str smallDelegate.id)

def smallRow (status : Status) : Execution where
  executionId := smallExecution.id
  tenantId := smallDelegate.tenantId
  delegateId := some smallDelegate.id
  workspaceFixture := "empty"
  status := status
  transferId := ""
  transferAttempts := 0
  outputPath := ""
  outputChecksum := ""

def smallDB (status : Status) : DB :=
  { DB.empty with
    delegates := KeyedTable.Table.put (KeyedTable.empty _) smallDelegate
    executions := KeyedTable.Table.put (KeyedTable.empty _) (smallRow status) }

/-- One active delegate with one execution, whose fixture is an empty directory.
The runs that show what can go wrong are replayed in it. -/
def smallWorld (status : Status) : World where
  store := ⟨smallDB status, fun _ => none⟩
  redis _ := Log.empty

def smallStart (status : Status) : System := ⟨smallWorld status, .start smallExecution smallKeys⟩

/-- A message of the worker of the small execution. -/
def smallMessage (type : String) (fields : Fields) : Fields :=
  [("type", type)] ++ fields ++ [("execution_id", smallExecution.text),
    ("tenant_id", smallDelegate.tenantId), ("delegate_id", Uuid.str smallDelegate.id)]

/-- Check the status and read everything that is there. -/
def pollAll : List Act := [.watcher (.check false), .watcher (.xread (fun _ => maxCount))]

end WatchExecution
