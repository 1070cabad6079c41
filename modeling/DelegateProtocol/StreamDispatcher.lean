import DelegateProtocol.ReadingOrder

/-!
# The dispatcher process

Its main loop reads the announcements on the global stream and starts a watcher
thread for each execution that has none. Rows, streams and threads change
between any two steps; after a crash, or at any time, the process is started
again, and its new main loop reads the stream from the beginning.
-/

namespace StreamDispatcher

open AppendLog Handlers Models Runtime StepMachine Streams WatchExecution

inductive LoopPoint where
  | reading
  | handling (rest : List (Nat × Fields))
  | crashed (e : PyError)

/-- `watched` maps an execution id, as it was announced, to a thread. -/
structure MainLoop where
  lastId : Nat
  watched : List (String × Nat)
  point : LoopPoint

def MainLoop.start : MainLoop := ⟨0, [], .reading⟩

structure Dispatcher where
  world : World
  loop : MainLoop
  threads : List Watch

def Dispatcher.start (world : World) : Dispatcher := ⟨world, .start, []⟩

def Dispatcher.log (d : Dispatcher) : Log Fields := d.world.redis globalExecutionEventsStream

/-- `thread.is_alive()`. -/
def isAlive (watch : Watch) : Bool :=
  match watch.point with
  | .ended _ => false
  | _ => true

def Dispatcher.aliveAt (d : Dispatcher) (thread : Nat) : Bool :=
  d.threads[thread]?.any isAlive

/-- `existing is not None and existing.is_alive()`. -/
def Dispatcher.watching (d : Dispatcher) (executionId : String) : Bool :=
  (d.loop.watched.lookup executionId).any d.aliveAt

def announcedKeys (fields : Fields) : Kind → Option String
  | .events => fields.get? "events_stream"
  | .log => fields.get? "log_stream"
  | .status => fields.get? "status_stream"
  | .output => fields.get? "output_stream"

inductive Shown where
  | consumed (id : Nat) (fields : Fields)
  | restarted
  | thread (execution : Named) (seen : Seen)

/-- `_announced_keys(fields) == keys`. -/
def Matches (fields : Fields) (keys : Keys) : Prop :=
  ∀ k ∈ kinds, announcedKeys fields k = some (keys.key k)

instance (fields : Fields) (keys : Keys) : Decidable (Matches fields keys) :=
  inferInstanceAs (Decidable (∀ k ∈ kinds, _))

def mismatchEvent (execution : Named) (e : Execution) (delegateId : Uuid.UUID) : AuditEvent where
  eventType := "ANNOUNCEMENT_STREAM_MISMATCH"
  tenantId := e.tenantId
  delegateId := Uuid.str delegateId
  executionId := execution.text

/-- A thread on the streams of the assigned delegate, whatever was announced. -/
def Dispatcher.watch (d : Dispatcher) (fields : Fields) (execution : Named) (e : Execution)
    (delegateId : Uuid.UUID) : Dispatcher where
  world := if Matches fields (streamKeys execution.text (Uuid.str delegateId)) then d.world
    else d.world.record (mismatchEvent execution e delegateId)
  loop := { d.loop with
    watched := (execution.text, d.threads.length) ::
      d.loop.watched.filter (fun entry => decide (entry.1 ≠ execution.text)) }
  threads := d.threads ++ [.start execution (streamKeys execution.text (Uuid.str delegateId))]

/-- One message of the global stream. -/
def announce (d : Dispatcher) (fields : Fields) : Except PyError Dispatcher :=
  if fields.get? "type" ≠ some "EXECUTION_STARTED" then .ok d
  else match fields.get? "execution_id" with
  | none => .ok d
  | some executionId =>
    if executionId = "" then .ok d
    else if d.watching executionId = true then .ok d
    else match names : Uuid.parse executionId with
    | none => .error .validationError
    | some id =>
      match d.world.store.db.execution id with
      | none => .ok d
      | some e =>
        match e.delegateId with
        | none => .ok d
        | some delegateId => .ok (d.watch fields ⟨executionId, id, names⟩ e delegateId)

inductive LoopInput where
  | xread (count : Nat)
  | xreadLost
  | handle

/-- The threads that have ended are forgotten. -/
def Dispatcher.prune (d : Dispatcher) : Dispatcher :=
  { d with loop := { d.loop with
      watched := d.loop.watched.filter (fun entry => d.aliveAt entry.2), point := .reading } }

def Dispatcher.goto (d : Dispatcher) (lastId : Nat) (point : LoopPoint) : Dispatcher :=
  { d with loop := { d.loop with lastId := lastId, point := point } }

def loopStep (d : Dispatcher) (input : LoopInput) : Option (Dispatcher × List Shown) :=
  match d.loop.point, input with
  | .reading, .xread count =>
    if count ≤ maxCount then
      some (d.goto d.loop.lastId (.handling (d.log.read d.loop.lastId count)), [])
    else none
  | .reading, .xreadLost => some (d, [])
  | .handling [], .handle => some (d.prune, [])
  | .handling ((id, fields) :: rest), .handle =>
    match announce (d.goto id (.handling rest)) fields with
    | .error e => some (d.goto id (.crashed e), [.consumed id fields])
    | .ok d => some (d, [.consumed id fields])
  | _, _ => none

inductive Action where
  | loop (input : LoopInput)
  | thread (i : Nat) (input : Input)
  | publish (key : String) (fields : Fields)
  | others (store : Store)
  | restart

def threadStep (host : Host) (d : Dispatcher) (i : Nat) (input : Input) :
    Option (Dispatcher × List Shown) :=
  match d.threads[i]? with
  | none => none
  | some watch =>
    match step host d.world watch input with
    | none => none
    | some (world, watch', seen) =>
      some ({ d with world := world, threads := d.threads.set i watch' },
        seen.map (.thread watch.execution))

def dispatching (host : Host) : Machine Dispatcher Action Shown where
  step d act :=
    match act with
    | .loop input => loopStep d input
    | .thread i input => threadStep host d i input
    | .publish key fields => some ({ d with world := d.world.xadd key fields }, [])
    | .others store => some ({ d with world := { d.world with store := store } }, [])
    | .restart => some (.start d.world, [.restarted])

/-- The message makes the loop look up an execution. -/
def Announces (fields : Fields) (executionId : String) : Prop :=
  fields.get? "type" = some "EXECUTION_STARTED" ∧
    fields.get? "execution_id" = some executionId ∧ executionId ≠ ""

/-- The ways one message of the global stream is handled. -/
inductive Announced (d : Dispatcher) (fields : Fields) : Except PyError Dispatcher → Prop
  | skip : (∀ executionId, Announces fields executionId → d.watching executionId = true ∨
      ∃ id, Uuid.parse executionId = some id ∧
        ∀ e, d.world.store.db.execution id = some e → e.delegateId = none) →
      Announced d fields (.ok d)
  | unparsed {executionId : String} : Announces fields executionId →
      d.watching executionId = false → Uuid.parse executionId = none →
      Announced d fields (.error .validationError)
  | watch {execution : Named} {e : Execution} {delegateId : Uuid.UUID} :
      Announces fields execution.text → d.watching execution.text = false →
      d.world.store.db.execution execution.id = some e → e.delegateId = some delegateId →
      Announced d fields (.ok (d.watch fields execution e delegateId))

theorem announce_cases (d : Dispatcher) (fields : Fields) :
    Announced d fields (announce d fields) := by
  unfold announce
  by_cases ht : fields.get? "type" = some "EXECUTION_STARTED"
  · rw [if_neg (not_not.mpr ht)]
    cases hid : fields.get? "execution_id" with
    | none =>
      refine .skip ?_
      rintro executionId ⟨-, hid', -⟩
      simp [hid] at hid'
    | some executionId =>
      have only {text : String} (ha : Announces fields text) : text = executionId := by
        simpa [hid] using ha.2.1.symm
      dsimp only
      by_cases hempty : executionId = ""
      · rw [if_pos hempty]
        refine .skip ?_
        intro text ha
        exact False.elim (ha.2.2 ((only ha).trans hempty))
      · rw [if_neg hempty]
        have ha : Announces fields executionId := ⟨ht, hid, hempty⟩
        by_cases hw : d.watching executionId = true
        · rw [if_pos hw]
          refine .skip ?_
          intro text ha'
          exact Or.inl (only ha' ▸ hw)
        · rw [if_neg hw]
          have hw' : d.watching executionId = false := by simpa using hw
          split
          · rename_i hp
            exact .unparsed ha hw' hp
          · rename_i id hp
            cases he : d.world.store.db.execution id with
            | none =>
              refine .skip ?_
              intro text ha'
              refine Or.inr ⟨id, (only ha').symm ▸ hp, fun e he' => ?_⟩
              simp [he] at he'
            | some e =>
              dsimp only
              cases hd : e.delegateId with
              | none =>
                refine .skip ?_
                intro text ha'
                refine Or.inr ⟨id, (only ha').symm ▸ hp, fun e' he' => ?_⟩
                rw [he] at he'
                cases he'
                exact hd
              | some delegateId => exact @Announced.watch d fields ⟨executionId, id, hp⟩ e delegateId ha hw' he hd
  · rw [if_pos ht]
    refine .skip ?_
    intro text ha
    exact False.elim (ht ha.1)

/-- The steps of the process, one constructor for each kind. -/
inductive Moved (host : Host) (d : Dispatcher) : Action → Dispatcher → List Shown → Prop
  | read {count : Nat} : d.loop.point = .reading → count ≤ maxCount →
      Moved host d (.loop (.xread count))
        (d.goto d.loop.lastId (.handling (d.log.read d.loop.lastId count))) []
  | readLost : d.loop.point = .reading → Moved host d (.loop .xreadLost) d []
  | batchDone : d.loop.point = .handling [] → Moved host d (.loop .handle) d.prune []
  | consume {id : Nat} {fields : Fields} {rest : List (Nat × Fields)} {d' : Dispatcher} :
      d.loop.point = .handling ((id, fields) :: rest) →
      Announced (d.goto id (.handling rest)) fields (.ok d') →
      Moved host d (.loop .handle) d' [.consumed id fields]
  | crash {id : Nat} {fields : Fields} {rest : List (Nat × Fields)} {e : PyError} :
      d.loop.point = .handling ((id, fields) :: rest) →
      Announced (d.goto id (.handling rest)) fields (.error e) →
      Moved host d (.loop .handle) (d.goto id (.crashed e)) [.consumed id fields]
  | thread {i : Nat} {watch watch' : Watch} {input : Input} {world : World}
      {seen : List Seen} : d.threads[i]? = some watch →
      Moves host d.world watch input world watch' seen →
      Moved host d (.thread i input) { d with world := world, threads := d.threads.set i watch' }
        (seen.map (.thread watch.execution))
  | publish {key : String} {fields : Fields} :
      Moved host d (.publish key fields) { d with world := d.world.xadd key fields } []
  | others {store : Store} :
      Moved host d (.others store) { d with world := { d.world with store := store } } []
  | restart : Moved host d .restart (.start d.world) [.restarted]

section StepMoved
variable {host : Host} {d t : Dispatcher} {a : Action} {o : List Shown}

theorem loopStep_moved {input : LoopInput} (h : loopStep d input = some (t, o)) :
    Moved host d (.loop input) t o := by
  unfold loopStep at h
  split at h
  case h_1 count hp =>
    by_cases hc : count ≤ maxCount
    · rw [if_pos hc] at h
      cases h
      exact .read hp hc
    · rw [if_neg hc] at h
      cases h
  case h_2 hp =>
    cases h
    exact .readLost hp
  case h_3 hp =>
    cases h
    exact .batchDone hp
  case h_4 id fields rest hp =>
    have hc := announce_cases (d.goto id (.handling rest)) fields
    cases ha : announce (d.goto id (.handling rest)) fields with
    | error e =>
      simp only [ha] at h hc
      cases h
      exact .crash hp hc
    | ok d' =>
      simp only [ha] at h hc
      cases h
      exact .consume hp hc
  case h_5 => cases h

theorem threadStep_moved {i : Nat} {input : Input}
    (h : threadStep host d i input = some (t, o)) : Moved host d (.thread i input) t o := by
  unfold threadStep at h
  cases hw : d.threads[i]? with
  | none => simp [hw] at h
  | some watch =>
    simp only [hw] at h
    cases hs : step host d.world watch input with
    | none => simp [hs] at h
    | some r =>
      simp only [hs] at h
      cases h
      exact .thread hw (step_moves hs)

theorem dispatching_moved (h : (dispatching host).step d a = some (t, o)) :
    Moved host d a t o := by
  cases a with
  | loop input => exact loopStep_moved h
  | thread i input => exact threadStep_moved h
  | publish key fields =>
    cases h
    exact .publish
  | others store =>
    cases h
    exact .others
  | restart =>
    cases h
    exact .restart

end StepMoved

end StreamDispatcher
