import DelegateProtocol.Confinement

/-!
# Who changes an execution

Executions are changed by the handlers of their watchers and by nothing else of
the process. Which execution that is, the key of the stream says on which the
message was read, never the message.
-/

namespace ExecutionIntegrity

open AppendLog Handlers Models Runtime StepMachine Streams Uuid Views WatchExecution ReadingOrder
  StreamDispatcher Confinement

/-- The columns of a row that handlers write. -/
def columns (e : Execution) : Status × String × Nat × String × String :=
  (e.status, e.transferId, e.transferAttempts, e.outputPath, e.outputChecksum)

/-- The columns, the log rows and the output file of an execution are as they were. -/
structure Same (host : Host) (store store' : Store) (execution : Named) : Prop where
  row : (store'.db.execution execution.id).map columns =
    (store.db.execution execution.id).map columns
  logs : store'.db.logsOf execution.id = store.db.logsOf execution.id
  file : store'.media (outPath host execution) = store.media (outPath host execution)

/-- The message a step of a watcher handles: the next one of its batch, or the
request whose answer it saves. -/
inductive Handles (watch : Watch) : Input → Message → Prop
  | next {m : Message} {rest : List Message} : watch.point = .handling (m :: rest) →
      Handles watch .handle m
  | answered {request : Message} {grant : Grant} {transferId : String} {rest : List Message} :
      watch.point = .sending request grant transferId [] rest → Handles watch .save request

/-- The step is one of a watcher of the execution, handling a message that was
read from the key, and the key names the execution and its assigned delegate. -/
structure ReadFrom (d : Dispatcher) (a : Action) (execution : Named) (key : String) (m : Message)
    (delegateId : UUID) : Prop where
  handled : ∃ i input watch, a = .thread i input ∧ d.threads[i]? = some watch ∧
    watch.execution.id = execution.id ∧ Handles watch input m
  entry : (d.world.redis key).Entry m.id m.fields
  assigned : ∃ e, d.world.store.db.execution execution.id = some e ∧ e.delegateId = some delegateId
  named : ∃ (spelled : Named) (k : Kind), spelled.id = execution.id ∧
    key = (streamKeys spelled.text (str delegateId)).key k
  below : StartsWith key (delegatePrefix (str delegateId))

theorem osPathJoin_injective {a b c : String} (hb : b.toList.head? ≠ some '/')
    (hc : c.toList.head? ≠ some '/') (h : osPathJoin a b = osPathJoin a c) : b = c := by
  unfold osPathJoin at h
  rw [if_neg hb, if_neg hc] at h
  split at h
  · exact (String.append_right_inj a).mp h
  · exact (String.append_right_inj _).mp h

theorem file_head (execution : Named) :
    (execution.text ++ ".zip").toList.head? ≠ some '/' := by
  intro h
  have hslash : execution.text.toList.head? = some '/' := by
    cases ht : execution.text.toList with
    | nil => exact False.elim (named_ne_empty execution (String.toList_eq_nil_iff.mp ht))
    | cons c cs => simpa [ht] using h
  have names := execution.names
  rw [parse_slash hslash] at names
  cases names

theorem outPath_injective {host : Host} {a b : Named} (h : outPath host a = outPath host b) :
    a = b := by
  have htext := osPathJoin_injective (file_head a) (file_head b) h
  exact named_ext ((String.append_left_inj ".zip").mp htext)

section Watcher
variable {host : Host} {store store' : Store} {watch : Watch} {other : Named}

theorem Same.refl (store : Store) (execution : Named) : Same host store store execution :=
  ⟨rfl, rfl, rfl⟩

theorem addLog_logsOf_of_ne (db : DB) {log : ExecutionLog} {id : UUID} (h : log.executionId ≠ id) :
    (db.addLog log).logsOf id = db.logsOf id := by
  simp [DB.logsOf, DB.addLog, h]

theorem addLog_aside (store : Store) {log : ExecutionLog} (h : log.executionId ≠ other.id) :
    LeavesAlone host other store { store with db := store.db.addLog log } :=
  ⟨rfl, addLog_logsOf_of_ne store.db h, rfl⟩

theorem handleStatus_aside (execution : Named) (fields : Fields) (store : Store)
    (h : other.id ≠ execution.id) :
    LeavesAlone host other store (handleStatus execution fields store) := by
  refine ⟨?_, handleStatus_logsOf other.id, by rw [handleStatus_media]⟩
  unfold handleStatus
  cases newStatus fields with
  | none => rfl
  | some status => simp [updateExecution_of_ne _ _ _ _ h]

theorem acceptOutput_aside (execution : Named) (data : List UInt8) (checksum : String)
    (store : Store) (h : other.id ≠ execution.id) :
    LeavesAlone host other store (acceptOutput host execution data checksum store) := by
  refine ⟨by simp [acceptOutput, updateExecution_of_ne _ _ _ _ h], rfl, ?_⟩
  have hne : outPath host other ≠ outPath host execution := by
    intro he
    exact h (congrArg Named.id (outPath_injective he))
  exact Function.update_of_ne hne _ _

theorem rejectOutput_aside (execution : Named) (store : Store) (h : other.id ≠ execution.id) :
    LeavesAlone host other store (rejectOutput execution store) :=
  ⟨by simp [rejectOutput, updateExecution_of_ne _ _ _ _ h], rfl, rfl⟩

theorem effects_aside {m : Message} {logSeq : Nat} {state : Option OutputState}
    (h : Effects host watch m store store' logSeq state) (hne : other.id ≠ watch.execution.id) :
    LeavesAlone host other store store' := by
  cases h with
  | skip _ _ _ => exact ⟨rfl, rfl, rfl⟩
  | log _ _ => exact addLog_aside store (Ne.symm hne)
  | status _ _ => exact handleStatus_aside watch.execution m.fields store hne
  | waiting _ _ => exact ⟨rfl, rfl, rfl⟩
  | received _ _ _ => exact acceptOutput_aside watch.execution _ _ store hne
  | failed _ _ => exact rejectOutput_aside watch.execution store hne

theorem saveTransfer_aside {fields : Fields} {read : Execution} {transferId : String} {db : DB}
    (h : saveTransfer watch.execution fields read transferId store.db = .ok db)
    (hne : other.id ≠ watch.execution.id) : LeavesAlone host other store { store with db := db } := by
  rw [saveTransfer_db h]
  exact ⟨by simp [updateExecution_of_ne _ _ _ _ hne], rfl, rfl⟩

/-- A watcher leaves every other execution alone. -/
theorem moves_aside {world world' : World} {watch' : Watch} {input : Input} {seen : List Seen}
    (h : Moves host world watch input world' watch' seen) (hne : other.id ≠ watch.execution.id) :
    LeavesAlone host other world.store world'.store := by
  cases h with
  | message _ _ he => exact effects_aside (effect_ok he) hne
  | saved _ hs => exact saveTransfer_aside hs hne
  | _ => exact ⟨rfl, rfl, rfl⟩

theorem Same.of_aside (h : LeavesAlone host other store store') : Same host store store' other :=
  ⟨congrArg _ h.1, h.2.1, h.2.2⟩

/-- A step that handles no message changes nothing, one that does nothing of
another execution. -/
theorem moves_change {world world' : World} {watch' : Watch} {input : Input} {seen : List Seen}
    (h : Moves host world watch input world' watch' seen) {execution : Named}
    (changed : ¬ Same host world.store world'.store execution) :
    execution.id = watch.execution.id ∧ ∃ m, Handles watch input m := by
  constructor
  · by_contra hne
    exact changed (.of_aside (moves_aside h hne))
  · cases h with
    | message hp _ _ => exact ⟨_, .next hp⟩
    | saved hp _ => exact ⟨_, .answered hp⟩
    | _ => exact False.elim (changed ⟨rfl, rfl, rfl⟩)

end Watcher

section Process
variable {host : Host} {isDir : String → Bool} {past : DB → Prop} {d t : Dispatcher}
variable {a : Action} {o : List Shown} {execution : Named}

/-- A thread that changes an execution handles a message it has read from a
stream of the execution and its delegate. -/
theorem thread_readFrom (ho : Owned host past d) {i : Nat} {watch watch' : Watch} {input : Input}
    {world : World} {seen : List Seen} (hget : d.threads[i]? = some watch)
    (hm : Moves host d.world watch input world watch' seen)
    (changed : ¬ Same host d.world.store world.store execution) :
    ∃ key m delegateId, ReadFrom d (.thread i input) execution key m delegateId := by
  obtain ⟨hid, m, handles⟩ := moves_change hm changed
  obtain ⟨tenantId, delegateId, hh⟩ := ho.threads watch (List.mem_of_getElem? hget)
  obtain ⟨e, he, howner⟩ := Option.map_eq_some_iff.mp hh.owned
  obtain ⟨-, assigned⟩ := Prod.mk.inj howner
  have handled : ∃ i' input' watch₀, Action.thread i input = .thread i' input' ∧
      d.threads[i']? = some watch₀ ∧ watch₀.execution.id = execution.id ∧ Handles watch₀ input' m :=
    ⟨i, input, watch, rfl, hget, hid.symm, handles⟩
  have row : ∃ e, d.world.store.db.execution execution.id = some e ∧
      e.delegateId = some delegateId := ⟨e, by rw [hid]; exact he, assigned⟩
  cases handles with
  | next hp =>
    refine ⟨watch.keys.key m.kind, m, delegateId, handled, ?_, row, ?_, ?_⟩
    · apply hh.hand m
      rw [hp]
      exact List.mem_cons_self ..
    · exact ⟨watch.execution, m.kind, hid.symm, by rw [hh.keys]⟩
    · rw [hh.keys]
      exact streamKeys_startsWith _ _ _
  | answered hp =>
    obtain ⟨entitled, -⟩ := hh.sends _ _ _ _ _ hp
    refine ⟨watch.keys.events, m, delegateId, handled, entitled.onStream, row, ?_, ?_⟩
    · exact ⟨watch.execution, .events, hid.symm, entitled.stream⟩
    · rw [entitled.stream]
      exact streamKeys_startsWith _ _ .events

theorem announced_same {fields : Fields} (h : Announced d fields (.ok t)) :
    Same host d.world.store t.world.store execution := by
  cases h with
  | skip _ => exact .refl _ _
  | watch _ _ _ _ =>
    simp only [Dispatcher.watch]
    split
    · exact .refl _ _
    · exact ⟨rfl, rfl, rfl⟩

theorem moved_readFrom (ho : Owned host past d) (h : Moved host d a t o)
    (own : ∀ store, a ≠ .others store)
    (changed : ¬ Same host d.world.store t.world.store execution) :
    ∃ key m delegateId, ReadFrom d a execution key m delegateId := by
  cases h with
  | @consume id fields rest _ _ ha =>
    exact False.elim (changed (@announced_same host (d.goto id (.handling rest)) t execution fields ha))
  | thread hget hm => exact thread_readFrom ho hget hm changed
  | others => exact False.elim (own _ rfl)
  | _ => exact False.elim (changed (.refl _ _))

end Process

section Runs
variable {host : Host} {isDir : String → Bool} {media : String → Option (List UInt8)}
variable {redis : String → Log Fields} {d : Dispatcher} {as : List Action} {o : List Shown}

/-- In every run, a step of the process that changes an execution handles a
message read from a key below the prefix of the execution's delegate, and the
key names the execution. -/
theorem changes_read_from
    (h : Run (dispatching host) (Administered host isDir) (noRows media redis) as d o)
    {a : Action} {t : Dispatcher} {o' : List Shown} (own : ∀ store, a ≠ .others store)
    (hs : (dispatching host).step d a = some (t, o')) (execution : Named)
    (changed : ¬ Same host d.world.store t.world.store execution) :
    ∃ key m delegateId, ReadFrom d a execution key m delegateId :=
  moved_readFrom (owned_run h) (dispatching_moved hs) own changed

/-- A status message on the right stream that claims to come from elsewhere. -/
def forgedIds : Fields :=
  [("type", "STATUS"), ("status", "EXECUTING"),
    ("execution_id", "00000000-0000-0000-0000-000000000002"), ("tenant_id", "tenant-b"),
    ("delegate_id", "00000000-0000-0000-0000-00000000000b")]

def readsForged : List Action :=
  [.publish globalExecutionEventsStream
      [("type", "EXECUTION_STARTED"), ("execution_id", smallExecution.text)],
    .loop (.xread 1), .loop .handle, .publish smallKeys.status forgedIds,
    .thread 0 (.check false), .thread 0 (.xread (fun _ => maxCount))]

theorem readsForged_changes :
    (replay (dispatching smallHost) (.start (smallWorld .queued)) readsForged).any (fun r =>
      ((dispatching smallHost).step r.1 (.thread 0 .handle)).any (fun r' =>
        decide ((r'.1.world.store.db.execution smallExecution.id).map columns ≠
          (r.1.world.store.db.execution smallExecution.id).map columns))) = true := by
  decide +kernel

theorem readsForged_read_from :
    ∃ as d o, Run (dispatching smallHost) (Administered smallHost (fun _ => true))
        (noRows (fun _ => none) (fun _ => Log.empty)) as d o ∧
      ∃ key m delegateId, ReadFrom d (.thread 0 .handle) smallExecution key m delegateId := by
  obtain ⟨d, o, hr, hd⟩ := run_of_replay_test readsForged_changes
  obtain ⟨⟨t, o'⟩, hs, hchanged⟩ := (Option.any_eq_true _ _).mp hd
  have adm := @administered_of_quiet smallHost (fun _ => true) d readsForged o
    (.start (smallWorld .queued)) hr (by simp [readsForged])
  refine ⟨_, d, _, (small_reached (fun _ _ ok => ok)).append adm, ?_⟩
  exact changes_read_from ((small_reached (fun _ _ ok => ok)).append adm) (by simp) hs smallExecution
    (fun same => of_decide_eq_true hchanged same.row)

end Runs

end ExecutionIntegrity
