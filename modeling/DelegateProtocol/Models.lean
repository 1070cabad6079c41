import DelegateProtocol.Lib.KeyedTable
import DelegateProtocol.Lib.Uuid
import DelegateProtocol.Runtime

/-!
# Database models

The tables of the control plane. A `UUIDField` lookup parses the text it is
given; the certificate columns and the details of audit events are left out.
-/

namespace Models

open KeyedTable Runtime Uuid

inductive DelegateStatus where
  | active
  | revoked
  deriving DecidableEq, Repr

structure Delegate where
  id : UUID
  tenantId : String
  name : String
  queue : String
  concurrency : Int
  status : DelegateStatus
  deriving DecidableEq

inductive Status where
  | queued
  | transferring
  | transferFailed
  | running
  | succeeded
  | failed
  deriving DecidableEq, Repr

def terminalStatuses : List Status := [.succeeded, .failed, .transferFailed]

structure Execution where
  executionId : UUID
  tenantId : String
  delegateId : Option UUID
  workspaceFixture : String
  status : Status
  transferId : String
  transferAttempts : Nat
  outputPath : String
  outputChecksum : String
  deriving DecidableEq

def Execution.Terminal (e : Execution) : Prop := e.status ∈ terminalStatuses

instance (e : Execution) : Decidable e.Terminal := inferInstanceAs (Decidable (_ ∈ _))

structure ExecutionLog where
  executionId : UUID
  seq : Nat
  line : String
  deriving DecidableEq

structure AuditEvent where
  eventType : String
  tenantId : String := ""
  delegateId : String := ""
  executionId : String := ""
  deriving DecidableEq

structure DB where
  delegates : Table Delegate.id
  executions : Table Execution.executionId
  logs : List ExecutionLog
  audit : List AuditEvent

def DB.empty : DB := ⟨KeyedTable.empty _, KeyedTable.empty _, [], []⟩

/-- The value a lookup compares a `UUIDField` with. -/
def uuidField (text : String) : Except PyError UUID :=
  match parse text with
  | some u => .ok u
  | none => .error .validationError

/-- `str(delegate_id)` of a nullable foreign key. -/
def strId : Option UUID → String
  | some u => str u
  | none => "None"

def DB.execution (db : DB) (id : UUID) : Option Execution := db.executions.get? id

def DB.delegate (db : DB) (id : UUID) : Option Delegate := db.delegates.get? id

/-- `AuditEvent.objects.create(...)`. -/
def DB.record (db : DB) (event : AuditEvent) : DB := { db with audit := db.audit ++ [event] }

/-- `ExecutionLog.objects.create(...)`. -/
def DB.addLog (db : DB) (log : ExecutionLog) : DB := { db with logs := db.logs ++ [log] }

/-- `Execution.objects.filter(execution_id=id).update(...)`. -/
def DB.updateExecution (db : DB) (id : UUID) (f : Execution → Execution)
    (same : ∀ e, (f e).executionId = e.executionId := by intro e; rfl) : DB :=
  { db with executions := db.executions.update id f same }

/-- `Delegate.objects.create(...)`: refused when the id is taken. -/
def DB.createDelegate (db : DB) (delegate : Delegate) : Option DB :=
  match db.delegates.create delegate with
  | none => none
  | some delegates => some { db with delegates := delegates }

/-- `Execution.objects.create(...)`: refused when the id is taken. -/
def DB.createExecution (db : DB) (execution : Execution) : Option DB :=
  match db.executions.create execution with
  | none => none
  | some executions => some { db with executions := executions }

/-- `delegate.save(update_fields=["status"])`. -/
def DB.saveDelegateStatus (db : DB) (id : UUID) (status : DelegateStatus) : DB :=
  { db with delegates := db.delegates.update id (fun d => { d with status := status }) }

/-- The log rows of one execution. -/
def DB.logsOf (db : DB) (id : UUID) : List ExecutionLog :=
  db.logs.filter (fun log => decide (log.executionId = id))

section Effects
variable (db : DB) (event : AuditEvent) (log : ExecutionLog) (id : UUID)

@[simp] theorem record_execution (k : UUID) : (db.record event).execution k = db.execution k := rfl

@[simp] theorem record_delegate (k : UUID) : (db.record event).delegate k = db.delegate k := rfl

@[simp] theorem record_logsOf (k : UUID) : (db.record event).logsOf k = db.logsOf k := rfl

@[simp] theorem addLog_execution (k : UUID) : (db.addLog log).execution k = db.execution k := rfl

@[simp] theorem addLog_delegate (k : UUID) : (db.addLog log).delegate k = db.delegate k := rfl

theorem addLog_logsOf (h : log.executionId = id) :
    (db.addLog log).logsOf id = db.logsOf id ++ [log] := by
  simp [DB.logsOf, DB.addLog, h]

variable (f : Execution → Execution) (same : ∀ e, (f e).executionId = e.executionId)

@[simp] theorem updateExecution_delegate (k : UUID) :
    (db.updateExecution id f same).delegate k = db.delegate k := rfl

@[simp] theorem updateExecution_logsOf (k : UUID) :
    (db.updateExecution id f same).logsOf k = db.logsOf k := rfl

@[simp] theorem updateExecution_self :
    (db.updateExecution id f same).execution id = (db.execution id).map f :=
  get?_update_self db.executions id f same

theorem updateExecution_of_ne {k : UUID} (h : k ≠ id) :
    (db.updateExecution id f same).execution k = db.execution k :=
  get?_update_of_ne db.executions f same h

theorem createDelegate_some {db db' : DB} {delegate : Delegate}
    (h : db.createDelegate delegate = some db') :
    ∃ delegates, db.delegates.create delegate = some delegates ∧
      db' = { db with delegates := delegates } := by
  unfold DB.createDelegate at h
  cases hc : db.delegates.create delegate with
  | none => simp [hc] at h
  | some delegates =>
    simp only [hc, Option.some.injEq] at h
    exact ⟨delegates, rfl, h.symm⟩

theorem createExecution_some {db db' : DB} {execution : Execution}
    (h : db.createExecution execution = some db') :
    ∃ executions, db.executions.create execution = some executions ∧
      db' = { db with executions := executions } := by
  unfold DB.createExecution at h
  cases hc : db.executions.create execution with
  | none => simp [hc] at h
  | some executions =>
    simp only [hc, Option.some.injEq] at h
    exact ⟨executions, rfl, h.symm⟩

theorem createDelegate_delegate {db db' : DB} {delegate : Delegate}
    (h : db.createDelegate delegate = some db') (k : UUID) :
    db'.delegate k = if delegate.id = k then some delegate else db.delegate k := by
  obtain ⟨delegates, hc, rfl⟩ := createDelegate_some h
  exact get?_create hc k

theorem createDelegate_fresh {db db' : DB} {delegate : Delegate}
    (h : db.createDelegate delegate = some db') : db.delegate delegate.id = none := by
  obtain ⟨delegates, hc, -⟩ := createDelegate_some h
  exact create_fresh hc

theorem createDelegate_execution {db db' : DB} {delegate : Delegate}
    (h : db.createDelegate delegate = some db') (k : UUID) :
    db'.execution k = db.execution k := by
  obtain ⟨delegates, -, rfl⟩ := createDelegate_some h
  rfl

theorem createDelegate_logsOf {db db' : DB} {delegate : Delegate}
    (h : db.createDelegate delegate = some db') (id : UUID) : db'.logsOf id = db.logsOf id := by
  obtain ⟨delegates, -, rfl⟩ := createDelegate_some h
  rfl

theorem createExecution_execution {db db' : DB} {execution : Execution}
    (h : db.createExecution execution = some db') (k : UUID) :
    db'.execution k = if execution.executionId = k then some execution else db.execution k := by
  obtain ⟨executions, hc, rfl⟩ := createExecution_some h
  exact get?_create hc k

theorem createExecution_fresh {db db' : DB} {execution : Execution}
    (h : db.createExecution execution = some db') :
    db.execution execution.executionId = none := by
  obtain ⟨executions, hc, -⟩ := createExecution_some h
  exact create_fresh hc

theorem createExecution_logsOf {db db' : DB} {execution : Execution}
    (h : db.createExecution execution = some db') (id : UUID) : db'.logsOf id = db.logsOf id := by
  obtain ⟨executions, -, rfl⟩ := createExecution_some h
  rfl

theorem saveDelegateStatus_delegate (status : DelegateStatus) (k : UUID) :
    (db.saveDelegateStatus id status).delegate k =
      if k = id then (db.delegate id).map (fun d => { d with status := status })
      else db.delegate k :=
  get?_update db.delegates id (fun d => { d with status := status }) (fun _ => rfl) k

end Effects

end Models
