import DelegateProtocol.JsonBodies
import DelegateProtocol.Views
import DelegateProtocol.WatchExecution

/-!
# One execution and its two stores

`create_execution` from the first check to the response, for any JSON object.
The row is inserted before the task is sent, and nothing takes it back. What the
file system, the database and the broker answer comes from outside.
-/

namespace ExecutionCreation

open Handlers JsonBodies KeyedTable Models Runtime Streams Uuid WatchExecution

/-- A message of the broker, under the prefix of its connection. -/
structure BrokerTask where
  keyprefix : String
  queue : String
  executionId : String
  fileName : Json

structure Stores where
  db : DB
  broker : List BrokerTask

/-- What `send_task` comes to. Its publish is retried: the broker may have taken the
task more than once, and it may have taken it although the call raises. -/
inductive Sending where
  | taken (again : Nat)
  | raised (puts : Nat)

/-- How often the broker has taken the task. -/
def Sending.puts : Sending → Nat
  | .taken again => again + 1
  | .raised puts => puts

/-- What is not decided by the request and the stores. -/
structure Outside where
  selects : Bool
  isDir : String → Bool
  executionId : UUID
  inserts : Bool
  sending : Sending
  audits : Bool

inductive Rejection where
  | missingFields (missing : List String)
  | unknownDelegate
  | wrongTenant
  | notActive
  | fixtureNotFound (path : String)
  deriving DecidableEq

def Rejection.status : Rejection → Nat
  | .missingFields _ => 400
  | .unknownDelegate => 404
  | .wrongTenant => 403
  | .notActive => 403
  | .fixtureNotFound _ => 400

def Rejection.error : Rejection → String
  | .missingFields missing =>
    "missing fields: [" ++ ", ".intercalate (missing.map (fun f => "'" ++ f ++ "'")) ++ "]"
  | .unknownDelegate => "unknown delegate_id"
  | .wrongTenant => "delegate does not belong to tenant"
  | .notActive => "delegate is not active"
  | .fixtureNotFound path => "workspace fixture not found: " ++ path

inductive Answer where
  | created (executionId : UUID)
  | rejected (why : Rejection)
  | raised

def required : List String := ["tenant_id", "delegate_id", "workspace_fixture"]

/-- What the checks come to: the delegate, with the tenant and the fixture as texts. -/
inductive Check where
  | passed (delegate : Delegate) (tenantId fixture : String)
  | rejected (why : Rejection)
  | raised

section Creating
variable (host : Host) (o : Outside) (body : Body)

def check (db : DB) : Check :=
  if missing required body ≠ [] then .rejected (.missingFields (missing required body))
  else
    match (body.getD "delegate_id" .null).toUuid, o.selects with
    | none, _ => .raised
    | _, false => .raised
    | some id, true =>
      match db.delegate id with
      | none => .rejected .unknownDelegate
      | some delegate =>
        if (body.getD "tenant_id" .null).isText delegate.tenantId = false then
          .rejected .wrongTenant
        else if delegate.status ≠ .active then .rejected .notActive
        else
          match body.getD "workspace_fixture" .null with
          | .str fixture =>
            if o.isDir (osPathJoin host.workspaceFixturesDir fixture) = true then
              .passed delegate delegate.tenantId fixture
            else .rejected (.fixtureNotFound (osPathJoin host.workspaceFixturesDir fixture))
          | _ => .raised

/-- `Execution.objects.create(...)`. -/
def insertRow (db : DB) (delegate : Delegate) (tenantId fixture : String) : Option DB :=
  if o.inserts = true then
    db.createExecution
      { executionId := o.executionId
        tenantId := tenantId
        delegateId := some delegate.id
        workspaceFixture := fixture
        status := .queued
        transferId := ""
        transferAttempts := 0
        outputPath := ""
        outputChecksum := "" }
  else none

/-- `send_execute_task(...)` through the client of the delegate. -/
def executeTask (delegate : Delegate) : BrokerTask where
  keyprefix := delegatePrefix (str delegate.id)
  queue := delegate.queue
  executionId := str o.executionId
  fileName := body.getD "file_name" (.str "*")

def take (s : Stores) (delegate : Delegate) : Stores :=
  { s with broker := s.broker ++ List.replicate o.sending.puts (executeTask o body delegate) }

/-- The last audit row, and the response. -/
def finish (s : Stores) (delegate : Delegate) (tenantId : String) : Answer × Stores :=
  let event : AuditEvent :=
    { eventType := "EXECUTION_CREATED", tenantId := tenantId, delegateId := str delegate.id,
      executionId := str o.executionId }
  if o.audits = true then (.created o.executionId, { s with db := s.db.record event })
  else (.raised, s)

def createExecution (s : Stores) : Answer × Stores :=
  match check host o body s.db with
  | .rejected why => (.rejected why, s)
  | .raised => (.raised, s)
  | .passed delegate tenantId fixture =>
    match insertRow o s.db delegate tenantId fixture with
    | none => (.raised, s)
    | some db =>
      match o.sending with
      | .taken _ => finish o (take o body { s with db := db } delegate) delegate tenantId
      | .raised _ => (.raised, take o body { s with db := db } delegate)

end Creating

/-- The executions and the tasks are what they were. -/
structure Unchanged (s t : Stores) : Prop where
  executions : t.db.executions = s.db.executions
  broker : t.broker = s.broker

/-- There is a queued row, and a task for it in the keyspace of its delegate. -/
def Complete (id : UUID) (t : Stores) : Prop :=
  ∃ e delegateId, t.db.execution id = some e ∧ e.status = .queued ∧ e.delegateId = some delegateId ∧
    ∃ task ∈ t.broker, task.executionId = str id ∧ task.keyprefix = delegatePrefix (str delegateId)

def AllOrNothing (s : Stores) : Answer × Stores → Prop
  | (.created id, t) => Complete id t
  | (_, t) => Unchanged s t

/-- The checks pass and the row can be inserted. -/
def Insertable (host : Host) (o : Outside) (body : Body) (s : Stores) : Prop :=
  (∃ delegate tenantId fixture, check host o body s.db = .passed delegate tenantId fixture) ∧
    o.inserts = true ∧ s.db.execution o.executionId = none

section Steps
variable {host : Host} {o : Outside} {body : Body} {s : Stores} {db : DB} {delegate : Delegate}
variable {tenantId fixture : String}

/-- On bodies of texts these are the checks the other models have of this view. -/
theorem check_texts {fields : Fields} (selects : o.selects = true) :
    (∃ tenantId fixture, check host o (texts fields) s.db = .passed delegate tenantId fixture) ↔
      Views.checkExecution host o.isDir s.db fields = .ok (.ok delegate) := by
  unfold check Views.checkExecution
  by_cases hm : missing required (texts fields) = []
  · have hviews := Views.missing_texts.mp hm
    have present {f : String} (hf : f ∈ required) : fields.getD f "" ≠ "" :=
      Views.not_missing hviews hf
    have htenant := getD_texts (present (f := "tenant_id") (by decide))
    have hdelegate := getD_texts (present (f := "delegate_id") (by decide))
    have hfixture := getD_texts (present (f := "workspace_fixture") (by decide))
    have hviews' : ¬ Views.Missing ["tenant_id", "delegate_id", "workspace_fixture"] fields := hviews
    rw [if_neg (not_not.mpr hm), if_neg hviews', htenant, hdelegate, hfixture, selects]
    simp only [Json.toUuid, uuidField]
    cases Uuid.parse (fields.getD "delegate_id" "") with
    | none => simp
    | some id =>
      simp only
      cases s.db.delegate id with
      | none => simp
      | some d =>
        simp only [Json.isText]
        by_cases ht : fields.getD "tenant_id" "" = d.tenantId
        · by_cases hs : d.status = .active
          · by_cases hd : o.isDir
              (osPathJoin host.workspaceFixturesDir (fields.getD "workspace_fixture" "")) = true
            · simp [ht, hs, hd]
            · simp [ht, hs, hd]
          · simp [ht, hs]
        · simp [ht, Ne.symm ht]
  · have hviews : Views.Missing ["tenant_id", "delegate_id", "workspace_fixture"] fields :=
      not_not.mp (fun h => hm (Views.missing_texts.mpr h))
    rw [if_pos hm, if_pos hviews]
    simp

theorem Unchanged.refl (s : Stores) : Unchanged s s := ⟨rfl, rfl⟩

theorem insertRow_some (h : insertRow o s.db delegate tenantId fixture = some db) :
    o.inserts = true ∧ s.db.execution o.executionId = none ∧ ∃ e, e.status = .queued ∧
      e.delegateId = some delegate.id ∧ db.execution o.executionId = some e := by
  unfold insertRow at h
  by_cases hi : o.inserts = true
  · rw [if_pos hi] at h
    exact ⟨hi, createExecution_fresh h, _, rfl, rfl,
      (createExecution_execution h _).trans (if_pos rfl)⟩
  · rw [if_neg hi] at h
    cases h

theorem insertRow_none (h : insertRow o s.db delegate tenantId fixture = none) :
    ¬ (o.inserts = true ∧ s.db.execution o.executionId = none) := by
  rintro ⟨hi, hfresh⟩
  have hfree : o.executionId ∉ s.db.executions.rows.map Execution.executionId := by
    intro hmem
    obtain ⟨e, he, hid⟩ := List.mem_map.mp hmem
    exact get?_eq_none_iff.mp hfresh e he hid
  simp [insertRow, hi, DB.createExecution, Table.create, hfree] at h

/-- What a row that has been inserted and its task leave. -/
theorem sent_iff (hrow : insertRow o s.db delegate tenantId fixture = some db) :
    AllOrNothing s
        (match o.sending with
        | .taken _ => finish o (take o body { s with db := db } delegate) delegate tenantId
        | .raised _ => (.raised, take o body { s with db := db } delegate)) ↔
      (∃ again, o.sending = .taken again) ∧ o.audits = true := by
  obtain ⟨-, hfresh, e, hqueued, hdelegate, he⟩ := insertRow_some hrow
  have changed {broker : List BrokerTask} : ¬ Unchanged s ⟨db, broker⟩ := by
    intro h
    rw [DB.execution, h.executions] at he
    rw [DB.execution, he] at hfresh
    cases hfresh
  cases hs : o.sending with
  | raised puts => exact iff_of_false changed (by simp)
  | taken again =>
    simp only [finish]
    by_cases ha : o.audits = true
    · rw [if_pos ha]
      refine iff_of_true ⟨e, delegate.id, he, hqueued, hdelegate, executeTask o body delegate, ?_,
        rfl, rfl⟩ ⟨⟨again, rfl⟩, ha⟩
      simp [take, hs, Sending.puts]
    · rw [if_neg ha]
      exact iff_of_false changed (fun h => ha h.2)

/-- Creating an execution is all or nothing exactly if, once the row can be
inserted, `send_task` returns and the audit row can be written. -/
theorem createExecution_iff (host : Host) (o : Outside) (body : Body) (s : Stores) :
    AllOrNothing s (createExecution host o body s) ↔
      (Insertable host o body s →
        (∃ again, o.sending = .taken again) ∧ o.audits = true) := by
  unfold createExecution
  cases hc : check host o body s.db with
  | rejected why =>
    refine iff_of_true (.refl s) ?_
    rintro ⟨⟨_, _, _, hpassed⟩, -⟩
    rw [hc] at hpassed
    cases hpassed
  | raised =>
    refine iff_of_true (.refl s) ?_
    rintro ⟨⟨_, _, _, hpassed⟩, -⟩
    rw [hc] at hpassed
    cases hpassed
  | passed delegate tenantId fixture =>
    simp only
    cases hrow : insertRow o s.db delegate tenantId fixture with
    | none => exact iff_of_true (.refl s) (fun h => absurd h.2 (insertRow_none hrow))
    | some db =>
      obtain ⟨hi, hfresh, -⟩ := insertRow_some hrow
      have hpassed : Insertable host o body s := ⟨⟨_, _, _, hc⟩, hi, hfresh⟩
      exact (sent_iff hrow).trans ⟨fun h _ => h, fun h => h hpassed⟩

end Steps

def goodBody : Body :=
  [("tenant_id", .str smallDelegate.tenantId), ("delegate_id", .str (str smallDelegate.id)),
    ("workspace_fixture", .str "empty")]

def oneDelegate : Stores where
  db := { DB.empty with delegates := KeyedTable.Table.put (KeyedTable.empty _) smallDelegate }
  broker := []

def brokerDown : Outside where
  selects := true
  isDir _ := true
  executionId := 1
  inserts := true
  sending := .raised 0
  audits := true

/-- The request fails, and the queued row stays. -/
theorem brokerDown_leaves_row : ¬ AllOrNothing oneDelegate
    (createExecution smallHost brokerDown goodBody oneDelegate) := by
  intro h
  have executions := congrArg (fun t => t.rows.length) (Unchanged.executions h)
  revert executions
  decide +kernel

end ExecutionCreation
