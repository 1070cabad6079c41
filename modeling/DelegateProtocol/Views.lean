import DelegateProtocol.Handlers
import DelegateProtocol.JsonBodies

/-!
# The HTTP views

What the views of the control plane read and write in the database. Bodies are
JSON objects of text fields; certificates, tokens and the broker are left out.
-/

namespace Views

open Handlers Models Runtime Uuid

/-- A refusal the caller gets as a response. -/
inductive Refusal where
  | missingFields
  | unknownDelegate
  | wrongTenant
  | notActive
  | fixtureNotFound
  deriving DecidableEq

/-- `[f for f in required if not body.get(f)]` is not empty. -/
def Missing (required : List String) (body : Fields) : Prop :=
  ∃ f ∈ required, body.getD f "" = ""

instance (required : List String) (body : Fields) : Decidable (Missing required body) :=
  inferInstanceAs (Decidable (∃ f ∈ required, _))

theorem missing_texts {required : List String} {fields : Fields} :
    JsonBodies.missing required (JsonBodies.texts fields) = [] ↔ ¬ Missing required fields := by
  simp [JsonBodies.missing, Missing, JsonBodies.truthy_texts]

/-- The checks of `create_execution`, up to the row it inserts. -/
def checkExecution (host : Host) (isDir : String → Bool) (db : DB) (body : Fields) :
    Except PyError (Except Refusal Delegate) :=
  if Missing ["tenant_id", "delegate_id", "workspace_fixture"] body then .ok (.error .missingFields)
  else match uuidField (body.getD "delegate_id" "") with
  | .error e => .error e
  | .ok id =>
    match db.delegate id with
    | none => .ok (.error .unknownDelegate)
    | some delegate =>
      if delegate.tenantId ≠ body.getD "tenant_id" "" then .ok (.error .wrongTenant)
      else if delegate.status ≠ .active then .ok (.error .notActive)
      else if isDir (osPathJoin host.workspaceFixturesDir (body.getD "workspace_fixture" "")) = true
      then .ok (.ok delegate)
      else .ok (.error .fixtureNotFound)

/-- The row it then inserts, under a fresh id. -/
def newExecution (body : Fields) (delegate : Delegate) (executionId : UUID) : Execution where
  executionId := executionId
  tenantId := body.getD "tenant_id" ""
  delegateId := some delegate.id
  workspaceFixture := body.getD "workspace_fixture" ""
  status := .queued
  transferId := ""
  transferAttempts := 0
  outputPath := ""
  outputChecksum := ""

def newDelegate (body : Fields) (concurrency : Int) (delegateId : UUID) : Delegate where
  id := delegateId
  tenantId := body.getD "tenant_id" ""
  name := body.getD "name" ""
  queue := body.getD "queue" "default"
  concurrency := concurrency
  status := .active

/-- The ways the views change the database; the checks of `create_execution` may
have read an earlier one. -/
inductive ViewWrite (host : Host) (isDir : String → Bool) (db : DB) : DB → Prop
  | register {body : Fields} {concurrency : Int} {delegateId : UUID} {db' : DB} :
      ¬ Missing ["token", "tenant_id", "name", "csr_pem"] body →
      db.createDelegate (newDelegate body concurrency delegateId) = some db' →
      ViewWrite host isDir db db'
  | revoke {id : UUID} : ViewWrite host isDir db (db.saveDelegateStatus id .revoked)
  | create {before : DB} {body : Fields} {delegate : Delegate} {executionId : UUID} {db' : DB} :
      checkExecution host isDir before body = .ok (.ok delegate) →
      db.createExecution (newExecution body delegate executionId) = some db' →
      ViewWrite host isDir db db'
  | audit {event : AuditEvent} : ViewWrite host isDir db (db.record event)

section Specs
variable {host : Host} {isDir : String → Bool} {db db' : DB}

theorem not_missing {required : List String} {body : Fields} (h : ¬ Missing required body)
    {f : String} (hf : f ∈ required) : body.getD f "" ≠ "" :=
  fun he => h ⟨f, hf, he⟩

theorem checkExecution_ok {body : Fields} {delegate : Delegate}
    (h : checkExecution host isDir db body = .ok (.ok delegate)) :
    body.getD "tenant_id" "" ≠ "" ∧ delegate.tenantId = body.getD "tenant_id" "" ∧
      delegate.status = .active := by
  unfold checkExecution at h
  by_cases hm : Missing ["tenant_id", "delegate_id", "workspace_fixture"] body
  · simp [hm] at h
  · rw [if_neg hm] at h
    cases hu : uuidField (body.getD "delegate_id" "") with
    | error e => simp [hu] at h
    | ok id =>
      cases hd : db.delegate id with
      | none => simp [hu, hd] at h
      | some d =>
        simp only [hu, hd] at h
        by_cases ht : d.tenantId = body.getD "tenant_id" ""
        · by_cases hs : d.status = .active
          · rw [if_neg (not_not.mpr ht), if_neg (not_not.mpr hs)] at h
            split at h
            · cases h
              exact ⟨not_missing hm (by simp), ht, hs⟩
            · cases h
          · simp [ht, hs] at h
        · simp [ht] at h

/-- The views do not write log rows. -/
theorem viewWrite_logsOf (h : ViewWrite host isDir db db') (id : UUID) :
    db'.logsOf id = db.logsOf id := by
  cases h with
  | register _ hc => exact createDelegate_logsOf hc id
  | revoke => rfl
  | create _ hc => exact createExecution_logsOf hc id
  | audit => rfl

/-- The views leave the executions that exist alone. -/
theorem viewWrite_execution (h : ViewWrite host isDir db db') {id : UUID} {e : Execution}
    (he : db.execution id = some e) : db'.execution id = some e := by
  cases h with
  | register _ hc => rw [createDelegate_execution hc, he]
  | revoke => exact he
  | create _ hc =>
    rw [createExecution_execution hc, if_neg, he]
    rintro rfl
    have fresh := createExecution_fresh hc
    rw [he] at fresh
    cases fresh
  | audit => exact he

/-- An execution a view creates has a tenant and is assigned to a delegate. -/
theorem viewWrite_assigned (h : ViewWrite host isDir db db') {id : UUID} {e : Execution}
    (he : db'.execution id = some e) :
    db.execution id = some e ∨ e.tenantId ≠ "" ∧ e.delegateId ≠ none := by
  cases h with
  | register _ hc =>
    rw [createDelegate_execution hc] at he
    exact Or.inl he
  | revoke => exact Or.inl he
  | @create _ body delegate executionId _ hcheck hc =>
    rw [createExecution_execution hc] at he
    split at he
    · cases he
      exact Or.inr ⟨(checkExecution_ok hcheck).1, by simp [newExecution]⟩
    · exact Or.inl he
  | audit => exact Or.inl he

end Specs

end Views
