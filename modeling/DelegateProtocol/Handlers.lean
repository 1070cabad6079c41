import DelegateProtocol.ChunkedTransfer
import DelegateProtocol.Models
import DelegateProtocol.Streams

/-!
# The dispatcher's message handlers

One handler for each kind of message on an execution's streams. A data request
is answered in several database and Redis steps, so its handler is given by
what it decides and what it then publishes and saves.
-/

namespace Handlers

open ChunkedTransfer Models Runtime Uuid

/-- An announced execution id: the text as it was announced, and what it names. -/
structure Named where
  text : String
  id : UUID
  names : parse text = some id

theorem named_ext {a b : Named} (h : a.text = b.text) : a = b := by
  obtain ⟨text, id, names⟩ := a
  obtain ⟨text', id', names'⟩ := b
  obtain rfl : text = text' := h
  obtain rfl := Option.some.inj (names.symm.trans names')
  rfl

theorem named_ne_empty (execution : Named) : execution.text ≠ "" := by
  intro h
  have names := execution.names
  have hnone : parse "" = none := by decide +kernel
  rw [h, hnone] at names
  cases names

/-- Settings of the dispatcher and the files its routines see. -/
structure Host where
  workspaceFixturesDir : String
  mediaRoot : String
  zipDirectoryToBytes : String → Except PyError Payload
  zipSingleFileToBytes : String → String → Except PyError (Option Payload)
  writable : String → Bool

structure Store where
  db : DB
  media : String → Option (List UInt8)

/-- `TASK_SUCCEEDED` is not mapped. -/
def statusMapping : List (String × Status) :=
  [("TRANSFERRING_INPUT", .transferring), ("EXECUTING", .running),
    ("TRANSFER_FAILED", .transferFailed), ("TASK_FAILED", .failed)]

def newStatus (fields : Fields) : Option Status := statusMapping.lookup (fields.getD "status" "")

def handleStatus (execution : Named) (fields : Fields) (store : Store) : Store :=
  let db := store.db.record
    { eventType := "WORKER_STATUS", tenantId := fields.getD "tenant_id" "",
      delegateId := fields.getD "delegate_id" "", executionId := execution.text }
  match newStatus fields with
  | some status =>
    { store with db := db.updateExecution execution.id (fun e => { e with status := status }) }
  | none => { store with db := db }

/-- The foreign key of a log row must name an execution. -/
def handleLog (execution : Named) (fields : Fields) (seq : Nat) (store : Store) :
    Except PyError Store :=
  match store.db.execution execution.id with
  | none => .error .integrityError
  | some _ =>
    .ok { store with db := store.db.addLog ⟨execution.id, seq, fields.getD "message" ""⟩ }

structure OutputState where
  transferId : String
  totalSize : Int
  checksum : String
  buf : List UInt8
  seenSeq : List Int
  deriving DecidableEq

/-- What an output message amounts to. -/
inductive Verdict where
  | waiting (state : Option OutputState)
  | received (data : List UInt8) (checksum : String)
  | validationFailed

def OutputState.Valid (state : OutputState) : Prop :=
  (state.buf.length : Int) = state.totalSize ∧ sha256Bytes state.buf = state.checksum

instance (state : OutputState) : Decidable state.Valid := inferInstanceAs (Decidable (_ ∧ _))

def outputVerdict (fields : Fields) (state : Option OutputState) : Except PyError Verdict :=
  let mtype := fields.get? "type"
  if mtype = some "DATA_START" then
    match readStart fields with
    | .error e => .error e
    | .ok s => .ok (.waiting (some ⟨s.transferId, s.totalSize, s.checksum, [], []⟩))
  else match state with
  | none => .ok (.waiting none)
  | some s =>
    if mtype = some "DATA_CHUNK" ∧ fields.get? "transfer_id" = some s.transferId then
      match readSequenceNo fields with
      | .error e => .error e
      | .ok seq =>
        if seq ∈ s.seenSeq then .ok (.waiting (some s))
        else match readChunk fields with
          | .error e => .error e
          | .ok chunk =>
            .ok (.waiting (some { s with seenSeq := seq :: s.seenSeq, buf := s.buf ++ chunk }))
    else if mtype = some "DATA_END" ∧ fields.get? "transfer_id" = some s.transferId then
      if s.Valid then .ok (.received s.buf s.checksum) else .ok .validationFailed
    else .ok (.waiting (some s))

def outPath (host : Host) (execution : Named) : String :=
  osPathJoin (osPathJoin host.mediaRoot "outputs") (execution.text ++ ".zip")

/-- The file is written first, then the row is updated. -/
def acceptOutput (host : Host) (execution : Named) (data : List UInt8) (checksum : String)
    (store : Store) : Store where
  media := Function.update store.media (outPath host execution) (some data)
  db := (store.db.updateExecution execution.id (fun e =>
    { e with status := .succeeded, outputPath := outPath host execution,
             outputChecksum := checksum })).record
      { eventType := "OUTPUT_RECEIVED", executionId := execution.text }

def rejectOutput (execution : Named) (store : Store) : Store :=
  { store with
    db := (store.db.updateExecution execution.id (fun e => { e with status := .failed })).record
      { eventType := "OUTPUT_VALIDATION_FAILED", executionId := execution.text } }

def handleOutputMessage (host : Host) (execution : Named) (fields : Fields)
    (state : Option OutputState) (store : Store) : Except PyError (Store × Option OutputState) :=
  match outputVerdict fields state with
  | .error e => .error e
  | .ok (.waiting state) => .ok (store, state)
  | .ok (.received data checksum) =>
    if host.writable (outPath host execution) = true then
      .ok (acceptOutput host execution data checksum store, none)
    else .error .osError
  | .ok .validationFailed => .ok (rejectOutput execution store, none)

/-- The five-way check of a request, on the rows the handler has read. -/
def Authorized (delegate : Option Delegate) (execution : Execution) (fields : Fields) : Prop :=
  ∃ d, delegate = some d ∧ d.status = .active ∧ d.tenantId = fields.getD "tenant_id" "" ∧
    execution.tenantId = fields.getD "tenant_id" "" ∧
    strId execution.delegateId = fields.getD "delegate_id" ""

instance (delegate : Option Delegate) (execution : Execution) (fields : Fields) :
    Decidable (Authorized delegate execution fields) :=
  match delegate with
  | none => isFalse (by rintro ⟨d, hd, _⟩; cases hd)
  | some d => decidable_of_iff
      (d.status = .active ∧ d.tenantId = fields.getD "tenant_id" "" ∧
        execution.tenantId = fields.getD "tenant_id" "" ∧
        strId execution.delegateId = fields.getD "delegate_id" "")
      ⟨fun h => ⟨d, rfl, h⟩, fun ⟨_, hd, h⟩ => Option.some.inj hd ▸ h⟩

/-- `Delegate.objects.filter(id=delegate_id).first()`. -/
def requestDelegate (db : DB) (fields : Fields) : Except PyError (Option Delegate) :=
  match uuidField (fields.getD "delegate_id" "") with
  | .error e => .error e
  | .ok id => .ok (db.delegate id)

/-- The archive a request asks for; `none` if it names no file of the fixture. -/
def requestedZip (host : Host) (execution : Execution) (fields : Fields) :
    Except PyError (Option Payload) :=
  let fixtureDir := osPathJoin host.workspaceFixturesDir execution.workspaceFixture
  let requestedFile := fields.getD "requested_file" "*"
  if requestedFile = "*" ∨ requestedFile = "" then
    match host.zipDirectoryToBytes fixtureDir with
    | .error e => .error e
    | .ok zip => .ok (some zip)
  else host.zipSingleFileToBytes fixtureDir requestedFile

/-- The rows and the archive an authorised request is answered with. -/
structure Grant where
  delegate : Delegate
  execution : Execution
  zip : Payload

inductive Decision where
  | rejected
  | fileNotFound
  | granted (grant : Grant)

def decideRequest (host : Host) (db : DB) (execution : Execution) (fields : Fields) :
    Except PyError Decision :=
  match requestDelegate db fields with
  | .error e => .error e
  | .ok none => .ok .rejected
  | .ok (some delegate) =>
    if Authorized (some delegate) execution fields then
      match requestedZip host execution fields with
      | .error e => .error e
      | .ok none => .ok .fileNotFound
      | .ok (some zip) => .ok (.granted ⟨delegate, execution, zip⟩)
    else .ok .rejected

def requestEvent (eventType : String) (execution : Named) (fields : Fields) : AuditEvent where
  eventType := eventType
  tenantId := fields.getD "tenant_id" ""
  delegateId := fields.getD "delegate_id" ""
  executionId := execution.text

/-- The messages `send_bytes` publishes for a granted request. -/
def workspaceMessages (execution : Named) (fields : Fields) (transferId : String) (zip : Payload) :
    List Fields :=
  sendBytes chunkSize
    [("execution_id", execution.text), ("tenant_id", fields.getD "tenant_id" "")] transferId zip

/-- `execution.save(update_fields=...)` of the row read when the handler began;
it fails if the row is gone. -/
def saveTransfer (execution : Named) (fields : Fields) (read : Execution) (transferId : String)
    (db : DB) : Except PyError DB :=
  match db.execution execution.id with
  | none => .error .databaseError
  | some _ => .ok ((db.updateExecution execution.id (fun e =>
      { e with status := .transferring, transferId := transferId,
               transferAttempts := read.transferAttempts + 1 })).record
      (requestEvent "WORKSPACE_TRANSFER_SENT" execution fields))

section Specs
variable {execution : Named} {fields : Fields} {store store' : Store}

/-- Only the status of the row can change, and only to a mapped one. -/
theorem handleStatus_row :
    (handleStatus execution fields store).db.execution execution.id =
      (store.db.execution execution.id).map
        (fun e => { e with status := (newStatus fields).getD e.status }) := by
  unfold handleStatus
  cases newStatus fields with
  | none => simp
  | some status => simp

theorem handleStatus_logsOf (id : UUID) :
    (handleStatus execution fields store).db.logsOf id = store.db.logsOf id := by
  unfold handleStatus
  cases newStatus fields <;> simp

theorem handleStatus_media : (handleStatus execution fields store).media = store.media := by
  unfold handleStatus
  cases newStatus fields <;> rfl

/-- No status message maps to SUCCEEDED. -/
theorem newStatus_ne_succeeded : newStatus fields ≠ some .succeeded := by
  intro h
  have hm : Status.succeeded ∈ statusMapping.map Prod.snd := by
    obtain ⟨pre, post, hl, -⟩ := List.lookup_eq_some_iff.mp h
    rw [hl]
    simp
  revert hm
  decide

theorem handleLog_ok {seq : Nat} (h : handleLog execution fields seq store = .ok store') :
    (store.db.execution execution.id).isSome ∧
      store' = { store with
        db := store.db.addLog ⟨execution.id, seq, fields.getD "message" ""⟩ } := by
  unfold handleLog at h
  cases hr : store.db.execution execution.id with
  | none => simp [hr] at h
  | some e =>
    simp only [hr, Except.ok.injEq] at h
    exact ⟨rfl, h.symm⟩

theorem acceptOutput_row (host : Host) (data : List UInt8) (checksum : String) :
    (acceptOutput host execution data checksum store).db.execution execution.id =
      (store.db.execution execution.id).map
        (fun e => { e with status := .succeeded, outputPath := outPath host execution,
                           outputChecksum := checksum }) := by
  simp [acceptOutput]

theorem rejectOutput_row :
    (rejectOutput execution store).db.execution execution.id =
      (store.db.execution execution.id).map (fun e => { e with status := .failed }) := by
  simp [rejectOutput]

theorem saveTransfer_db {read : Execution} {transferId : String} {db db' : DB}
    (h : saveTransfer execution fields read transferId db = .ok db') :
    db' = (db.updateExecution execution.id (fun e =>
      { e with status := .transferring, transferId := transferId,
               transferAttempts := read.transferAttempts + 1 })).record
      (requestEvent "WORKSPACE_TRANSFER_SENT" execution fields) := by
  unfold saveTransfer at h
  cases hr : db.execution execution.id with
  | none => simp [hr] at h
  | some e =>
    simp only [hr, Except.ok.injEq] at h
    exact h.symm

theorem saveTransfer_ok {read : Execution} {transferId : String} {db db' : DB}
    (h : saveTransfer execution fields read transferId db = .ok db') :
    db'.execution execution.id = (db.execution execution.id).map
        (fun e => { e with status := .transferring, transferId := transferId,
                           transferAttempts := read.transferAttempts + 1 }) ∧
      db'.logsOf execution.id = db.logsOf execution.id := by
  rw [saveTransfer_db h]
  simp

/-- An output is closed by a DATA_END of the transfer being reassembled. -/
def Closes (fields : Fields) (state : OutputState) : Prop :=
  fields.get? "type" = some "DATA_END" ∧ fields.get? "transfer_id" = some state.transferId

instance (fields : Fields) (state : OutputState) : Decidable (Closes fields state) :=
  inferInstanceAs (Decidable (_ ∧ _))

theorem outputVerdict_closes {state : OutputState} (h : Closes fields state) :
    outputVerdict fields (some state) =
      if state.Valid then .ok (.received state.buf state.checksum) else .ok .validationFailed := by
  obtain ⟨ht, hid⟩ := h
  simp [outputVerdict, ht, hid]

/-- A message that closes nothing leaves an output pending, or cannot be read. -/
theorem outputVerdict_open {state : Option OutputState}
    (h : ∀ s, state = some s → ¬ Closes fields s) :
    (∃ e, outputVerdict fields state = .error e) ∨
      ∃ state', outputVerdict fields state = .ok (.waiting state') := by
  unfold outputVerdict
  by_cases ht : fields.get? "type" = some "DATA_START"
  · simp only [if_pos ht]
    cases readStart fields with
    | error e => exact Or.inl ⟨e, rfl⟩
    | ok s => exact Or.inr ⟨_, rfl⟩
  · simp only [if_neg ht]
    cases state with
    | none => exact Or.inr ⟨_, rfl⟩
    | some s =>
      have hn : ¬ (fields.get? "type" = some "DATA_END" ∧
        fields.get? "transfer_id" = some s.transferId) := h s rfl
      simp only [if_neg hn]
      split
      · cases readSequenceNo fields with
        | error e => exact Or.inl ⟨e, rfl⟩
        | ok seq =>
          by_cases hs : seq ∈ s.seenSeq
          · simp only [if_pos hs]
            exact Or.inr ⟨_, rfl⟩
          · simp only [if_neg hs]
            cases readChunk fields with
            | error e => exact Or.inl ⟨e, rfl⟩
            | ok chunk => exact Or.inr ⟨_, rfl⟩
      · exact Or.inr ⟨_, rfl⟩

/-- A message that leaves no output pending closes it. -/
theorem outputVerdict_closed {state : Option OutputState} {verdict : Verdict}
    (h : outputVerdict fields state = .ok verdict) (done : ∀ s, verdict ≠ .waiting s) :
    ∃ s, state = some s ∧ Closes fields s ∧
      verdict = if s.Valid then .received s.buf s.checksum else .validationFailed := by
  by_cases hc : ∃ s, state = some s ∧ Closes fields s
  · obtain ⟨s, rfl, hs⟩ := hc
    rw [outputVerdict_closes hs, ← apply_ite Except.ok] at h
    exact ⟨s, rfl, hs, (Except.ok.inj h).symm⟩
  · rcases outputVerdict_open (fun s hs hcl => hc ⟨s, hs, hcl⟩) with ⟨e, he⟩ | ⟨s', hw⟩
    · rw [he] at h
      cases h
    · rw [hw] at h
      exact False.elim (done s' (Except.ok.inj h).symm)

theorem outputVerdict_received {state : Option OutputState} {data : List UInt8}
    {checksum : String} (h : outputVerdict fields state = .ok (.received data checksum)) :
    ∃ s, state = some s ∧ Closes fields s ∧ s.Valid ∧ data = s.buf ∧ checksum = s.checksum := by
  obtain ⟨s, hs, hc, hv⟩ := outputVerdict_closed h (by simp)
  by_cases valid : s.Valid
  · rw [if_pos valid] at hv
    cases hv
    exact ⟨s, hs, hc, valid, rfl, rfl⟩
  · rw [if_neg valid] at hv
    cases hv

theorem outputVerdict_failed {state : Option OutputState}
    (h : outputVerdict fields state = .ok .validationFailed) :
    ∃ s, state = some s ∧ Closes fields s ∧ ¬ s.Valid := by
  obtain ⟨s, hs, hc, hv⟩ := outputVerdict_closed h (by simp)
  refine ⟨s, hs, hc, fun valid => ?_⟩
  rw [if_pos valid] at hv
  cases hv

theorem decideRequest_granted {host : Host} {db : DB} {read : Execution} {grant : Grant}
    (h : decideRequest host db read fields = .ok (.granted grant)) :
    requestDelegate db fields = .ok (some grant.delegate) ∧ grant.execution = read ∧
      Authorized (some grant.delegate) read fields ∧
      requestedZip host read fields = .ok (some grant.zip) := by
  unfold decideRequest at h
  cases hd : requestDelegate db fields with
  | error e => simp [hd] at h
  | ok found =>
    cases found with
    | none => simp [hd] at h
    | some delegate =>
      simp only [hd] at h
      by_cases ha : Authorized (some delegate) read fields
      · rw [if_pos ha] at h
        cases hz : requestedZip host read fields with
        | error e => simp [hz] at h
        | ok zip =>
          cases zip with
          | none => simp [hz] at h
          | some zip =>
            simp only [hz, Except.ok.injEq, Decision.granted.injEq] at h
            subst h
            exact ⟨rfl, rfl, ha, rfl⟩
      · simp [if_neg ha] at h

end Specs

def smallExecution : Named :=
  ⟨"00000000-0000-0000-0000-000000000001", 1, by decide +kernel⟩

/-- The archive of an empty directory is the end record alone. -/
def threeBytes : Payload := ⟨[1, 2, 3], by decide⟩

def emptyZip : Payload := ⟨[80, 75, 5, 6] ++ List.replicate 18 0, by decide⟩

def smallHost : Host where
  workspaceFixturesDir := "/app/fixtures"
  mediaRoot := "/app/media"
  zipDirectoryToBytes _ := .ok emptyZip
  zipSingleFileToBytes _ name :=
    if Char.ofNat 0 ∈ name.toList then .error .valueError else .ok none
  writable _ := true

end Handlers
