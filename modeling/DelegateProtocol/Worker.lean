import DelegateProtocol.ChunkedTransfer
import DelegateProtocol.Lib.AppendLog
import DelegateProtocol.Streams

/-!
# One delivery of a task

What a worker process does with a task it has been handed. The environment is
prepared in a signal handler: the execution is announced and the workspace is
requested, up to `TRANSFER_MAX_RETRIES` times. Then the body runs the task and
sends its output. Clocks, directories, archives and the lines the task logs come
from outside; Redis does not fail.
-/

namespace Worker

open AppendLog ChunkedTransfer Runtime Streams

/-- The arguments of the task, the identity of the worker and its settings. -/
structure Task where
  executionId : String
  fileName : String
  tenantId : String
  delegateId : String
  waitTimeout : ℚ
  maxRetries : Nat
  tempWorkspaceDir : String

def Task.keys (task : Task) : Keys := streamKeys task.executionId task.delegateId

def Task.baseFields (task : Task) : Fields :=
  [("execution_id", task.executionId), ("tenant_id", task.tenantId),
    ("delegate_id", task.delegateId)]

def logMessage (baseFields : Fields) (message : String) : Fields :=
  baseFields ++ [("type", "LOG"), ("message", message)]

def statusMessage (baseFields : Fields) (status : String) : Fields :=
  baseFields ++ [("type", "STATUS"), ("status", status)]

def dataRequest (baseFields : Fields) (requestedFile : String) : Fields :=
  baseFields ++ [("type", "DATA_REQUEST"), ("requested_file", requestedFile)]

def Task.announcement (task : Task) : Fields :=
  [("type", "EXECUTION_STARTED"), ("execution_id", task.executionId),
    ("events_stream", task.keys.events), ("log_stream", task.keys.log),
    ("status_stream", task.keys.status), ("output_stream", task.keys.output)]

inductive Outcome where
  | notIdentified
  | notPrepared
  | transferFailed
  | notRun
  | failed
  | succeeded
  deriving DecidableEq

/-- Where the process stands, with its local variables at that point. -/
inductive Stage where
  | identifying
  | announcing
  | transferring
  | makingWorkspace
  | requesting (attempt lastId : Nat)
  | requested (attempt lastId : Nat)
  | waiting (attempt lastId : Nat)
  | receiving (attempt lastId : Nat) (r : Receiving)
  | retrying (attempt lastId : Nat) (why : Failure)
  | givingUp
  | gaveUp
  | extracting (data : List UInt8) (transferId : Option String)
  | extracted (size : Nat) (transferId : Option String)
  | mirroring
  | opening
  | executing
  | running (lines : List String)
  | sending (zip : Payload) (transferId : String) (pending : List Fields)
  | succeeding
  | failing (exc : String)
  | failed
  | ended (outcome : Outcome)

/-- One command to Redis, or what local work comes to. -/
inductive Work where
  | prepare (ok : Bool)
  | publish
  | start (now : ℚ)
  | poll (now : ℚ) (count : Nat) (clock : Nat → ℚ)
  | mirrored (path : String)
  | mirrorFailed (exc : String)
  | execute (lines : List String)
  | zip (zip : Payload) (transferId : String)
  | raise (exc : String)

/-- What a delivery does that others can see, and what it comes to know. -/
inductive Deed where
  | announce (fields : Fields)
  | publish (k : Kind) (fields : Fields)
  | attemptFailed (attempt : Nat) (why : Failure)
  | built (zip : Payload)

def receiveCount : Nat := 100

/-- The loop over the attempts. -/
def Task.attempt (task : Task) (attempt lastId : Nat) : Stage :=
  if attempt ≤ task.maxRetries then .requesting attempt lastId else .givingUp

def Task.log (task : Task) (message : String) : Deed :=
  .publish .log (logMessage task.baseFields message)

def Task.status (task : Task) (status : String) : Deed :=
  .publish .status (statusMessage task.baseFields status)

/-- What the end of `receive_once` leads to. -/
def received (attempt : Nat) : Ending → Stage × List Deed
  | .returned data _ transferId => (.extracting data transferId, [])
  | .transferFailed why lastId => (.retrying attempt lastId why, [.attemptFailed attempt why])
  | .raised _ => (.ended .notPrepared, [])

/-- One round of the loop of `receive_once`. -/
def poll (task : Task) (events : Log Fields) (attempt lastId : Nat) (r : Receiving) (now : ℚ)
    (count : Nat) (clock : Nat → ℚ) : Stage × List Deed :=
  if r.deadline - now ≤ 0 then received attempt (.transferFailed .timeout lastId)
  else match receiveBatch task.waitTimeout
      ((events.read lastId count).map (fun entry => ⟨entry.1, entry.2, clock entry.1⟩)) lastId r with
    | .error ending => received attempt ending
    | .ok (lastId, r) => (.receiving attempt lastId r, [])

def step (task : Task) (events : Log Fields) (stage : Stage) (work : Work) :
    Option (Stage × List Deed) :=
  match stage, work with
  | .identifying, .prepare ok =>
    some (if ok = true ∧ task.executionId ≠ "" then .announcing else .ended .notIdentified, [])
  | .announcing, .publish => some (.transferring, [.announce task.announcement])
  | .transferring, .publish => some (.makingWorkspace, [task.status "TRANSFERRING_INPUT"])
  | .makingWorkspace, .prepare ok =>
    some (if ok = true then task.attempt 1 0 else .ended .notPrepared, [])
  | .requesting attempt lastId, .publish =>
    some (.requested attempt lastId, [.publish .events (dataRequest task.baseFields task.fileName)])
  | .requested attempt lastId, .publish =>
    some (.waiting attempt lastId,
      [task.log ("DATA_REQUEST sent (attempt " ++ PyInt.str attempt ++ "/" ++
        PyInt.str task.maxRetries ++ ")")])
  | .waiting attempt lastId, .start now =>
    some (.receiving attempt lastId (.begin task.waitTimeout now), [])
  | .receiving attempt lastId r, .poll now count clock =>
    if count ≤ receiveCount then some (poll task events attempt lastId r now count clock) else none
  | .retrying attempt lastId why, .publish =>
    some (task.attempt (attempt + 1) lastId,
      [task.log ("transfer attempt " ++ PyInt.str attempt ++ " failed: " ++ why.message ++
        "; retrying from scratch")])
  | .givingUp, .publish => some (.gaveUp, [task.status "TRANSFER_FAILED"])
  | .gaveUp, .publish =>
    some (.ended .transferFailed,
      [task.log "workspace transfer failed after max retries; giving up"])
  | .extracting data transferId, .prepare ok =>
    some (if ok = true then .extracted data.length transferId else .ended .notPrepared, [])
  | .extracted size transferId, .publish =>
    some (.mirroring, [task.log ("workspace transfer " ++ transferId.getD "None" ++
      " validated and extracted (" ++ PyInt.str size ++ " bytes)")])
  | .mirroring, .mirrored path =>
    some (.opening, [task.log ("mirrored workspace to " ++ path ++
      " for inspection (not cleaned up automatically)")])
  | .mirroring, .mirrorFailed exc =>
    some (.opening, [task.log ("could not mirror workspace to " ++
      osPathJoin task.tempWorkspaceDir task.executionId ++ ": " ++ exc)])
  | .opening, .prepare ok => some (if ok = true then .executing else .ended .notRun, [])
  | .executing, .execute lines => some (.running lines, [task.status "EXECUTING"])
  | .running (line :: lines), .publish => some (.running lines, [task.log line])
  | .running _, .raise exc => some (.failing exc, [])
  | .running [], .zip zip transferId =>
    some (.sending zip transferId (sendBytes chunkSize task.baseFields transferId zip), [.built zip])
  | .sending zip transferId (m :: pending), .publish =>
    some (.sending zip transferId pending, [.publish .output m])
  | .sending zip transferId [], .publish =>
    some (.succeeding, [task.log ("output transfer " ++ transferId ++ " sent (" ++
      PyInt.str zip.data.length ++ " bytes)")])
  | .succeeding, .publish => some (.ended .succeeded, [task.status "TASK_SUCCEEDED"])
  | .failing exc, .publish => some (.failed, [task.log ("task failed with exception: " ++ exc)])
  | .failed, .publish => some (.ended .failed, [task.status "TASK_FAILED"])
  | _, _ => none

/-- The steps of a delivery, those that only log told apart by nothing else. -/
inductive Does (task : Task) : Stage → Stage → List Deed → Prop
  | identified : Does task .identifying .announcing []
  | notIdentified : Does task .identifying (.ended .notIdentified) []
  | announced : Does task .announcing .transferring [.announce task.announcement]
  | transferring : Does task .transferring .makingWorkspace [task.status "TRANSFERRING_INPUT"]
  | madeWorkspace : Does task .makingWorkspace (task.attempt 1 0) []
  | noWorkspace : Does task .makingWorkspace (.ended .notPrepared) []
  | requested {attempt lastId : Nat} (fields : Fields) :
      Does task (.requesting attempt lastId) (.requested attempt lastId) [.publish .events fields]
  | logged {attempt lastId : Nat} (line : String) :
      Does task (.requested attempt lastId) (.waiting attempt lastId) [task.log line]
  | started {attempt lastId : Nat} {r : Receiving} :
      Does task (.waiting attempt lastId) (.receiving attempt lastId r) []
  | polled {attempt lastId lastId' : Nat} {r r' : Receiving} :
      Does task (.receiving attempt lastId r) (.receiving attempt lastId' r') []
  | received {attempt lastId : Nat} {r : Receiving} {data : List UInt8}
      {transferId : Option String} :
      Does task (.receiving attempt lastId r) (.extracting data transferId) []
  | attemptFailed {attempt lastId lastId' : Nat} {r : Receiving} {why : Failure} :
      Does task (.receiving attempt lastId r) (.retrying attempt lastId' why)
        [.attemptFailed attempt why]
  | receiverRaised {attempt lastId : Nat} {r : Receiving} :
      Does task (.receiving attempt lastId r) (.ended .notPrepared) []
  | retried {attempt lastId : Nat} {why : Failure} (line : String) :
      Does task (.retrying attempt lastId why) (task.attempt (attempt + 1) lastId) [task.log line]
  | gaveUp : Does task .givingUp .gaveUp [task.status "TRANSFER_FAILED"]
  | transferFailed (line : String) : Does task .gaveUp (.ended .transferFailed) [task.log line]
  | extracted {data : List UInt8} {size : Nat} {transferId : Option String} :
      Does task (.extracting data transferId) (.extracted size transferId) []
  | notExtracted {data : List UInt8} {transferId : Option String} :
      Does task (.extracting data transferId) (.ended .notPrepared) []
  | validated {size : Nat} {transferId : Option String} (line : String) :
      Does task (.extracted size transferId) .mirroring [task.log line]
  | mirrored (line : String) : Does task .mirroring .opening [task.log line]
  | opened : Does task .opening .executing []
  | notRun : Does task .opening (.ended .notRun) []
  | executing {lines : List String} :
      Does task .executing (.running lines) [task.status "EXECUTING"]
  | ran {lines lines' : List String} (line : String) :
      Does task (.running lines) (.running lines') [task.log line]
  | raised {lines : List String} {exc : String} : Does task (.running lines) (.failing exc) []
  | zipped {zip : Payload} {transferId : String} :
      Does task (.running []) (.sending zip transferId
        (sendBytes chunkSize task.baseFields transferId zip)) [.built zip]
  | sent {zip : Payload} {transferId : String} {m : Fields} {pending : List Fields} :
      Does task (.sending zip transferId (m :: pending)) (.sending zip transferId pending)
        [.publish .output m]
  | outputSent {zip : Payload} {transferId : String} (line : String) :
      Does task (.sending zip transferId []) .succeeding [task.log line]
  | succeeded : Does task .succeeding (.ended .succeeded) [task.status "TASK_SUCCEEDED"]
  | failing {exc : String} (line : String) : Does task (.failing exc) .failed [task.log line]
  | failed : Does task .failed (.ended .failed) [task.status "TASK_FAILED"]

section Steps
variable {task : Task} {events : Log Fields} {stage stage' : Stage} {work : Work}
variable {deeds : List Deed}

theorem received_does {attempt lastId : Nat} {r : Receiving} (ending : Ending) :
    Does task (.receiving attempt lastId r) (received attempt ending).1
      (received attempt ending).2 := by
  cases ending with
  | returned data lastId' transferId => exact .received
  | transferFailed why lastId' => exact .attemptFailed
  | raised e => exact .receiverRaised

theorem poll_does {attempt lastId : Nat} {r : Receiving} (now : ℚ) (count : Nat)
    (clock : Nat → ℚ) : Does task (.receiving attempt lastId r)
      (poll task events attempt lastId r now count clock).1
      (poll task events attempt lastId r now count clock).2 := by
  unfold poll
  split
  · exact received_does _
  · split
    · exact received_does _
    · exact .polled

theorem step_does (h : step task events stage work = some (stage', deeds)) :
    Does task stage stage' deeds := by
  unfold step at h
  split at h
  case h_1 =>
    split at h
    · cases h
      exact .identified
    · cases h
      exact .notIdentified
  case h_2 => cases h; exact .announced
  case h_3 => cases h; exact .transferring
  case h_4 =>
    split at h
    · cases h
      exact .madeWorkspace
    · cases h
      exact .noWorkspace
  case h_5 => cases h; exact .requested _
  case h_6 => cases h; exact .logged _
  case h_7 => cases h; exact .started
  case h_8 attempt lastId r now count clock =>
    split at h
    · have hd := @poll_does task events attempt lastId r now count clock
      rw [Option.some.inj h] at hd
      exact hd
    · cases h
  case h_9 => cases h; exact .retried _
  case h_10 => cases h; exact .gaveUp
  case h_11 => cases h; exact .transferFailed _
  case h_12 =>
    split at h
    · cases h
      exact .extracted
    · cases h
      exact .notExtracted
  case h_13 => cases h; exact .validated _
  case h_14 => cases h; exact .mirrored _
  case h_15 => cases h; exact .mirrored _
  case h_16 =>
    split at h
    · cases h
      exact .opened
    · cases h
      exact .notRun
  case h_17 => cases h; exact .executing
  case h_18 => cases h; exact .ran _
  case h_19 => cases h; exact .raised
  case h_20 => cases h; exact .zipped
  case h_21 => cases h; exact .sent
  case h_22 => cases h; exact .outputSent _
  case h_23 => cases h; exact .succeeded
  case h_24 => cases h; exact .failing _
  case h_25 => cases h; exact .failed
  case h_26 => cases h

end Steps

/-- The messages put on one stream, in order. -/
def published (k : Kind) : List Deed → List Fields
  | [] => []
  | .publish k' fields :: deeds =>
    if k' = k then fields :: published k deeds else published k deeds
  | _ :: deeds => published k deeds

/-- The statuses reported on the way to a stage. -/
def statuses : Stage → List String
  | .identifying | .announcing | .transferring | .ended .notIdentified => []
  | .gaveUp | .ended .transferFailed => ["TRANSFERRING_INPUT", "TRANSFER_FAILED"]
  | .running _ | .sending _ _ _ | .succeeding | .failing _ | .failed =>
    ["TRANSFERRING_INPUT", "EXECUTING"]
  | .ended .succeeded => ["TRANSFERRING_INPUT", "EXECUTING", "TASK_SUCCEEDED"]
  | .ended .failed => ["TRANSFERRING_INPUT", "EXECUTING", "TASK_FAILED"]
  | _ => ["TRANSFERRING_INPUT"]

/-- A complete transfer of an archive the delivery has built. -/
def SentAll (task : Task) (deeds : List Deed) : Prop :=
  ∃ zip transferId, Deed.built zip ∈ deeds ∧
    published .output deeds = sendBytes chunkSize task.baseFields transferId zip

/-- The output sent on the way to a stage. -/
def Sent (task : Task) (deeds : List Deed) : Stage → Prop
  | .sending zip transferId pending => Deed.built zip ∈ deeds ∧
    published .output deeds ++ pending = sendBytes chunkSize task.baseFields transferId zip
  | .succeeding | .ended .succeeded => SentAll task deeds
  | _ => published .output deeds = []

/-- The attempts below this number have failed. -/
def tried (task : Task) : Stage → Nat
  | .requesting attempt _ | .requested attempt _ | .waiting attempt _ => attempt
  | .receiving attempt _ _ => attempt
  | .retrying attempt _ _ => attempt + 1
  | .givingUp | .gaveUp | .ended .transferFailed => task.maxRetries + 1
  | _ => 0

structure Script (task : Task) (stage : Stage) (deeds : List Deed) : Prop where
  statuses : published .status deeds = (statuses stage).map (statusMessage task.baseFields)
  output : Sent task deeds stage
  attempts : ∀ n, 1 ≤ n → n < tried task stage → ∃ why, Deed.attemptFailed n why ∈ deeds

section Scripts
variable {task : Task} {stage stage' : Stage} {deeds deeds' : List Deed}

theorem published_append (k : Kind) (deeds deeds' : List Deed) :
    published k (deeds ++ deeds') = published k deeds ++ published k deeds' := by
  induction deeds with
  | nil => rfl
  | cons deed deeds ih =>
    cases deed with
    | publish k' fields =>
      simp only [List.cons_append, published]
      split
      · rw [ih, List.cons_append]
      · exact ih
    | _ => exact ih

theorem published_publish (k k' : Kind) (fields : Fields) :
    published k [.publish k' fields] = if k' = k then [fields] else [] := rfl

theorem statuses_attempt (attempt lastId : Nat) :
    statuses (task.attempt attempt lastId) = ["TRANSFERRING_INPUT"] := by
  unfold Task.attempt
  split <;> rfl

theorem sent_attempt (attempt lastId : Nat) :
    Sent task deeds (task.attempt attempt lastId) = (published .output deeds = []) := by
  unfold Task.attempt
  split <;> rfl

theorem tried_attempt (attempt lastId : Nat) : tried task (task.attempt attempt lastId) ≤ attempt := by
  unfold Task.attempt
  split
  · exact Nat.le_refl _
  · simp only [tried]
    omega

/-- A step reports at most the next status. -/
theorem statuses_does (h : Does task stage stage' deeds) :
    (statuses stage').map (statusMessage task.baseFields) =
      (statuses stage).map (statusMessage task.baseFields) ++ published .status deeds := by
  cases h with
  | madeWorkspace => rw [statuses_attempt]; rfl
  | retried _ => rw [statuses_attempt]; rfl
  | _ => rfl

theorem sentAll_append (h : SentAll task deeds) (quiet : published .output deeds' = []) :
    SentAll task (deeds ++ deeds') := by
  obtain ⟨zip, transferId, built, all⟩ := h
  refine ⟨zip, transferId, List.mem_append_left _ built, ?_⟩
  rw [published_append, quiet, List.append_nil]
  exact all

theorem sent_does (hs : Sent task deeds stage) (h : Does task stage stage' deeds') :
    Sent task (deeds ++ deeds') stage' := by
  have quiet (hn : published .output deeds = []) (hn' : published .output deeds' = []) :
      published .output (deeds ++ deeds') = [] := by
    rw [published_append, hn, hn', List.append_nil]
  cases h with
  | madeWorkspace =>
    rw [sent_attempt]
    exact quiet hs rfl
  | retried _ =>
    rw [sent_attempt]
    exact quiet hs rfl
  | @zipped zip transferId =>
    refine ⟨List.mem_append_right _ (List.mem_singleton_self _), ?_⟩
    rw [quiet hs rfl, List.nil_append]
  | @sent zip transferId m pending =>
    obtain ⟨built, all⟩ := hs
    refine ⟨List.mem_append_left _ built, ?_⟩
    rw [published_append, published_publish, if_pos rfl, List.append_assoc]
    exact all
  | outputSent line =>
    obtain ⟨built, all⟩ := hs
    rw [List.append_nil] at all
    exact sentAll_append ⟨_, _, built, all⟩ rfl
  | succeeded => exact sentAll_append hs rfl
  | _ => exact quiet hs rfl

theorem attempts_does
    (hs : ∀ n, 1 ≤ n → n < tried task stage → ∃ why, Deed.attemptFailed n why ∈ deeds)
    (h : Does task stage stage' deeds') :
    ∀ n, 1 ≤ n → n < tried task stage' → ∃ why, Deed.attemptFailed n why ∈ deeds ++ deeds' := by
  have old (n : Nat) (hn : 1 ≤ n) (hlt : n < tried task stage) :
      ∃ why, Deed.attemptFailed n why ∈ deeds ++ deeds' := by
    obtain ⟨why, hw⟩ := hs n hn hlt
    exact ⟨why, List.mem_append_left _ hw⟩
  intro n hn hlt
  cases h with
  | madeWorkspace =>
    have := @tried_attempt task 1 0
    omega
  | @retried attempt lastId why line =>
    have := @tried_attempt task (attempt + 1) lastId
    exact old n hn (by simp only [tried]; omega)
  | @attemptFailed attempt lastId lastId' r why =>
    simp only [tried] at hlt
    by_cases he : n = attempt
    · subst he
      exact ⟨why, List.mem_append_right _ (List.mem_singleton_self _)⟩
    · exact old n hn (by simp only [tried]; omega)
  | requested _ => exact old n hn hlt
  | logged _ => exact old n hn hlt
  | started => exact old n hn hlt
  | polled => exact old n hn hlt
  | gaveUp => exact old n hn hlt
  | transferFailed _ => exact old n hn hlt
  | _ => exact absurd hlt (Nat.not_lt_zero n)

theorem Script.start (task : Task) : Script task .identifying [] where
  statuses := rfl
  output := rfl
  attempts _ _ h := absurd h (Nat.not_lt_zero _)

theorem Script.step (hs : Script task stage deeds) (h : Does task stage stage' deeds') :
    Script task stage' (deeds ++ deeds') where
  statuses := by rw [published_append, hs.statuses, statuses_does h]
  output := sent_does hs.output h
  attempts := attempts_does hs.attempts h

end Scripts

end Worker
