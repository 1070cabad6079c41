import DelegateProtocol.Lib.Uuid

/-!
# Stream names

Every key of a delegate starts with `delegate:<delegate_id>:`; an execution has
four streams below it. One more stream is global: executions are announced on it.
-/

namespace Streams

open Uuid

def globalExecutionEventsStream : String := "global:execution_events"

def delegatePrefix (delegateId : String) : String := "delegate:" ++ delegateId ++ ":"

/-- The four streams of an execution, in the order `stream_keys` lists them. -/
inductive Kind where
  | events
  | log
  | status
  | output
  deriving DecidableEq, Repr

def Kind.suffix : Kind → String
  | .events => ":events"
  | .log => ":log"
  | .status => ":status"
  | .output => ":output"

def kinds : List Kind := [.events, .log, .status, .output]

structure Keys where
  events : String
  log : String
  status : String
  output : String
  deriving DecidableEq, Repr

def Keys.key (keys : Keys) : Kind → String
  | .events => keys.events
  | .log => keys.log
  | .status => keys.status
  | .output => keys.output

def streamKeys (executionId delegateId : String) : Keys :=
  let base := delegatePrefix delegateId ++ "execution:" ++ executionId
  { events := base ++ ":events", log := base ++ ":log",
    status := base ++ ":status", output := base ++ ":output" }

/-- `s.startswith(p)`. -/
def StartsWith (s p : String) : Prop := ∃ rest, s = p ++ rest

theorem streamKeys_key (executionId delegateId : String) (k : Kind) :
    (streamKeys executionId delegateId).key k =
      delegatePrefix delegateId ++ ("execution:" ++ executionId ++ k.suffix) := by
  cases k <;> simp [streamKeys, Keys.key, Kind.suffix, String.append_assoc]

theorem streamKeys_startsWith (executionId delegateId : String) (k : Kind) :
    StartsWith ((streamKeys executionId delegateId).key k) (delegatePrefix delegateId) :=
  ⟨_, streamKeys_key executionId delegateId k⟩

@[simp] theorem mem_kinds (k : Kind) : k ∈ kinds := by
  cases k <;> simp [kinds]

theorem suffix_injective {j k : Kind} (h : j.suffix = k.suffix) : j = k := by
  revert h
  cases j <;> cases k <;> decide

/-- The four names of one execution are distinct. -/
theorem key_injective {executionId delegateId : String} {j k : Kind}
    (h : (streamKeys executionId delegateId).key j = (streamKeys executionId delegateId).key k) :
    j = k := by
  simp only [streamKeys_key, String.append_right_inj] at h
  exact suffix_injective h

theorem append_suffix_injective {a b : List Char} {j k : Kind}
    (h : a ++ j.suffix.toList = b ++ k.suffix.toList) : a = b := by
  have hr := congrArg List.reverse h
  rw [List.reverse_append, List.reverse_append] at hr
  cases j <;> cases k <;> simp [Kind.suffix] at hr <;> exact hr

/-- Below the prefixes of delegates, streams of one name are of one execution. -/
theorem key_execution {a b : String} {u v : UUID} {j k : Kind}
    (h : (streamKeys a (str u)).key j = (streamKeys b (str v)).key k) : a = b := by
  simp only [streamKeys_key, delegatePrefix] at h
  have hl := congrArg String.toList h
  simp only [String.toList_append, List.append_assoc, List.append_cancel_left_eq] at hl
  obtain ⟨-, hrest⟩ := List.append_inj hl ((str_length u).trans (str_length v).symm)
  simp only [List.append_cancel_left_eq] at hrest
  exact String.toList_injective (append_suffix_injective hrest)

/-- No execution stream is the global one. -/
theorem key_ne_global (executionId delegateId : String) (k : Kind) :
    (streamKeys executionId delegateId).key k ≠ globalExecutionEventsStream := by
  intro h
  rw [streamKeys_key] at h
  have hc := congrArg (fun s => s.toList.head?) h
  simp [delegatePrefix, globalExecutionEventsStream] at hc

end Streams
