import DelegateProtocol.WorkspaceReception

/-!
# How a task ends

The signal handler and the body of one task, with the temporary directories they
make. An exception in the handler is swallowed and the body still runs; without
a prepared workspace it returns at once. What is reported and what is removed in
the end depends on where the first exception is raised.
-/

namespace TaskEndings

open AppendLog ChunkedTransfer Handlers Runtime StepMachine Streams Worker WorkspaceReception

inductive Dir where
  | workspace
  | output
  deriving DecidableEq

structure Site where
  events : Log Fields
  stage : Stage
  dirs : List Dir

def Site.start (events : Log Fields) : Site := ⟨events, .identifying, []⟩

/-- The mirror of the workspace may also fail with something that is no
`OSError`; the workspace is prepared by then. -/
inductive Turn where
  | arrives (fields : Fields)
  | work (work : Work)
  | mirrorRaises

/-- What `mkdtemp` has made when the task is past it. -/
def makes : Stage → Stage → List Dir
  | .makingWorkspace, .ended _ => []
  | .makingWorkspace, _ => [.workspace]
  | .opening, .executing => [.output]
  | _, _ => []

/-- What `rmtree` removes on the way to an end. -/
def removes : Stage → List Dir
  | .ended .transferFailed => [.workspace]
  | .ended .failed | .ended .succeeded => [.workspace, .output]
  | _ => []

def Site.goTo (s : Site) (stage : Stage) (deeds : List Deed) : Site where
  events := (published .events deeds).foldl Log.append s.events
  stage := stage
  dirs := (s.dirs ++ makes s.stage stage).filter (fun dir => dir ∉ removes stage)

def step (task : Task) (s : Site) : Turn → Option (Site × List Deed)
  | .arrives fields => some ({ s with events := s.events.append fields }, [])
  | .work work =>
    match Worker.step task s.events s.stage work with
    | none => none
    | some (stage, deeds) => some (s.goTo stage deeds, deeds)
  | .mirrorRaises =>
    match s.stage with
    | .mirroring => some (s.goTo .opening [], [])
    | _ => none

def handling (task : Task) : Machine Site Turn Deed := ⟨step task⟩

def finalStatuses : List String := ["TRANSFER_FAILED", "TASK_FAILED", "TASK_SUCCEEDED"]

def isFinal (fields : Fields) : Bool :=
  match fields.get? "status" with
  | some status => status ∈ finalStatuses
  | none => false

/-- Exactly one of the final statuses is on the status stream, and nothing
temporary is left. -/
def Settled (s : Site) (deeds : List Deed) : Prop :=
  ((published .status deeds).filter isFinal).length = 1 ∧ s.dirs = []

/-- The loop can read what it reads of a message. -/
def Parses (r : Receiving) (fields : Fields) : Prop :=
  (fields.get? "type" = some "DATA_START" → ∃ start, readStart fields = .ok start) ∧
    (fields.get? "type" = some "DATA_CHUNK" → r.started = true →
      fields.get? "transfer_id" = r.transferId → ∃ seq, readSequenceNo fields = .ok seq ∧
        (seq ∈ r.seenSeq ∨ ∃ chunk, readChunk fields = .ok chunk))

/-- So it is for every message the loop gets to. -/
def AllParse (waitTimeout : ℚ) : List Arrival → Receiving → Prop
  | [], _ => True
  | m :: ms, r => Parses r m.fields ∧
    match receiveMessage waitTimeout m r with
    | .ok r => AllParse waitTimeout ms r
    | .error _ => True

def Sound (task : Task) (s : Site) : Turn → Prop
  | .work work =>
    match s.stage, work with
    | .identifying, .prepare ok => ok = true ∧ task.executionId ≠ ""
    | .makingWorkspace, .prepare ok => ok = true
    | .receiving _ lastId r, .poll now count clock => 0 < r.deadline - now →
      AllParse task.waitTimeout
        ((s.events.read lastId count).map (fun entry => ⟨entry.1, entry.2, clock entry.1⟩)) r
    | .extracting _ _, .prepare ok => ok = true
    | .opening, .prepare ok => ok = true
    | _, _ => True
  | _ => True

section Receiver
variable {waitTimeout : ℚ} {r : Receiving}

theorem receiveMessage_raises_iff {m : Arrival} :
    (∃ e, receiveMessage waitTimeout m r = .error (.raised e)) ↔ ¬ Parses r m.fields := by
  unfold receiveMessage Parses
  by_cases hs : m.fields.get? "type" = some "DATA_START"
  · cases hr : readStart m.fields with
    | error e => simp [hs]
    | ok start => simp [hs]
  · by_cases hc : m.fields.get? "type" = some "DATA_CHUNK"
    · by_cases hown : r.started = true ∧ m.fields.get? "transfer_id" = r.transferId
      · cases hseq : readSequenceNo m.fields with
        | error e => simp [hc, hown]
        | ok seq =>
          by_cases hseen : seq ∈ r.seenSeq
          · simp [hc, hown, hseen]
          · cases hchunk : readChunk m.fields with
            | error e => simp [hc, hown, hseen]
            | ok chunk => simp [hc, hown, hseen]
      · have skips : r.started = true → m.fields.get? "transfer_id" ≠ r.transferId :=
          fun h he => hown ⟨h, he⟩
        simp [hc, hown]
        exact fun h he => absurd he (skips h)
    · simp [hs, hc]
      intro e he
      repeat' split at he
      all_goals cases he

theorem receiveBatch_raises_iff {ms : List Arrival} (lastId : Nat) :
    (∃ e, receiveBatch waitTimeout ms lastId r = .error (.raised e)) ↔
      ¬ AllParse waitTimeout ms r := by
  induction ms generalizing r lastId with
  | nil => simp [receiveBatch, AllParse]
  | cons m ms ih =>
    have hm := @receiveMessage_raises_iff waitTimeout r m
    cases hr : receiveMessage waitTimeout m r with
    | error ending =>
      rw [hr] at hm
      rw [AllParse, hr, and_true, ← hm]
      simp only [receiveBatch, hr, Except.error.injEq]
    | ok r' =>
      have hp : Parses r m.fields := by
        rw [hr] at hm
        simpa using hm
      simp only [receiveBatch, AllParse, hr, hp, true_and]
      exact ih m.id

end Receiver

/-- The ends that nothing is reported of. -/
def Broken : Stage → Prop
  | .ended .notIdentified | .ended .notPrepared | .ended .notRun => True
  | _ => False

/-- The directories that exist where the task stands, unless a message or the
archive has stopped the handler. -/
def dirsAt : Stage → List Dir
  | .identifying | .announcing | .transferring | .makingWorkspace => []
  | .executing | .running _ | .sending _ _ _ | .succeeding | .failing _ | .failed =>
    [.workspace, .output]
  | .ended .notIdentified | .ended .transferFailed | .ended .failed | .ended .succeeded => []
  | _ => [.workspace]

def Inv (task : Task) (s : Site) (deeds : List Deed) : Prop :=
  Script task s.stage deeds ∧ (¬ Broken s.stage → s.dirs = dirsAt s.stage)

section Ends
variable {task : Task} {s t : Site} {deeds deeds' : List Deed} {turn : Turn}

theorem not_broken_attempt (attempt lastId : Nat) : ¬ Broken (task.attempt attempt lastId) := by
  unfold Task.attempt
  split <;> exact id

theorem dirsAt_attempt (attempt lastId : Nat) :
    dirsAt (task.attempt attempt lastId) = [.workspace] := by
  unfold Task.attempt
  split <;> rfl

theorem makes_attempt (attempt lastId : Nat) :
    makes .makingWorkspace (task.attempt attempt lastId) = [.workspace] := by
  unfold Task.attempt
  split <;> rfl

theorem removes_attempt (attempt lastId : Nat) : removes (task.attempt attempt lastId) = [] := by
  unfold Task.attempt
  split <;> rfl

/-- A task that goes on leaves the directories of the stage it goes to. -/
theorem dirs_does {stage : Stage} (h : Does task s.stage stage deeds') (whole : ¬ Broken stage)
    (hd : s.dirs = dirsAt s.stage) : (s.goTo stage deeds').dirs = dirsAt stage := by
  simp only [Site.goTo, hd]
  generalize s.stage = stage₀ at h
  cases h with
  | madeWorkspace => rw [makes_attempt, removes_attempt, dirsAt_attempt]; rfl
  | retried line => rw [removes_attempt, dirsAt_attempt]; rfl
  | notIdentified => exact False.elim (whole trivial)
  | noWorkspace => exact False.elim (whole trivial)
  | receiverRaised => exact False.elim (whole trivial)
  | notExtracted => exact False.elim (whole trivial)
  | notRun => exact False.elim (whole trivial)
  | _ => rfl

/-- A task that is broken is over. -/
theorem broken_does {stage stage' : Stage} (h : Does task stage stage' deeds) : ¬ Broken stage := by
  cases h <;> exact id

theorem inv_start (task : Task) (events : Log Fields) : Inv task (.start events) [] :=
  ⟨.start task, fun _ => rfl⟩

theorem step_inv (hi : Inv task s deeds) (h : step task s turn = some (t, deeds')) :
    Inv task t (deeds ++ deeds') := by
  cases turn with
  | arrives fields =>
    cases h
    rw [List.append_nil]
    exact hi
  | work work =>
    simp only [step] at h
    split at h
    · cases h
    · rename_i stage deeds₁ hwork
      cases h
      have hdoes := step_does hwork
      exact ⟨hi.1.step hdoes, fun whole => dirs_does hdoes whole (hi.2 (broken_does hdoes))⟩
  | mirrorRaises =>
    obtain ⟨events, stage, dirs⟩ := s
    cases stage with
    | mirroring =>
      cases h
      obtain ⟨script, hd⟩ := hi
      rw [List.append_nil]
      refine ⟨⟨script.statuses, script.output, script.attempts⟩, fun _ => ?_⟩
      have hdirs : dirs = [.workspace] := hd id
      subst hdirs
      rfl
    | _ => cases h

theorem broken_stays (hb : ¬ ¬ Broken s.stage) (h : step task s turn = some (t, deeds')) :
    ¬ ¬ Broken t.stage := by
  cases turn with
  | arrives fields =>
    cases h
    exact hb
  | work work =>
    simp only [step] at h
    split at h
    · cases h
    · rename_i hwork
      exact False.elim (hb (broken_does (step_does hwork)))
  | mirrorRaises =>
    obtain ⟨events, stage, dirs⟩ := s
    cases stage with
    | mirroring => exact False.elim (hb id)
    | _ => cases h

/-- A poll stops the handler where a message cannot be parsed. -/
theorem poll_broken_iff {events : Log Fields} {attempt lastId : Nat} {r : Receiving} (now : ℚ)
    (count : Nat) (clock : Nat → ℚ) :
    Broken (poll task events attempt lastId r now count clock).1 ↔ ¬ (0 < r.deadline - now →
      AllParse task.waitTimeout
        ((events.read lastId count).map (fun entry => ⟨entry.1, entry.2, clock entry.1⟩)) r) := by
  unfold poll
  by_cases hlate : r.deadline - now ≤ 0
  · have hnot : ¬ 0 < r.deadline - now := not_lt.mpr hlate
    simp only [if_pos hlate, hnot, false_implies, not_true_eq_false, iff_false]
    exact id
  · have hpos : 0 < r.deadline - now := not_le.mp hlate
    simp only [if_neg hlate, hpos, true_implies]
    rw [← receiveBatch_raises_iff lastId]
    cases hb : receiveBatch task.waitTimeout
        ((events.read lastId count).map (fun entry => ⟨entry.1, entry.2, clock entry.1⟩)) lastId r with
    | ok next => simp [Broken]
    | error ending => cases ending <;> simp [received, Broken]

/-- A command breaks the task off exactly where it is not sound. -/
theorem work_sound_iff {events : Log Fields} {stage stage' : Stage} {dirs : List Dir} {work : Work}
    (h : Worker.step task events stage work = some (stage', deeds)) :
    ¬ Broken stage' ↔ Sound task ⟨events, stage, dirs⟩ (.work work) := by
  unfold Worker.step at h
  split at h
  case h_1 ok =>
    by_cases hok : ok = true ∧ task.executionId ≠ ""
    · rw [if_pos hok] at h
      cases h
      exact iff_of_true id hok
    · rw [if_neg hok] at h
      cases h
      exact iff_of_false (fun hn => hn trivial) hok
  case h_4 ok =>
    cases ok with
    | true =>
      cases h
      exact iff_of_true (not_broken_attempt 1 0) rfl
    | false =>
      cases h
      exact iff_of_false (fun hn => hn trivial) Bool.false_ne_true
  case h_8 attempt lastId r now count clock =>
    split at h
    · have hstage : (poll task events attempt lastId r now count clock).1 = stage' := by
        rw [Option.some.inj h]
      rw [← hstage, poll_broken_iff]
      exact not_not
    · cases h
  case h_9 =>
    cases h
    exact iff_of_true (not_broken_attempt _ _) trivial
  case h_12 data transferId ok =>
    cases ok with
    | true =>
      cases h
      exact iff_of_true id rfl
    | false =>
      cases h
      exact iff_of_false (fun hn => hn trivial) Bool.false_ne_true
  case h_16 ok =>
    cases ok with
    | true =>
      cases h
      exact iff_of_true id rfl
    | false =>
      cases h
      exact iff_of_false (fun hn => hn trivial) Bool.false_ne_true
  all_goals
    cases h
    try exact iff_of_true id trivial

/-- A step breaks the task off exactly where it is not sound. -/
theorem step_sound_iff (whole : ¬ Broken s.stage) (h : step task s turn = some (t, deeds')) :
    ¬ Broken t.stage ↔ Sound task s turn := by
  cases turn with
  | arrives fields =>
    cases h
    exact iff_of_true whole trivial
  | mirrorRaises =>
    obtain ⟨events, stage, dirs⟩ := s
    cases stage with
    | mirroring =>
      cases h
      exact iff_of_true id trivial
    | _ => cases h
  | work work =>
    simp only [step] at h
    split at h
    · cases h
    · rename_i stage deeds₁ hwork
      cases h
      exact work_sound_iff hwork

theorem isFinal_statusMessage (status : String) :
    isFinal (statusMessage task.baseFields status) = decide (status ∈ finalStatuses) := by
  have hget : Fields.get? (statusMessage task.baseFields status) "status" = some status := by
    simp [Fields.get?, statusMessage, Task.baseFields, List.lookup_cons]
  simp [isFinal, hget]

/-- At its end a task is settled unless it has been broken off. -/
theorem settled_iff_whole {outcome : Outcome} (hi : Inv task s deeds)
    (ended : s.stage = .ended outcome) : Settled s deeds ↔ ¬ Broken s.stage := by
  obtain ⟨script, hd⟩ := hi
  have hfinal : (published .status deeds).filter isFinal =
      ((statuses s.stage).filter (fun status => status ∈ finalStatuses)).map
        (statusMessage task.baseFields) := by
    have same : isFinal ∘ statusMessage task.baseFields =
        fun status => decide (status ∈ finalStatuses) := funext isFinal_statusMessage
    rw [script.statuses, List.filter_map, same]
  rw [Settled, hfinal, List.length_map]
  rw [ended] at hd ⊢
  cases outcome with
  | notIdentified => exact iff_of_false (fun h => absurd h.1 (by decide)) (fun hn => hn trivial)
  | notPrepared => exact iff_of_false (fun h => absurd h.1 (by decide)) (fun hn => hn trivial)
  | notRun => exact iff_of_false (fun h => absurd h.1 (by decide)) (fun hn => hn trivial)
  | transferFailed => exact iff_of_true ⟨by decide, hd id⟩ id
  | failed => exact iff_of_true ⟨by decide, hd id⟩ id
  | succeeded => exact iff_of_true ⟨by decide, hd id⟩ id

/-- A task that has come to its end has reported exactly one final status and
left nothing behind exactly if no step broke it off. -/
theorem settled_iff {events : Log Fields} {turns : List Turn} {outcome : Outcome}
    (run : Run (handling task) Free (.start events) turns s deeds)
    (ended : s.stage = .ended outcome) :
    Settled s deeds ↔ Run (handling task) (Sound task) (.start events) turns s deeds := by
  have hi := run.invariant (Inv task) (inv_start task events) (fun hi _ hs => step_inv hi hs)
  rw [settled_iff_whole hi ended]
  constructor
  · intro whole
    have guarded := (run.good_iff (fun _ => True) (fun s => ¬ Broken s.stage) ⟨trivial, id⟩
      (fun _ _ _ => trivial) (fun _ hg _ hmet hs => (step_sound_iff hg hs).mpr hmet)
      (fun _ hg _ hmet hs hg' => hmet ((step_sound_iff hg hs).mp hg'))
      (fun _ hb hs => broken_stays hb hs)).mp whole
    exact run_free_and_iff.mp guarded
  · intro guarded
    exact guarded.state_invariant (fun s => ¬ Broken s.stage) id
      (fun hg hmet hs => (step_sound_iff hg hs).mpr hmet)

end Ends

/-- The only transfer of the events stream is complete, but what it holds cannot
be extracted. -/
def notArchive : List Turn :=
  [.work (.prepare true), .work .publish, .work .publish, .work (.prepare true), .work .publish,
    .work .publish, .work (.start 0)] ++ firstSending.messages.map .arrives ++
    [.work (.poll 0 100 (fun _ => 0)), .work (.prepare false)]

/-- The transfer is extracted, and the output of three bytes is sent. -/
def wholeTask : List Turn :=
  [.work (.prepare true), .work .publish, .work .publish, .work (.prepare true), .work .publish,
    .work .publish, .work (.start 0)] ++ firstSending.messages.map .arrives ++
    [.work (.poll 0 100 (fun _ => 0)), .work (.prepare true), .work .publish,
      .work (.mirrored "tmp/e"), .work (.prepare true), .work (.execute []),
      .work (.zip threeBytes "t1"), .work .publish, .work .publish, .work .publish, .work .publish,
      .work .publish]

def isEnded (outcome : Outcome) : Stage → Bool
  | .ended outcome' => outcome' = outcome
  | _ => false

theorem isEnded_iff {outcome : Outcome} {stage : Stage} (h : isEnded outcome stage = true) :
    stage = .ended outcome := by
  cases stage with
  | ended outcome' => rw [of_decide_eq_true h]
  | _ => cases h

/-- Nothing is reported and the workspace is left. -/
theorem notArchive_unsettled : ∃ s o,
    Run (handling twiceTask) Free (.start .empty) notArchive s o ∧
      s.stage = .ended .notPrepared ∧ s.dirs = [.workspace] ∧ ¬ Settled s o := by
  have hrun : (replay (handling twiceTask) (.start .empty) notArchive).any
      (fun p => isEnded .notPrepared p.1.stage && p.1.dirs = [.workspace]) = true := by
    decide +kernel
  obtain ⟨s, o, run, hend⟩ := run_of_replay_test hrun
  simp only [Bool.and_eq_true, decide_eq_true_eq] at hend
  refine ⟨s, o, run, isEnded_iff hend.1, hend.2, fun settled => ?_⟩
  have hnone := settled.2
  rw [hend.2] at hnone
  cases hnone

theorem wholeTask_settled : ∃ s o,
    Run (handling twiceTask) Free (.start .empty) wholeTask s o ∧ s.stage = .ended .succeeded ∧
      (Settled s o ↔ Run (handling twiceTask) (Sound twiceTask) (.start .empty) wholeTask s o) := by
  have hrun : (replay (handling twiceTask) (.start .empty) wholeTask).any
      (fun p => isEnded .succeeded p.1.stage) = true := by
    decide +kernel
  obtain ⟨s, o, run, hend⟩ := run_of_replay_test hrun
  exact ⟨s, o, run, isEnded_iff hend, settled_iff run (isEnded_iff hend)⟩

end TaskEndings
