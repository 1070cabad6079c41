import DelegateProtocol.UnfinishedDeliveries

/-!
# Deliveries that overlap

A task that runs longer than the broker's visibility timeout is handed out again
while it is still running. All its deliveries report on the same streams, and
the watcher takes the first failure it sees for the end of the execution.
-/

namespace OverlappingDeliveries

open AppendLog ChunkedTransfer Handlers Models Runtime StepMachine Streams WatchExecution
  ReadingOrder Worker TerminalStatus JunkMessages Deliveries OverlappingTransfers
  UnfinishedDeliveries Agreement

variable {ι : Type} [DecidableEq ι]

def FailureStatus (status : Status) : Prop := status = .failed ∨ status = .transferFailed

instance (status : Status) : Decidable (FailureStatus status) :=
  inferInstanceAs (Decidable (_ ∨ _))

def expires : Turn ι → Bool
  | .watcher (.check expired) => expired
  | _ => false

/-- A delivery has published a complete output before the watcher has found its
lifetime over. -/
def OutputInTime (host : Host) (job : Job) (world : World) (turns : List (Turn ι)) : Prop :=
  ∃ as s o, as <+: turns ∧ (∀ turn ∈ as, expires turn = false) ∧
    Run (delivering host job.task) Free (.start job world) as s o ∧
    ∃ i, SentAll job.task (deedsOf i o)

/-- The watcher is out of its loop, whichever way it left, and the execution is a
failure although an output was there in time. -/
def OutputDiscarded (host : Host) (job : Job) (world : World) (turns : List (Turn ι))
    (s : Site ι) : Prop :=
  looping s.watch.point = false ∧ (∃ e ∈ s.system.row, FailureStatus e.status) ∧
    OutputInTime host job world turns

/-- A delivery that has sent no output and will send none. -/
def hopeless : Stage → Bool
  | .givingUp | .gaveUp | .failing _ | .failed => true
  | .ended outcome => decide (outcome ≠ .succeeded)
  | _ => false

/-- A delivery that has sent its whole output. -/
def whole : Stage → Bool
  | .sending _ _ [] | .succeeding | .ended .succeeded => true
  | _ => false

/-- The steps by which a watcher whose row has failed leaves its loop before its
lifetime is over: it looks at the status, loses an answer or meets a message it
cannot parse. -/
def Quits (host : Host) (s : System) : Input → Prop
  | .check expired => expired = false
  | .xaddLost _ => True
  | input => ¬ Digests host s (.watcher input)

/-- The watcher leaves a failure behind only when no delivery can do better or,
if its lifetime is over, when no delivery has done better. -/
def Unanimous (host : Host) (s : Site ι) (turn : Turn ι) : Prop :=
  (∃ e ∈ s.system.row, FailureStatus e.status) →
    (expires turn = true → ∀ i, whole (s.stages i) = false) ∧
    ∀ input, turn = .watcher input → Quits host s.system input →
      ∀ i, hopeless (s.stages i) = true

section Stages
variable {task : Task} {stage stage' : Stage} {deeds : List Deed}

theorem hopeless_does (h : Does task stage stage' deeds) (hs : hopeless stage = true) :
    hopeless stage' = true := by
  cases h <;> first | rfl | cases hs

theorem whole_does (h : Does task stage stage' deeds) (hw : whole stage = true) :
    whole stage' = true := by
  cases h <;> first | rfl | cases hw

theorem hopeless_not_whole (h : hopeless stage = true) : whole stage = false := by
  cases stage with
  | ended outcome =>
    cases outcome with
    | succeeded => cases h
    | _ => rfl
  | _ => first | rfl | cases h

/-- An output is closed by its last message. -/
theorem sentAll_end (h : SentAll task deeds) :
    ∃ m ∈ published .output deeds, m.get? "type" = some "DATA_END" := by
  obtain ⟨zip, transferId, -, all⟩ := h
  rw [all]
  refine ⟨(outputSending task transferId zip).end, ?_, ?_⟩
  · change _ ∈ (outputSending task transferId zip).messages
    rw [(messages_body _).1]
    exact List.mem_append_right _ (List.mem_singleton_self _)
  · simp [Sending.end, endMessage, Fields.get?]

/-- A delivery whose output is complete stands behind its last message. -/
theorem sentAll_whole (hs : Script task stage deeds) (all : SentAll task deeds) :
    whole stage = true := by
  obtain ⟨m, hm, hend⟩ := sentAll_end all
  cases hf : finishing stage with
  | false => exact False.elim ((sent_open hf hs.output hm).2 hend)
  | true =>
    have none (hn : published .output deeds = []) : whole stage = true := by
      rw [hn] at hm
      cases hm
    have hsent := hs.output
    cases stage with
    | gaveUp => exact none hsent
    | sending zip transferId pending =>
      cases pending with
      | nil => rfl
      | cons _ _ => cases hf
    | succeeding => rfl
    | ended outcome =>
      cases outcome with
      | succeeded => rfl
      | transferFailed => exact none hsent
      | failed => exact none hsent
      | _ => cases hf
    | _ => cases hf

end Stages

section Steps
variable {host : Host} {s : System} {input : Input} {o : List Seen}

/-- The exits of the loop. None of them touches the row. -/
theorem moves_exits (hi : Placed s) {world : World} {watch : Watch}
    (h : Moves host s.world s.watch input world watch o) (left : looping watch.point = false) :
    (looping s.watch.point = false ∨ input = .check true ∨ Quits host s input) ∧
      world.store.db.execution s.watch.execution.id = s.row := by
  have raised (spared : Spared (.watcher input)) {e : PyError}
      (hp : watch.point = .ended (.raised e)) : ¬ Digests host s (.watcher input) :=
    (moves_raised hi h spared).mp ⟨e, hp⟩
  cases h with
  | expire _ => exact ⟨Or.inr (Or.inl rfl), rfl⟩
  | rowGone _ _ => exact ⟨Or.inr (Or.inr rfl), rfl⟩
  | finish _ _ _ => exact ⟨Or.inr (Or.inr rfl), rfl⟩
  | messageRaised _ _ _ => exact ⟨Or.inr (Or.inr (raised trivial rfl)), rfl⟩
  | requestRaised _ _ => exact ⟨Or.inr (Or.inr (raised trivial rfl)), rfl⟩
  | xaddLost _ => exact ⟨Or.inr (Or.inr trivial), rfl⟩
  | xaddUnanswered _ => exact ⟨Or.inr (Or.inr trivial), rfl⟩
  | saveRaised _ _ => exact ⟨Or.inr (Or.inr (raised trivial rfl)), rfl⟩
  | delete hp => exact ⟨Or.inl (by rw [hp]; rfl), rfl⟩
  | deleteLost hp => exact ⟨Or.inl (by rw [hp]; rfl), rfl⟩
  | deleteUnanswered hp => exact ⟨Or.inl (by rw [hp]; rfl), rfl⟩
  | _ => cases left

end Steps

section Runs
variable {host : Host} {job : Job} {world : World} {s t : Site ι} {turn : Turn ι}
variable {turns : List (Turn ι)} {o o' : List (Event ι)}

/-- What every step makes of the stage of a delivery holds along a run. -/
theorem stage_run {ok : Site ι → Turn ι → Prop} {p : Stage → Bool} {task : Task}
    (keeps : ∀ {stage stage' deeds}, Does task stage stage' deeds → p stage = true →
      p stage' = true)
    (h : Run (delivering host task) ok s turns t o) {i : ι} (hp : p (s.stages i) = true) :
    p (t.stages i) = true := by
  refine h.state_invariant (fun t => p (t.stages i) = true) hp ?_
  intro s turn t o' hi _ hs
  cases delivering_taken hs with
  | @worker j work stage deeds hd =>
    by_cases hj : i = j
    · subst hj
      simp only [Function.update_self]
      exact keeps (step_does hd) hi
    · simp only [Function.update_of_ne hj]
      exact hi
  | _ => exact hi

theorem placed_site {ok : Site ι → Turn ι → Prop}
    (h : Run (delivering host job.task) ok (.start job world) turns s o) : Placed s.system := by
  obtain ⟨as, hr⟩ := watching_run h
  exact placed_run hr

/-- A step out of the loop, or behind it, leaves the row as it was. -/
theorem taken_exits (hi : Placed s.system) (h : Taken host job.task s turn t o)
    (left : looping t.watch.point = false) :
    (looping s.watch.point = false ∨ expires turn = true ∨
      ∃ input, turn = .watcher input ∧ Quits host s.system input) ∧
      t.system.row = s.system.row := by
  cases h with
  | @watcher input system seen hw =>
    have hm := watching_watcher hw
    obtain ⟨hcase, same⟩ := moves_exits hi hm left
    have hrow : system.row = s.system.row := by
      rw [System.row, (moves_same hm).1]
      exact same
    refine ⟨?_, hrow⟩
    rcases hcase with hl | rfl | hq
    · exact Or.inl hl
    · exact Or.inr (Or.inl rfl)
    · exact Or.inr (Or.inr ⟨input, rfl, hq⟩)
  | worker _ => exact ⟨Or.inl left, by simp only [Site.system, System.row, performs_store]⟩
  | elsewhere _ => exact ⟨Or.inl left, rfl⟩
  | others hl => exact ⟨Or.inl left, hl.1⟩

/-- No output was whole when the watcher found its lifetime over. -/
def Late (host : Host) (job : Job) (world : World) (turns : List (Turn ι)) : Prop :=
  ∃ as turn s o, as ++ [turn] <+: turns ∧ expires turn = true ∧
    Run (delivering host job.task) Free (.start job world) as s o ∧
    ∀ i, whole (s.stages i) = false

/-- Behind the loop of a unanimous run a failed execution has no output, or had
none in time. -/
theorem settled_run
    (h : Run (delivering host job.task) (Unanimous host) (.start job world) turns s o)
    (left : looping s.watch.point = false) (failed : ∃ e ∈ s.system.row, FailureStatus e.status) :
    (∀ i, hopeless (s.stages i) = true) ∨ Late host job world turns := by
  refine h.invariant_along (fun turns s _ => looping s.watch.point = false →
    (∃ e ∈ s.system.row, FailureStatus e.status) →
      (∀ i, hopeless (s.stages i) = true) ∨ Late host job world turns) ?_ ?_ left failed
  · intro left
    cases left
  · intro turns s o turn t o' hr hi ok hs left failed
    have taken := delivering_taken hs
    obtain ⟨hcase, hrow⟩ := taken_exits (placed_site hr) taken left
    rw [hrow] at failed
    obtain ⟨expired, quits⟩ := ok failed
    have keeps (all : ∀ i, hopeless (s.stages i) = true) (i : ι) : hopeless (t.stages i) = true := by
      have single : Run (delivering host job.task) Free s [turn] t o' := .single trivial hs
      exact stage_run hopeless_does single (all i)
    rcases hcase with hl | he | ⟨input, rfl, hq⟩
    · rcases hi hl failed with all | ⟨as, last, s₁, o₁, hpre, rest⟩
      · exact Or.inl (keeps all)
      · exact Or.inr ⟨as, last, s₁, o₁, hpre.trans (List.prefix_append _ _), rest⟩
    · exact Or.inr ⟨turns, turn, s, o, List.prefix_refl _, he, hr.free, expired he⟩
    · exact Or.inl (keeps (quits input rfl hq))

/-- An output that was there in time belongs to a delivery that has sent it all. -/
theorem inTime_whole {ok : Site ι → Turn ι → Prop} {as bs : List (Turn ι)}
    (h : Run (delivering host job.task) ok (.start job world) (as ++ bs) t o)
    (h' : Run (delivering host job.task) Free (.start job world) as s o') {i : ι}
    (all : SentAll job.task (deedsOf i o')) : whole (t.stages i) = true := by
  obtain ⟨s₁, o₁, o₂, hfirst, hrest, -⟩ := h.split
  obtain ⟨rfl, rfl⟩ := h'.deterministic hfirst
  exact stage_run whole_does hrest (sentAll_whole (script_run h' i) all)

/-- Where the watcher leaves a failure behind only when all deliveries have
failed, or none has its output out in time, it discards no output. -/
theorem unanimous_keeps_output
    (h : Run (delivering host job.task) (Unanimous host) (.start job world) turns s o) :
    ¬ OutputDiscarded host job world turns s := by
  rintro ⟨left, failed, as, s₁, o₁, ⟨bs, rfl⟩, early, hr, i, all⟩
  rcases settled_run h left failed with hopeless | ⟨cs, turn, s₂, o₂, hpre, he, hr', none⟩
  · have hw := inTime_whole h hr all
    rw [hopeless_not_whole (hopeless i)] at hw
    cases hw
  · -- the output was out before the lifetime was over, so also at that moment
    have before : as <+: cs := by
      rcases List.prefix_or_prefix_of_prefix (List.prefix_append as bs) hpre with ha | hc
      · rcases List.prefix_concat_iff.mp ha with rfl | ha
        · have hearly := early turn (by simp)
          rw [he] at hearly
          cases hearly
        · exact ha
      · have hearly := early turn (hc.subset (by simp))
        rw [he] at hearly
        cases hearly
    obtain ⟨ds, rfl⟩ := before
    have hw := inTime_whole hr' hr all
    rw [none i] at hw
    cases hw

end Runs

def prepares : List Work :=
  [.prepare true, .publish, .publish, .prepare true, .publish, .publish, .start 0]

/-- The watcher answers both requests and reads two log lines and two statuses. -/
def answersBoth : List Input :=
  [.check false, .xread (fun _ => maxCount), .handle, .authorize "t0", .xadd, .xadd, .xadd, .save,
    .handle, .authorize "t1", .xadd, .xadd, .xadd, .save] ++ List.replicate 5 .handle

/-- The second delivery has its workspace and begins to run, then the first one
times out and reports its failure. -/
def oneFails : List (Turn Bool) :=
  (prepares.map (.worker false)) ++ prepares.map (.worker true) ++ answersBoth.map .watcher ++
    [Work.poll 1 100 (fun _ => 1), .prepare true, .publish, .mirrored "/tmp/w", .prepare true,
      .execute []].map (.worker true) ++
    [Work.poll 16 100 (fun _ => 16)].map (.worker false)

/-- The report is read, then the second delivery sends its whole output, and the
watcher handles what it has read. -/
def discards : List (Turn Bool) :=
  oneFails ++ [.worker false .publish, .worker false .publish, .watcher (.check false),
    .watcher (.xread (fun _ => maxCount))] ++
  [Work.zip emptyZip "t2", .publish, .publish, .publish].map (.worker true) ++
  (List.replicate 12 Input.handle ++ [Input.check false]).map .watcher

/-- The watcher is done with a failure, and the second delivery has its output out. -/
def discarded (s : Site Bool) : Bool :=
  match s.stages true with
  | .sending _ _ [] =>
    !looping s.watch.point && decide (∃ e ∈ s.system.row, FailureStatus e.status)
  | _ => false

theorem discarded_output {turns : List (Turn Bool)} {s : Site Bool} {o : List (Event Bool)}
    (h : discarded s = true) (early : turns.all (fun turn => !expires turn) = true)
    (hr : Run (delivering smallHost smallTask) Free (.start smallJob (smallWorld .queued)) turns
      s o) :
    OutputDiscarded smallHost smallJob (smallWorld .queued) turns s := by
  unfold discarded at h
  split at h
  · rename_i hs
    obtain ⟨left, failed⟩ := Bool.and_eq_true_iff.mp h
    refine ⟨by simpa using left, of_decide_eq_true failed, turns, s, o, List.prefix_refl _, ?_, hr,
      true, ?_⟩
    · intro turn hturn
      simpa using List.all_eq_true.mp early turn hturn
    · obtain ⟨built, all⟩ : Sent smallTask (deedsOf true o) _ := hs ▸ (script_run hr true).output
      rw [List.append_nil] at all
      exact ⟨_, _, built, all⟩
  · cases h

theorem output_discarded : ∃ s o,
    Run (delivering smallHost smallTask) Free (.start smallJob (smallWorld .queued)) discards s o ∧
    OutputDiscarded smallHost smallJob (smallWorld .queued) discards s := by
  have hrun : (replay (delivering smallHost smallTask) (.start smallJob (smallWorld .queued))
      discards).any (fun r => discarded r.1) = true := by decide +kernel
  obtain ⟨s, o, h, hs⟩ := run_of_replay_test hrun
  exact ⟨s, o, h, discarded_output hs (by decide) h⟩

/-- With one delivery only, its failure report may be acted on. -/
def failsAlone : List (Turn Unit) :=
  timesOut.map (.worker ()) ++
    (answersAndReads ++ List.replicate 5 Input.handle ++ [Input.check false]).map .watcher

/-- A failure is there only when no delivery can do better. -/
def Settled (s : Site ι) : Prop :=
  (∃ e ∈ s.system.row, FailureStatus e.status) → ∀ i, hopeless (s.stages i) = true

instance [Fintype ι] (s : Site ι) : Decidable (Settled s) :=
  inferInstanceAs (Decidable ((∃ _ ∈ _, _) → _))

omit [DecidableEq ι] in
theorem Settled.unanimous {host : Host} {s : Site ι} (h : Settled s) (turn : Turn ι) :
    Unanimous host s turn := by
  intro failed
  exact ⟨fun _ i => hopeless_not_whole (h failed i), fun _ _ _ => h failed⟩

theorem failsAlone_keeps_output : ∃ s o,
    Run (delivering smallHost smallTask) (Unanimous smallHost)
      (.start smallJob (smallWorld .queued)) failsAlone s o ∧
    ¬ OutputDiscarded smallHost smallJob (smallWorld .queued) failsAlone s := by
  have hrun : (replay ((delivering smallHost smallTask).guarded (fun s _ => Settled s))
      (.start smallJob (smallWorld .queued)) failsAlone).any (fun r => !looping r.1.watch.point) =
        true := by decide +kernel
  obtain ⟨s, o, h, -⟩ := guarded_run_of_replay_test hrun
  have hu : Run (delivering smallHost smallTask) (Unanimous smallHost)
      (.start smallJob (smallWorld .queued)) failsAlone s o :=
    h.mono (fun _ turn settled => settled.unanimous turn)
  exact ⟨s, o, hu, @unanimous_keeps_output Unit _ smallHost smallJob (smallWorld .queued) s
    failsAlone o hu⟩

end OverlappingDeliveries
