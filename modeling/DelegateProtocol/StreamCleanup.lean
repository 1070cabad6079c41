import DelegateProtocol.Deliveries
import DelegateProtocol.ExecutionLogs
import DelegateProtocol.TerminalStatus

/-!
# The clean-up of an execution's streams

A watcher deletes the four streams once it has seen a terminal status or its
lifetime has run out. It does not know whether it has read everything, nor
whether the deliveries have published everything.
-/

namespace StreamCleanup

open AppendLog Handlers Models Runtime StepMachine Streams WatchExecution ReadingOrder Worker
  TerminalStatus Deliveries ExecutionLogs

variable {ι : Type} [DecidableEq ι]

def hasEnded : Point → Bool
  | .ended _ => true
  | _ => false

def isCleaning : Point → Bool
  | .cleaning _ => true
  | _ => false

/-- A LOG message is on the stream that the watcher has not handled. -/
def UnreadLog (s : System) : Prop :=
  ∃ entry ∈ (s.log .log).unread (s.watch.lastIds .log), IsLog entry.2

/-- The streams are still there, and the watcher will not read them again. -/
def Closing (s : System) : Prop :=
  isCleaning s.watch.point = true ∨ (hasEnded s.watch.point = false ∧ ∃ e ∈ s.row, e.Terminal)

/-- The message makes a row that is there terminal. -/
def Finishes (host : Host) (s : System) (m : Message) : Prop :=
  s.row ≠ none ∧
    ((m.kind = .status ∧ m.type = some "STATUS" ∧
        ∃ status ∈ newStatus m.fields, status ∈ terminalStatuses) ∨
      (m.kind = .output ∧ ∃ state ∈ s.watch.outputState, Closes m.fields state ∧
        (state.Valid → host.writable (outPath host s.watch.execution) = true)))

/-- Every LOG message that is on the stream before a step has its row after it. -/
def LogsKept (job : Job) (world : World) (s t : Site ι) : Prop :=
  t.world.store.db.logsOf job.execution.id = world.store.db.logsOf job.execution.id ++
    logRows job.execution.id (logLines (entries (world.redis job.task.keys.log).removed
      (s.world.redis job.task.keys.log)))

instance (job : Job) (world : World) (s t : Site ι) : Decidable (LogsKept job world s t) :=
  inferInstanceAs (Decidable (_ = _))

instance (s : System) : Decidable (UnreadLog s) := inferInstanceAs (Decidable (∃ _ ∈ _, _))

instance (s : System) : Decidable (Closing s) := inferInstanceAs (Decidable (_ ∨ _ ∧ ∃ _ ∈ _, _))

instance (host : Host) (s : System) (m : Message) : Decidable (Finishes host s m) :=
  inferInstanceAs (Decidable (_ ∧ ((_ ∧ _ ∧ ∃ _ ∈ _, _) ∨ (_ ∧ ∃ _ ∈ _, _))))

/-- The message the watcher is about to handle. -/
def nextMessage (s : Site ι) : Turn ι → Option Message
  | .watcher .handle =>
    match s.watch.point with
    | .handling (m :: _) => some m
    | _ => none
  | _ => none

def expires : Turn ι → Bool
  | .watcher (.check expired) => expired
  | _ => false

/-- What a delivery is about to publish. -/
def publishes (task : Task) (s : Site ι) : Turn ι → List Deed
  | .worker i work =>
    match Worker.step task (s.world.redis task.keys.events) (s.stages i) work with
    | some (_, deeds) => deeds
    | none => []
  | _ => []

/-- The watcher is up with the log when it comes to the end, and no delivery
logs after that. -/
structure KeepsUp (host : Host) (task : Task) (s : Site ι) (turn : Turn ι) : Prop where
  finishing : ∀ m ∈ nextMessage s turn, Finishes host s.system m → ¬ UnreadLog s.system
  expiring : expires turn = true → ¬ UnreadLog s.system
  logging : published .log (publishes task s turn) ≠ [] → ¬ Closing s.system

instance (host : Host) (task : Task) (s : Site ι) (turn : Turn ι) :
    Decidable (KeepsUp host task s turn) :=
  decidable_of_iff
    ((∀ m ∈ nextMessage s turn, Finishes host s.system m → ¬ UnreadLog s.system) ∧
      (expires turn = true → ¬ UnreadLog s.system) ∧
      (published .log (publishes task s turn) ≠ [] → ¬ Closing s.system))
    ⟨fun h => ⟨h.1, h.2.1, h.2.2⟩, fun h => ⟨h.finishing, h.expiring, h.logging⟩⟩

section Watcher
variable {host : Host} {task : Task} {s t : System} {o : List Seen} {input : Input}

/-- Until it deletes them the watcher leaves the streams but one as they are. -/
theorem moves_own_log (h : Moves host s.world s.watch input t.world t.watch o)
    (keys : s.watch.keys = task.keys) (kept : Seen.deleted ∉ o) {k : Kind} (hk : k ≠ .events) :
    t.log k = s.log k := by
  have hh := moves_own_history h keys hk
  have hr := moves_removed h kept (task.keys.key k)
  simp only [System.log, (moves_same h).2, keys]
  cases he : t.world.redis (task.keys.key k)
  cases he' : s.world.redis (task.keys.key k)
  simp only [he, he'] at hh hr
  simp only [Log.mk.injEq]
  exact ⟨hh, hr⟩

theorem unread_moves (hi : InOrder s) (h : Moves host s.world s.watch input t.world t.watch o)
    (keys : s.watch.keys = task.keys) (kept : Seen.deleted ∉ o) (hu : UnreadLog t) :
    UnreadLog s := by
  obtain ⟨entry, hmem, hlog⟩ := hu
  rw [moves_own_log h keys kept (by simp)] at hmem
  refine ⟨entry, ?_, hlog⟩
  cases moves_hand h with
  | keep _ ids _ _ => rwa [ids] at hmem
  | drop _ ids _ => rwa [ids] at hmem
  | take _ _ _ _ ids _ _ => rwa [ids] at hmem
  | next m rest hp _ ids _ _ =>
    rw [ids] at hmem
    by_cases hk : m.kind = .log
    · obtain ⟨later, hunread, -⟩ := hi.head hp
      obtain ⟨-, -, -, hlater⟩ := unread_cons hunread
      rw [hk] at hunread hlater hmem
      rw [Function.update_self, hlater] at hmem
      rw [hunread]
      exact List.mem_cons_of_mem _ hmem
    · rwa [Function.update_of_ne (fun he => hk he.symm)] at hmem

theorem moves_hasEnded {world : World} {watch : Watch}
    (h : Moves host s.world s.watch input world watch o) : hasEnded s.watch.point = false := by
  cases hp : s.watch.point with
  | ended why => exact False.elim (moves_live h why hp)
  | _ => rfl

/-- The ways a watcher comes to stand where it will not read again. -/
theorem moves_closing {world : World} {watch : Watch}
    (h : Moves host s.world s.watch input world watch o) (hc : Closing ⟨world, watch⟩) :
    Closing s ∨ input = .check true ∨ ∃ m rest, input = .handle ∧
      s.watch.point = .handling (m :: rest) ∧ Finishes host s m := by
  rcases hc with hc | ⟨-, e', he', hterm⟩
  · cases h with
    | expire _ => exact Or.inr (Or.inl rfl)
    | finish hp hr ht => exact Or.inl (Or.inr ⟨by rw [hp]; rfl, _, hr, ht⟩)
    | _ => cases hc
  · obtain ⟨f, hf, hw⟩ := moves_row h
    have hrow : world.store.db.execution s.watch.execution.id = some e' := by
      rw [← (moves_same h).1]
      exact he'
    rw [hw] at hrow
    obtain ⟨e, he, rfl⟩ := Option.map_eq_some_iff.mp hrow
    have there : s.row ≠ none := by
      intro hn
      cases he.symm.trans hn
    cases hf with
    | keep => exact Or.inl (Or.inr ⟨moves_hasEnded h, e, he, hterm⟩)
    | status hp hk ht hs =>
      exact Or.inr (Or.inr ⟨_, _, moves_handling h hp, hp, there, Or.inl ⟨hk, ht, _, hs, hterm⟩⟩)
    | received hp hk hs hcl _ writable =>
      exact Or.inr (Or.inr ⟨_, _, moves_handling h hp, hp, there,
        Or.inr ⟨hk, _, hs, hcl, fun _ => writable⟩⟩)
    | failed hp hk hs hcl invalid =>
      exact Or.inr (Or.inr ⟨_, _, moves_handling h hp, hp, there,
        Or.inr ⟨hk, _, hs, hcl, fun valid => absurd valid invalid⟩⟩)
    | saved _ => simp [Execution.Terminal, terminalStatuses] at hterm

theorem moves_deleting {world : World} {watch : Watch}
    (h : Moves host s.world s.watch input world watch o) (hd : Seen.deleted ∈ o) :
    isCleaning s.watch.point = true ∧
      ∀ id, world.store.db.logsOf id = s.world.store.db.logsOf id := by
  cases h with
  | delete hp =>
    rw [hp]
    exact ⟨rfl, fun _ => rfl⟩
  | deleteUnanswered hp =>
    rw [hp]
    exact ⟨rfl, fun _ => rfl⟩
  | _ => simp at hd

theorem moves_delete {world : World} {watch : Watch}
    (h : Moves host s.world s.watch .delete world watch o) : Seen.deleted ∈ o := by
  cases h with
  | delete _ => exact List.mem_singleton_self _

theorem step_delete {s t : Site ι} {o : List (Event ι)}
    (hs : (delivering host task).step s (.watcher .delete) = some (t, o)) :
    Seen.deleted ∈ seenBy o := by
  cases delivering_taken hs with
  | watcher hw =>
    rw [seenBy_watcher]
    exact moves_delete (watching_watcher hw)

end Watcher

section Sites
variable {host : Host} {job : Job} {world : World} {s t : Site ι} {turn : Turn ι}
variable {turns : List (Turn ι)} {o o' : List (Event ι)}

theorem log_eq {l l' : Log Fields} (history : l.history = l'.history)
    (removed : l.removed = l'.removed) : l = l' := by
  cases l
  cases l'
  simp only [Log.mk.injEq]
  exact ⟨history, removed⟩

theorem quiet_taken (hi : InOrder s.system) (keys : s.watch.keys = job.task.keys)
    (quiet : Closing s.system → ¬ UnreadLog s.system) (ok : KeepsUp host job.task s turn)
    (h : Taken host job.task s turn t o) : Closing t.system → ¬ UnreadLog t.system := by
  intro hc hu
  cases h with
  | @watcher input system seen hs =>
    have hm := watching_watcher hs
    by_cases kept : Seen.deleted ∈ seen
    · obtain ⟨why, hp⟩ := moves_deleted hm kept
      rcases hc with hc | ⟨hc, -⟩
      · simp [Site.system, Site.withSystem, hp, isCleaning] at hc
      · simp [Site.system, Site.withSystem, hp, hasEnded] at hc
    · have before : UnreadLog s.system := unread_moves hi hm keys kept hu
      rcases moves_closing hm hc with hcl | rfl | ⟨m, rest, rfl, hp, hf⟩
      · exact quiet hcl before
      · exact ok.expiring rfl before
      · refine ok.finishing m ?_ hf before
        have hp' : s.watch.point = .handling (m :: rest) := hp
        simp [nextMessage, hp']
  | @worker i work stage deeds hs =>
    have hc' : Closing s.system := by
      have hrow : (deeds.foldl (perform job.task.keys) s.world).store = s.world.store :=
        performs_store _ _ _
      simpa only [Closing, Site.system, System.row, hrow] using hc
    have silent : published .log deeds = [] := by
      by_contra hn
      refine ok.logging ?_ hc'
      simpa [publishes, hs] using hn
    have same : (deeds.foldl (perform job.task.keys) s.world).redis (job.task.keys.key .log) =
        s.world.redis (job.task.keys.key .log) := by
      obtain ⟨hh, hr⟩ := @performs_log job.task deeds s.world .log
      rw [silent, List.append_nil] at hh
      exact log_eq hh hr
    apply quiet hc'
    simpa only [UnreadLog, Site.system, System.log, keys, same] using hu
  | @elsewhere key fields hkey =>
    have same : (s.world.xadd key fields).redis (job.task.keys.key .log) =
        s.world.redis (job.task.keys.key .log) := Function.update_of_ne (hkey .log) _ _
    apply quiet hc
    simpa only [UnreadLog, Site.system, Site.withSystem, System.log, keys, same] using hu
  | others hl =>
    apply quiet ?_ hu
    simpa only [Closing, Site.system, Site.withSystem, System.row, hl.1] using hc

/-- As long as everybody keeps up, a watcher that will not read again has read
the log to its end. -/
theorem quiet_run (fresh : (world.redis job.task.keys.log).unread 0 = [])
    (h : Run (delivering host job.task) (KeepsUp host job.task) (.start job world) turns s o) :
    Closing s.system → ¬ UnreadLog s.system := by
  refine h.invariant_along (fun _ s _ => Closing s.system → ¬ UnreadLog s.system) ?_ ?_
  · rintro - ⟨entry, hmem, -⟩
    have hnil : entry ∈ (world.redis job.task.keys.log).unread 0 := hmem
    rw [fresh] at hnil
    cases hnil
  · intro turns s o turn t o' hr quiet ok hs
    obtain ⟨as, hw⟩ := watching_run hr
    exact quiet_taken (consecutive_run hw).1 (same_run hr).2 quiet ok (delivering_taken hs)

theorem taken_deleted (h : Taken host job.task s turn t o) (hd : Seen.deleted ∈ seenBy o) :
    ∃ input seen, (watching host).step s.system (.watcher input) = some (t.system, seen) ∧
      seenBy o = seen := by
  cases h with
  | @watcher input system seen hs => exact ⟨input, seen, hs, seenBy_watcher seen⟩
  | worker _ =>
    rw [seenBy_worker] at hd
    cases hd
  | elsewhere _ => cases hd
  | others _ => cases hd

/-- In a run in which everybody keeps up, every LOG message that is on the
stream when the watcher deletes it has its row. -/
theorem logs_kept (fresh : (world.redis job.task.keys.log).unread 0 = [])
    (h : Run (delivering host job.task) (KeepsUp host job.task) (.start job world) turns s o)
    (hs : (delivering host job.task).step s turn = some (t, o'))
    (deleted : Seen.deleted ∈ seenBy o') : LogsKept job world s t := by
  obtain ⟨as, hw⟩ := watching_run h
  obtain ⟨hi, hc⟩ := consecutive_run hw
  obtain ⟨input, seen, hstep, hseen⟩ := taken_deleted (delivering_taken hs) deleted
  rw [hseen] at deleted
  have hm := watching_watcher hstep
  obtain ⟨hexec, hkeys⟩ := same_run h
  have closing : Closing s.system := Or.inl (moves_deleting hm deleted).1
  have whole : entries (world.redis job.task.keys.log).removed (s.world.redis job.task.keys.log) =
      handledOf .log (seenBy o) ++ (s.system.log .log).unread (s.watch.lastIds .log) := by
    have hopen : Seen.deleted ∉ seenBy o := by
      intro hd
      obtain ⟨why, hp⟩ := hc.closed hd
      exact moves_live hm why hp
    have hw := ((hc.whole hopen) .log).2
    simp only [Site.system, System.log, hkeys] at hw ⊢
    exact hw
  have silent : logLines ((s.system.log .log).unread (s.watch.lastIds .log)) = [] := by
    refine logLines_eq_nil ?_
    intro entry hmem hlog
    exact quiet_run fresh h closing ⟨entry, hmem, hlog⟩
  have rows : t.world.store.db.logsOf job.execution.id =
      s.world.store.db.logsOf job.execution.id := by
    rw [← hexec]
    exact (moves_deleting hm deleted).2 _
  rcases logged_run hw with ⟨e, he⟩ | logged
  · exact False.elim (moves_live hm _ he)
  · have stored := logged.rows
    simp only [Site.system, hexec] at stored
    rw [LogsKept, rows, stored, whole, logLines_append, silent, List.append_nil]

end Sites

/-- What the next step makes of a site, if it is the deletion. -/
def deletion (s : Site Unit) : Option (Site Unit) :=
  ((delivering smallHost smallTask).step s (.watcher .delete)).map Prod.fst

/-- Everything is published before the watcher looks. -/
def readToTheEnd : List (Turn Unit) :=
  (timesOut ++ [Work.publish]).map (Turn.worker ()) ++
    (answersAndReads ++ List.replicate 6 Input.handle ++ [Input.check false]).map Turn.watcher

/-- The last log line comes when the watcher has read its batch. -/
def tooLate : List (Turn Unit) :=
  timesOut.map (Turn.worker ()) ++
    (answersAndReads ++ List.replicate 5 Input.handle).map Turn.watcher ++
    [.worker () .publish, .watcher (.check false)]

theorem readToTheEnd_kept : ∃ s o t o',
    Run (delivering smallHost smallTask) (KeepsUp smallHost smallTask)
      (.start smallJob (smallWorld .queued)) readToTheEnd s o ∧
    (delivering smallHost smallTask).step s (.watcher .delete) = some (t, o') ∧
    LogsKept smallJob (smallWorld .queued) s t := by
  have hrun : (replay ((delivering smallHost smallTask).guarded (KeepsUp smallHost smallTask))
      (.start smallJob (smallWorld .queued)) readToTheEnd).any (fun r => (deletion r.1).isSome) =
        true := by decide +kernel
  obtain ⟨s, o, h, hs⟩ := guarded_run_of_replay_test hrun
  obtain ⟨t, hdel⟩ := Option.isSome_iff_exists.mp hs
  obtain ⟨⟨t, o'⟩, ht, rfl⟩ := Option.map_eq_some_iff.mp hdel
  have fresh : ((smallWorld .queued).redis smallJob.task.keys.log).unread 0 = [] := unread_empty 0
  exact ⟨s, o, t, o', h, ht, logs_kept fresh h ht (step_delete ht)⟩

theorem late_log_lost : ∃ s o t o',
    Run (delivering smallHost smallTask) Free (.start smallJob (smallWorld .queued)) tooLate s o ∧
    (delivering smallHost smallTask).step s (.watcher .delete) = some (t, o') ∧
    Seen.deleted ∈ seenBy o' ∧ ¬ LogsKept smallJob (smallWorld .queued) s t := by
  have hrun : (replay (delivering smallHost smallTask) (.start smallJob (smallWorld .queued))
      tooLate).any (fun r => (deletion r.1).any
        (fun t => decide (¬ LogsKept smallJob (smallWorld .queued) r.1 t))) = true := by
    decide +kernel
  obtain ⟨s, o, h, hs⟩ := run_of_replay_test hrun
  obtain ⟨t, hdel, hlost⟩ := (Option.any_eq_true _ _).mp hs
  obtain ⟨⟨t, o'⟩, ht, rfl⟩ := Option.map_eq_some_iff.mp hdel
  exact ⟨s, o, t, o', h, ht, step_delete ht, of_decide_eq_true hlost⟩

/-- The watcher has ended by way of the clean-up. -/
def Gone (s : System) : Prop :=
  s.watch.point = .ended .terminal ∨ s.watch.point = .ended .lifetime

/-- Nothing is published on the four streams once they are deleted. -/
def BeforeDeletion (task : Task) (s : Site ι) (turn : Turn ι) : Prop :=
  (∃ k, published k (publishes task s turn) ≠ []) → ¬ Gone s.system

/-- After the clean-up there are no streams. -/
def Clean (s : System) : Prop := Gone s → ∀ k, ¬ (s.log k).Exists

section Orphans
variable {host : Host} {task : Task} {job : Job} {world : World} {s t : Site ι}
variable {turn : Turn ι} {turns : List (Turn ι)} {o : List (Event ι)}

omit [DecidableEq ι] in
theorem gone_ended (h : Gone s.system) : ∃ why, s.watch.point = .ended why := by
  rcases h with h | h
  · exact ⟨_, h⟩
  · exact ⟨_, h⟩

theorem exists_grown {l l' : Log Fields} {ms : List Fields}
    (history : l'.history = l.history ++ ms) (removed : l'.removed = l.removed)
    (h : l.Exists ∨ ms ≠ []) : l'.Exists := by
  unfold Log.Exists at h ⊢
  rw [history, removed, List.length_append]
  rcases h with h | h
  · omega
  · have := List.length_pos_iff.mpr h
    have := l.removed_le
    omega

/-- A watcher that ends by way of the clean-up deletes all four streams. -/
theorem moves_gone {s t : System} {input : Input} {o : List Seen}
    (h : Moves host s.world s.watch input t.world t.watch o) (gone : Gone t) (k : Kind) :
    ¬ (t.log k).Exists := by
  have hkeys := (moves_same h).2
  unfold Gone at gone
  unfold System.log
  generalize t.world = world at h ⊢
  generalize t.watch = watch at h gone hkeys ⊢
  rw [hkeys]
  cases h with
  | delete _ =>
    have hdel : (s.world.deleteKeys s.watch.keys).redis (s.watch.keys.key k) =
        (s.world.redis (s.watch.keys.key k)).delete := by
      simp only [World.deleteKeys]
      rw [if_pos ⟨k, mem_kinds k, rfl⟩]
    change ¬ ((s.world.deleteKeys s.watch.keys).redis (s.watch.keys.key k)).Exists
    rw [hdel]
    exact Nat.lt_irrefl _
  | _ => simp [Watch.goto] at gone

/-- A step of a site whose watcher has gone changes no stream but by publishing. -/
theorem taken_gone (h : Taken host task s turn t o) (keys : s.watch.keys = task.keys)
    (gone : Gone s.system) :
    Gone t.system ∧ ∀ k, (t.system.log k).history =
        (s.system.log k).history ++ published k (publishes task s turn) ∧
      (t.system.log k).removed = (s.system.log k).removed := by
  cases h with
  | watcher hs =>
    obtain ⟨why, hp⟩ := gone_ended gone
    exact False.elim (moves_live (watching_watcher hs) why hp)
  | @worker i work stage deeds hs =>
    refine ⟨gone, fun k => ?_⟩
    have hdeeds : publishes task s (.worker i work) = deeds := by simp [publishes, hs]
    rw [hdeeds]
    simp only [Site.system, System.log, keys]
    exact performs_log deeds s.world k
  | @elsewhere key fields hkey =>
    refine ⟨gone, fun k => ?_⟩
    have same : (s.world.xadd key fields).redis (task.keys.key k) =
        s.world.redis (task.keys.key k) := Function.update_of_ne (hkey k) _ _
    simp only [Site.system, Site.withSystem, System.log, keys, same, publishes, published,
      List.append_nil, and_self]
  | others _ =>
    exact ⟨gone, fun k => ⟨(List.append_nil _).symm, rfl⟩⟩

theorem clean_taken (h : Taken host task s turn t o) (keys : s.watch.keys = task.keys)
    (clean : Clean s.system) (ok : BeforeDeletion task s turn) : Clean t.system := by
  intro gone k
  by_cases before : Gone s.system
  · obtain ⟨hh, hr⟩ := (taken_gone h keys before).2 k
    have silent : published k (publishes task s turn) = [] := by
      by_contra hn
      exact ok ⟨k, hn⟩ before
    rw [silent, List.append_nil] at hh
    rw [log_eq hh hr]
    exact clean before k
  · cases h with
    | watcher hs => exact moves_gone (watching_watcher hs) gone k
    | worker _ => exact False.elim (before gone)
    | elsewhere _ => exact False.elim (before gone)
    | others _ => exact False.elim (before gone)

theorem orphaned_taken (h : Taken host task s turn t o) (keys : s.watch.keys = task.keys)
    (late : ¬ BeforeDeletion task s turn) : ¬ Clean t.system := by
  unfold BeforeDeletion at late
  push Not at late
  obtain ⟨⟨k, hk⟩, gone⟩ := late
  obtain ⟨after, logs⟩ := taken_gone h keys gone
  intro clean
  exact clean after k (exists_grown (logs k).1 (logs k).2 (Or.inr hk))

theorem orphans_stay (h : Taken host task s turn t o) (keys : s.watch.keys = task.keys)
    (orphaned : ¬ Clean s.system) : ¬ Clean t.system := by
  unfold Clean at orphaned
  push Not at orphaned
  obtain ⟨gone, k, hk⟩ := orphaned
  obtain ⟨after, logs⟩ := taken_gone h keys gone
  intro clean
  exact clean after k (exists_grown (logs k).1 (logs k).2 (Or.inl hk))

/-- Once the watcher has gone, none of the streams is there exactly if nothing
was published on them after the deletion. -/
theorem no_orphans_iff
    (h : Run (delivering host job.task) Free (.start job world) turns s o) (gone : Gone s.system) :
    (∀ k, ¬ (s.system.log k).Exists) ↔
      Run (delivering host job.task) (BeforeDeletion job.task) (.start job world) turns s o := by
  have clean : (s.watch.keys = job.task.keys → Clean s.system) ↔ Run (delivering host job.task)
      (fun s turn => Free s turn ∧ BeforeDeletion job.task s turn) (.start job world) turns s o := by
    refine Run.good_iff (fun s => s.watch.keys = job.task.keys)
      (fun s => s.watch.keys = job.task.keys → Clean s.system) ⟨rfl, ?_⟩ ?_ ?_ ?_ ?_ h
    · rintro - (hp | hp)
      · cases hp
      · cases hp
    · intro s turn t o' keys _ hs
      exact (taken_same (delivering_taken hs)).2.trans keys
    · intro s turn t o' keys clean _ ok hs _
      exact clean_taken (delivering_taken hs) keys (clean keys) ok
    · intro s turn t o' keys _ _ late hs clean
      have ht := delivering_taken hs
      exact orphaned_taken ht keys late (clean ((taken_same ht).2.trans keys))
    · intro s turn t o' _ orphaned hs clean
      have ht := delivering_taken hs
      apply orphaned
      intro keys
      by_contra hn
      exact orphans_stay ht keys hn (clean ((taken_same ht).2.trans keys))
  constructor
  · intro none
    exact run_free_and_iff.mp (clean.mp (fun _ _ => none))
  · intro hr
    exact clean.mpr (run_free_and_iff.mpr hr) (same_run h).2 gone

end Orphans

/-- The watcher deletes the streams before the last log line comes. -/
def outlives : List (Turn Unit) := tooLate.dropLast.dropLast ++
  [.watcher (.check false), .watcher .delete, .worker () .publish]

/-- Both have ended. -/
def bothDone (s : Site Unit) : Bool :=
  match s.watch.point, s.stages () with
  | .ended .terminal, .ended _ => true
  | _, _ => false

theorem bothDone_gone {s : Site Unit} (h : bothDone s = true) :
    Gone s.system ∧ ∃ outcome, s.stages () = .ended outcome := by
  unfold bothDone at h
  split at h
  · rename_i hp hs
    exact ⟨Or.inl hp, _, hs⟩
  · cases h

theorem outlives_orphans_iff : ∃ s o,
    Run (delivering smallHost smallTask) Free (.start smallJob (smallWorld .queued)) outlives s o ∧
    ((∀ k, ¬ (s.system.log k).Exists) ↔ Run (delivering smallHost smallTask)
      (BeforeDeletion smallTask) (.start smallJob (smallWorld .queued)) outlives s o) := by
  have hrun : (replay (delivering smallHost smallTask) (.start smallJob (smallWorld .queued))
      outlives).any (fun r => bothDone r.1) = true := by decide +kernel
  obtain ⟨s, o, h, hs⟩ := run_of_replay_test hrun
  exact ⟨s, o, h, @no_orphans_iff Unit _ smallHost smallJob (smallWorld .queued) s outlives o h
    (bothDone_gone hs).1⟩

theorem log_stream_orphaned : ∃ s o,
    Run (delivering smallHost smallTask) Free (.start smallJob (smallWorld .queued)) outlives s o ∧
    Gone s.system ∧ (∀ i, ∃ outcome, s.stages i = .ended outcome) ∧
    ¬ ∀ k, ¬ (s.system.log k).Exists := by
  have hrun : (replay (delivering smallHost smallTask) (.start smallJob (smallWorld .queued))
      outlives).any (fun r => bothDone r.1 && decide (r.1.system.log .log).Exists) = true := by
    decide +kernel
  obtain ⟨s, o, h, hs⟩ := run_of_replay_test hrun
  obtain ⟨hover, hexists⟩ := Bool.and_eq_true_iff.mp hs
  obtain ⟨gone, ended⟩ := bothDone_gone hover
  exact ⟨s, o, h, gone, fun _ => ended, fun none => none .log (of_decide_eq_true hexists)⟩

end StreamCleanup
