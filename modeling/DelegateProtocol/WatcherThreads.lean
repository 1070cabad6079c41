import DelegateProtocol.Announcements

/-!
# The watcher threads of the dispatcher

The main loop remembers its threads by the id as it was announced, and asks
whether a thread is alive. Rows are told apart by the parsed id, and a thread
that has left its loop is alive until it has deleted its streams: both
questions are answered for something else than what is asked.
-/

namespace WatcherThreads

open AppendLog Handlers Models Runtime StepMachine Streams WatchExecution ReadingOrder
  StreamDispatcher Announcements

/-- At most one live thread watches each execution. -/
def OneEach (d : Dispatcher) : Prop :=
  ∀ (i j : Nat) (watch watch' : Watch), d.threads[i]? = some watch → d.threads[j]? = some watch' →
    isAlive watch = true → isAlive watch' = true → watch.execution.id = watch'.execution.id → i = j

/-- Every live thread is the one that is looked up under its id. -/
structure Registered (d : Dispatcher) : Prop where
  filed : Filed d
  live : ∀ i watch, d.threads[i]? = some watch → isAlive watch = true →
    d.loop.watched.lookup watch.execution.text = some i

/-- The next announcement the loop handles names the execution. -/
def TakesUp (d : Dispatcher) (a : Action) (execution : Named) : Prop :=
  a = .loop .handle ∧ ∃ id fields rest, d.loop.point = .handling ((id, fields) :: rest) ∧
    Announces fields execution.text

/-- While an execution is watched it is announced under one spelling of its id. -/
def OneSpelling (d : Dispatcher) (a : Action) : Prop :=
  ∀ execution e, TakesUp d a execution → d.world.store.db.execution execution.id = some e →
    e.delegateId ≠ none → ∀ watch ∈ d.threads, isAlive watch = true →
    watch.execution.id = execution.id → watch.execution.text = execution.text

/-- The thread still reads its streams. -/
def inLoop : Point → Bool
  | .cleaning _ => false
  | .ended _ => false
  | _ => true

/-- An announcement of an execution that is not over is passed over in favour
of a live thread. -/
structure Skipped (d : Dispatcher) (a : Action) (execution : Named) (i : Nat) : Prop where
  taken : TakesUp d a execution
  unfinished : ∃ e, d.world.store.db.execution execution.id = some e ∧ ¬ e.Terminal
  existing : d.loop.watched.lookup execution.text = some i
  alive : d.aliveAt i = true

/-- The process goes on, and this thread does not come to the test of its loop. -/
def Unchecked (i : Nat) (_ : Dispatcher) (a : Action) : Prop :=
  a ≠ .restart ∧ ∀ expired, a ≠ .thread i (.check expired)

/-- The thread is in its loop, and comes to the test of the loop once more
before it deletes anything. -/
structure Serving (host : Host) (d : Dispatcher) (i : Nat) : Prop where
  reads : ∃ watch, d.threads[i]? = some watch ∧ inLoop watch.point = true
  returns : ∀ as t o, Run (dispatching host) (Unchecked i) d as t o →
    ∀ watch why, t.threads[i]? = some watch → watch.point ≠ .cleaning why

/-- A skipped announcement leaves its execution to a thread that serves it. -/
def NoneLost (host : Host) (d : Dispatcher) (a : Action) : Prop :=
  ∀ execution i, Skipped d a execution i → Serving host d i

/-- No execution that is not over is announced while a thread of that id has
left its loop and not yet come to its end. -/
def NoneLeaving (d : Dispatcher) (a : Action) : Prop :=
  ∀ execution e, TakesUp d a execution → d.world.store.db.execution execution.id = some e →
    ¬ e.Terminal → ∀ watch ∈ d.threads, watch.execution.text = execution.text →
    ∀ why, watch.point ≠ .cleaning why

theorem lookup_filter {α : Type} {l : List (String × α)} {k : String} {v : α}
    {p : String × α → Bool} (h : l.lookup k = some v) (hp : p (k, v) = true) :
    (l.filter p).lookup k = some v := by
  induction l with
  | nil => cases h
  | cons entry l ih =>
    obtain ⟨k', v'⟩ := entry
    by_cases hk : k = k'
    · subst hk
      have hv : v' = v := by simpa using h
      subst hv
      simp [List.filter, hp]
    · have hb : (k == k') = false := beq_false_of_ne hk
      have htail : l.lookup k = some v := by simpa [List.lookup_cons, hb] using h
      by_cases hq : p (k', v') = true
      · simpa [List.filter, hq, List.lookup_cons, hb] using ih htail
      · simpa [List.filter, hq] using ih htail

section Steps
variable {host : Host} {d t : Dispatcher} {a : Action} {o : List Shown}

theorem Registered.start (world : World) : Registered (.start world) := by
  constructor
  · exact .start world
  · intro i watch hw
    cases hw

/-- A live thread keeps the loop from starting another one under its id. -/
theorem Registered.watching (hr : Registered d) {i : Nat} {watch : Watch}
    (hw : d.threads[i]? = some watch) (alive : isAlive watch = true) :
    d.watching watch.execution.text = true := by
  have hl := hr.live i watch hw alive
  simp [Dispatcher.watching, hl, Dispatcher.aliveAt, hw, alive]

theorem Registered.announced {fields : Fields} (hr : Registered d)
    (h : Announced d fields (.ok t)) : Registered t := by
  constructor
  · exact hr.filed.announced h
  · intro i watch hw alive
    cases h with
    | skip _ => exact hr.live i watch hw alive
    | @watch execution e delegateId _ free _ _ =>
      by_cases hi : i < d.threads.length
      · have hold : d.threads[i]? = some watch := by
          simpa [Dispatcher.watch, List.getElem?_append_left hi] using hw
        have hne : watch.execution.text ≠ execution.text := by
          intro he
          have busy := hr.watching hold alive
          rw [he, free] at busy
          cases busy
        have hkept := @lookup_filter Nat d.loop.watched watch.execution.text i
          (fun entry => decide (entry.1 ≠ execution.text)) (hr.live i watch hold alive) (by simpa)
        simpa [Dispatcher.watch, List.lookup_cons, beq_false_of_ne hne] using hkept
      · have hlast : i = d.threads.length := by
          have hlt := (List.getElem?_eq_some_iff.mp hw).1
          simp only [Dispatcher.watch, List.length_append, List.length_singleton] at hlt
          omega
        subst hlast
        have hnew : watch = .start execution (streamKeys execution.text (Uuid.str delegateId)) := by
          simpa [Dispatcher.watch] using hw.symm
        simp [Dispatcher.watch, hnew, Watch.start]

/-- Who takes a step is alive. -/
theorem moves_alive {world world' : World} {watch watch' : Watch} {input : Input}
    {seen : List Seen} (h : Moves host world watch input world' watch' seen) :
    isAlive watch = true := by
  cases hp : watch.point with
  | ended why => exact False.elim (moves_live h why hp)
  | _ => simp [isAlive, hp]

theorem Registered.step (hr : Registered d) (h : Moved host d a t o) : Registered t := by
  constructor
  · exact hr.filed.step h
  · intro i watch hw alive
    cases h with
    | batchDone _ =>
      apply lookup_filter (hr.live i watch hw alive)
      have hget : d.threads[i]? = some watch := hw
      simp [Dispatcher.aliveAt, hget, alive]
    | @consume id fields rest _ _ ha =>
      have hr' : Registered (d.goto id (.handling rest)) := ⟨⟨hr.filed.named, hr.filed.keys⟩, hr.live⟩
      exact (hr'.announced ha).live i watch hw alive
    | thread hget hm =>
      rcases getElem?_set_cases hget hw with ⟨rfl, rfl⟩ | ⟨-, hold⟩
      · rw [(moves_same hm).1]
        exact hr.live i _ hget (moves_alive hm)
      · exact hr.live i watch hold alive
    | restart => cases hw
    | _ => exact hr.live i watch hw alive

/-- A step other than the start of a thread makes no more of them live. -/
theorem oneEach_of_old {s : Dispatcher} (h : OneEach s)
    (old : ∀ (i : Nat) watch, t.threads[i]? = some watch → isAlive watch = true →
      ∃ before, s.threads[i]? = some before ∧ isAlive before = true ∧
        before.execution = watch.execution) : OneEach t := by
  intro i j watch watch' hi hj alive alive' same
  obtain ⟨before, hi', halive, hexec⟩ := old i watch hi alive
  obtain ⟨before', hj', halive', hexec'⟩ := old j watch' hj alive'
  apply h i j before before' hi' hj' halive halive'
  rw [hexec, hexec', same]

theorem oneEach_thread {i : Nat} {watch watch' : Watch} {input : Input} {world : World}
    {seen : List Seen} (h : OneEach d) (hget : d.threads[i]? = some watch)
    (hm : Moves host d.world watch input world watch' seen) :
    OneEach { d with world := world, threads := d.threads.set i watch' } := by
  apply oneEach_of_old h
  intro j after hj alive
  rcases getElem?_set_cases hget hj with ⟨rfl, rfl⟩ | ⟨-, hold⟩
  · exact ⟨watch, hget, moves_alive hm, (moves_same hm).1.symm⟩
  · exact ⟨after, hold, alive, rfl⟩

/-- A new thread is the only one for its execution exactly if none is live. -/
theorem oneEach_watch {fields : Fields} {execution : Named} {e : Execution}
    {delegateId : Uuid.UUID} (h : OneEach d) :
    OneEach (d.watch fields execution e delegateId) ↔
      ∀ watch ∈ d.threads, isAlive watch = true → watch.execution.id ≠ execution.id := by
  have hnew : (d.watch fields execution e delegateId).threads[d.threads.length]? =
      some (.start execution (streamKeys execution.text (Uuid.str delegateId))) := by
    simp [Dispatcher.watch]
  constructor
  · intro hone watch hmem alive same
    obtain ⟨i, hi⟩ := List.mem_iff_getElem?.mp hmem
    have hlt := (List.getElem?_eq_some_iff.mp hi).1
    have hold : (d.watch fields execution e delegateId).threads[i]? = some watch := by
      simpa [Dispatcher.watch, List.getElem?_append_left hlt] using hi
    have heq := hone i _ watch _ hold hnew alive rfl same
    omega
  · intro none i j watch watch' hi hj alive alive' same
    have place {k : Nat} {w : Watch}
        (hk : (d.watch fields execution e delegateId).threads[k]? = some w) :
        d.threads[k]? = some w ∨ (k = d.threads.length ∧ w.execution = execution) := by
      by_cases hlt : k < d.threads.length
      · left
        simpa [Dispatcher.watch, List.getElem?_append_left hlt] using hk
      · right
        have hlast : k = d.threads.length := by
          have hle := (List.getElem?_eq_some_iff.mp hk).1
          simp only [Dispatcher.watch, List.length_append, List.length_singleton] at hle
          omega
        subst hlast
        rw [hnew] at hk
        obtain rfl := Option.some.inj hk
        exact ⟨rfl, rfl⟩
    rcases place hi with hold | ⟨rfl, hexec⟩
    · rcases place hj with hold' | ⟨rfl, hexec'⟩
      · exact h i j watch watch' hold hold' alive alive' same
      · rw [hexec'] at same
        exact False.elim (none watch (List.mem_of_getElem? hold) alive same)
    · rcases place hj with hold' | ⟨rfl, -⟩
      · rw [hexec] at same
        exact False.elim (none watch' (List.mem_of_getElem? hold') alive' same.symm)
      · rfl

theorem takesUp_announces {id : Nat} {fields : Fields} {rest : List (Nat × Fields)}
    {execution : Named} (hp : d.loop.point = .handling ((id, fields) :: rest))
    (taken : TakesUp d (.loop .handle) execution) : Announces fields execution.text := by
  obtain ⟨-, _, _, _, hp', announced⟩ := taken
  rw [hp] at hp'
  cases hp'
  exact announced

/-- An announcement is skipped for a live thread of its own text, or because the
row is not there to be watched. -/
theorem oneSpelling_skip {id : Nat} {fields : Fields} {rest : List (Nat × Fields)}
    (hr : Registered d) (hone : OneEach d) (hp : d.loop.point = .handling ((id, fields) :: rest))
    (hskip : ∀ executionId, Announces fields executionId → d.watching executionId = true ∨
      ∃ u, Uuid.parse executionId = some u ∧
        ∀ e, d.world.store.db.execution u = some e → e.delegateId = none) :
    OneSpelling d (.loop .handle) := by
  intro execution e taken hrow assigned watch hmem alive same
  rcases hskip _ (takesUp_announces hp taken) with busy | ⟨u, hu, hnone⟩
  · obtain ⟨watch', hmem', htext, alive'⟩ := hr.filed.watching busy
    obtain ⟨i, hi⟩ := List.mem_iff_getElem?.mp hmem
    obtain ⟨j, hj⟩ := List.mem_iff_getElem?.mp hmem'
    have hexec : watch'.execution = execution := named_ext htext
    have hij := hone i j watch watch' hi hj alive alive' (by rw [hexec]; exact same)
    subst hij
    obtain rfl := Option.some.inj (hi.symm.trans hj)
    exact htext
  · obtain rfl := Option.some.inj (execution.names.symm.trans hu)
    exact False.elim (assigned (hnone e hrow))

/-- Where a thread is started, none of its text is live, so the one of another
spelling is what the condition is about. -/
theorem none_live_iff_spelling {id : Nat} {fields : Fields} {rest : List (Nat × Fields)}
    {execution : Named} {e : Execution} (hr : Registered d)
    (hp : d.loop.point = .handling ((id, fields) :: rest))
    (announced : Announces fields execution.text) (free : d.watching execution.text = false)
    (hrow : d.world.store.db.execution execution.id = some e) (assigned : e.delegateId ≠ none) :
    (∀ watch ∈ d.threads, isAlive watch = true → watch.execution.id ≠ execution.id) ↔
      OneSpelling d (.loop .handle) := by
  constructor
  · intro none execution' e' taken hrow' _ watch hmem alive same
    have hexec : execution' = execution :=
      named_ext (Option.some.inj ((takesUp_announces hp taken).2.1.symm.trans announced.2.1))
    subst hexec
    exact False.elim (none watch hmem alive same)
  · intro spelled watch hmem alive same
    have taken : TakesUp d (.loop .handle) execution := ⟨rfl, id, fields, rest, hp, announced⟩
    have htext := spelled execution e taken hrow assigned watch hmem alive same
    obtain ⟨i, hi⟩ := List.mem_iff_getElem?.mp hmem
    have busy := hr.watching hi alive
    rw [htext, free] at busy
    cases busy

/-- The loop keeps one thread for each execution exactly if it takes up no
second spelling of an id. -/
theorem oneEach_decides (hr : Registered d) (hone : OneEach d) (h : Moved host d a t o) :
    OneEach t ↔ OneSpelling d a := by
  have elsewhere (hother : ∀ execution, ¬ TakesUp d a execution) : OneSpelling d a := by
    intro execution e taken
    exact False.elim (hother execution taken)
  cases h with
  | @consume id fields rest _ hp ha =>
    cases ha with
    | skip hskip => exact ⟨fun _ => oneSpelling_skip hr hone hp hskip, fun _ => hone⟩
    | watch announced free hrow hassigned =>
      have hone' : OneEach (d.goto id (.handling rest)) := hone
      rw [oneEach_watch hone']
      exact none_live_iff_spelling hr hp announced free hrow (by simp [hassigned])
  | crash hp ha =>
    refine ⟨fun _ => ?_, fun _ => hone⟩
    intro execution e taken
    have announced := takesUp_announces hp taken
    exact False.elim (announced_error ha (by
      intro text hannounces
      obtain rfl := Option.some.inj (announced.2.1.symm.trans hannounces.2.1)
      simp [execution.names]))
  | batchDone hp =>
    refine ⟨fun _ => elsewhere ?_, fun _ => hone⟩
    rintro execution ⟨-, _, _, _, hp', -⟩
    rw [hp] at hp'
    cases hp'
  | thread hget hm =>
    refine ⟨fun _ => elsewhere ?_, fun _ => oneEach_thread hone hget hm⟩
    rintro execution ⟨hact, -⟩
    cases hact
  | restart =>
    refine ⟨fun _ => elsewhere ?_, fun _ => ?_⟩
    · rintro execution ⟨hact, -⟩
      cases hact
    · intro i j watch watch' hi
      cases hi
  | _ =>
    refine ⟨fun _ => elsewhere ?_, fun _ => hone⟩
    rintro execution ⟨hact, -⟩
    cases hact

theorem moves_unchecked {world world' : World} {watch watch' : Watch} {input : Input}
    {seen : List Seen} (h : Moves host world watch input world' watch' seen)
    (unchecked : ∀ expired, input ≠ .check expired) (why : Why) : watch'.point ≠ .cleaning why := by
  intro hp
  cases h with
  | expire _ => exact unchecked true rfl
  | finish _ _ _ => exact unchecked false rfl
  | _ => cases hp

theorem unchecked_step {i : Nat} (h : Moved host d a t o) (ok : Unchecked i d a)
    (before : ∀ watch why, d.threads[i]? = some watch → watch.point ≠ .cleaning why)
    (watch : Watch) (why : Why) (hw : t.threads[i]? = some watch) : watch.point ≠ .cleaning why := by
  cases h with
  | consume _ ha =>
    cases ha with
    | skip _ => exact before watch why hw
    | @watch execution e delegateId _ _ _ _ =>
      intro hp
      rcases List.mem_append.mp (List.mem_of_getElem? hw) with hold | hnew
      · by_cases hlt : i < d.threads.length
        · apply before watch why _ hp
          simpa [Dispatcher.watch, Dispatcher.goto, List.getElem?_append_left hlt] using hw
        · have hlast : i = d.threads.length := by
            have hle := (List.getElem?_eq_some_iff.mp hw).1
            simp only [Dispatcher.watch, Dispatcher.goto, List.length_append,
              List.length_singleton] at hle
            omega
          subst hlast
          have hstart : watch = .start execution (streamKeys execution.text (Uuid.str delegateId)) := by
            simpa [Dispatcher.watch, Dispatcher.goto] using hw.symm
          rw [hstart] at hp
          cases hp
      · obtain rfl := List.mem_singleton.mp hnew
        cases hp
  | thread hget hm =>
    rcases getElem?_set_cases hget hw with ⟨rfl, rfl⟩ | ⟨-, hold⟩
    · apply moves_unchecked hm
      rintro expired rfl
      exact ok.2 expired rfl
    · exact before watch why hold
  | restart => exact False.elim (ok.1 rfl)
  | _ => exact before watch why hw

theorem serving_of_inLoop {i : Nat} {watch : Watch} (hw : d.threads[i]? = some watch)
    (reads : inLoop watch.point = true) : Serving host d i := by
  constructor
  · exact ⟨watch, hw, reads⟩
  · intro as t o h
    refine h.state_invariant (fun t => ∀ watch why, t.threads[i]? = some watch →
      watch.point ≠ .cleaning why) ?_ ?_
    · intro watch' why hw' hp
      obtain rfl := Option.some.inj (hw.symm.trans hw')
      rw [hp] at reads
      cases reads
    · intro s a t o' before ok hs watch' why hw'
      exact unchecked_step (dispatching_moved hs) ok before watch' why hw'

/-- An announcement is left to a thread that serves it exactly if no thread of
that id is on its way out. -/
theorem noneLost_decides (hr : Registered d) : NoneLost host d a ↔ NoneLeaving d a := by
  constructor
  · intro kept execution e taken hrow unfinished watch hmem htext why hp
    obtain ⟨i, hi⟩ := List.mem_iff_getElem?.mp hmem
    have alive : isAlive watch = true := by simp [isAlive, hp]
    have existing := hr.live i watch hi alive
    rw [htext] at existing
    have skipped : Skipped d a execution i :=
      ⟨taken, ⟨e, hrow, unfinished⟩, existing, by simp [Dispatcher.aliveAt, hi, alive]⟩
    obtain ⟨watch', hi', reads⟩ := (kept execution i skipped).reads
    obtain rfl := Option.some.inj (hi.symm.trans hi')
    rw [hp] at reads
    cases reads
  · intro leaving execution i skipped
    obtain ⟨e, hrow, unfinished⟩ := skipped.unfinished
    obtain ⟨pre, post, hmem, -⟩ := List.lookup_eq_some_iff.mp skipped.existing
    obtain ⟨watch, hi, htext⟩ := hr.filed.named (execution.text, i) (by simp [hmem])
    have alive : isAlive watch = true := by
      simpa [Dispatcher.aliveAt, show d.threads[i]? = some watch from hi] using skipped.alive
    apply serving_of_inLoop hi
    have stays := leaving execution e skipped.taken hrow unfinished watch (List.mem_of_getElem? hi) htext
    cases hp : watch.point with
    | cleaning why => exact False.elim (stays why hp)
    | ended why => simp [isAlive, hp] at alive
    | _ => rfl

end Steps

section Runs
variable {host : Host} {world : World} {d : Dispatcher} {as : List Action} {o : List Shown}

/-- In every run, at every moment each execution has one live thread, exactly if
no watched execution is ever announced under a second spelling of its id. -/
theorem one_each_iff_spelled (h : Run (dispatching host) Free (.start world) as d o) :
    (∀ bs t o', bs <+: as → Run (dispatching host) Free (.start world) bs t o' → OneEach t) ↔
      Run (dispatching host) OneSpelling (.start world) as d o := by
  have none : OneEach (.start world) := by
    intro i j watch watch' hi
    cases hi
  rw [h.always_iff Registered OneEach ⟨.start world, none⟩
    (fun hr _ hs => hr.step (dispatching_moved hs))
    (fun hr hone _ hs => oneEach_decides hr hone (dispatching_moved hs))]
  constructor
  · intro hr
    exact run_free_and_iff.mp hr
  · intro hr
    exact run_free_and_iff.mpr hr

def announcement (text : String) : Fields :=
  [("type", "EXECUTION_STARTED"), ("execution_id", text)]

def takeUp : List Action := [.loop (.xread 1), .loop .handle, .loop .handle]

def announcedTwice : List Action :=
  [.publish globalExecutionEventsStream (announcement smallExecution.text)] ++ takeUp ++
    [.publish globalExecutionEventsStream (announcement "00000000000000000000000000000001")] ++
    takeUp

/-- Two live threads watch one execution. -/
def doubled (d : Dispatcher) : Bool :=
  match d.threads with
  | [watch, watch'] =>
    isAlive watch && isAlive watch' && decide (watch.execution.id = watch'.execution.id)
  | _ => false

theorem announcedTwice_doubled :
    (replay (dispatching smallHost) (.start (smallWorld .queued)) announcedTwice).any
      (fun r => doubled r.1) = true := by
  decide +kernel

theorem not_oneEach_of_doubled (h : doubled d = true) : ¬ OneEach d := by
  intro hone
  unfold doubled at h
  split at h
  · rename_i watch watch' hthreads
    simp only [Bool.and_eq_true, decide_eq_true_eq] at h
    obtain ⟨⟨alive, alive'⟩, same⟩ := h
    have heq := hone 0 1 watch watch' (by simp [hthreads]) (by simp [hthreads]) alive alive' same
    omega
  · cases h

theorem announcedTwice_each_iff :
    ∃ d o, Run (dispatching smallHost) Free (.start (smallWorld .queued)) announcedTwice d o ∧
      ((∀ bs t o', bs <+: announcedTwice →
          Run (dispatching smallHost) Free (.start (smallWorld .queued)) bs t o' → OneEach t) ↔
        Run (dispatching smallHost) OneSpelling (.start (smallWorld .queued)) announcedTwice d o) := by
  obtain ⟨d, o, h, -⟩ := run_of_replay_test announcedTwice_doubled
  exact ⟨d, o, h, one_each_iff_spelled h⟩

theorem two_threads_one_execution :
    ∃ d o, Run (dispatching smallHost) Free (.start (smallWorld .queued)) announcedTwice d o ∧
      ¬ OneEach d := by
  obtain ⟨d, o, h, hd⟩ := run_of_replay_test announcedTwice_doubled
  exact ⟨d, o, h, not_oneEach_of_doubled hd⟩

/-- In every run no announcement is lost to a thread that has left its loop,
exactly if none comes while a thread of that id is on its way out. -/
theorem none_lost_iff_leaving (h : Run (dispatching host) Free (.start world) as d o) :
    (∀ bs a t o', bs ++ [a] <+: as → Run (dispatching host) Free (.start world) bs t o' →
        NoneLost host t a) ↔
      Run (dispatching host) NoneLeaving (.start world) as d o := by
  rw [h.each_iff Registered (.start world) (fun hr _ hs => hr.step (dispatching_moved hs))
    (fun hr _ _ => noneLost_decides hr)]
  constructor
  · intro hr
    exact run_free_and_iff.mp hr
  · intro hr
    exact run_free_and_iff.mpr hr

/-- The lifetime of the first watcher runs out, and the worker announces the
execution again before the streams are deleted. -/
def announcedAgain : List Action :=
  [.publish globalExecutionEventsStream (announcement smallExecution.text)] ++ takeUp ++
    [.thread 0 (.check true),
      .publish globalExecutionEventsStream (announcement smallExecution.text), .loop (.xread 1)]

instance (fields : Fields) (executionId : String) : Decidable (Announces fields executionId) :=
  inferInstanceAs (Decidable (_ ∧ _ ∧ _))

/-- The next announcement finds a thread that has left its loop. -/
def findsLeaving (d : Dispatcher) : Bool :=
  match d.loop.point, d.threads with
  | .handling ((_, fields) :: _), [watch] =>
    decide (Announces fields smallExecution.text) && !inLoop watch.point && isAlive watch &&
      decide (watch.execution.text = smallExecution.text) &&
      decide ((d.world.store.db.execution smallExecution.id).map (·.status) = some .queued)
  | _, _ => false

theorem announcedAgain_leaving :
    (replay (dispatching smallHost) (.start (smallWorld .queued)) announcedAgain).any
      (fun r => findsLeaving r.1) = true := by
  decide +kernel

theorem not_noneLeaving (h : findsLeaving d = true) : ¬ NoneLeaving d (.loop .handle) := by
  intro leaving
  unfold findsLeaving at h
  split at h
  · rename_i id fields rest watch hp hthreads
    simp only [Bool.and_eq_true, decide_eq_true_eq, Bool.not_eq_true'] at h
    obtain ⟨⟨⟨⟨announces, left⟩, alive⟩, htext⟩, hrow⟩ := h
    obtain ⟨e, he, hqueued⟩ := Option.map_eq_some_iff.mp hrow
    have unfinished : ¬ e.Terminal := by
      simp [Execution.Terminal, terminalStatuses, hqueued]
    have stays := leaving smallExecution e ⟨rfl, id, fields, rest, hp, announces⟩ he unfinished watch
      (by simp [hthreads]) htext
    cases hw : watch.point with
    | cleaning why => exact stays why hw
    | ended why => simp [isAlive, hw] at alive
    | _ => simp [inLoop, hw] at left
  · cases h

theorem announcedAgain_lost_iff :
    ∃ d o, Run (dispatching smallHost) Free (.start (smallWorld .queued)) announcedAgain d o ∧
      ((∀ bs a t o', bs ++ [a] <+: announcedAgain →
          Run (dispatching smallHost) Free (.start (smallWorld .queued)) bs t o' →
          NoneLost smallHost t a) ↔
        Run (dispatching smallHost) NoneLeaving (.start (smallWorld .queued)) announcedAgain d o) := by
  obtain ⟨d, o, h, -⟩ := run_of_replay_test announcedAgain_leaving
  exact ⟨d, o, h, none_lost_iff_leaving h⟩

theorem announcement_lost :
    ∃ d o, Run (dispatching smallHost) Free (.start (smallWorld .queued)) announcedAgain d o ∧
      ¬ NoneLost smallHost d (.loop .handle) := by
  obtain ⟨d, o, h, hd⟩ := run_of_replay_test announcedAgain_leaving
  have hr : Registered d := h.state_invariant Registered (.start _)
    (fun hr _ hs => hr.step (dispatching_moved hs))
  refine ⟨d, o, h, fun kept => ?_⟩
  exact not_noneLeaving hd ((noneLost_decides hr).mp kept)

end Runs

end WatcherThreads
