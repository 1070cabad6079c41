import DelegateProtocol.StreamDispatcher

/-!
# Announcements

Anybody may write to the global stream. One announcement whose execution id is
not a UUID kills the main loop, and every main loop after it, since each reads
the stream from the beginning.
-/

namespace Announcements

open AppendLog Handlers Models Runtime StepMachine Streams WatchExecution ReadingOrder
  StreamDispatcher

/-- An announcement that names anything names it by a UUID. -/
def Parsable (fields : Fields) : Prop :=
  ∀ executionId, Announces fields executionId → Uuid.parse executionId ≠ none

/-- What the present main loop has taken from the stream. -/
def consumed : List Shown → List (Nat × Fields) :=
  List.foldl (fun taken shown =>
    match shown with
    | .consumed id fields => taken ++ [(id, fields)]
    | .restarted => []
    | .thread _ _ => taken) []

/-- An announcement of an execution that is assigned to a delegate and that no
living thread watches. -/
structure Valid (d : Dispatcher) (fields : Fields) (execution : Named) (delegateId : Uuid.UUID) :
    Prop where
  type : fields.get? "type" = some "EXECUTION_STARTED"
  names : fields.get? "execution_id" = some execution.text
  assigned : ∃ e, d.world.store.db.execution execution.id = some e ∧ e.delegateId = some delegateId
  free : ∀ watch ∈ d.threads, watch.execution.id = execution.id → isAlive watch = false

/-- Each valid announcement the loop takes up starts a watcher on the streams of
the execution and its delegate. -/
def Served (host : Host) (start : Dispatcher) (as : List Action) : Prop :=
  ∀ before d t o o' id fields rest execution delegateId,
    before ++ [.loop .handle] <+: as → Run (dispatching host) Free start before d o →
    (dispatching host).step d (.loop .handle) = some (t, o') →
    d.loop.point = .handling ((id, fields) :: rest) → Valid d fields execution delegateId →
    t.threads = d.threads ++
      [.start execution (streamKeys execution.text (Uuid.str delegateId))]

/-- By its own steps the loop can take all that is left of the stream. -/
def Drains (host : Host) (d : Dispatcher) : Prop :=
  ∃ (inputs : List LoopInput) (t : Dispatcher) (o : List Shown),
    Run (dispatching host) Free d (inputs.map Action.loop) t o ∧
    t.loop.point = .reading ∧ t.log = d.log ∧ t.log.unread t.loop.lastId = []

/-- What the announcements on the stream should come to in any state. -/
structure Serves (host : Host) (start : Dispatcher) (as : List Action) (d : Dispatcher)
    (o : List Shown) : Prop where
  alive : ∀ e, d.loop.point ≠ .crashed e
  whole : consumed o ++ d.log.unread d.loop.lastId = d.log.unread 0
  served : Served host start as
  drains : Drains host d

def toHandle : LoopPoint → List (Nat × Fields)
  | .handling rest => rest
  | _ => []

/-- The threads are watchers of the executions they are filed under, each on
streams of its own execution. -/
structure Filed (d : Dispatcher) : Prop where
  named : ∀ entry ∈ d.loop.watched,
    ∃ watch, d.threads[entry.2]? = some watch ∧ watch.execution.text = entry.1
  keys : ∀ watch ∈ d.threads, ∃ delegateId,
    watch.keys = streamKeys watch.execution.text delegateId

/-- The loop takes the entries of the stream in order, and lives as long as they
name their executions by UUIDs. -/
structure Consuming (d : Dispatcher) (o : List Shown) : Prop where
  behind : d.loop.lastId ≤ d.log.history.length
  next : toHandle d.loop.point <+: d.log.unread d.loop.lastId
  whole : consumed o ++ d.log.unread d.loop.lastId = d.log.unread 0
  lives : (∀ e, d.loop.point ≠ .crashed e) ↔ ∀ entry ∈ consumed o, Parsable entry.2

section Steps
variable {host : Host} {d t : Dispatcher} {a : Action} {o o' : List Shown}

theorem consumed_thread (o : List Shown) (execution : Named) (seen : List Seen) :
    consumed (o ++ seen.map (.thread execution)) = consumed o := by
  induction seen using List.reverseRecOn with
  | nil => simp
  | append_singleton seen x ih =>
    rw [List.map_append, ← List.append_assoc]
    unfold consumed at ih ⊢
    rw [List.foldl_append, ih]
    rfl

theorem consumed_snoc (o : List Shown) (id : Nat) (fields : Fields) :
    consumed (o ++ [.consumed id fields]) = consumed o ++ [(id, fields)] := by
  simp [consumed]

theorem consumed_restarted (o : List Shown) : consumed (o ++ [.restarted]) = [] := by
  simp [consumed]

/-- A thread that keeps the loop from starting another one is alive and watches
the execution under the announced id. -/
theorem Filed.watching (hf : Filed d) {text : String} (hw : d.watching text = true) :
    ∃ watch ∈ d.threads, watch.execution.text = text ∧ isAlive watch = true := by
  unfold Dispatcher.watching at hw
  cases hl : d.loop.watched.lookup text with
  | none => simp [hl] at hw
  | some i =>
    obtain ⟨pre, post, hmem, -⟩ := List.lookup_eq_some_iff.mp hl
    obtain ⟨watch, hwatch, htext⟩ := hf.named (text, i) (by simp [hmem])
    refine ⟨watch, List.mem_of_getElem? hwatch, htext, ?_⟩
    simpa [hl, Dispatcher.aliveAt, hwatch] using hw

theorem Filed.start (world : World) : Filed (.start world) := by
  constructor
  · intro entry h
    cases h
  · intro watch h
    cases h

theorem Filed.announced {fields : Fields} (hf : Filed d) (h : Announced d fields (.ok t)) :
    Filed t := by
  cases h with
  | skip _ => exact hf
  | @watch execution e delegateId _ _ _ _ =>
    constructor
    · intro entry he
      rcases List.mem_cons.mp he with rfl | he
      · exact ⟨.start execution (streamKeys execution.text (Uuid.str delegateId)),
          List.getElem?_concat_length, rfl⟩
      · obtain ⟨watch, hwatch, htext⟩ := hf.named entry (List.mem_of_mem_filter he)
        exact ⟨watch, (List.getElem?_append_left (List.getElem?_eq_some_iff.mp hwatch).1).trans hwatch, htext⟩
    · exact forall_mem_concat hf.keys ⟨_, rfl⟩

theorem Filed.step (hf : Filed d) (h : Moved host d a t o) : Filed t := by
  cases h with
  | read _ _ => exact ⟨hf.named, hf.keys⟩
  | readLost _ => exact hf
  | batchDone _ => exact ⟨fun entry he => hf.named entry (List.mem_of_mem_filter he), hf.keys⟩
  | @consume id fields rest _ _ ha =>
    exact Filed.announced (d := d.goto id (.handling rest)) ⟨hf.named, hf.keys⟩ ha
  | crash _ _ => exact ⟨hf.named, hf.keys⟩
  | @thread i watch watch' input world seen hw hm =>
    obtain ⟨hexec, hkeys⟩ := moves_same hm
    constructor
    · intro entry he
      obtain ⟨w, hget, htext⟩ := hf.named entry he
      by_cases hi : entry.2 = i
      · subst hi
        obtain rfl := Option.some.inj (hw.symm.trans hget)
        refine ⟨watch', ?_, by rw [hexec, htext]⟩
        exact List.getElem?_set_self (List.getElem?_eq_some_iff.mp hw).1
      · exact ⟨w, by rw [List.getElem?_set_ne (Ne.symm hi)]; exact hget, htext⟩
    · refine forall_mem_set hf.keys ?_
      rw [hexec, hkeys]
      exact hf.keys watch (List.mem_of_getElem? hw)
  | publish => exact ⟨hf.named, hf.keys⟩
  | others => exact ⟨hf.named, hf.keys⟩
  | restart => exact .start _

/-- The global stream is only ever appended to. -/
theorem log_grows (hf : Filed d) (h : Moved host d a t o) :
    d.log.history <+: t.log.history ∧ t.log.removed = d.log.removed := by
  have same : d.log.history <+: d.log.history ∧ d.log.removed = d.log.removed :=
    ⟨List.prefix_refl _, rfl⟩
  cases h with
  | consume _ ha =>
    cases ha with
    | skip _ => exact same
    | watch _ _ _ _ =>
      simp only [Dispatcher.log, Dispatcher.watch]
      split <;> exact same
  | @thread i watch watch' input world seen hw hm =>
    obtain ⟨delegateId, hkeys⟩ := hf.keys _ (List.mem_of_getElem? hw)
    have outside (k : Kind) : watch.keys.key k ≠ globalExecutionEventsStream := by
      rw [hkeys]
      exact key_ne_global _ _ k
    have hlog : (Dispatcher.mk world d.loop (d.threads.set i watch')).log = d.log :=
      moves_outside hm outside
    rw [hlog]
    exact same
  | publish => exact xadd_history d.world _ _ _
  | _ => exact same

theorem announced_loop {fields : Fields} (h : Announced d fields (.ok t)) :
    t.loop.lastId = d.loop.lastId ∧ t.loop.point = d.loop.point ∧ t.log = d.log := by
  cases h with
  | skip _ => exact ⟨rfl, rfl, rfl⟩
  | watch _ _ _ _ =>
    refine ⟨rfl, rfl, ?_⟩
    simp only [Dispatcher.log, Dispatcher.watch]
    split <;> rfl

/-- What the loop survives names its execution by a UUID. -/
theorem announced_parsable {fields : Fields} (hf : Filed d) (h : Announced d fields (.ok t)) :
    Parsable fields := by
  intro text ha hp
  cases h with
  | skip hskip =>
    rcases hskip text ha with hw | ⟨id, hid, -⟩
    · obtain ⟨watch, -, rfl, -⟩ := hf.watching hw
      rw [watch.execution.names] at hp
      cases hp
    · rw [hid] at hp
      cases hp
  | @watch execution e delegateId ha' _ _ _ =>
    obtain rfl : text = execution.text := Option.some.inj (ha.2.1.symm.trans ha'.2.1)
    rw [execution.names] at hp
    cases hp

theorem announced_error {fields : Fields} {e : PyError} (h : Announced d fields (.error e)) :
    ¬ Parsable fields := by
  cases h with
  | unparsed ha _ hp =>
    intro parsable
    exact parsable _ ha hp

theorem Consuming.start (world : World) : Consuming (.start world) [] where
  behind := Nat.zero_le _
  next := List.nil_prefix
  whole := rfl
  lives := by
    constructor
    · intro _ entry he
      cases he
    · intro _ e he
      cases he

/-- The stream grows while the loop keeps its place. -/
theorem Consuming.grow (hc : Consuming d o) (hloop : t.loop = d.loop)
    (hgrown : d.log.history <+: t.log.history ∧ t.log.removed = d.log.removed)
    (hout : consumed (o ++ o') = consumed o) : Consuming t (o ++ o') := by
  obtain ⟨⟨ms, hms⟩, kept⟩ := hgrown
  have tail := unread_grown hms.symm kept hc.behind
  refine ⟨?_, ?_, ?_, ?_⟩
  · rw [hloop]
    exact Nat.le_trans hc.behind (hms ▸ (List.prefix_append _ _).length_le)
  · rw [hloop, tail]
    exact hc.next.trans (List.prefix_append _ _)
  · rw [hout, hloop, tail, unread_grown hms.symm kept (Nat.zero_le _), ← hc.whole,
      List.append_assoc]
  · rw [hout, hloop]
    exact hc.lives

/-- The loop takes the next entry. -/
theorem Consuming.take (hc : Consuming d o) {id : Nat} {fields : Fields}
    {rest : List (Nat × Fields)} (hp : d.loop.point = .handling ((id, fields) :: rest))
    (hlog : t.log = d.log) (hid : t.loop.lastId = id)
    (hnext : toHandle t.loop.point = rest ∨ toHandle t.loop.point = [])
    (hlives : (∀ e, t.loop.point ≠ .crashed e) ↔ Parsable fields) :
    Consuming t (o ++ [.consumed id fields]) := by
  have hn := hc.next
  rw [hp, toHandle] at hn
  obtain ⟨later, hl⟩ := hn
  obtain ⟨-, hle, -, hunread⟩ := unread_cons hl.symm
  have before : ∀ e, d.loop.point ≠ .crashed e := by simp [hp]
  refine ⟨?_, ?_, ?_, ?_⟩
  · rw [hid, hlog]
    exact hle
  · rw [hid, hlog, hunread]
    rcases hnext with hnext | hnext
    · rw [hnext]
      exact List.prefix_append _ _
    · rw [hnext]
      exact List.nil_prefix
  · rw [consumed_snoc, hid, hlog, hunread, ← hc.whole, ← hl]
    simp
  · rw [hlives, consumed_snoc]
    constructor
    · intro parsable entry he
      rcases List.mem_append.mp he with he | he
      · exact hc.lives.mp before entry he
      · obtain rfl := List.mem_singleton.mp he
        exact parsable
    · intro all
      exact all (id, fields) (List.mem_append_right _ (List.mem_singleton_self _))

theorem Consuming.step (hc : Consuming d o) (hf : Filed d) (h : Moved host d a t o') :
    Consuming t (o ++ o') := by
  have hgrown := log_grows hf h
  cases h with
  | read hp _ =>
    rw [List.append_nil]
    refine ⟨hc.behind, List.take_prefix _ _, hc.whole, ?_⟩
    rw [← hc.lives]
    simp [hp, Dispatcher.goto]
  | readLost _ =>
    rw [List.append_nil]
    exact hc
  | batchDone hp =>
    rw [List.append_nil]
    refine ⟨hc.behind, List.nil_prefix, hc.whole, ?_⟩
    rw [← hc.lives]
    simp [hp, Dispatcher.prune]
  | @consume id fields rest _ hp ha =>
    obtain ⟨hid, hpoint, hlog⟩ := announced_loop ha
    refine hc.take hp hlog hid (Or.inl (by rw [hpoint]; rfl)) ⟨fun _ => ?_, fun _ e he => ?_⟩
    · exact announced_parsable (d := d.goto id (.handling rest)) ⟨hf.named, hf.keys⟩ ha
    · rw [hpoint] at he
      cases he
  | crash hp ha =>
    refine hc.take hp rfl rfl (Or.inr rfl) ⟨fun alive => ?_, fun parsable => ?_⟩
    · exact False.elim (alive _ rfl)
    · exact False.elim (announced_error ha parsable)
  | thread _ _ => exact hc.grow rfl hgrown (consumed_thread _ _ _)
  | publish => exact hc.grow rfl hgrown (by rw [List.append_nil])
  | others =>
    exact hc.grow (t := { d with world := _ }) rfl hgrown (by rw [List.append_nil])
  | restart =>
    have hs := Consuming.start d.world
    refine ⟨hs.behind, hs.next, ?_, ?_⟩
    · rw [consumed_restarted]
      exact hs.whole
    · rw [consumed_restarted]
      exact hs.lives

/-- A valid announcement starts its watcher. -/
theorem valid_served {id : Nat} {fields : Fields} {rest : List (Nat × Fields)} {execution : Named}
    {delegateId : Uuid.UUID} (hf : Filed d) (h : Moved host d (.loop .handle) t o)
    (hp : d.loop.point = .handling ((id, fields) :: rest))
    (valid : Valid d fields execution delegateId) :
    t.threads = d.threads ++
      [.start execution (streamKeys execution.text (Uuid.str delegateId))] := by
  have announces : Announces fields execution.text :=
    ⟨valid.type, valid.names, named_ne_empty execution⟩
  obtain ⟨e, he, hassigned⟩ := valid.assigned
  cases h with
  | batchDone hp' =>
    rw [hp] at hp'
    cases hp'
  | crash hp' ha =>
    rw [hp] at hp'
    cases hp'
    cases ha with
    | unparsed ha _ hnone =>
      obtain rfl := Option.some.inj (announces.2.1.symm.trans ha.2.1)
      rw [execution.names] at hnone
      cases hnone
  | consume hp' ha =>
    rw [hp] at hp'
    cases hp'
    cases ha with
    | skip hskip =>
      rcases hskip _ announces with hw | ⟨u, hu, hnone⟩
      · obtain ⟨watch, hmem, htext, halive⟩ :=
          Filed.watching (d := d.goto id (.handling rest)) ⟨hf.named, hf.keys⟩ hw
        have dead := valid.free watch hmem (congrArg Named.id (named_ext htext))
        rw [halive] at dead
        cases dead
      · obtain rfl := Option.some.inj (execution.names.symm.trans hu)
        rw [hnone e he] at hassigned
        cases hassigned
    | @watch execution' e' delegateId' ha _ he' hassigned' =>
      obtain rfl : execution' = execution :=
        named_ext (Option.some.inj (ha.2.1.symm.trans announces.2.1))
      obtain rfl := Option.some.inj (he'.symm.trans he)
      obtain rfl := Option.some.inj (hassigned'.symm.trans hassigned)
      rfl

/-- The loop can take what it has in hand. -/
theorem drain_batch (host : Host) {rest : List (Nat × Fields)} (hf : Filed d)
    (hp : d.loop.point = .handling rest) (hnext : rest <+: d.log.unread d.loop.lastId)
    (parsable : ∀ entry ∈ rest, Parsable entry.2) :
    ∃ (inputs : List LoopInput) (t : Dispatcher) (o : List Shown),
      Run (dispatching host) Free d (inputs.map Action.loop) t o ∧ Filed t ∧
      t.loop.point = .reading ∧ t.log = d.log ∧
      rest ++ t.log.unread t.loop.lastId = d.log.unread d.loop.lastId := by
  induction rest generalizing d with
  | nil =>
    have hs : (dispatching host).step d (.loop .handle) = some (d.prune, []) := by
      simp [dispatching, loopStep, hp]
    exact ⟨[.handle], _, _, .single trivial hs, hf.step (dispatching_moved hs), rfl, rfl, rfl⟩
  | cons entry rest ih =>
    obtain ⟨id, fields⟩ := entry
    obtain ⟨later, hl⟩ := hnext
    obtain ⟨-, -, -, hunread⟩ := unread_cons hl.symm
    have ha := announce_cases (d.goto id (.handling rest)) fields
    cases hd : announce (d.goto id (.handling rest)) fields with
    | error e =>
      rw [hd] at ha
      exact False.elim (announced_error ha (parsable _ (List.mem_cons_self ..)))
    | ok d₁ =>
      rw [hd] at ha
      have hs : (dispatching host).step d (.loop .handle) = some (d₁, [.consumed id fields]) := by
        simp [dispatching, loopStep, hp, hd]
      obtain ⟨hid, hpoint, hlog⟩ := announced_loop ha
      have hlog₁ : d₁.log = d.log := hlog
      have hid₁ : d₁.loop.lastId = id := hid
      have hnext₁ : d₁.log.unread d₁.loop.lastId = rest ++ later := by
        rw [hlog₁, hid₁, hunread]
        rfl
      obtain ⟨inputs, t, o, hr, hf', hp', hlog', hrest⟩ := ih (hf.step (dispatching_moved hs))
        hpoint (hnext₁ ▸ List.prefix_append _ _)
        (fun entry he => parsable entry (List.mem_cons_of_mem _ he))
      refine ⟨.handle :: inputs, t, _, (Run.single trivial hs).append hr, hf', hp',
        hlog'.trans hlog₁, ?_⟩
      rw [List.cons_append, hrest, hnext₁, ← hl]
      rfl

theorem drain_stream (host : Host) (n : Nat) (hf : Filed d) (hp : d.loop.point = .reading)
    (hn : (d.log.unread d.loop.lastId).length ≤ n)
    (parsable : ∀ entry ∈ d.log.unread d.loop.lastId, Parsable entry.2) : Drains host d := by
  induction n generalizing d with
  | zero =>
    exact ⟨[], d, [], .start, hp, rfl, List.eq_nil_of_length_eq_zero (Nat.le_zero.mp hn)⟩
  | succ n ih =>
    cases hu : d.log.unread d.loop.lastId with
    | nil => exact ⟨[], d, [], .start, hp, rfl, hu⟩
    | cons entry later =>
      have hs : (dispatching host).step d (.loop (.xread 1)) =
          some (d.goto d.loop.lastId (.handling [entry]), []) := by
        simp [dispatching, loopStep, hp, Log.read, hu, maxCount]
      obtain ⟨inputs, t, o, hr, hf', hp', hlog', hrest⟩ := drain_batch host
        (hf.step (dispatching_moved hs)) rfl (hu ▸ ⟨later, rfl⟩)
        (fun x hx => parsable x (hu ▸ List.mem_cons.mpr (Or.inl (List.mem_singleton.mp hx))))
      have hlater : t.log.unread t.loop.lastId = later :=
        (List.cons.inj (hrest.trans hu)).2
      obtain ⟨inputs', t', o', hr', hp'', hlog'', hempty⟩ := ih hf' hp'
        (by rw [hlater]; rw [hu, List.length_cons] at hn; omega)
        (fun x hx => parsable x (hu ▸ List.mem_cons_of_mem _ (hlater ▸ hx)))
      refine ⟨.xread 1 :: (inputs ++ inputs'), t', [] ++ (o ++ o'), ?_, hp'', hlog''.trans hlog', hempty⟩
      rw [List.map_cons, List.map_append]
      exact (Run.single trivial hs).append (hr.append hr')

theorem drains (hf : Filed d) (hc : Consuming d o) (alive : ∀ e, d.loop.point ≠ .crashed e)
    (parsable : ∀ entry ∈ d.log.unread d.loop.lastId, Parsable entry.2) : Drains host d := by
  cases hp : d.loop.point with
  | crashed e => exact False.elim (alive e hp)
  | reading => exact drain_stream host _ hf hp (Nat.le_refl _) parsable
  | handling rest =>
    have hnext := hc.next
    rw [hp, toHandle] at hnext
    obtain ⟨inputs, t, o', hr, hf', hp', hlog, hrest⟩ := drain_batch host hf hp hnext
      (fun entry he => parsable entry (hnext.subset he))
    obtain ⟨inputs', t', o'', hr', hp'', hlog', hempty⟩ := drain_stream host _ hf' hp'
      (Nat.le_refl _)
      (fun entry he => parsable entry (hrest ▸ List.mem_append_right _ he))
    refine ⟨inputs ++ inputs', t', o' ++ o'', ?_, hp'', hlog'.trans hlog, hempty⟩
    rw [List.map_append]
    exact hr.append hr'

end Steps

section Runs
variable {host : Host} {world : World} {d : Dispatcher} {as : List Action} {o : List Shown}

theorem consuming_run (h : Run (dispatching host) Free (.start world) as d o) :
    Filed d ∧ Consuming d o := by
  refine h.invariant (fun d o => Filed d ∧ Consuming d o) ⟨.start world, .start world⟩ ?_
  rintro d o a t o' ⟨hf, hc⟩ _ hs
  exact ⟨hf.step (dispatching_moved hs), hc.step hf (dispatching_moved hs)⟩

theorem served (as : List Action) : Served host (.start world) as := by
  intro before d t o o' id fields rest execution delegateId _ hr hs hp valid
  exact valid_served (consuming_run hr).1 (dispatching_moved hs) hp valid

/-- In every run, through any number of restarts, the loop serves the stream
exactly if each announcement on it that names anything names it by a UUID. -/
theorem serves_iff_parsable (h : Run (dispatching host) Free (.start world) as d o) :
    Serves host (.start world) as d o ↔ ∀ entry ∈ d.log.unread 0, Parsable entry.2 := by
  obtain ⟨hf, hc⟩ := consuming_run h
  constructor
  · intro hserves
    obtain ⟨inputs, t, o', hr, hp, hlog, hempty⟩ := hserves.drains
    have hc' := (consuming_run (h.append hr)).2
    have hall := hc'.whole
    rw [hempty, List.append_nil, hlog] at hall
    rw [← hall]
    refine hc'.lives.mp (fun e he => ?_)
    rw [hp] at he
    cases he
  · intro parsable
    have alive : ∀ e, d.loop.point ≠ .crashed e := by
      refine hc.lives.mpr (fun entry he => parsable entry ?_)
      rw [← hc.whole]
      exact List.mem_append_left _ he
    refine ⟨alive, hc.whole, served as, drains hf hc alive (fun entry he => parsable entry ?_)⟩
    rw [← hc.whole]
    exact List.mem_append_right _ he

/-- An announcement that names no UUID, and the start of a second main loop. -/
def notUuid : List Action :=
  [.publish globalExecutionEventsStream
      [("type", "EXECUTION_STARTED"), ("execution_id", "not-a-uuid")],
    .loop (.xread 50), .loop .handle, .restart, .loop (.xread 50), .loop .handle]

theorem notUuid_crashed : (replay (dispatching smallHost) (.start (smallWorld .queued)) notUuid).any
    (fun r => match r.1.loop.point with
      | .crashed _ => true
      | _ => false) = true := by
  decide +kernel

theorem notUuid_serves_iff :
    ∃ d o, Run (dispatching smallHost) Free (.start (smallWorld .queued)) notUuid d o ∧
      (Serves smallHost (.start (smallWorld .queued)) notUuid d o ↔
        ∀ entry ∈ d.log.unread 0, Parsable entry.2) := by
  obtain ⟨d, o, h, -⟩ := run_of_replay_test notUuid_crashed
  exact ⟨d, o, h, serves_iff_parsable h⟩

theorem notUuid_kills_loops :
    ∃ d o, Run (dispatching smallHost) Free (.start (smallWorld .queued)) notUuid d o ∧
      ¬ Serves smallHost (.start (smallWorld .queued)) notUuid d o := by
  obtain ⟨d, o, h, crashed⟩ := run_of_replay_test notUuid_crashed
  refine ⟨d, o, h, ?_⟩
  intro hserves
  cases hp : d.loop.point with
  | crashed e => exact hserves.alive e hp
  | _ => simp [hp] at crashed

end Runs

end Announcements
