import DelegateProtocol.ExecutionLogs
import DelegateProtocol.TerminalStatus
import Mathlib.Data.List.Forall2

/-!
# Restarts of the dispatcher

The cursors, the number of log lines and the output being reassembled live in
the memory of a watcher. What a watcher persists it persists once; the watcher
of the next process begins at the start of the streams and persists it again.
-/

namespace Restarts

open AppendLog Handlers Models Runtime StepMachine Streams WatchExecution ReadingOrder
  TerminalStatus ExecutionLogs

inductive Move where
  | act (a : Act)
  | restart

inductive Told where
  | seen (x : Seen)
  | restarted

/-- One execution whose dispatcher may be stopped at any point. The next main
loop reads the announcement again and starts a new watcher. -/
def restarting (host : Host) (execution : Named) (keys : Keys) : Machine System Move Told where
  step s move :=
    match move with
    | .act a => ((watching host).step s a).map (fun r => (r.1, r.2.map .seen))
    | .restart => some (⟨s.world, .start execution keys⟩, [.restarted])

/-- What the watchers of earlier processes have shown, and what this one has. -/
def split : List Told → List (List Seen) × List Seen :=
  List.foldl (fun told x =>
    match x with
    | .seen x => (told.1, told.2 ++ [x])
    | .restarted => (told.1 ++ [told.2], [])) ([], [])

def lives (o : List Told) : List (List Seen) := (split o).1 ++ [(split o).2]

/-- The requests that were answered in full, and counted. -/
def answered (life : List Seen) : List Nat :=
  life.filterMap (fun x =>
    match x with
    | .answered request _ _ => some request.id
    | _ => none)

/-- The messages published in answer to one request. -/
def sentFor (id : Nat) (life : List Seen) : List Fields :=
  life.filterMap (fun x =>
    match x with
    | .published _ message request _ => if request.id = id then some message else none
    | _ => none)

/-- The watcher has stored each LOG message it has read once, under the numbers
1, 2, 3, … in the order of the stream, and has answered each request with one
transfer at most. -/
structure PersistsOnce (s : System) (life : List Seen) (rows : List ExecutionLog) : Prop where
  reads : ∀ k, ∃ base, base ≤ (s.log k).history.length ∧
    handledOf k life <+: entries base (s.log k)
  rows : ∃ stored, stored <+: handledOf .log life ∧
    rows = logRows s.watch.execution.id (logLines stored)
  answered : (answered life).Pairwise (fun id id' => id < id')
  transfers : ∀ id, ∃ fields transferId zip,
    sentFor id life <+: workspaceMessages s.watch.execution fields transferId zip

/-- The rows of the execution are those from before and what these watchers have
persisted one after another. -/
structure Persisted (world : World) (s : System) (lives : List (List Seen)) : Prop where
  logs : ∃ rows, List.Forall₂ (PersistsOnce s) lives rows ∧
    s.world.store.db.logsOf s.watch.execution.id =
      world.store.db.logsOf s.watch.execution.id ++ rows.flatten
  counted : ∀ e, s.row = some e → ∃ e₀,
    world.store.db.execution s.watch.execution.id = some e₀ ∧
    e.transferAttempts = e₀.transferAttempts + (lives.map (fun life => (answered life).length)).sum

section Rows
variable {host : Host} {s t : System} {a : Act} {o o' : List Seen} {base : List ExecutionLog}

/-- The rows of a watcher, also of one that has died over a message. -/
def Stored (base : List ExecutionLog) (s : System) (o : List Seen) : Prop :=
  ∃ stored, stored <+: handledOf .log o ∧
    s.world.store.db.logsOf s.watch.execution.id =
      base ++ logRows s.watch.execution.id (logLines stored)

theorem Stored.later (hs : Stored base s o) (hexec : t.watch.execution = s.watch.execution)
    (hrows : t.world.store.db.logsOf s.watch.execution.id =
      s.world.store.db.logsOf s.watch.execution.id) : Stored base t (o ++ o') := by
  obtain ⟨stored, hpre, hstored⟩ := hs
  refine ⟨stored, ?_, by rw [hexec, hrows, hstored]⟩
  rw [handledOf_append]
  exact hpre.trans (List.prefix_append _ _)

theorem raised_rows {input : Input} {world : World} {watch : Watch}
    (h : Moves host s.world s.watch input world watch o) (raised : Raised ⟨world, watch⟩) :
    world.store.db.logsOf s.watch.execution.id =
      s.world.store.db.logsOf s.watch.execution.id := by
  obtain ⟨e, he⟩ := raised
  cases h with
  | message _ _ _ => cases he
  | saved _ _ => cases he
  | _ => rfl

theorem Stored.step (hs : Stored base s o) (hl : Raised s ∨ Logged base s o)
    (h : (watching host).step s a = some (t, o')) : Stored base t (o ++ o') := by
  cases a with
  | watcher input =>
    have hm := watching_watcher h
    rcases Logged.step hl h with raised | logged
    · exact hs.later (moves_same hm).1 (raised_rows hm raised)
    · exact ⟨handledOf .log (o ++ o'), List.prefix_refl _, logged.rows⟩
  | publish key fields =>
    obtain ⟨rfl, rfl⟩ := watching_publish h
    exact hs.later rfl rfl
  | others store =>
    obtain ⟨hleft, rfl, rfl⟩ := watching_others h
    exact hs.later rfl hleft.2.1

theorem stored_run {world : World} {execution : Named} {keys : Keys} {as : List Act}
    (h : Run (watching host) Free ⟨world, .start execution keys⟩ as s o) :
    Stored (world.store.db.logsOf execution.id) s o := by
  refine h.invariant_along (fun _ s o => Stored (world.store.db.logsOf execution.id) s o) ?_ ?_
  · exact ⟨[], List.nil_prefix, (List.append_nil _).symm⟩
  · intro as s o a t o' hr hs _ hstep
    exact hs.step (logged_run hr) hstep

end Rows

/-- The request a watcher is at, with the row it has read for it. -/
def inService : Point → Option (Message × Execution)
  | .authorizing read request _ => some (request, read)
  | .sending request grant _ _ _ => some (request, grant.execution)
  | _ => none

/-- What a watcher has answered and published so far. -/
structure Recorded (world : World) (s : System) (o : List Seen) : Prop where
  requests : (answered o).Sublist ((handledOf .events o).map Prod.fst)
  heard : ∀ id, sentFor id o ≠ [] → id ∈ (handledOf .events o).map Prod.fst
  transfers : ∀ id, ∃ fields transferId zip,
    sentFor id o <+: workspaceMessages s.watch.execution fields transferId zip
  counted : ∀ e, s.row = some e → ∃ e₀,
    world.store.db.execution s.watch.execution.id = some e₀ ∧
    e.transferAttempts = e₀.transferAttempts + (answered o).length

/-- And where it stands with the request it is at, the last one it has handled. -/
structure Answering (world : World) (s : System) (o : List Seen) : Prop
    extends Recorded world s o where
  service : ∀ request read, inService s.watch.point = some (request, read) →
    (∃ earlier, handledOf .events o = earlier ++ [(request.id, request.fields)] ∧
      (answered o).Sublist (earlier.map Prod.fst)) ∧
    ∀ e, s.row = some e → read.transferAttempts = e.transferAttempts
  begun : ∀ read request rest, s.watch.point = .authorizing read request rest →
    sentFor request.id o = []
  sending : ∀ request grant transferId pending rest,
    s.watch.point = .sending request grant transferId pending rest →
    sentFor request.id o ++ pending =
      workspaceMessages s.watch.execution request.fields transferId grant.zip

theorem answered_append (o o' : List Seen) : answered (o ++ o') = answered o ++ answered o' :=
  List.filterMap_append

theorem sentFor_append (id : Nat) (o o' : List Seen) :
    sentFor id (o ++ o') = sentFor id o ++ sentFor id o' :=
  List.filterMap_append

theorem answered_quiet {o' : List Seen} (h : answered o' = []) (o : List Seen) :
    answered (o ++ o') = answered o := by
  rw [answered_append, h, List.append_nil]

theorem sentFor_quiet {id : Nat} {o' : List Seen} (h : sentFor id o' = []) (o : List Seen) :
    sentFor id (o ++ o') = sentFor id o := by
  rw [sentFor_append, h, List.append_nil]

section Answers
variable {host : Host} {world : World} {s t : System} {a : Act} {o o' : List Seen}

theorem Answering.start (world : World) (execution : Named) (keys : Keys) :
    Answering world ⟨world, .start execution keys⟩ [] where
  requests := List.Sublist.refl _
  heard _ hn := False.elim (hn rfl)
  transfers _ := ⟨[], "", ⟨[], Nat.zero_le _⟩, List.nil_prefix⟩
  counted e he := ⟨e, he, rfl⟩
  service _ _ hp := by cases hp
  begun _ _ _ hp := by cases hp
  sending _ _ _ _ _ hp := by cases hp

/-- A step that answers and publishes nothing. -/
theorem Recorded.quiet (hi : Recorded world s o) (hexec : t.watch.execution = s.watch.execution)
    (hrow : ∀ e, t.row = some e → ∃ e', s.row = some e' ∧
      e.transferAttempts = e'.transferAttempts)
    (hanswered : answered o' = []) (hsent : ∀ id, sentFor id o' = []) :
    Recorded world t (o ++ o') := by
  constructor
  · rw [answered_quiet hanswered, handledOf_append, List.map_append]
    exact hi.requests.trans (List.sublist_append_left _ _)
  · intro id hn
    rw [sentFor_quiet (hsent id)] at hn
    rw [handledOf_append, List.map_append]
    exact List.mem_append_left _ (hi.heard id hn)
  · intro id
    rw [sentFor_quiet (hsent id), hexec]
    exact hi.transfers id
  · intro e he
    obtain ⟨e', he', hsame⟩ := hrow e he
    rw [answered_quiet hanswered, hexec, hsame]
    exact hi.counted e' he'

/-- A watcher that is at no request. -/
theorem Recorded.free (hr : Recorded world t o) (hfree : inService t.watch.point = none) :
    Answering world t o := by
  refine ⟨hr, ?_, ?_, ?_⟩
  · intro request read hp
    rw [hfree] at hp
    cases hp
  · intro read request rest hp
    rw [hp] at hfree
    cases hfree
  · intro request grant transferId pending rest hp
    rw [hp] at hfree
    cases hfree

/-- A step of somebody else. -/
theorem Answering.aside (hi : Answering world s o) (hwatch : t.watch = s.watch)
    (hrow : t.row = s.row) : Answering world t (o ++ []) := by
  rw [List.append_nil]
  refine ⟨⟨hi.requests, hi.heard, ?_, ?_⟩, ?_, ?_, ?_⟩
  · rw [hwatch]
    exact hi.transfers
  · rw [hwatch, hrow]
    exact hi.counted
  · rw [hwatch, hrow]
    exact hi.service
  · rw [hwatch]
    exact hi.begun
  · rw [hwatch]
    exact hi.sending

/-- Only a save counts a transfer. -/
theorem moves_attempts {input : Input} {world' : World} {watch : Watch}
    (h : Moves host s.world s.watch input world' watch o') (unsaved : input ≠ .save) (e : Execution)
    (he : world'.store.db.execution s.watch.execution.id = some e) :
    ∃ e', s.row = some e' ∧ e.transferAttempts = e'.transferAttempts := by
  cases h with
  | message hp _ heffect =>
    obtain ⟨f, hf, hw⟩ := effects_row hp (effect_ok heffect)
    have he' : (s.world.store.db.execution s.watch.execution.id).map f = some e := hw.symm.trans he
    obtain ⟨e', hrow, rfl⟩ := Option.map_eq_some_iff.mp he'
    refine ⟨e', hrow, ?_⟩
    cases hf with
    | saved hp' =>
      rw [hp] at hp'
      cases hp'
    | _ => rfl
  | saved _ _ => exact False.elim (unsaved rfl)
  | _ => exact ⟨e, he, rfl⟩

/-- One more message of the answer to the request the watcher is at. -/
theorem Answering.published (hi : Answering world s o) {request : Message} {grant : Grant}
    {transferId : String} {m : Fields} {pending : List Fields} {rest : List Message}
    (hp : s.watch.point = .sending request grant transferId (m :: pending) rest)
    (hexec : t.watch.execution = s.watch.execution) (hrow : t.row = s.row) {key : String} :
    Recorded world t (o ++ [.published key m request grant]) := by
  have hall := hi.sending request grant transferId (m :: pending) rest hp
  obtain ⟨⟨earlier, hearlier, -⟩, -⟩ := hi.service request grant.execution (by rw [hp]; rfl)
  have hhandled := @handledOf_quiet .events [.published key m request grant] (by simp) o
  have hanswered := @answered_quiet [.published key m request grant] rfl o
  constructor
  · rw [hhandled, hanswered]
    exact hi.requests
  · intro id hn
    rw [hhandled]
    by_cases hid : request.id = id
    · rw [← hid, hearlier]
      simp
    · apply hi.heard id
      simpa [sentFor_append, sentFor, hid] using hn
  · intro id
    rw [hexec]
    by_cases hid : request.id = id
    · refine ⟨request.fields, transferId, grant.zip, ?_⟩
      rw [← hall, sentFor_append, hid]
      refine ⟨pending, ?_⟩
      simp [sentFor, hid]
    · have hsame : sentFor id (o ++ [.published key m request grant]) = sentFor id o := by
        simp [sentFor, hid]
      rw [hsame]
      exact hi.transfers id
  · rw [hanswered, hexec, hrow]
    exact hi.counted

/-- A request is taken up: nothing has been sent for it before. -/
theorem Answering.takesUp (hi : Answering world s o) {m : Message} {rest : List Message}
    {read : Execution} (hm : m.IsRequest) (hr : s.row = some read)
    (ids : ((handledOf .events (o ++ [.handled m])).map Prod.fst).Pairwise
      (fun id id' => id < id')) (recorded : Recorded world t (o ++ [.handled m]))
    (hp : t.watch.point = .authorizing read m rest) (hrow : t.row = s.row) :
    Answering world t (o ++ [.handled m]) := by
  have hhandled : handledOf .events (o ++ [.handled m]) =
      handledOf .events o ++ [(m.id, m.fields)] := by
    rw [handledOf_append]
    simp [handledOf, hm.1]
  refine ⟨recorded, ?_, ?_, ?_⟩
  · intro request read' hp'
    rw [hp] at hp'
    cases hp'
    refine ⟨⟨handledOf .events o, hhandled, ?_⟩, ?_⟩
    · rw [answered_quiet rfl]
      exact hi.requests
    · intro e he
      cases hr.symm.trans (hrow.symm.trans he)
      rfl
  · intro read' request rest' hp'
    rw [hp] at hp'
    cases hp'
    by_contra hn
    rw [sentFor_append] at hn
    have hold := hi.heard m.id (by simpa [sentFor] using hn)
    rw [hhandled, List.map_append, List.pairwise_append] at ids
    have hlt := ids.2.2 m.id hold m.id (by simp)
    omega
  · intro request grant transferId pending rest' hp'
    rw [hp] at hp'
    cases hp'

/-- The watcher stays with its request, with this much of the answer to go. -/
theorem Answering.goesOn (hi : Answering world s o) {request : Message} {read : Execution}
    (before : inService s.watch.point = some (request, read)) {grant : Grant}
    {transferId : String} {pending : List Fields} {rest : List Message}
    (recorded : Recorded world t (o ++ o'))
    (hp : t.watch.point = .sending request grant transferId pending rest)
    (hread : grant.execution = read) (hrow : t.row = s.row)
    (hhandled : ∀ m, Seen.handled m ∉ o') (hanswered : answered o' = [])
    (hsent : sentFor request.id (o ++ o') ++ pending =
      workspaceMessages t.watch.execution request.fields transferId grant.zip) :
    Answering world t (o ++ o') := by
  refine ⟨recorded, ?_, ?_, ?_⟩
  · intro request' read' hp'
    rw [hp] at hp'
    cases hp'
    rw [handledOf_quiet hhandled, answered_quiet hanswered, hread, hrow]
    exact hi.service request read before
  · intro read' request' rest' hp'
    rw [hp] at hp'
    cases hp'
  · intro request' grant' transferId' pending' rest' hp'
    rw [hp] at hp'
    cases hp'
    exact hsent

/-- The answer is complete, and the transfer is counted. -/
theorem Answering.saves (hi : Answering world s o) {request : Message} {grant : Grant}
    {transferId : String} {rest : List Message} {db : DB}
    (hp : s.watch.point = .sending request grant transferId [] rest)
    (hs : saveTransfer s.watch.execution request.fields grant.execution transferId
      s.world.store.db = .ok db) (hexec : t.watch.execution = s.watch.execution)
    (hdb : t.world.store.db = db) :
    Recorded world t (o ++ [.answered request grant transferId]) := by
  obtain ⟨⟨earlier, hearlier, hsub⟩, hread⟩ :=
    hi.service request grant.execution (by rw [hp]; rfl)
  have hhandled := @handledOf_quiet .events [.answered request grant transferId] (by simp) o
  have hanswered : answered (o ++ [.answered request grant transferId]) =
      answered o ++ [request.id] := by
    rw [answered_append]
    rfl
  have hsent (id : Nat) : sentFor id (o ++ [.answered request grant transferId]) = sentFor id o :=
    sentFor_quiet rfl o
  refine ⟨?_, ?_, ?_, ?_⟩
  · rw [hanswered, hhandled, hearlier, List.map_append]
    exact hsub.append (List.Sublist.refl _)
  · intro id hn
    rw [hsent] at hn
    rw [hhandled]
    exact hi.heard id hn
  · intro id
    rw [hsent, hexec]
    exact hi.transfers id
  · intro e he
    rw [System.row, hexec, hdb, (saveTransfer_ok hs).1] at he
    obtain ⟨e₁, hrow, rfl⟩ := Option.map_eq_some_iff.mp he
    obtain ⟨e₀, he₀, hcount⟩ := hi.counted e₁ hrow
    refine ⟨e₀, by rw [hexec]; exact he₀, ?_⟩
    rw [hanswered, List.length_append, List.length_singleton]
    have hgrant := hread e₁ hrow
    change grant.execution.transferAttempts + 1 = _
    omega

theorem Answering.moves (hi : Answering world s o) {input : Input} {world' : World} {watch : Watch}
    (h : Moves host s.world s.watch input world' watch o')
    (ids : ((handledOf .events (o ++ o')).map Prod.fst).Pairwise (fun id id' => id < id')) :
    Answering world ⟨world', watch⟩ (o ++ o') := by
  have hexec := (moves_same h).1
  have attempts (unsaved : input ≠ .save) (e : Execution)
      (he : System.row ⟨world', watch⟩ = some e) :
      ∃ e', s.row = some e' ∧ e.transferAttempts = e'.transferAttempts := by
    rw [System.row, hexec] at he
    exact moves_attempts h unsaved e he
  have quiet (unsaved : input ≠ .save) (hanswered : answered o' = [])
      (hsent : ∀ id, sentFor id o' = []) : Recorded world ⟨world', watch⟩ (o ++ o') :=
    hi.toRecorded.quiet hexec (attempts unsaved) hanswered hsent
  cases h with
  | request hp hm hr =>
    exact hi.takesUp hm hr ids (quiet (by simp) rfl (fun _ => rfl)) rfl rfl
  | @granted read request rest grant transferId hp hd =>
    have hread := (decideRequest_granted hd).2.1
    refine hi.goesOn (by rw [hp]; rfl) (quiet (by simp) rfl (fun _ => rfl)) rfl hread rfl (by simp)
      rfl ?_
    rw [sentFor_quiet rfl, hi.begun read request rest hp]
    rfl
  | @xadd request grant transferId m pending rest hp =>
    have recorded : Recorded world
        ⟨s.world.xadd s.watch.keys.events m,
          s.watch.goto (.sending request grant transferId pending rest)⟩
        (o ++ [.published s.watch.keys.events m request grant]) :=
      hi.published (t := ⟨s.world.xadd s.watch.keys.events m, _⟩) hp hexec rfl
    refine hi.goesOn (by rw [hp]; rfl) recorded rfl rfl rfl (by simp) rfl ?_
    have hall := hi.sending request grant transferId (m :: pending) rest hp
    have hone : sentFor request.id (o ++ [.published s.watch.keys.events m request grant]) =
        sentFor request.id o ++ [m] := by simp [sentFor]
    rw [hone, List.append_assoc]
    exact hall
  | @xaddUnanswered request grant transferId m pending rest hp =>
    exact (hi.published (t := ⟨s.world.xadd s.watch.keys.events m, _⟩) hp hexec rfl).free rfl
  | saved hp hs => exact Recorded.free (hi.saves hp hs hexec rfl) rfl
  | saveRaised _ _ =>
    refine (hi.toRecorded.quiet (t := ⟨_, _⟩) hexec ?_ rfl (fun _ => rfl)).free rfl
    intro e he
    exact ⟨e, he, rfl⟩
  | _ => exact (quiet (by simp) rfl (fun _ => rfl)).free rfl

theorem Answering.step (hi : Answering world s o)
    (ids : ((handledOf .events (o ++ o')).map Prod.fst).Pairwise (fun id id' => id < id'))
    (h : (watching host).step s a = some (t, o')) : Answering world t (o ++ o') := by
  cases a with
  | watcher input => exact hi.moves (watching_watcher h) ids
  | publish key fields =>
    obtain ⟨rfl, rfl⟩ := watching_publish h
    exact hi.aside rfl rfl
  | others store =>
    obtain ⟨hleft, rfl, rfl⟩ := watching_others h
    exact hi.aside rfl hleft.1

end Answers

section Lives
variable {host : Host} {execution : Named} {keys : Keys} {world : World} {s t : System}
variable {as : List Act} {a : Act} {o' : List Seen} {moves : List Move} {o : List Told}

theorem answering_run {life : List Seen}
    (h : Run (watching host) Free ⟨world, .start execution keys⟩ as s life) :
    Answering world s life := by
  refine h.invariant_along (fun _ s life => Answering world s life) (.start world execution keys) ?_
  intro as s life a t o' hr hi hok hs
  have first := (consecutive_run (hr.snoc hok hs)).2.first .events
  exact hi.step (handled_increasing first) hs

theorem watching_same (h : (watching host).step s a = some (t, o')) :
    t.watch.execution = s.watch.execution ∧ t.watch.keys = s.watch.keys := by
  cases a with
  | watcher input => exact moves_same (watching_watcher h)
  | publish key fields =>
    obtain ⟨rfl, -⟩ := watching_publish h
    exact ⟨rfl, rfl⟩
  | others store =>
    obtain ⟨-, rfl, -⟩ := watching_others h
    exact ⟨rfl, rfl⟩

theorem watching_history (h : (watching host).step s a = some (t, o')) (key : String) :
    (s.world.redis key).history <+: (t.world.redis key).history := by
  cases a with
  | watcher input => exact moves_history (watching_watcher h) key
  | publish key' fields =>
    obtain ⟨rfl, -⟩ := watching_publish h
    exact (xadd_history s.world key' fields key).1
  | others store =>
    obtain ⟨-, rfl, -⟩ := watching_others h
    exact List.prefix_refl _

/-- A watcher on its own persists what it persists once. -/
theorem persists_run {life : List Seen}
    (h : Run (watching host) Free ⟨world, .start execution keys⟩ as s life)
    (same : s.watch.execution = execution) :
    ∃ rows, PersistsOnce s life rows ∧
      s.world.store.db.logsOf execution.id = world.store.db.logsOf execution.id ++ rows := by
  obtain ⟨stored, hpre, hrows⟩ := stored_run h
  have consecutive := (consecutive_run h).2
  have answering := answering_run h
  rw [same] at hrows
  refine ⟨logRows execution.id (logLines stored), ?_, hrows⟩
  constructor
  · intro k
    exact ⟨_, consecutive.below k, consecutive.first k⟩
  · exact ⟨stored, hpre, by rw [same]⟩
  · exact (handled_increasing (consecutive.first .events)).sublist answering.requests
  · exact answering.transfers

theorem PersistsOnce.later {life : List Seen} {rows : List ExecutionLog}
    (h : PersistsOnce s life rows)
    (same : t.watch.execution = s.watch.execution ∧ t.watch.keys = s.watch.keys)
    (grown : ∀ key, (s.world.redis key).history <+: (t.world.redis key).history) :
    PersistsOnce t life rows := by
  constructor
  · intro k
    obtain ⟨base, hbase, hpre⟩ := h.reads k
    have hgrown : (s.log k).history <+: (t.log k).history := by
      simp only [System.log, same.2]
      exact grown _
    obtain ⟨ms, hms⟩ := hgrown
    refine ⟨base, Nat.le_trans hbase (hms ▸ (List.prefix_append _ _).length_le), ?_⟩
    rw [entries_grown hms.symm hbase]
    exact hpre.trans (List.prefix_append _ _)
  · rw [same.1]
    exact h.rows
  · exact h.answered
  · rw [same.1]
    exact h.transfers

/-- The present watcher runs on what those before it have left behind. -/
structure Lived (host : Host) (execution : Named) (keys : Keys) (world : World) (s : System)
    (o : List Told) : Prop where
  same : s.watch.execution = execution ∧ s.watch.keys = keys
  begun : ∃ left as, Run (watching host) Free ⟨left, .start execution keys⟩ as s (split o).2 ∧
    (∃ rows, List.Forall₂ (PersistsOnce s) (split o).1 rows ∧
      left.store.db.logsOf execution.id =
        world.store.db.logsOf execution.id ++ rows.flatten) ∧
    ∀ e, left.store.db.execution execution.id = some e → ∃ e₀,
      world.store.db.execution execution.id = some e₀ ∧ e.transferAttempts =
        e₀.transferAttempts + ((split o).1.map (fun life => (answered life).length)).sum

theorem split_seen (o : List Told) (seen : List Seen) :
    split (o ++ seen.map .seen) = ((split o).1, (split o).2 ++ seen) := by
  induction seen using List.reverseRecOn with
  | nil => simp
  | append_singleton seen x ih =>
    rw [List.map_append, ← List.append_assoc]
    unfold split at ih ⊢
    rw [List.foldl_append, ih, ← List.append_assoc]
    rfl

theorem split_restarted (o : List Told) : split (o ++ [.restarted]) = (lives o, []) := by
  simp [split, lives]

/-- What has been persisted up to a point between two steps. -/
theorem Lived.persisted (hl : Lived host execution keys world s o) : Persisted world s (lives o) := by
  obtain ⟨left, as, hr, ⟨rows, hrows, hleft⟩, hcounted⟩ := hl.begun
  obtain ⟨new, hnew, hlogs⟩ := persists_run hr hl.same.1
  constructor
  · refine ⟨rows ++ [new], List.rel_append hrows (.cons hnew .nil), ?_⟩
    rw [hl.same.1, hlogs, hleft, List.append_assoc]
    simp
  · intro e he
    obtain ⟨e₁, he₁, hcount₁⟩ := (answering_run hr).counted e he
    rw [hl.same.1] at he₁ ⊢
    obtain ⟨e₀, he₀, hcount₀⟩ := hcounted e₁ he₁
    refine ⟨e₀, he₀, ?_⟩
    simp only [lives, List.map_append, List.map_cons, List.map_nil, List.sum_append,
      List.sum_cons, List.sum_nil]
    omega

theorem Lived.step (hl : Lived host execution keys world s o) {move : Move} {seen : List Told}
    (h : (restarting host execution keys).step s move = some (t, seen)) :
    Lived host execution keys world t (o ++ seen) := by
  cases move with
  | act a =>
    simp only [restarting, Option.map_eq_some_iff] at h
    obtain ⟨⟨t', o'⟩, hs, he⟩ := h
    cases he
    have same := watching_same hs
    obtain ⟨left, as, hr, ⟨rows, hrows, hleft⟩, hcounted⟩ := hl.begun
    refine ⟨⟨same.1.trans hl.same.1, same.2.trans hl.same.2⟩, left, as ++ [a], ?_⟩
    rw [split_seen]
    refine ⟨hr.snoc trivial hs, ⟨rows, ?_, hleft⟩, hcounted⟩
    exact hrows.imp (fun _ _ h => h.later same (watching_history hs))
  | restart =>
    cases h
    obtain ⟨⟨rows, hrows, hlogs⟩, hcounted⟩ := hl.persisted
    rw [hl.same.1] at hlogs
    refine ⟨⟨rfl, rfl⟩, s.world, [], ?_⟩
    rw [split_restarted]
    refine ⟨.start, ⟨rows, ?_, hlogs⟩, ?_⟩
    · exact hrows.imp (fun _ _ h => h.later ⟨hl.same.1.symm, hl.same.2.symm⟩
        (fun _ => List.prefix_refl _))
    · intro e he
      have hrow : s.row = some e := by
        rw [System.row, hl.same.1]
        exact he
      obtain ⟨e₀, he₀, hcount⟩ := hcounted e hrow
      rw [hl.same.1] at he₀
      exact ⟨e₀, he₀, hcount⟩

/-- In every history, with any number of restarts, what is persisted is what so
many watchers persist one after another, and each of them stores each message
once and answers each request once. -/
theorem each_persists_once
    (h : Run (restarting host execution keys) Free ⟨world, .start execution keys⟩ moves s o) :
    Persisted world s (lives o) := by
  have lived : Lived host execution keys world s o := by
    refine h.invariant (Lived host execution keys world) ⟨⟨rfl, rfl⟩, world, [], .start, ?_, ?_⟩ ?_
    · exact ⟨[], .nil, (List.append_nil _).symm⟩
    · intro e he
      exact ⟨e, he, rfl⟩
    · intro s o move t o' hl _ hs
      exact hl.step hs
  exact lived.persisted

def readLine : List Move :=
  [.act (.watcher (.check false)), .act (.watcher (.xread (fun _ => maxCount))),
    .act (.watcher .handle)]

def readTwice : List Move :=
  [.act (.publish smallKeys.log (smallMessage "LOG" [("message", "line")]))] ++ readLine ++
    [.restart] ++ readLine

def twoRows : List ExecutionLog := [⟨smallExecution.id, 1, "line"⟩, ⟨smallExecution.id, 1, "line"⟩]

theorem readTwice_stored :
    (replay (restarting smallHost smallExecution smallKeys) (smallStart .queued) readTwice).any
      (fun r => decide (r.1.world.store.db.logsOf smallExecution.id = twoRows ∧
        r.1.watch.execution.text = smallExecution.text)) = true := by
  decide +kernel

theorem readTwice_persists_once :
    ∃ s o, Run (restarting smallHost smallExecution smallKeys) Free (smallStart .queued) readTwice
        s o ∧ Persisted (smallWorld .queued) s (lives o) := by
  obtain ⟨s, o, h, -⟩ := run_of_replay_test readTwice_stored
  exact ⟨s, o, h, each_persists_once h⟩

/-- What is persisted is not what one watcher would have persisted. -/
theorem line_stored_twice :
    ∃ s o, Run (restarting smallHost smallExecution smallKeys) Free (smallStart .queued) readTwice
        s o ∧ ¬ Persisted (smallWorld .queued) s [(lives o).flatten] := by
  obtain ⟨s, o, h, hs⟩ := run_of_replay_test readTwice_stored
  refine ⟨s, o, h, ?_⟩
  obtain ⟨htwo, htext⟩ := of_decide_eq_true hs
  have hexec : s.watch.execution = smallExecution := named_ext htext
  rintro ⟨⟨rows, hrows, hlogs⟩, -⟩
  cases hrows with
  | @cons _ row _ rest hone hnil =>
    cases hnil
    obtain ⟨stored, -, hrow⟩ := hone.rows
    have hempty : (smallWorld .queued).store.db.logsOf smallExecution.id = [] := rfl
    rw [hexec, htwo, hempty, List.nil_append, List.flatten_singleton, hrow, hexec] at hlogs
    have hsecond := congrArg (fun logs => (logs[1]?).map ExecutionLog.seq) hlogs
    simp only [twoRows, logRows, List.getElem?_mapIdx] at hsecond
    cases hline : (logLines stored)[1]? with
    | none => simp [hline] at hsecond
    | some line => simp [hline] at hsecond

end Lives

end Restarts
