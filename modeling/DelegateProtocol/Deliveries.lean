import DelegateProtocol.ReadingOrder
import DelegateProtocol.Worker

/-!
# Deliveries of a task and the watcher of its execution

A task is delivered any number of times, each time to a worker process of the
assigned delegate, and one watcher serves the execution. The steps of all of
them interleave. Nobody else writes to the four streams.
-/

namespace Deliveries

open AppendLog Handlers Models Runtime StepMachine Streams WatchExecution ReadingOrder Worker

/-- A task whose execution id names an execution. -/
structure Job where
  task : Task
  execution : Named
  names : task.executionId = execution.text

/-- The deliveries are told apart by an index. -/
structure Site (ι : Type) where
  world : World
  watch : Watch
  stages : ι → Stage

inductive Turn (ι : Type) where
  | watcher (input : Input)
  | worker (i : ι) (work : Work)
  | elsewhere (key : String) (fields : Fields)
  | others (store : Store)

inductive Event (ι : Type) where
  | watcher (seen : Seen)
  | worker (i : ι) (deed : Deed)

variable {ι : Type}

def Site.start (job : Job) (world : World) : Site ι :=
  ⟨world, .start job.execution job.task.keys, fun _ => .identifying⟩

def Site.system (s : Site ι) : System := ⟨s.world, s.watch⟩

def Site.withSystem (s : Site ι) (system : System) : Site ι :=
  ⟨system.world, system.watch, s.stages⟩

def Event.seen : Event ι → Option Seen
  | .watcher seen => some seen
  | .worker _ _ => none

def Event.message (k : Kind) : Event ι → Option Fields
  | .worker _ (.publish k' fields) => if k' = k then some fields else none
  | _ => none

/-- What the watcher has shown. -/
def seenBy (o : List (Event ι)) : List Seen := o.filterMap Event.seen

/-- The messages all deliveries have put on one stream. -/
def sentOn (k : Kind) (o : List (Event ι)) : List Fields := o.filterMap (Event.message k)

def perform (keys : Keys) (world : World) : Deed → World
  | .announce fields => world.xadd globalExecutionEventsStream fields
  | .publish k fields => world.xadd (keys.key k) fields
  | _ => world

section Machine
variable [DecidableEq ι]

def Event.deed (i : ι) : Event ι → Option Deed
  | .worker j deed => if j = i then some deed else none
  | .watcher _ => none

def deedsOf (i : ι) (o : List (Event ι)) : List Deed := o.filterMap (Event.deed i)

def delivering (host : Host) (task : Task) : Machine (Site ι) (Turn ι) (Event ι) where
  step s turn :=
    match turn with
    | .watcher input => ((watching host).step s.system (.watcher input)).map
        (fun r => (s.withSystem r.1, r.2.map .watcher))
    | .worker i work =>
      match Worker.step task (s.world.redis task.keys.events) (s.stages i) work with
      | none => none
      | some (stage, deeds) =>
        some (⟨deeds.foldl (perform task.keys) s.world, s.watch,
            Function.update s.stages i stage⟩, deeds.map (.worker i))
    | .elsewhere key fields =>
      if ∀ k ∈ kinds, task.keys.key k ≠ key then
        some (s.withSystem ⟨s.world.xadd key fields, s.watch⟩, [])
      else none
    | .others store => ((watching host).step s.system (.others store)).map
        (fun r => (s.withSystem r.1, r.2.map .watcher))

end Machine

inductive Taken [DecidableEq ι] (host : Host) (task : Task) (s : Site ι) :
    Turn ι → Site ι → List (Event ι) → Prop
  | watcher {input : Input} {system : System} {seen : List Seen} :
      (watching host).step s.system (.watcher input) = some (system, seen) →
      Taken host task s (.watcher input) (s.withSystem system) (seen.map .watcher)
  | worker {i : ι} {work : Work} {stage : Stage} {deeds : List Deed} :
      Worker.step task (s.world.redis task.keys.events) (s.stages i) work = some (stage, deeds) →
      Taken host task s (.worker i work)
        ⟨deeds.foldl (perform task.keys) s.world, s.watch, Function.update s.stages i stage⟩
        (deeds.map (.worker i))
  | elsewhere {key : String} {fields : Fields} : (∀ k, task.keys.key k ≠ key) →
      Taken host task s (.elsewhere key fields)
        (s.withSystem ⟨s.world.xadd key fields, s.watch⟩) []
  | others {store : Store} : LeavesAlone host s.watch.execution s.world.store store →
      Taken host task s (.others store)
        (s.withSystem ⟨{ s.world with store := store }, s.watch⟩) []

section Filters
variable (o o' : List (Event ι)) (k : Kind)

theorem seenBy_append : seenBy (o ++ o') = seenBy o ++ seenBy o' := List.filterMap_append

theorem sentOn_append : sentOn k (o ++ o') = sentOn k o ++ sentOn k o' := List.filterMap_append

theorem seenBy_watcher (seen : List Seen) : seenBy (seen.map (@Event.watcher ι)) = seen := by
  induction seen with
  | nil => rfl
  | cons x seen ih => exact congrArg (List.cons x) ih

theorem sentOn_watcher (seen : List Seen) : sentOn k (seen.map (@Event.watcher ι)) = [] := by
  induction seen with
  | nil => rfl
  | cons x seen ih => exact ih

theorem seenBy_worker (i : ι) (deeds : List Deed) : seenBy (deeds.map (.worker i)) = [] := by
  induction deeds with
  | nil => rfl
  | cons deed deeds ih => exact ih

theorem sentOn_worker (i : ι) (deeds : List Deed) :
    sentOn k (deeds.map (.worker i)) = published k deeds := by
  induction deeds with
  | nil => rfl
  | cons deed deeds ih =>
    cases deed with
    | publish k' fields =>
      by_cases h : k' = k
      · simpa [sentOn, published, Event.message, h] using ih
      · simpa [sentOn, published, Event.message, h] using ih
    | _ => exact ih

variable [DecidableEq ι]

theorem deedsOf_append (i : ι) : deedsOf i (o ++ o') = deedsOf i o ++ deedsOf i o' :=
  List.filterMap_append

theorem deedsOf_watcher (i : ι) (seen : List Seen) :
    deedsOf i (seen.map (@Event.watcher ι)) = [] := by
  induction seen with
  | nil => rfl
  | cons x seen ih => exact ih

theorem deedsOf_worker (i j : ι) (deeds : List Deed) :
    deedsOf i (deeds.map (.worker j)) = if j = i then deeds else [] := by
  by_cases h : j = i
  · simp [deedsOf, List.filterMap_map, Event.deed, h, Function.comp_def]
  · simp [deedsOf, List.filterMap_map, Event.deed, h, Function.comp_def]

end Filters

section Steps
variable [DecidableEq ι] {host : Host} {task : Task} {s t : Site ι} {turn : Turn ι}
variable {o o' : List (Event ι)}

theorem delivering_taken (h : (delivering host task).step s turn = some (t, o)) :
    Taken host task s turn t o := by
  cases turn with
  | watcher input =>
    simp only [delivering, Option.map_eq_some_iff] at h
    obtain ⟨⟨system, seen⟩, hs, he⟩ := h
    cases he
    exact .watcher hs
  | worker i work =>
    simp only [delivering] at h
    cases hs : Worker.step task (s.world.redis task.keys.events) (s.stages i) work with
    | none => simp [hs] at h
    | some r =>
      simp only [hs] at h
      cases h
      exact .worker hs
  | elsewhere key fields =>
    simp only [delivering] at h
    by_cases hk : ∀ k ∈ kinds, task.keys.key k ≠ key
    · rw [if_pos hk] at h
      cases h
      exact .elsewhere (fun k => hk k (mem_kinds k))
    · rw [if_neg hk] at h
      cases h
  | others store =>
    simp only [delivering, Option.map_eq_some_iff] at h
    obtain ⟨⟨system, seen⟩, hs, he⟩ := h
    obtain ⟨hl, rfl, rfl⟩ := watching_others hs
    cases he
    exact .others hl

theorem perform_run (deeds : List Deed) (keys : Keys) (world : World) (watch : Watch) :
    ∃ as, Run (watching host) Free ⟨world, watch⟩ as
      ⟨deeds.foldl (perform keys) world, watch⟩ [] := by
  induction deeds generalizing world with
  | nil => exact ⟨[], .start⟩
  | cons deed deeds ih =>
    obtain ⟨as, hr⟩ := ih (perform keys world deed)
    have publish (key : String) (fields : Fields) :
        Run (watching host) Free ⟨world, watch⟩ [.publish key fields]
          ⟨world.xadd key fields, watch⟩ [] := .single trivial rfl
    cases deed with
    | announce fields => exact ⟨_, (publish _ fields).append hr⟩
    | publish k fields => exact ⟨_, (publish _ fields).append hr⟩
    | attemptFailed _ _ => exact ⟨as, hr⟩
    | built _ => exact ⟨as, hr⟩

theorem taken_run (h : Taken host task s turn t o) :
    ∃ as, Run (watching host) Free s.system as t.system (seenBy o) := by
  cases h with
  | watcher hs =>
    rw [seenBy_watcher]
    exact ⟨_, .single trivial hs⟩
  | @worker i work stage deeds hd =>
    rw [seenBy_worker]
    exact perform_run deeds task.keys s.world s.watch
  | @elsewhere key fields _ =>
    exact ⟨[.publish key fields], .single trivial rfl⟩
  | @others store hl =>
    refine ⟨[.others store], .single trivial ?_⟩
    have hs : LeavesAlone host s.system.watch.execution s.system.world.store store := hl
    simp only [watching, if_pos hs]
    rfl

/-- A run of a site is a run of its watcher with others publishing in between. -/
theorem watching_run {ok : Site ι → Turn ι → Prop} {job : Job} {world : World}
    {turns : List (Turn ι)} (h : Run (delivering host job.task) ok (.start job world) turns s o) :
    ∃ as, Run (watching host) Free ⟨world, .start job.execution job.task.keys⟩ as s.system
      (seenBy o) := by
  refine h.invariant (fun s o => ∃ as, Run (watching host) Free
    ⟨world, .start job.execution job.task.keys⟩ as s.system (seenBy o)) ⟨[], .start⟩ ?_
  rintro s o turn t o' ⟨as, hr⟩ _ hs
  obtain ⟨as', hr'⟩ := taken_run (delivering_taken hs)
  rw [seenBy_append]
  exact ⟨as ++ as', hr.append hr'⟩

/-- Every delivery has done what its stage says. -/
theorem script_run {ok : Site ι → Turn ι → Prop} {job : Job} {world : World}
    {turns : List (Turn ι)} (h : Run (delivering host task) ok (.start job world) turns s o) :
    ∀ i, Script task (s.stages i) (deedsOf i o) := by
  refine h.invariant (fun s o => ∀ i, Script task (s.stages i) (deedsOf i o))
    (fun _ => .start task) ?_
  intro s o turn t o' hi _ hs i
  rw [deedsOf_append]
  cases delivering_taken hs with
  | watcher _ =>
    rw [deedsOf_watcher, List.append_nil]
    exact hi i
  | @worker j work stage deeds hd =>
    rw [deedsOf_worker]
    by_cases hj : j = i
    · subst hj
      rw [if_pos rfl]
      simp only [Function.update_self]
      exact (hi j).step (step_does hd)
    · rw [if_neg hj, List.append_nil]
      simp only [Function.update_of_ne (Ne.symm hj)]
      exact hi i
  | elsewhere _ =>
    rw [show deedsOf i ([] : List (Event ι)) = [] from rfl, List.append_nil]
    exact hi i
  | others _ =>
    rw [show deedsOf i ([] : List (Event ι)) = [] from rfl, List.append_nil]
    exact hi i

theorem task_key_injective {j k : Kind} (h : task.keys.key j = task.keys.key k) : j = k :=
  key_injective h

theorem perform_log (deed : Deed) (world : World) (k : Kind) :
    ((perform task.keys world deed).redis (task.keys.key k)).history =
        (world.redis (task.keys.key k)).history ++ published k [deed] ∧
      ((perform task.keys world deed).redis (task.keys.key k)).removed =
        (world.redis (task.keys.key k)).removed := by
  have xadd (key : String) (fields : Fields) (hk : task.keys.key k ≠ key) :
      (world.xadd key fields).redis (task.keys.key k) = world.redis (task.keys.key k) := by
    simp [World.xadd, hk]
  cases deed with
  | announce fields =>
    simp only [perform, xadd _ fields (key_ne_global _ _ k), published, List.append_nil, and_self]
  | publish k' fields =>
    by_cases hk : k' = k
    · subst hk
      simp [perform, World.xadd, published_publish, Log.append]
    · have hne : task.keys.key k ≠ task.keys.key k' := fun he => hk (task_key_injective he).symm
      simp [perform, xadd _ fields hne, published_publish, hk]
  | attemptFailed _ _ => simp [perform, published]
  | built _ => simp [perform, published]

theorem performs_store (deeds : List Deed) (keys : Keys) (world : World) :
    (deeds.foldl (perform keys) world).store = world.store := by
  induction deeds generalizing world with
  | nil => rfl
  | cons deed deeds ih =>
    rw [List.foldl_cons, ih]
    cases deed <;> rfl

theorem performs_log (deeds : List Deed) (world : World) (k : Kind) :
    ((deeds.foldl (perform task.keys) world).redis (task.keys.key k)).history =
        (world.redis (task.keys.key k)).history ++ published k deeds ∧
      ((deeds.foldl (perform task.keys) world).redis (task.keys.key k)).removed =
        (world.redis (task.keys.key k)).removed := by
  induction deeds generalizing world with
  | nil => exact ⟨(List.append_nil _).symm, rfl⟩
  | cons deed deeds ih =>
    obtain ⟨hh, hr⟩ := ih (perform task.keys world deed)
    obtain ⟨hh', hr'⟩ := @perform_log task deed world k
    refine ⟨?_, hr.trans hr'⟩
    rw [List.foldl_cons, hh, hh', List.append_assoc, ← published_append]
    rfl

/-- The watcher writes to the events stream only. -/
theorem moves_own_history {world world' : World} {watch watch' : Watch} {input : Input}
    {seen : List Seen} (h : Moves host world watch input world' watch' seen)
    (keys : watch.keys = task.keys) {k : Kind} (hk : k ≠ .events) :
    (world'.redis (task.keys.key k)).history = (world.redis (task.keys.key k)).history := by
  have aside (fields : Fields) :
      (world.xadd watch.keys.events fields).redis (task.keys.key k) =
        world.redis (task.keys.key k) := by
    have hne : task.keys.key k ≠ task.keys.key .events := fun he => hk (task_key_injective he)
    rw [keys]
    simp only [World.xadd]
    exact Function.update_of_ne hne _ _
  cases h with
  | xadd _ => rw [aside]
  | xaddUnanswered _ => rw [aside]
  | delete _ => exact deleteKeys_history world watch.keys _
  | deleteUnanswered _ => exact deleteKeys_history world watch.keys _
  | _ => rfl

theorem taken_same (h : Taken host task s turn t o) :
    t.watch.execution = s.watch.execution ∧ t.watch.keys = s.watch.keys := by
  cases h with
  | watcher hs => exact moves_same (watching_watcher hs)
  | _ => exact ⟨rfl, rfl⟩

/-- What a step adds to a stream other than events is what it has sent there. -/
theorem taken_history (h : Taken host task s turn t o) (keys : s.watch.keys = task.keys) {k : Kind}
    (hk : k ≠ .events) :
    (t.world.redis (task.keys.key k)).history =
      (s.world.redis (task.keys.key k)).history ++ sentOn k o := by
  cases h with
  | watcher hs =>
    rw [sentOn_watcher, List.append_nil]
    exact moves_own_history (watching_watcher hs) keys hk
  | worker hd =>
    rw [sentOn_worker]
    exact (performs_log _ _ k).1
  | @elsewhere key fields hkey =>
    have same : (s.world.xadd key fields).redis (task.keys.key k) =
        s.world.redis (task.keys.key k) := Function.update_of_ne (hkey k) _ _
    simp only [Site.withSystem]
    rw [same]
    exact (List.append_nil _).symm
  | others _ => exact (List.append_nil _).symm

section Runs
variable {ok : Site ι → Turn ι → Prop} {job : Job} {world : World} {turns : List (Turn ι)}

/-- The watcher keeps to its execution and its streams. -/
theorem same_run (h : Run (delivering host job.task) ok (.start job world) turns s o) :
    s.watch.execution = job.execution ∧ s.watch.keys = job.task.keys := by
  refine h.state_invariant (fun s => s.watch.execution = job.execution ∧
    s.watch.keys = job.task.keys) ⟨rfl, rfl⟩ ?_
  rintro s turn t o' ⟨execution, keys⟩ _ hs
  obtain ⟨hexecution, hkeys⟩ := taken_same (delivering_taken hs)
  exact ⟨hexecution.trans execution, hkeys.trans keys⟩

theorem history_run (h : Run (delivering host job.task) ok (.start job world) turns s o) {k : Kind}
    (hk : k ≠ .events) :
    (s.world.redis (job.task.keys.key k)).history =
      (world.redis (job.task.keys.key k)).history ++ sentOn k o := by
  refine h.invariant_along (fun _ s o => (s.world.redis (job.task.keys.key k)).history =
    (world.redis (job.task.keys.key k)).history ++ sentOn k o) (List.append_nil _).symm ?_
  intro turns s o turn t o' hr hist _ hs
  rw [taken_history (delivering_taken hs) (same_run hr).2 hk, hist, sentOn_append,
    List.append_assoc]

end Runs

end Steps

def smallTask : Task where
  executionId := smallExecution.text
  fileName := "*"
  tenantId := smallDelegate.tenantId
  delegateId := Uuid.str smallDelegate.id
  waitTimeout := 15
  maxRetries := 1
  tempWorkspaceDir := "temp_workspace"

def smallJob : Job := ⟨smallTask, smallExecution, rfl⟩

/-- The only attempt times out; the log line behind the failure report is still
to be published. -/
def timesOut : List Work :=
  [.prepare true, .publish, .publish, .prepare true, .publish, .publish, .start 0,
    .poll 16 0 (fun _ => 0), .publish, .publish]

/-- The watcher answers the request and handles two log lines and two statuses. -/
def answersAndReads : List Input :=
  [.check false, .xread (fun _ => maxCount), .handle, .authorize "t0", .xadd, .xadd, .xadd, .save]

end Deliveries
