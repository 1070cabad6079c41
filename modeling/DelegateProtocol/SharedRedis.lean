import DelegateProtocol.AclDurability
import DelegateProtocol.OneDelivery
import DelegateProtocol.Lib.Unwinding

/-!
# Delegates that share one Redis

Every client of Redis has the ACL user its certificate names. The workers of one
delegate take the deliveries of a task, and the dispatcher reads what they and
others announce. Whoever holds another certificate may send any command with any
effect on the keys it writes, as often as Redis admits it. Meanwhile the control
plane sets, deletes and saves users, and Redis may be restarted. What it has of
users is then read from the file, what it has of streams is lost.
-/

namespace SharedRedis

open AclDurability AclScope Announcements AppendLog Deliveries Handlers KeyedTable Models
open AclPersistence hiding Deployment
open AclReconciliation (delegateA)
open ReadingOrder RedisAcl Runtime StepMachine StreamDispatcher Streams Unwinding Uuid
open WatchExecution
open OneDelivery hiding Move
open SavedCopies (Copies Lasting Keeps)
open Worker (Deed Does Task Work published step_does)

/-- A command as Redis checks it. -/
structure Request where
  command : String
  reads : List String
  writes : List String

/-- What ACL rules say about a command of an authenticated user. -/
def Allows (user : User) (request : Request) : Prop :=
  user.enabled = true ∧ request.command ∈ user.commands ∧
    (∀ key ∈ request.reads, CanRead user key) ∧ ∀ key ∈ request.writes, CanWrite user key

instance (user : User) (request : Request) : Decidable (Allows user request) :=
  inferInstanceAs (Decidable (_ ∧ _ ∧ (∀ key ∈ _, permits _ _ _ key = true) ∧
    ∀ key ∈ _, permits _ _ _ key = true))

/-- The user of a certificate with this common name; where there is none of that
name it is `default`. -/
def userOf (acl : Acl) (name : String) : Option User := (acl.get? name).or (acl.get? "default")

def Admits (acl : Acl) (name : String) (request : Request) : Prop :=
  ∃ user ∈ userOf acl name, Allows user request

instance (acl : Acl) (name : String) (request : Request) : Decidable (Admits acl name request) :=
  inferInstanceAs (Decidable (∃ user ∈ userOf acl name, Allows user request))

def requestOf (keys : Keys) : Deed → Option Request
  | .announce _ => some ⟨"xadd", [], [globalExecutionEventsStream]⟩
  | .publish k _ => some ⟨"xadd", [], [keys.key k]⟩
  | _ => none

/-- A poll reads unless its time is up. -/
def readOf (keys : Keys) : Worker.Stage → Work → List Request
  | .receiving _ _ r, .poll now _ _ =>
    if r.deadline - now ≤ 0 then [] else [⟨"xread", [keys.events], []⟩]
  | _, _ => []

def requestsOf (task : Task) (stage : Worker.Stage) (work : Work) (deeds : List Deed) :
    List Request :=
  readOf task.keys stage work ++ deeds.filterMap (requestOf task.keys)

structure Shared (ι : Type) where
  dispatcher : Dispatcher
  stages : ι → Worker.Stage
  redis : Redis

def Shared.start {ι : Type} (world : World) (redis : Redis) : Shared ι :=
  ⟨.start world, fun _ => .identifying, redis⟩

/-- One of the deliveries and the dispatcher. -/
def Shared.deployment {ι : Type} (s : Shared ι) (i : ι) : Deployment := ⟨s.dispatcher, s.stages i⟩

def Shared.withWorld {ι : Type} (s : Shared ι) (world : World) : Shared ι :=
  { s with dispatcher := { s.dispatcher with world := world } }

inductive Move (ι : Type) where
  | worker (i : ι) (work : Work)
  | dispatcher (a : Action)
  | stranger (name : String) (request : Request) (outcome : String → Log Fields)
  | control (command : Command)

def Move.command? {ι : Type} : Move ι → Option Command
  | .control command => some command
  | _ => none

/-- A command can do as it likes with the keys it writes. -/
def carryOut (request : Request) (outcome : String → Log Fields) (world : World) : World :=
  { world with redis := fun key =>
      if key ∈ request.writes then outcome key else world.redis key }

/-- Streams are kept in memory only. -/
def afterCommand (world : World) : Command → World
  | .restart => { world with redis := fun key => (world.redis key).delete }
  | _ => world

instance (c : Command) : Decidable (OfDelegate c) :=
  match c with
  | .setUser name _ => decidable_of_iff ((parse name).map str = some name) (by
      constructor
      · intro h
        obtain ⟨u, -, hu⟩ := Option.map_eq_some_iff.mp h
        exact ⟨u, hu.symm⟩
      · rintro ⟨u, rfl⟩
        rw [parse_str]
        rfl)
  | .delUser name => inferInstanceAs (Decidable (isDelegateUser name = true))
  | .save | .restart => isTrue trivial

variable {ι : Type} [DecidableEq ι]

/-- Redis admits what a delivery sends; the dispatcher is the control plane's. -/
def Unhindered (acl : Acl) (task : Task) (s : Deployment) (work : Work) : Prop :=
  ∀ r ∈ Worker.step task (s.dispatcher.world.redis task.keys.events) s.stage work,
    ∀ request ∈ requestsOf task s.stage work r.2, Admits acl task.delegateId request

instance (acl : Acl) (task : Task) (s : Deployment) (work : Work) :
    Decidable (Unhindered acl task s work) :=
  inferInstanceAs (Decidable (∀ r ∈ _, ∀ request ∈ _, _))

/-- Somebody with a certificate that is neither the delegate's nor the control plane's. -/
def Stranger (task : Task) (name : String) : Prop := name ≠ task.delegateId ∧ name ≠ "cp-admin"

instance (task : Task) (name : String) : Decidable (Stranger task name) :=
  inferInstanceAs (Decidable (_ ∧ _))

/-- All messages come from the deliveries, the dispatcher and strangers. -/
def sharing (host : Host) (task : Task) : Machine (Shared ι) (Move ι) Happening where
  step s move :=
    match move with
    | .worker i work =>
      if Unhindered s.redis.live task (s.deployment i) work then
        ((deploying host task).step (s.deployment i) (.worker work)).map
          (fun r => (⟨r.1.dispatcher, Function.update s.stages i r.1.stage, s.redis⟩, r.2))
      else none
    | .dispatcher (.publish _ _) => none
    | .dispatcher a => ((dispatching host).step s.dispatcher a).map
        (fun r => (⟨r.1, s.stages, s.redis⟩, r.2.map .shown))
    | .stranger name request outcome =>
      if Stranger task name ∧ Admits s.redis.live name request then
        some (s.withWorld (carryOut request outcome s.dispatcher.world), [])
      else none
    | .control command =>
      if OfDelegate command then
        some ({ s.withWorld (afterCommand s.dispatcher.world command) with
          redis := s.redis.apply command.event }, [])
      else none

def ownStream (task : Task) (key : String) : Bool :=
  decide (∃ k ∈ kinds, task.keys.key k = key)

/-- Deliveries and a watcher that have the same before them. -/
structure Alike (task : Task) (s t : Site ι) : Prop where
  world : restrict t.world (ownStream task) = restrict s.world (ownStream task)
  watch : t.watch = s.watch
  stages : t.stages = s.stages

section Frames
variable {host : Host} {task : Task} {world world₂ : World} {watch : Watch} {input : Input}
variable {s t s' : Site ι} {turn : Turn ι} {o : List (Event ι)} {key : String}

theorem ownStream_key (k : Kind) : ownStream task (task.keys.key k) = true :=
  decide_eq_true ⟨k, mem_kinds k, rfl⟩

theorem ownStream_other (h : ∀ k, task.keys.key k ≠ key) : ownStream task key = false := by
  refine decide_eq_false ?_
  rintro ⟨k, -, hk⟩
  exact h k hk

omit [DecidableEq ι] in
theorem Alike.store (h : Alike task s t) : t.world.store = s.world.store := by
  have hstore := congrArg World.store h.world
  exact hstore

omit [DecidableEq ι] in
theorem Alike.stream (h : Alike task s t) (k : Kind) :
    t.world.redis (task.keys.key k) = s.world.redis (task.keys.key k) := by
  have hk := congrFun (congrArg World.redis h.world) (task.keys.key k)
  simpa only [restrict, ownStream_key, if_true] using hk

/-- Whether a watcher can take a step does not depend on the streams. -/
theorem step_enabled (same : world₂.store = world.store)
    (h : (WatchExecution.step host world watch input).isSome) :
    (WatchExecution.step host world₂ watch input).isSome := by
  unfold WatchExecution.step at h ⊢
  rw [same]
  split at h
  case h_2 =>
    split
    · rfl
    · split <;> rfl
  case h_3 =>
    split at h
    · rename_i fits
      rw [if_pos fits]
      rfl
    · cases h
  case h_13 => cases h
  all_goals rfl

/-- A watcher does the same in worlds that only differ in streams it does not read. -/
theorem step_alike (keys : watch.keys = task.keys)
    (same : restrict world₂ (ownStream task) = restrict world (ownStream task))
    {world' : World} {watch' : Watch} {seen : List Seen}
    (h : WatchExecution.step host world watch input = some (world', watch', seen)) :
    ∃ world₂', WatchExecution.step host world₂ watch input = some (world₂', watch', seen) ∧
      restrict world₂' (ownStream task) = restrict world' (ownStream task) := by
  have own : ∀ k, ownStream task (watch.keys.key k) = true := by
    intro k
    rw [keys]
    exact ownStream_key k
  have store : world₂.store = world.store := by
    have hstore := congrArg World.store same
    exact hstore
  have enabled := step_enabled store (Option.isSome_of_eq_some h)
  obtain ⟨⟨world₂', watch₂', seen₂⟩, h₂⟩ := Option.isSome_iff_exists.mp enabled
  have hrestrict := restrict_step own h₂
  rw [same, restrict_step own h] at hrestrict
  simp only [Option.some.injEq, Prod.mk.injEq] at hrestrict
  obtain ⟨hworld, rfl, rfl⟩ := hrestrict
  exact ⟨world₂', h₂, hworld.symm⟩

theorem perform_alike (deed : Deed)
    (same : restrict world₂ (ownStream task) = restrict world (ownStream task)) :
    restrict (perform task.keys world₂ deed) (ownStream task) =
      restrict (perform task.keys world deed) (ownStream task) := by
  cases deed with
  | announce fields =>
    have outside : ownStream task globalExecutionEventsStream = false :=
      ownStream_other (key_ne_global _ _)
    simp only [perform, restrict_xadd_outside outside, same]
  | publish k fields =>
    simp only [perform, restrict_xadd (ownStream_key k), same]
  | _ => exact same

theorem performs_alike (deeds : List Deed)
    (same : restrict world₂ (ownStream task) = restrict world (ownStream task)) :
    restrict (deeds.foldl (perform task.keys) world₂) (ownStream task) =
      restrict (deeds.foldl (perform task.keys) world) (ownStream task) := by
  induction deeds generalizing world world₂ with
  | nil => exact same
  | cons deed deeds ih => exact ih (perform_alike deed same)

/-- Deliveries and their watcher do the same, whatever is on other streams. -/
theorem delivering_alike (keys : s.watch.keys = task.keys) (h : Alike task s t)
    (hs : (delivering host task).step s turn = some (s', o)) :
    ∃ t', (delivering host task).step t turn = some (t', o) ∧ Alike task s' t' := by
  cases delivering_taken hs with
  | @watcher input system _ hw =>
    simp only [watching, Option.map_eq_some_iff] at hw
    obtain ⟨⟨world', watch', seen⟩, hstep, he⟩ := hw
    cases he
    obtain ⟨world₂', hstep₂, hworld⟩ := step_alike keys h.world hstep
    refine ⟨t.withSystem ⟨world₂', watch'⟩, ?_, hworld, rfl, h.stages⟩
    have hstep' : WatchExecution.step host t.world t.watch input =
        some (world₂', watch', seen) := by
      rw [h.watch]
      exact hstep₂
    simp only [delivering, watching, Site.system, hstep', Option.map_some]
  | @worker i work stage deeds hd =>
    refine ⟨⟨deeds.foldl (perform task.keys) t.world, t.watch, Function.update t.stages i stage⟩,
      ?_, performs_alike deeds h.world, h.watch, by rw [h.stages]⟩
    have hevents : t.world.redis task.keys.events = s.world.redis task.keys.events :=
      h.stream .events
    simp only [delivering, hevents, h.stages, hd]
  | @elsewhere key fields hkey =>
    have outside := ownStream_other hkey
    refine ⟨t.withSystem ⟨t.world.xadd key fields, t.watch⟩, ?_, ?_, h.watch, h.stages⟩
    · have hall : ∀ k ∈ kinds, task.keys.key k ≠ key := fun k _ => hkey k
      simp only [delivering, if_pos hall]
    · simp only [Site.withSystem, restrict_xadd_outside outside, h.world]
  | @others store hl =>
    refine ⟨t.withSystem ⟨{ t.world with store := store }, t.watch⟩, ?_, ?_, h.watch, h.stages⟩
    · have hl' : LeavesAlone host t.system.watch.execution t.system.world.store store := by
        simp only [Site.system, h.watch, h.store]
        exact hl
      simp only [delivering, watching, if_pos hl', Option.map_some]
      rfl
    · have hredis := congrArg World.redis h.world
      simp only [Site.withSystem, restrict, World.mk.injEq, true_and]
      exact hredis

end Frames

section Rules
variable {hash name : String} {acl : Acl} {task : Task} {a : UUID} {request : Request}

/-- Whoever gets past the rules and is not the control plane is a delegate. -/
theorem admitted_delegate (hardened : Hardened hash acl) (hadmin : name ≠ "cp-admin")
    (h : Admits acl name request) :
    ∃ u secret, name = str u ∧ Allows (delegateUser (str u) secret) request := by
  obtain ⟨user, huser, allows⟩ := h
  have closed : user ≠ .new "default" := by
    rintro rfl
    cases allows.1
  rw [userOf, hardened.default] at huser
  cases hget : acl.get? name with
  | none =>
    rw [hget] at huser
    cases huser
    exact absurd rfl closed
  | some user' =>
    rw [hget] at huser
    cases huser
    by_cases hdefault : name = "default"
    · subst hdefault
      rw [hardened.default] at hget
      cases hget
      exact absurd rfl closed
    · obtain ⟨u, secret, rfl, rfl⟩ := hardened.delegates name user hget hdefault hadmin
      exact ⟨u, secret, rfl, allows⟩

/-- The streams of one execution have no name in common with those of another. -/
theorem streamKeys_same {executionId executionId' : String} {b : UUID} {j k : Kind}
    (h : (streamKeys executionId (str a)).key j = (streamKeys executionId' (str b)).key k) :
    streamKeys executionId (str a) = streamKeys executionId' (str b) := by
  obtain rfl := key_execution h
  have below : StartsWith ((streamKeys executionId (str b)).key k) (delegatePrefix (str a)) :=
    h ▸ streamKeys_startsWith _ _ j
  rw [streamKeys_key] at below
  obtain rfl := startsWith_delegate below
  rfl

/-- A stranger reads and writes nothing below the prefix of the delegate. -/
theorem below_denied {key : String} (hardened : Hardened hash acl) (hname : name ≠ str a)
    (hadmin : name ≠ "cp-admin") (h : Admits acl name request)
    (below : StartsWith key (delegatePrefix (str a))) :
    key ∉ request.reads ∧ key ∉ request.writes := by
  obtain ⟨u, secret, rfl, -, -, reads, writes⟩ := admitted_delegate hardened hadmin h
  have outside : ¬ StartsWith key (delegatePrefix (str u)) := by
    intro hu
    obtain ⟨rest, rfl⟩ := below
    have hsame : a = u := startsWith_delegate hu
    exact hname (congrArg str hsame.symm)
  have hglobal : key ≠ globalExecutionEventsStream := by
    rintro rfl
    exact global_outside _ below
  exact ⟨fun hkey => outside_denied outside hglobal (reads key hkey),
    fun hkey => outside_denied outside hglobal (writes key hkey)⟩

/-- A stranger writes to none of the streams of the task. -/
theorem stranger_denied (hardened : Hardened hash acl) (named : task.delegateId = str a)
    (stranger : Stranger task name) (h : Admits acl name request) (k : Kind) :
    task.keys.key k ∉ request.writes := by
  obtain ⟨hname, hadmin⟩ := stranger
  have below : StartsWith (task.keys.key k) (delegatePrefix (str a)) := by
    rw [Worker.Task.keys, named]
    exact streamKeys_startsWith _ _ k
  exact (below_denied hardened (named ▸ hname) hadmin h below).2

theorem requestsOf_cases {stage : Worker.Stage} {work : Work} {deeds : List Deed}
    (h : request ∈ requestsOf task stage work deeds) :
    request = ⟨"xread", [task.keys.events], []⟩ ∨
      request = ⟨"xadd", [], [globalExecutionEventsStream]⟩ ∨
      ∃ k, request = ⟨"xadd", [], [task.keys.key k]⟩ := by
  rcases List.mem_append.mp h with h | h
  · unfold readOf at h
    split at h
    · split at h
      · cases h
      · exact Or.inl (List.mem_singleton.mp h)
    · cases h
  · obtain ⟨deed, -, hd⟩ := List.mem_filterMap.mp h
    cases deed with
    | announce fields =>
      cases hd
      exact Or.inr (Or.inl rfl)
    | publish k fields =>
      cases hd
      exact Or.inr (Or.inr ⟨k, rfl⟩)
    | _ => cases hd

/-- The user of a delegate is the one it was registered with. -/
theorem own_user (hardened : Hardened hash acl) (user : HasUser acl (str a)) :
    ∃ secret, acl.get? (str a) = some (delegateUser (str a) secret) := by
  obtain ⟨user, hget⟩ := Option.isSome_iff_exists.mp user
  have other {name : String} (hname : isDelegateUser name = false) : str a ≠ name := by
    rintro rfl
    rw [isDelegateUser_str] at hname
    cases hname
  obtain ⟨u, secret, hu, rfl⟩ := hardened.delegates (str a) user hget
    (other (by decide +kernel)) (other (by decide +kernel))
  rw [← hu] at hget
  exact ⟨secret, hget⟩

/-- All that a delivery sends is admitted as long as its delegate has a user. -/
theorem own_admitted (hardened : Hardened hash acl) (named : task.delegateId = str a)
    (user : HasUser acl (str a)) {stage : Worker.Stage} {work : Work} {deeds : List Deed}
    (h : request ∈ requestsOf task stage work deeds) : Admits acl task.delegateId request := by
  obtain ⟨secret, hget⟩ := own_user hardened user
  have own (k : Kind) (read write : Bool) :
      permits (delegateUser (str a) secret) read write (task.keys.key k) = true := by
    rw [permits_delegateUser, Worker.Task.keys, named]
    exact Or.inl (streamKeys_startsWith _ _ k)
  have xadd : "xadd" ∈ delegateCommands := List.mem_cons_self ..
  have xread : "xread" ∈ delegateCommands := List.mem_cons_of_mem _ (List.mem_cons_self ..)
  refine ⟨delegateUser (str a) secret, ?_, rfl, ?_⟩
  · rw [named, userOf, hget]
    rfl
  · rcases requestsOf_cases h with rfl | rfl | ⟨k, rfl⟩
    · refine ⟨xread, ?_, by simp⟩
      intro key hkey
      cases List.mem_singleton.mp hkey
      exact own .events true false
    · refine ⟨xadd, by simp, ?_⟩
      intro key hkey
      cases List.mem_singleton.mp hkey
      exact permits_delegateUser.mpr (Or.inr ⟨rfl, rfl⟩)
    · refine ⟨xadd, by simp, ?_⟩
      intro key hkey
      cases List.mem_singleton.mp hkey
      exact own k false true

/-- Nobody is let in under a name that has no user. -/
theorem unknown_denied (hardened : Hardened hash acl) (gone : acl.get? name = none) :
    ¬ Admits acl name request := by
  rintro ⟨user, huser, enabled, -⟩
  rw [userOf, gone, hardened.default] at huser
  cases huser
  cases enabled

end Rules

section Sharing
variable {host : Host} {hash : String} {task : Task} {job : Job} {a : UUID} {world : World}
variable {o : List Happening}

/-- Deliveries with their watcher follow those that have the same before them. -/
theorem delivering_follows (host : Host) (task : Task) :
    Follows (delivering (ι := ι) host task) Free (delivering host task)
      (fun s t => s.watch.keys = task.keys ∧ Alike task s t) some := by
  rintro s t turn s' o ⟨keys, alike⟩ _ hs
  obtain ⟨t', ht, alike'⟩ := delivering_alike keys alike hs
  refine ⟨[turn], t', ?_, (taken_same (delivering_taken hs)).2.trans keys, alike'⟩
  rw [List.filterMap_some]
  exact .single trivial ht

theorem carryOut_alike {request : Request} {outcome : String → Log Fields}
    (denied : ∀ k, task.keys.key k ∉ request.writes) :
    restrict (carryOut request outcome world) (ownStream task) =
      restrict world (ownStream task) := by
  simp only [restrict, carryOut, World.mk.injEq, true_and]
  funext key
  by_cases hown : ownStream task key = true
  · obtain ⟨k, -, hk⟩ := of_decide_eq_true hown
    have hnot : key ∉ request.writes := hk ▸ denied k
    simp only [if_pos hown, if_neg hnot]
  · simp only [if_neg hown]

/-- The streams of the task are among those its execution has to do with. -/
theorem restrict_ownKey :
    restrict (restrict world (ownKey job)) (ownStream job.task) =
      restrict world (ownStream job.task) := by
  simp only [restrict, World.mk.injEq, true_and]
  funext key
  by_cases hown : ownStream job.task key = true
  · obtain ⟨k, -, hk⟩ := of_decide_eq_true hown
    simp only [← hk, ownKey_key, if_true]
  · simp only [if_neg hown]

/-- What a step can do. -/
inductive Shares (host : Host) (task : Task) (s : Shared ι) :
    Move ι → Shared ι → List Happening → Prop
  | worker {i : ι} {work : Work} {stage : Worker.Stage} {deeds : List Deed} :
      Unhindered s.redis.live task (s.deployment i) work →
      Worker.step task (s.dispatcher.world.redis task.keys.events) (s.stages i) work =
        some (stage, deeds) →
      Shares host task s (.worker i work) ⟨arrive task.keys s.dispatcher deeds,
        Function.update s.stages i stage, s.redis⟩ (deeds.map .done)
  | dispatcher {a : Action} {d : Dispatcher} {shown : List Shown} :
      (∀ key fields, a ≠ .publish key fields) →
      (dispatching host).step s.dispatcher a = some (d, shown) →
      Shares host task s (.dispatcher a) ⟨d, s.stages, s.redis⟩ (shown.map .shown)
  | stranger {name : String} {request : Request} {outcome : String → Log Fields} :
      Stranger task name → Admits s.redis.live name request →
      Shares host task s (.stranger name request outcome)
        (s.withWorld (carryOut request outcome s.dispatcher.world)) []
  | control {command : Command} : OfDelegate command →
      Shares host task s (.control command)
        { s.withWorld (afterCommand s.dispatcher.world command) with
          redis := s.redis.apply command.event } []

theorem sharing_shares {s s' : Shared ι} {move : Move ι}
    (h : (sharing host task).step s move = some (s', o)) : Shares host task s move s' o := by
  cases move with
  | worker i work =>
    simp only [sharing] at h
    split at h
    · rename_i free
      simp only [deploying, Option.map_map, Option.map_eq_some_iff] at h
      obtain ⟨⟨stage, deeds⟩, hw, he⟩ := h
      cases he
      exact .worker free hw
    · cases h
  | dispatcher a =>
    cases a with
    | publish key fields => cases h
    | _ =>
      simp only [sharing, Option.map_eq_some_iff] at h
      obtain ⟨⟨d, shown⟩, hd, he⟩ := h
      cases he
      exact .dispatcher (by simp) hd
  | stranger name request outcome =>
    simp only [sharing] at h
    split at h
    · rename_i hadmits
      cases h
      exact .stranger hadmits.1 hadmits.2
    · cases h
  | control command =>
    simp only [sharing] at h
    split at h
    · rename_i hof
      cases h
      exact .control hof
    · cases h

/-- The stream has been cut and has grown, but not by an announcement of the execution. -/
def Foreign (job : Job) (log log' : Log Fields) : Prop :=
  log.removed ≤ log'.removed ∧ log.history <+: log'.history ∧
    ∀ fields ∈ log'.history.drop log.history.length, announcedId fields ≠ some job.execution.id

instance (job : Job) (log log' : Log Fields) : Decidable (Foreign job log log') :=
  inferInstanceAs (Decidable (_ ∧ _ ∧ ∀ fields ∈ _, _))

/-- Neither Redis nor the dispatcher is restarted, the views leave the row alone,
and no stranger announces the execution. -/
def Apart (host : Host) (job : Job) (s : Shared Unit) : Move Unit → Prop
  | .worker _ _ => True
  | .dispatcher a => Undisturbed host job (s.deployment ()) (.dispatcher a)
  | .stranger _ request outcome => globalExecutionEventsStream ∈ request.writes →
      Foreign job s.dispatcher.log (outcome globalExecutionEventsStream)
  | .control command => command ≠ .restart

instance (host : Host) (job : Job) (s : Shared Unit) (move : Move Unit) :
    Decidable (Apart host job s move) :=
  match move with
  | .worker _ _ => isTrue trivial
  | .dispatcher _ => inferInstanceAs (Decidable (Undisturbed _ _ _ _))
  | .stranger _ _ _ => inferInstanceAs (Decidable (_ → _))
  | .control _ => inferInstanceAs (Decidable (_ ≠ _))

/-- What a shared Redis has in common with one that a delivery and its watcher have
for themselves. -/
structure Unlocked (hash : String) (job : Job) (s : Shared Unit) (t : Site Unit) : Prop where
  hardened : Lasting (Hardened hash) s.redis
  orderly : Orderly s.dispatcher
  alone : Alone job (s.deployment ())
  alike : Alike job.task (siteOf job (s.deployment ())) t

section Following
variable {s : Shared Unit} {t : Site Unit}

/-- What the delivery and the dispatcher do by themselves. -/
theorem Unlocked.own (rel : Unlocked hash job s t) {move : OneDelivery.Move} {d : Deployment}
    (ok : Undisturbed host job (s.deployment ()) move)
    (hs : (deploying host job.task).step (s.deployment ()) move = some (d, o))
    {stages : Unit → Worker.Stage} (hstages : stages () = d.stage) :
    ∃ turns t', Run (delivering host job.task) Free t turns t' (eventsOf job o) ∧
      Unlocked hash job ⟨d.dispatcher, stages, s.redis⟩ t' := by
  obtain ⟨turns, site, run, delivers⟩ := deploying_follows host job (s.deployment ())
    (siteOf job (s.deployment ())) move d o ⟨rel.orderly, rel.alone, rfl⟩ ok hs
  obtain ⟨turns', t', run', -, alike⟩ := (delivering_follows host job.task).run
    ⟨rel.alone.watcherOf_same.2, rel.alike⟩ run
  rw [List.filterMap_some] at run'
  obtain rfl := delivers.same
  have same : (Shared.mk d.dispatcher stages s.redis).deployment () = d := by
    simp only [Shared.deployment, hstages]
  refine ⟨turns', t', run', rel.hardened, delivers.orderly, ?_, ?_⟩
  · rw [same]
    exact delivers.alone
  · rw [same]
    exact alike

/-- A stranger's command is nothing to the delivery and its watcher. -/
theorem Unlocked.stranger (rel : Unlocked hash job s t) {request : Request}
    {outcome : String → Log Fields} (denied : ∀ k, job.task.keys.key k ∉ request.writes)
    (foreign : globalExecutionEventsStream ∈ request.writes →
      Foreign job s.dispatcher.log (outcome globalExecutionEventsStream)) :
    Unlocked hash job (s.withWorld (carryOut request outcome s.dispatcher.world)) t := by
  have change : (s.withWorld (carryOut request outcome s.dispatcher.world)).dispatcher.log =
      if globalExecutionEventsStream ∈ request.writes then outcome globalExecutionEventsStream
      else s.dispatcher.log := rfl
  obtain ⟨orderly, fewer⟩ :
      Orderly (s.withWorld (carryOut request outcome s.dispatcher.world)).dispatcher ∧
      (pending job (s.withWorld (carryOut request outcome s.dispatcher.world)).dispatcher).Sublist
        (pending job s.dispatcher) := by
    by_cases hglobal : globalExecutionEventsStream ∈ request.writes
    · obtain ⟨cut, grown, hnew⟩ := foreign hglobal
      rw [if_pos hglobal] at change
      rw [← change] at cut grown hnew
      exact ⟨rel.orderly.grow grown rfl rfl,
        pending_foreign rel.orderly (List.prefix_iff_eq_append.mp grown).symm cut rfl hnew⟩
    · rw [if_neg hglobal] at change
      refine ⟨rel.orderly.grow (change ▸ List.prefix_refl _) rfl rfl, ?_⟩
      rw [pending_same change rfl]
  refine ⟨rel.hardened, orderly, rel.alone.settle fewer rfl rfl, ?_, rel.alike.watch,
    rel.alike.stages⟩
  refine rel.alike.world.trans ?_
  simp only [siteOf, restrict_ownKey]
  exact (carryOut_alike denied).symm

/-- Among strangers a delivery and its watcher do what they can do alone. -/
theorem sharing_follows (host : Host) (hash : String) (named : job.task.delegateId = str a) :
    Follows (sharing host job.task) (Apart host job) (delivering host job.task)
      (Unlocked hash job) (Happening.event job) := by
  intro s t move s' o rel ok hs
  cases sharing_shares hs with
  | @worker i work stage deeds _ hw =>
    have hs : (deploying host job.task).step (s.deployment ()) (.worker work) =
        some (⟨arrive job.task.keys s.dispatcher deeds, stage⟩, deeds.map .done) := by
      simp only [deploying, Shared.deployment, hw, Option.map_some]
    have ok : Undisturbed host job (s.deployment ()) (.worker work) := trivial
    exact rel.own ok hs (Function.update_self () stage s.stages)
  | @dispatcher a d shown _ hd =>
    have hs : (deploying host job.task).step (s.deployment ()) (.dispatcher a) =
        some (⟨d, s.stages ()⟩, shown.map .shown) := by
      simp only [deploying, Shared.deployment, hd, Option.map_some]
    exact rel.own ok hs rfl
  | stranger hname hadmits =>
    have denied := stranger_denied rel.hardened.1 named hname hadmits
    exact ⟨[], t, .start, rel.stranger denied ok⟩
  | @control command hof =>
    have same : afterCommand s.dispatcher.world command = s.dispatcher.world := by
      cases command with
      | restart => exact absurd rfl ok
      | _ => rfl
    rw [same]
    exact ⟨[], t, .start, rel.hardened.apply hof.keeps, rel.orderly, rel.alone, rel.alike⟩

end Following

/-- Only the delivery and the dispatcher act. -/
def Unaddressed (_ : Deployment) (move : OneDelivery.Move) : Prop :=
  ∀ key fields, move ≠ .dispatcher (.publish key fields)

def Move.ofOwn : OneDelivery.Move → Move Unit
  | .worker work => .worker () work
  | .dispatcher a => .dispatcher a

/-- Redis refuses nothing to a delegate that has its user. -/
theorem own_run {s : Shared Unit} {moves : List OneDelivery.Move} {d : Deployment}
    (named : task.delegateId = str a) (hardened : Hardened hash s.redis.live)
    (user : HasUser s.redis.live (str a))
    (h : Run (deploying host task) Unaddressed (s.deployment ()) moves d o) :
    Run (sharing host task) Free s (moves.map Move.ofOwn)
      ⟨d.dispatcher, fun _ => d.stage, s.redis⟩ o := by
  induction h with
  | start => exact .start
  | @snoc moves d d' o o' move _ ok hs ih =>
    rw [List.map_append]
    refine ih.snoc trivial ?_
    cases move with
    | worker work =>
      have free : Unhindered s.redis.live task ⟨d.dispatcher, d.stage⟩ work := by
        intro r _ request hrequest
        exact own_admitted hardened named user hrequest
      have update : Function.update (fun _ : Unit => d.stage) () d'.stage = fun _ => d'.stage := by
        funext i
        exact Function.update_self (β := fun _ => Worker.Stage) () d'.stage _
      have hstep : (deploying host task).step ⟨d.dispatcher, d.stage⟩ (.worker work) =
          some (d', o') := hs
      simp only [Move.ofOwn, sharing, Shared.deployment, if_pos free, hstep, Option.map_some,
        update]
    | dispatcher a =>
      simp only [deploying, Option.map_eq_some_iff] at hs
      obtain ⟨⟨d₁, shown⟩, hd, he⟩ := hs
      cases he
      cases a with
      | publish key fields => exact absurd rfl (ok key fields)
      | _ => simp only [Move.ofOwn, sharing, hd, Option.map_some]

end Sharing

/-- Whatever those who hold other certificates do, and whatever happens to the users
of delegates: until Redis or the dispatcher is restarted, and unless a stranger
announces the execution, a delivery and the watcher of its execution do nothing that
they could not do alone. As long as the delegate has its user, Redis refuses nothing
to its worker. -/
theorem strangers_change_nothing {host : Host} {hash : String} {job : Job} {a : UUID}
    {world : World} {d : Dispatcher} {redis : Redis} {moves : List (Move Unit)} {s : Shared Unit}
    {o : List Happening} (named : job.task.delegateId = str a)
    (hardened : Lasting (Hardened hash) redis)
    (hd : Reachable (dispatching host) (.start world) d) (ready : Ready job d)
    (h : Run (sharing host job.task) (Apart host job) ⟨d, fun _ => .identifying, redis⟩ moves s o) :
    (∃ turns t, Run (delivering host job.task) Free (.start job d.world) turns t (eventsOf job o) ∧
      t.watch = watcherOf job s.dispatcher ∧ t.stages = s.stages ∧
      t.world.store = s.dispatcher.world.store ∧
      ∀ k, t.world.redis (job.task.keys.key k) =
        s.dispatcher.world.redis (job.task.keys.key k)) ∧
    (HasUser s.redis.live (str a) → ∀ moves' d' o',
      Run (deploying host job.task) Unaddressed (s.deployment ()) moves' d' o' →
      Run (sharing host job.task) Free s (moves'.map Move.ofOwn)
        ⟨d'.dispatcher, fun _ => d'.stage, s.redis⟩ o') := by
  have start : Unlocked hash job ⟨d, fun _ => .identifying, redis⟩ (.start job d.world) := by
    refine ⟨hardened, orderly_of_reachable hd, ready.alone hd, ?_⟩
    simp only [Shared.deployment, ready.site]
    exact ⟨restrict_ownKey.symm, rfl, rfl⟩
  obtain ⟨turns, t, run, rel⟩ := (sharing_follows host hash named).run start h
  refine ⟨⟨turns, t, run, rel.alike.watch, rel.alike.stages, rel.alike.store, ?_⟩, ?_⟩
  · intro k
    refine (rel.alike.stream k).trans ?_
    exact if_pos (ownKey_key k)
  · intro user moves' d' o' h'
    exact own_run named rel.hardened.1 user h'

/-- Two delegates have users. -/
def bothUsers : Acl :=
  provisionDelegate (provisionDelegate (seeded "hash") (str smallDelegate.id) "secret-1")
    (str 11) "secret-2"

/-- What the other delegate has put on the global stream, which stops the main loop. -/
def junk : Fields := [("type", "EXECUTION_STARTED"), ("execution_id", "not-a-uuid")]

/-- The other delegate announces nonsense and loses its user. -/
def disturbed : List (Move Unit) :=
  [.worker () (.prepare true), .worker () .publish, .dispatcher (.loop (.xread 1)),
    .dispatcher (.loop .handle), .dispatcher (.loop .handle),
    .stranger (str 11) ⟨"xadd", [], [globalExecutionEventsStream]⟩
      (fun _ => (Log.empty.append smallTask.announcement).append junk),
    .worker () .publish, .control (.delUser (str 11)), .control .save,
    .dispatcher (.thread 0 (.check false)), .dispatcher (.loop (.xread 1)),
    .dispatcher (.loop .handle), .worker () (.prepare true)]

theorem disturbed_unchanged : ∃ s o turns t,
    Run (sharing smallHost smallTask) (Apart smallHost smallJob)
      (.start (smallWorld .queued) ⟨bothUsers, bothUsers⟩) disturbed s o ∧
    Run (delivering smallHost smallTask) Free (.start smallJob (smallWorld .queued)) turns t
      (eventsOf smallJob o) ∧ t.stages = s.stages := by
  have hrun : (replay ((sharing smallHost smallTask).guarded (Apart smallHost smallJob))
      (.start (smallWorld .queued) ⟨bothUsers, bothUsers⟩) disturbed).any
      (fun _ => true) = true := by
    decide +kernel
  obtain ⟨s, o, h, -⟩ := guarded_run_of_replay_test hrun
  have hardened : Hardened "hash" bothUsers :=
    ((seeded_hardened "hash").setUser smallDelegate.id _).setUser 11 _
  have named : smallJob.task.delegateId = str smallDelegate.id := rfl
  have reachable : Reachable (dispatching smallHost) (.start (smallWorld .queued))
      (.start (smallWorld .queued)) := ⟨[], [], .start⟩
  obtain ⟨⟨turns, t, ht, -, stages, -⟩, -⟩ := strangers_change_nothing named ⟨hardened, hardened⟩
    reachable smallDeployment_ready h
  exact ⟨s, o, turns, t, h, ht, stages⟩

/-- DELUSER has been issued, and no restart of Redis brings the user back: it has
been saved in time, or there is none. -/
def Removed (name : String) (issued later : List Command) : Prop :=
  ∃ before between, issued = before ++ .delUser name :: between ∧
    (.restart ∉ between ++ later ∨
      ∃ unsaved saved, between = unsaved ++ .save :: saved ∧ .restart ∉ unsaved)

section Revoked
variable {host : Host} {hash : String} {task : Task} {a : UUID} {s s' : Shared ι}
variable {o : List Happening} {move : Move ι} {moves : List (Move ι)}
variable {issued later rest : List Command} {redis : Redis}

theorem sharing_redis (h : (sharing host task).step s move = some (s', o)) :
    s'.redis = s.redis.perform ((([move] : List (Move ι)).filterMap Move.command?).map
      Command.event) := by
  cases sharing_shares h with
  | _ => rfl

theorem sharing_redis_run (h : Run (sharing host task) Free s moves s' o) :
    s'.redis = s.redis.perform ((moves.filterMap Move.command?).map Command.event) := by
  refine h.invariant_along (fun moves t _ => t.redis = s.redis.perform
    ((moves.filterMap Move.command?).map Command.event)) rfl ?_
  intro moves t o move u o' _ hi _ hs
  rw [sharing_redis hs, hi, List.filterMap_append, List.map_append, Copies.perform_append]

/-- A removed user is not there, up to any later command. -/
theorem Removed.gone {name : String} (removed : Removed name issued later)
    (spares : ∀ c ∈ issued ++ later, Spares name c) (below : rest <+: later) :
    ¬ HasUser (redis.perform ((issued ++ rest).map Command.event)).live name := by
  have brings (acl : Acl) : ¬ HasUser (delUser acl name) name := by simp
  have keeps (e : SavedCopies.Event Acl) (he : e ∈ (issued ++ rest).map Command.event) :
      Keeps (fun acl => ¬ HasUser acl name) e := by
    obtain ⟨c, hc, rfl⟩ := List.mem_map.mp he
    refine (spares c ?_).keeps
    rcases List.mem_append.mp hc with hc | hc
    · exact List.mem_append_left _ hc
    · exact List.mem_append_right _ (below.subset hc)
  obtain ⟨before, between, rfl, hno | ⟨unsaved, saved, rfl, hno⟩⟩ := removed
  · have hno' : .restart ∉ between ++ rest := by
      intro hmem
      rcases List.mem_append.mp hmem with hmem | hmem
      · exact hno (List.mem_append_left _ hmem)
      · exact hno (List.mem_append_right _ (below.subset hmem))
    simp only [List.append_assoc, List.cons_append, List.map_append, List.map_cons,
      Copies.perform_append, Copies.perform_cons] at keeps ⊢
    rw [← Copies.perform_append, ← List.map_append]
    refine SavedCopies.live_perform (brings _) (fun e he => keeps e ?_) (reload_notMem hno')
    simp only [List.map_append] at he
    simp only [List.mem_append, List.mem_cons] at he ⊢
    tauto
  · simp only [List.append_assoc, List.cons_append, List.map_append, List.map_cons] at keeps ⊢
    refine (SavedCopies.lasting_of_saved brings (reload_notMem hno) (fun e he => keeps e ?_)).1
    simp only [List.mem_append, List.mem_cons] at he ⊢
    tauto

/-- Without a user the deliveries of a delegate send nothing. -/
theorem sharing_silent (hardened : Hardened hash s.redis.live) (named : task.delegateId = str a)
    (gone : ¬ HasUser s.redis.live (str a)) (h : (sharing host task).step s move = some (s', o))
    {deed : Deed} (hdeed : .done deed ∈ o) : requestOf task.keys deed = none := by
  have hget : s.redis.live.get? task.delegateId = none := by
    rw [named]
    exact Option.not_isSome_iff_eq_none.mp gone
  cases sharing_shares h with
  | stranger _ _ => cases hdeed
  | control _ => cases hdeed
  | dispatcher _ _ =>
    obtain ⟨x, -, he⟩ := List.mem_map.mp hdeed
    cases he
  | @worker i work stage deeds free hw =>
    obtain ⟨x, hx, he⟩ := List.mem_map.mp hdeed
    cases he
    have denied := free (stage, deeds) hw
    refine Option.eq_none_iff_forall_ne_some.mpr ?_
    intro request hrequest
    have hmem : request ∈ requestsOf task (s.stages i) work deeds :=
      List.mem_append_right _ (List.mem_filterMap.mpr ⟨deed, hx, hrequest⟩)
    exact unknown_denied hardened hget (denied request hmem)

theorem published_silent {deeds : List Deed}
    (silent : ∀ deed ∈ deeds, requestOf task.keys deed = none) (k : Kind) :
    published k deeds = [] := by
  induction deeds with
  | nil => rfl
  | cons deed deeds ih =>
    obtain ⟨hdeed, hdeeds⟩ := List.forall_mem_cons.mp silent
    cases deed with
    | publish k' fields => cases hdeed
    | _ => exact ih hdeeds

/-- The dispatcher writes to the events streams only. -/
theorem dispatched_history {d d' : Dispatcher} {act : Action} {shown : List Shown}
    (keyed : Keyed d) (named : task.delegateId = str a)
    (quiet : ∀ key fields, act ≠ .publish key fields) (h : Moved host d act d' shown) {k : Kind}
    (hk : k ≠ .events) :
    (d'.world.redis (task.keys.key k)).history = (d.world.redis (task.keys.key k)).history := by
  cases h with
  | consume _ hann =>
    cases hann with
    | skip _ => rfl
    | watch _ _ _ _ =>
      simp only [Dispatcher.watch]
      split <;> rfl
  | @thread i watch watch' input world seen hget hm =>
    by_cases own : ∃ k', watch.keys.key k' = task.keys.key k
    · obtain ⟨k', hown⟩ := own
      obtain ⟨u, hkeys⟩ := keyed watch (List.mem_of_getElem? hget)
      refine moves_own_history hm ?_ hk
      rw [hkeys, Worker.Task.keys, named] at hown ⊢
      exact streamKeys_same hown
    · have outside := moves_outside hm fun k' hk' => own ⟨k', hk'⟩
      simp only [outside]
  | publish => exact absurd rfl (quiet _ _)
  | _ => rfl

/-- No step but one that publishes there changes what the task's streams have seen. -/
theorem sharing_history (hardened : Hardened hash s.redis.live) (named : task.delegateId = str a)
    (keyed : Keyed s.dispatcher) (h : (sharing host task).step s move = some (s', o))
    {k : Kind} (hk : k ≠ .events) :
    (s'.dispatcher.world.redis (task.keys.key k)).history =
      (s.dispatcher.world.redis (task.keys.key k)).history ++ published k (deedsIn o) := by
  cases sharing_shares h with
  | @worker i work stage deeds _ _ =>
    rw [deedsIn_done]
    exact (performs_log deeds s.dispatcher.world k).1
  | dispatcher quiet hd =>
    rw [deedsIn_shown, published, List.append_nil]
    exact dispatched_history keyed named quiet (dispatching_moved hd) hk
  | stranger hname hadmits =>
    have denied := stranger_denied hardened named hname hadmits k
    simp only [Shared.withWorld, carryOut, if_neg denied]
    exact (List.append_nil _).symm
  | @control command _ => cases command <;> exact (List.append_nil _).symm

theorem sharing_same (h : (sharing host task).step s move = some (s', o)) :
    (Keyed s.dispatcher → Keyed s'.dispatcher) ∧
      (Lasting (Hardened hash) s.redis → Lasting (Hardened hash) s'.redis) := by
  cases sharing_shares h with
  | worker _ _ => exact ⟨id, id⟩
  | dispatcher _ hd => exact ⟨fun keyed => keyed.step (dispatching_moved hd), id⟩
  | stranger _ _ => exact ⟨id, id⟩
  | control hof => exact ⟨id, fun hardened => hardened.apply hof.keeps⟩

theorem sharing_same_run (keyed : Keyed s.dispatcher) (hardened : Lasting (Hardened hash) s.redis)
    (h : Run (sharing host task) Free s moves s' o) :
    Keyed s'.dispatcher ∧ Lasting (Hardened hash) s'.redis := by
  refine h.state_invariant (fun t => Keyed t.dispatcher ∧ Lasting (Hardened hash) t.redis)
    ⟨keyed, hardened⟩ ?_
  rintro t move u o' ⟨hkeyed, hlasting⟩ _ hs
  have hsame := @sharing_same _ _ host hash task t u o' move hs
  exact ⟨hsame.1 hkeyed, hsame.2 hlasting⟩

end Revoked

/-- The control plane has marked a delegate REVOKED and removed its user so that no
restart of Redis brings it back, and no operation is still to set it. From then on
Redis takes no command of that delegate, none of its deliveries publishes anything,
and what the streams of its tasks but for events have seen stays the same, whatever
anybody else does. -/
theorem revoked_is_silent {host : Host} {hash : String} {task : Task} {a : UUID} {world : World}
    {d d' : AclPersistence.Deployment} {acts : List AclPersistence.Act} {commands : List Command}
    {moves moves' : List (Move ι)} {s s' : Shared ι} {o o' : List Happening}
    (named : task.delegateId = str a) (hardened : Lasting (Hardened hash) d.redis)
    (marked : Marked d a) (issued : Run persisting Free d acts d' commands)
    (first : Run (sharing host task) Free (.start world d.redis) moves s o)
    (later : Run (sharing host task) Free s moves' s' o')
    (controls : (moves ++ moves').filterMap Move.command? = commands)
    (removed : Removed (str a) (moves.filterMap Move.command?) (moves'.filterMap Move.command?)) :
    (∀ request, ¬ Admits s'.redis.live task.delegateId request) ∧
    (∀ deed ∈ deedsIn o', requestOf task.keys deed = none) ∧
    ∀ k, k ≠ .events → (s'.dispatcher.world.redis (task.keys.key k)).history =
      (s.dispatcher.world.redis (task.keys.key k)).history := by
  have start : Keyed (Shared.start (ι := ι) world d.redis).dispatcher := by
    intro watch hw
    cases hw
  obtain ⟨keyed, lasting⟩ := sharing_same_run start hardened first
  have spares : ∀ c ∈ moves.filterMap Move.command? ++ moves'.filterMap Move.command?,
      Spares (str a) c := by
    rw [← List.filterMap_append, controls]
    exact marked_run marked issued
  have gone {as : List (Move ι)} {t : Shared ι} {p : List Happening} (below : as <+: moves')
      (h : Run (sharing host task) Free s as t p) : ¬ HasUser t.redis.live (str a) := by
    rw [sharing_redis_run (first.append h), List.filterMap_append]
    exact removed.gone spares (below.filterMap _)
  have quiet : moves' <+: moves' → (∀ deed ∈ deedsIn o', requestOf task.keys deed = none) ∧
      ∀ k, k ≠ .events → (s'.dispatcher.world.redis (task.keys.key k)).history =
        (s.dispatcher.world.redis (task.keys.key k)).history := by
    refine later.invariant_along (fun as t p => as <+: moves' →
      (∀ deed ∈ deedsIn p, requestOf task.keys deed = none) ∧
      ∀ k, k ≠ .events → (t.dispatcher.world.redis (task.keys.key k)).history =
        (s.dispatcher.world.redis (task.keys.key k)).history) ?_ ?_
    · intro _
      exact ⟨fun _ hdeed => absurd hdeed List.not_mem_nil, fun _ _ => rfl⟩
    · intro as t p move u p' hr hi _ hs below
      have before := (List.prefix_append as [move]).trans below
      obtain ⟨quiet, same⟩ := hi before
      obtain ⟨hkeyed, hlasting⟩ := sharing_same_run keyed lasting hr
      have silent : ∀ deed ∈ deedsIn p', requestOf task.keys deed = none := by
        intro deed hdeed
        exact sharing_silent hlasting.1 named (gone before hr) hs (mem_deedsIn hdeed)
      constructor
      · intro deed hdeed
        rw [deedsIn_append] at hdeed
        rcases List.mem_append.mp hdeed with hdeed | hdeed
        · exact quiet deed hdeed
        · exact silent deed hdeed
      · intro k hk
        rw [sharing_history hlasting.1 named hkeyed hs hk, published_silent silent k,
          List.append_nil, same k hk]
  refine ⟨fun request => ?_, quiet (List.prefix_refl _)⟩
  refine unknown_denied (sharing_same_run keyed lasting later).2.1 ?_
  rw [named]
  exact Option.not_isSome_iff_eq_none.mp (gone (List.prefix_refl _) later)

/-- The delivery gets as far as its first status before the delegate is removed. -/
def cutShort : List (Move Unit) :=
  [.worker () (.prepare true), .worker () .publish, .dispatcher (.loop (.xread 1)),
    .dispatcher (.loop .handle), .control (.delUser (str delegateA.id)), .control .save]

def afterwards : List (Move Unit) :=
  [.dispatcher (.thread 0 (.check false)), .control .restart, .dispatcher .restart]

theorem cutShort_silent : ∃ s o s' o',
    Run (sharing smallHost smallTask) Free (.start (smallWorld .queued) revoking.redis)
      cutShort s o ∧
    Run (sharing smallHost smallTask) Free s afterwards s' o' ∧
    ∀ request, ¬ Admits s'.redis.live smallTask.delegateId request := by
  have hfirst : (replay (sharing smallHost smallTask)
      (.start (smallWorld .queued) revoking.redis) cutShort).any
      (fun r => (replay (sharing smallHost smallTask) r.1 afterwards).any (fun _ => true)) =
        true := by
    decide +kernel
  obtain ⟨s, o, first, hlater⟩ := run_of_replay_test hfirst
  obtain ⟨s', o', later, -⟩ := run_of_replay_test hlater
  have hissued : (replay persisting revoking
      [.next 0 "" "" .done, .next 0 "" "" .done, .restart]).any
      (fun r => decide (r.2 = [.delUser (str delegateA.id), .save, .restart])) = true := by
    decide +kernel
  obtain ⟨d, commands, issued, hcommands⟩ := run_of_replay_test hissued
  have hardened : Hardened "hash" revoking.redis.live :=
    (seeded_hardened "hash").setUser delegateA.id _
  have marked : Marked revoking delegateA.id := by
    refine ⟨⟨{ delegateA with status := .revoked }, by rfl, rfl⟩, ?_⟩
    intro x hx
    obtain rfl := List.mem_singleton.mp hx
    exact not_false
  have named : smallTask.delegateId = str delegateA.id := rfl
  have controls : (cutShort ++ afterwards).filterMap Move.command? = commands :=
    (of_decide_eq_true hcommands).symm
  have removed : Removed (str delegateA.id) (cutShort.filterMap Move.command?)
      (afterwards.filterMap Move.command?) :=
    ⟨[], [.save], rfl, Or.inr ⟨[], [], rfl, by simp⟩⟩
  have silent := revoked_is_silent named ⟨hardened, hardened⟩ marked issued first later controls
    removed
  exact ⟨s, o, s', o', first, later, silent.1⟩

end SharedRedis
