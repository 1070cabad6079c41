import DelegateProtocol.TaskRouting

/-!
# Tasks in the keyspace of their delegate

A task for one delegate can only ever land in that delegate's own keyspace, and
there nobody but the delegate and the control plane gets at it. What a worker does
with it is up to Celery.
-/

namespace TaskDelivery

open AclDurability AclScope ExecutionCreation Handlers Models RedisAcl Runtime SharedRedis
open StepMachine Streams TaskRouting Uuid WatchExecution
open AclPersistence (Command Redis seeded)
open SavedCopies (Lasting)

instance (s p : String) : Decidable (StartsWith s p) :=
  decidable_of_iff (p.toList <+: s.toList) (by
    constructor
    · rintro ⟨rest, hrest⟩
      refine ⟨String.ofList rest, String.toList_inj.mp ?_⟩
      rw [String.toList_append, String.toList_ofList, hrest]
    · rintro ⟨rest, rfl⟩
      rw [String.toList_append]
      exact List.prefix_append _ _)

/-- Below the prefix of the delegate. -/
def Below (a : UUID) (item : Item) : Prop := StartsWith item.key (delegatePrefix (str a))

instance (a : UUID) (item : Item) : Decidable (Below a item) :=
  inferInstanceAs (Decidable (StartsWith _ _))

/-- What lies below the prefix of the delegate, in the order of each list. -/
def below (a : UUID) (items : List Item) : List Item := items.filter (fun item => Below a item)

/-- What `send_execute_task` has put there. -/
def putBelow (a : UUID) (o : List Event) : List Item := below a (putItems o)

/-- Nobody else has the certificate of the control plane. -/
def Certified (host : Host) (isDir : String → Bool) (s : Routing) : Action → Prop
  | .client name _ _ => name ≠ "cp-admin"
  | act => Administers host isDir s act

/-- The workers of the delegate rest, and Redis is not restarted. -/
def Spared (host : Host) (isDir : String → Bool) (a : UUID) (s : Routing) (act : Action) : Prop :=
  Certified host isDir s act ∧
    match act with
    | .client name _ _ => name ≠ str a
    | .control command => command ≠ .restart
    | _ => True

section Keys
variable {a b : UUID} {key : String} {o o' : List Event} {items items' : List Item}

theorem below_append : below a (items ++ items') = below a items ++ below a items' :=
  List.filter_append ..

theorem putBelow_append : putBelow a (o ++ o') = putBelow a o ++ putBelow a o' := by
  rw [putBelow, putItems_append, below_append]
  rfl

end Keys

section Stages
variable {host : Host} {service service' : Service} {c : Creation} {stage : Stage}
variable {o : List Event} {a : UUID} {delegate : Delegate}

theorem putItems_put (items : List Item) : putItems (items.map .put) = items := by
  induction items with
  | nil => rfl
  | cons item items ih => exact congrArg (List.cons item) ih

theorem putBelow_sends : putBelow a (service.sends c delegate) =
    below a (service.puts c delegate) :=
  congrArg (below a) (putItems_put _)

theorem advances_below (h : Advances host service c service' stage o) :
    below a service'.items = below a service.items ++ putBelow a o := by
  have none {o : List Event} (quiet : putBelow a o = []) :
      below a service.items = below a service.items ++ putBelow a o := by
    rw [quiet, List.append_nil]
  cases h with
  | taken _ => rw [putBelow_sends, Service.send, below_append]
  | @raised delegate _ _ =>
    have unput : putBelow a [.answered .raised] = [] := rfl
    rw [putBelow_append, putBelow_sends, unput, List.append_nil, Service.send, below_append]
  | _ => exact none rfl

end Stages

/-- Where everything that lies below the prefix of the delegate has come from. -/
structure Lands (hash : String) (a : UUID) (s : Routing) (o : List Event) : Prop where
  sound : Sound s o
  hardened : Lasting (Hardened hash) s.redis
  origin : ∀ item ∈ below a s.service.items, .put item ∈ o ∨ .wrote (str a) item ∈ o

section Runs
variable {host : Host} {isDir : String → Bool} {hash : String} {a : UUID} {s t : Routing}
variable {act : Action} {o o' : List Event} {outcome : List Item} {request : Request}
variable {name : String}

theorem Certified.administers (h : Certified host isDir s act) : Administers host isDir s act := by
  cases act with
  | client name request outcome => trivial
  | _ => exact h

/-- Another client touches nothing below the prefix of the delegate. -/
theorem below_client (items : List Item) (hardened : Hardened hash s.redis.live)
    (hname : name ≠ str a) (hadmin : name ≠ "cp-admin") (hadmits : Admits s.redis.live name request)
    (written : ∀ item ∈ outcome, item.key ∈ request.writes) :
    below a (items.filter (fun item => item.key ∉ request.writes) ++ outcome) = below a items := by
  have spared {item : Item} (hbelow : Below a item) : item.key ∉ request.writes :=
    (below_denied hardened hname hadmin hadmits hbelow).2
  have kept : below a (items.filter (fun item => item.key ∉ request.writes)) = below a items := by
    simp only [below, List.filter_filter]
    refine List.filter_congr ?_
    intro item _
    by_cases hbelow : Below a item
    · simp [hbelow, spared hbelow]
    · simp [hbelow]
  have none : below a outcome = [] := by
    refine List.filter_eq_nil_iff.mpr ?_
    intro item hitem hbelow
    exact spared (of_decide_eq_true hbelow) (written item hitem)
  rw [below_append, kept, none, List.append_nil]

/-- While its workers rest, what lies below the prefix of a delegate only grows by what is
put there. -/
theorem routes_below (hardened : Hardened hash s.redis.live) (spared : Spared host isDir a s act)
    (h : Routes host s act t o) :
    below a t.service.items = below a s.service.items ++ putBelow a o := by
  have none (name : String) (items : List Item) : putBelow a (items.map (.wrote name)) = [] := by
    induction items with
    | nil => rfl
    | cons item items ih => exact ih
  cases h with
  | creation _ ha => exact advances_below ha
  | @control command _ =>
    cases command with
    | restart => exact absurd rfl spared.2
    | _ => exact (List.append_nil _).symm
  | client hadmits written =>
    rw [none, List.append_nil]
    exact below_client _ hardened spared.2 spared.1 hadmits written
  | _ => exact (List.append_nil _).symm

theorem Lands.step (h : Lands hash a s o) (certified : Certified host isDir s act)
    (hr : Routes host s act t o') : Lands hash a t (o ++ o') := by
  have sound := h.sound.step certified.administers hr
  have earlier {items : List Item} (same : ∀ item ∈ below a items, item ∈ below a s.service.items) :
      ∀ item ∈ below a items, .put item ∈ o ++ o' ∨ .wrote (str a) item ∈ o ++ o' := by
    intro item hitem
    exact (h.origin item (same item hitem)).imp (List.mem_append_left _) (List.mem_append_left _)
  cases hr with
  | @creation i c service stage _ _ ha =>
    refine ⟨sound, h.hardened, ?_⟩
    intro item hitem
    rw [advances_below ha] at hitem
    rcases List.mem_append.mp hitem with hitem | hitem
    · exact earlier (fun _ => id) item hitem
    · have hput := mem_putItems.mp (List.mem_of_mem_filter hitem)
      exact Or.inl (List.mem_append_right _ hput)
  | @control command hof =>
    refine ⟨sound, h.hardened.apply hof.keeps, earlier ?_⟩
    cases command with
    | restart =>
      intro item hitem
      cases hitem
    | _ => exact fun _ => id
  | @client name request outcome hadmits written =>
    refine ⟨sound, h.hardened, ?_⟩
    intro item hitem
    by_cases hname : name = str a
    · simp only [Routing.withItems, below_append] at hitem
      rcases List.mem_append.mp hitem with hitem | hitem
      · have hkept := List.mem_filter.mp hitem
        have hbefore : item ∈ below a s.service.items :=
          List.mem_filter.mpr ⟨List.mem_of_mem_filter hkept.1, hkept.2⟩
        exact (h.origin item hbefore).imp (List.mem_append_left _) (List.mem_append_left _)
      · refine Or.inr (List.mem_append_right _ (List.mem_map.mpr ⟨item, ?_, ?_⟩))
        · exact List.mem_of_mem_filter hitem
        · rw [hname]
    · have same := below_client s.service.items h.hardened.1 hname certified hadmits written
      exact earlier (fun item hmem => same ▸ hmem) item hitem
  | _ => exact ⟨sound, h.hardened, earlier (fun _ => id)⟩

/-- A delegate that has its user may send the commands of the broker there. -/
theorem own_broker (hardened : Hardened hash s.redis.live) (user : HasUser s.redis.live (str a))
    {command key : String} (hcommand : command ∈ delegateCommands) :
    Admits s.redis.live (str a) ⟨command, [brokerKey (str a) key], [brokerKey (str a) key]⟩ := by
  obtain ⟨secret, huser⟩ := own_user hardened user
  have full (read write : Bool) :
      AclScope.permits (delegateUser (str a) secret) read write (brokerKey (str a) key) = true :=
    permits_delegateUser.mpr (Or.inl ⟨key, rfl⟩)
  refine ⟨delegateUser (str a) secret, by rw [userOf, huser]; rfl, rfl, hcommand, ?_, ?_⟩
  · intro k hk
    rw [List.mem_singleton.mp hk]
    exact full true false
  · intro k hk
    rw [List.mem_singleton.mp hk]
    exact full false true

end Runs

/-- However requests interleave, whatever commands clients with any certificate but the
control plane's get past Redis, and whatever happens to its users: every task that the
broker takes lands in the list of its queue in the keyspace of the delegate its execution
is assigned to. What lies below the prefix of a delegate has been put there for it, or by
the delegate itself; while its workers rest and Redis is not restarted nothing of it is
lost, and nothing comes but what is put, in order. As long as it has its user Redis takes
its commands on these keys, and no other delegate can read or write them. -/
theorem lands_in_own_keyspace {host : Host} {isDir : String → Bool} {hash : String} {a : UUID}
    {db : DB} {redis : Redis} {as : List Action} {s : Routing} {o : List Event}
    (hardened : Lasting (Hardened hash) redis)
    (h : Run (routing host) (Certified host isDir) (.start db redis) as s o) :
    (∀ item, .put item ∈ o → .sent item.task ∈ o ∧ ∃ b, Routed s.service.db b item.task ∧
      item.key = brokerKey (str b) item.task.queue) ∧
    (∀ item ∈ below a s.service.items, .put item ∈ o ∨ .wrote (str a) item ∈ o) ∧
    (∀ as' t o', Run (routing host) (Spared host isDir a) s as' t o' →
      below a t.service.items = below a s.service.items ++ putBelow a o') ∧
    (HasUser s.redis.live (str a) → ∀ command ∈ delegateCommands, ∀ key,
      Admits s.redis.live (str a) ⟨command, [brokerKey (str a) key], [brokerKey (str a) key]⟩) ∧
    ∀ item ∈ below a s.service.items, ∀ name request, name ≠ str a → name ≠ "cp-admin" →
      Admits s.redis.live name request →
      item.key ∉ request.reads ∧ item.key ∉ request.writes := by
  have start : Lands hash a (.start db redis) [] := by
    have idle : Run (routing host) (Administers host isDir) (.start db redis) []
        (.start db redis) [] := .start
    exact ⟨sound_run idle, hardened, by simp [Routing.start, below]⟩
  have lands : Lands hash a s o := by
    refine h.invariant (Lands hash a) start ?_
    intro s o act t o' hi certified hs
    exact hi.step certified (routing_routes hs)
  refine ⟨?_, lands.origin, ?_, ?_, ?_⟩
  · intro item hput
    obtain ⟨hsent, hkey⟩ := lands.sound.put item hput
    obtain ⟨b, hb⟩ := lands.sound.routed item.task (mem_sent.mpr hsent)
    refine ⟨hsent, b, hb, ?_⟩
    obtain ⟨id, row, -, -, -, hprefix, -⟩ := hb
    rw [hkey, queueKey, hprefix]
    rfl
  · intro as' t o' h'
    have both : Lasting (Hardened hash) t.redis ∧
        below a t.service.items = below a s.service.items ++ putBelow a o' := by
      refine h'.invariant (fun t o => Lasting (Hardened hash) t.redis ∧
        below a t.service.items = below a s.service.items ++ putBelow a o)
        ⟨lands.hardened, (List.append_nil _).symm⟩ ?_
      rintro t o act u o' ⟨hlasting, hbelow⟩ spared hs
      have hr := routing_routes hs
      refine ⟨?_, ?_⟩
      · cases hr with
        | control hof => exact hlasting.apply hof.keeps
        | _ => exact hlasting
      · rw [routes_below hlasting.1 spared hr, hbelow, putBelow_append, List.append_assoc]
    exact both.2
  · intro user command hcommand key
    exact own_broker lands.hardened.1 user hcommand
  · intro item hitem name request hname hadmin hadmits
    have hbelow : Below a item := of_decide_eq_true (List.mem_filter.mp hitem).2
    exact below_denied lands.hardened.1 hname hadmin hadmits hbelow

/-- Another delegate has a task for the same execution in its own queue. -/
def forged : Item :=
  ⟨brokerKey (str 11) "default", ⟨delegatePrefix (str 11), "default", str 1, .str "*"⟩⟩

/-- A worker of the delegate has put its task aside. -/
def aside : Item :=
  ⟨brokerKey (str smallDelegate.id) "unacked",
    executeTask (brokerUp 1 (.taken 1)) goodBody smallDelegate⟩

/-- The broker has taken the task twice. -/
def putTwice : List Action :=
  [.request (brokerUp 1 (.taken 1)) goodBody, .creation 0, .creation 0, .creation 0,
    .client (str 11) ⟨"lpush", [], [forged.key]⟩ [forged],
    .client (str smallDelegate.id) ⟨"hset", [], [aside.key]⟩ [aside], .creation 0]

def Outward : Action → Prop
  | .client name _ _ => name ≠ "cp-admin"
  | .write _ => False
  | _ => True

theorem certified_of_outward {host : Host} {isDir : String → Bool} {start s : Routing}
    {as : List Action} {o : List Event} (h : Run (routing host) Free start as s o)
    (outward : ∀ act ∈ as, Outward act) :
    Run (routing host) (Certified host isDir) start as s o := by
  refine (h.restrict outward).mono ?_
  intro s act hact
  cases act with
  | client name request outcome => exact hact
  | write db => exact absurd hact not_false
  | _ => trivial

theorem putTwice_lands : ∃ s o,
    Run (routing smallHost) (Certified smallHost (fun _ => true))
      (.start oneDelegate.db ⟨bothUsers, bothUsers⟩) putTwice s o ∧
    (below smallDelegate.id s.service.items).length = 3 ∧
    ∀ item ∈ below smallDelegate.id s.service.items,
      .put item ∈ o ∨ .wrote (str smallDelegate.id) item ∈ o := by
  have hrun : (replay (routing smallHost) (.start oneDelegate.db ⟨bothUsers, bothUsers⟩)
      putTwice).any
      (fun r => decide ((below smallDelegate.id r.1.service.items).length = 3)) = true := by
    decide +kernel
  obtain ⟨s, o, h, hthree⟩ := run_of_replay_test hrun
  have other : str 11 ≠ "cp-admin" ∧ str smallDelegate.id ≠ "cp-admin" := by decide +kernel
  have outward : ∀ act ∈ putTwice, Outward act := by
    simp only [putTwice, List.forall_mem_cons, Outward, true_and]
    simpa using other
  have run : Run (routing smallHost) (Certified smallHost (fun _ => true))
      (.start oneDelegate.db ⟨bothUsers, bothUsers⟩) putTwice s o :=
    certified_of_outward h outward
  have hardened : Hardened "hash" bothUsers :=
    ((seeded_hardened "hash").setUser smallDelegate.id _).setUser 11 _
  have lands := lands_in_own_keyspace (a := smallDelegate.id) ⟨hardened, hardened⟩ run
  exact ⟨s, o, run, of_decide_eq_true hthree, lands.2.1⟩

end TaskDelivery
