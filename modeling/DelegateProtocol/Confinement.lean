import DelegateProtocol.StreamDispatcher
import DelegateProtocol.TerminalStatus
import DelegateProtocol.Views

/-!
# Workspaces stay with the assigned delegate

Whatever is announced and requested on any stream, a workspace goes out only in
answer to a request of the delegate the execution is assigned to, and below that
delegate's prefix. The stream is named after the execution id as it was
announced, so another spelling of the id makes another stream of the delegate.
-/

namespace Confinement

open AppendLog Handlers Models Runtime StepMachine Streams Uuid Views WatchExecution ReadingOrder
  StreamDispatcher

/-- Whose an execution is: its tenant and its assigned delegate. -/
def owner (db : DB) (id : UUID) : Option (String × Option UUID) :=
  (db.execution id).map (fun e => (e.tenantId, e.delegateId))

/-- Between the steps of the process the views write to the database. -/
def Administered (host : Host) (isDir : String → Bool) (d : Dispatcher) : Action → Prop
  | .others store =>
    store.media = d.world.store.media ∧ ViewWrite host isDir d.world.store.db store.db
  | _ => True

/-- A database that was there at some moment of the run. -/
def Past (host : Host) (isDir : String → Bool) (start : Dispatcher) (as : List Action) (db : DB) :
    Prop :=
  ∃ before d o, before <+: as ∧
    Run (dispatching host) (Administered host isDir) start before d o ∧ d.world.store.db = db

/-- What an answer of a watcher rests on: a request on the stream it answers on,
and rows that were read for it. -/
structure Entitled (host : Host) (past : DB → Prop) (world : World) (execution : Named)
    (key : String) (delegateId : UUID) (request : Message) (grant : Grant) : Prop where
  stream : key = (streamKeys execution.text (str delegateId)).events
  type : request.type = some "DATA_REQUEST"
  onStream : (world.redis key).Entry request.id request.fields
  row : ∃ db, past db ∧ db.execution execution.id = some grant.execution
  assigned : grant.execution.delegateId = some delegateId
  tenantField : request.fields.get? "tenant_id" = some grant.execution.tenantId
  delegateField : request.fields.get? "delegate_id" = some (str delegateId)
  delegate : ∃ db, past db ∧ db.delegate delegateId = some grant.delegate
  active : grant.delegate.status = .active
  sameTenant : grant.delegate.tenantId = grant.execution.tenantId
  workspace : requestedZip host grant.execution request.fields = .ok (some grant.zip)

/-- A thread with the row of its execution and what it has in hand. -/
structure Holds (host : Host) (past : DB → Prop) (world : World) (watch : Watch)
    (tenantId : String) (delegateId : UUID) : Prop where
  keys : watch.keys = streamKeys watch.execution.text (str delegateId)
  owned : owner world.store.db watch.execution.id = some (tenantId, some delegateId)
  tenant : tenantId ≠ ""
  hand : ∀ m ∈ inHand watch.point, (world.redis (watch.keys.key m.kind)).Entry m.id m.fields
  reads : ∀ read request rest, watch.point = .authorizing read request rest →
    request.IsRequest ∧ (world.redis watch.keys.events).Entry request.id request.fields ∧
    read.tenantId = tenantId ∧ read.delegateId = some delegateId ∧
    ∃ db, past db ∧ db.execution watch.execution.id = some read
  sends : ∀ request grant transferId pending rest,
    watch.point = .sending request grant transferId pending rest →
    Entitled host past world watch.execution watch.keys.events delegateId request grant ∧
    ∃ sent, sent ++ pending =
      workspaceMessages watch.execution request.fields transferId grant.zip

section Owners
variable {host : Host} {db db' : DB}

theorem owner_update (id k : UUID) (f : Execution → Execution)
    (same : ∀ e, (f e).executionId = e.executionId)
    (kept : ∀ e, (f e).tenantId = e.tenantId ∧ (f e).delegateId = e.delegateId) :
    owner (db.updateExecution id f same) k = owner db k := by
  unfold owner
  by_cases h : k = id
  · subst h
    rw [updateExecution_self, Option.map_map]
    cases db.execution k with
    | none => rfl
    | some e => simp [kept e]
  · rw [updateExecution_of_ne db id f same h]

theorem owner_record (event : AuditEvent) (k : UUID) : owner (db.record event) k = owner db k := rfl

theorem effects_owner {watch : Watch} {m : Message} {store store' : Store} {logSeq : Nat}
    {state : Option OutputState} (h : Effects host watch m store store' logSeq state) (k : UUID) :
    owner store'.db k = owner store.db k := by
  cases h with
  | skip _ _ _ => rfl
  | log _ _ => rfl
  | status _ _ =>
    unfold handleStatus
    cases newStatus m.fields with
    | none => rfl
    | some status =>
      simp only
      rw [owner_update, owner_record]
      exact fun _ => ⟨rfl, rfl⟩
  | waiting _ _ => rfl
  | received _ _ _ =>
    simp only [acceptOutput]
    rw [owner_record, owner_update]
    exact fun _ => ⟨rfl, rfl⟩
  | failed _ _ =>
    simp only [rejectOutput]
    rw [owner_record, owner_update]
    exact fun _ => ⟨rfl, rfl⟩

theorem saveTransfer_owner {execution : Named} {fields : Fields} {read : Execution}
    {transferId : String} (h : saveTransfer execution fields read transferId db = .ok db')
    (k : UUID) : owner db' k = owner db k := by
  rw [saveTransfer_db h, owner_record, owner_update]
  exact fun _ => ⟨rfl, rfl⟩

/-- No step of a watcher gives an execution to somebody else. -/
theorem moves_owner {world world' : World} {watch watch' : Watch} {input : Input}
    {seen : List Seen} (h : Moves host world watch input world' watch' seen) (k : UUID) :
    owner world'.store.db k = owner world.store.db k := by
  cases h with
  | message _ _ he => exact effects_owner (effect_ok he) k
  | saved _ hs => exact saveTransfer_owner hs k
  | _ => rfl

end Owners

section Threads
variable {host : Host} {past past' : DB → Prop} {world world' : World} {watch watch' : Watch}
variable {tenantId : String} {delegateId : UUID} {input : Input} {seen : List Seen}

/-- Streams grow, owners stay and more becomes the past. -/
structure Later (past past' : DB → Prop) (world world' : World) : Prop where
  past : ∀ db, past db → past' db
  streams : ∀ key, (world.redis key).history <+: (world'.redis key).history
  owners : ∀ id tenantId delegateId, owner world.store.db id = some (tenantId, some delegateId) →
    owner world'.store.db id = some (tenantId, some delegateId)

theorem Entitled.later {execution : Named} {key : String} {request : Message} {grant : Grant}
    (he : Entitled host past world execution key delegateId request grant)
    (hl : Later past past' world world') :
    Entitled host past' world' execution key delegateId request grant := by
  obtain ⟨db, hdb, hrow⟩ := he.row
  obtain ⟨db', hdb', hdelegate⟩ := he.delegate
  exact { he with
    onStream := entry_grows (hl.streams key) he.onStream
    row := ⟨db, hl.past db hdb, hrow⟩
    delegate := ⟨db', hl.past db' hdb', hdelegate⟩ }

theorem Holds.later (hh : Holds host past world watch tenantId delegateId)
    (hl : Later past past' world world') : Holds host past' world' watch tenantId delegateId where
  keys := hh.keys
  owned := hl.owners _ _ _ hh.owned
  tenant := hh.tenant
  hand m hm := entry_grows (hl.streams _) (hh.hand m hm)
  reads read request rest hp := by
    obtain ⟨hr, he, ht, hd, db, hdb, hrow⟩ := hh.reads read request rest hp
    exact ⟨hr, entry_grows (hl.streams _) he, ht, hd, db, hl.past db hdb, hrow⟩
  sends request grant transferId pending rest hp := by
    obtain ⟨he, hsent⟩ := hh.sends request grant transferId pending rest hp
    exact ⟨he.later hl, hsent⟩

/-- A thread that does not stand at a request any more, with nothing new in hand. -/
theorem Holds.goOn (hh : Holds host past world watch tenantId delegateId)
    (hexec : watch'.execution = watch.execution) (hkeys : watch'.keys = watch.keys)
    (hhand : ∀ m ∈ inHand watch'.point, m ∈ inHand watch.point)
    (hreads : ∀ read request rest, watch'.point ≠ .authorizing read request rest)
    (hsends : ∀ request grant transferId pending rest,
      watch'.point ≠ .sending request grant transferId pending rest) :
    Holds host past world watch' tenantId delegateId where
  keys := by rw [hkeys, hexec]; exact hh.keys
  owned := by rw [hexec]; exact hh.owned
  tenant := hh.tenant
  hand m hm := by rw [hkeys]; exact hh.hand m (hhand m hm)
  reads _ _ _ hp := False.elim (hreads _ _ _ hp)
  sends _ _ _ _ _ hp := False.elim (hsends _ _ _ _ _ hp)

theorem mem_xread {counts : Kind → Nat} {m : Message} (hm : m ∈ xread world watch counts) :
    (world.redis (watch.keys.key m.kind)).Entry m.id m.fields := by
  have h := mem_ofKind hm rfl
  rw [ofKind_xread] at h
  exact entry_of_unread (List.mem_of_mem_take h)

/-- What a granted request and the rows read for it say. -/
theorem granted_entitled {read : Execution} {request : Message} {rest : List Message}
    {grant : Grant} (hh : Holds host past world watch tenantId delegateId)
    (now : past world.store.db) (hp : watch.point = .authorizing read request rest)
    (hd : decideRequest host world.store.db read request.fields = .ok (.granted grant)) :
    Entitled host past world watch.execution watch.keys.events delegateId request grant := by
  obtain ⟨hrequest, hentry, htenant, hassigned, hrow⟩ := hh.reads read request rest hp
  obtain ⟨hdelegate, rfl, ⟨d, hsome, hactive, hdt, het, hdf⟩, hzip⟩ := decideRequest_granted hd
  cases hsome
  rw [hassigned] at hdf
  have field (f text : String) (h : request.fields.getD f "" = text) (hne : text ≠ "") :
      request.fields.get? f = some text := by
    unfold Fields.getD at h
    cases hf : request.fields.get? f with
    | none =>
      rw [hf] at h
      exact False.elim (hne h.symm)
    | some t =>
      rw [hf] at h
      exact congrArg some h
  have hstr : str delegateId ≠ "" := fun h => named_ne_empty ⟨_, delegateId, parse_str delegateId⟩ h
  refine {
    stream := by rw [hh.keys]
    type := hrequest.2
    onStream := hentry
    row := hrow
    assigned := hassigned
    tenantField := field _ _ het.symm (by rw [htenant]; exact hh.tenant)
    delegateField := field _ _ hdf.symm hstr
    delegate := ⟨_, now, ?_⟩
    active := hactive
    sameTenant := hdt.trans het.symm
    workspace := hzip }
  unfold requestDelegate uuidField at hdelegate
  rw [← hdf, strId, parse_str] at hdelegate
  exact Except.ok.inj hdelegate

theorem moves_later (h : Moves host world watch input world' watch' seen) :
    Later past past world world' where
  past _ hdb := hdb
  streams := moves_history h
  owners id _ _ ho := (moves_owner h id).trans ho

/-- A thread keeps to its streams, its execution and the requests it has read. -/
theorem Holds.moves (hh : Holds host past world watch tenantId delegateId)
    (now : past world.store.db) (h : Moves host world watch input world' watch' seen) :
    Holds host past world' watch' tenantId delegateId := by
  refine Holds.later ?_ (moves_later h)
  have same := moves_same h
  have head {m : Message} {rest : List Message} (hp : watch.point = .handling (m :: rest)) :
      ∀ x ∈ rest, x ∈ inHand watch.point := by
    intro x hx
    rw [hp]
    exact List.mem_cons_of_mem _ hx
  have drop (hpoint : inHand watch'.point = []) (x : Message) (hx : x ∈ inHand watch'.point) :
      x ∈ inHand watch.point := by
    rw [hpoint] at hx
    cases hx
  cases h with
  | read hp _ =>
    exact ⟨hh.keys, hh.owned, hh.tenant, fun m hm => mem_xread hm, by simp [Watch.goto],
      by simp [Watch.goto]⟩
  | requestRowGone hp _ _ => exact hh.goOn rfl rfl (head hp) (by simp [Watch.goto]) (by simp [Watch.goto])
  | message hp _ _ => exact hh.goOn rfl rfl (head hp) (by simp [Watch.goto]) (by simp [Watch.goto])
  | @request m rest read hp hm hr =>
    refine ⟨hh.keys, hh.owned, hh.tenant, fun x hx => hh.hand x (head hp x hx), ?_,
      by simp [Watch.goto]⟩
    intro read' request' rest' hp'
    cases hp'
    have howned := hh.owned
    rw [owner, hr] at howned
    obtain ⟨rfl, hassigned⟩ := Prod.mk.inj (Option.some.inj howned)
    have hentry := hh.hand m (by rw [hp]; exact List.mem_cons_self ..)
    rw [hm.1] at hentry
    exact ⟨hm, hentry, rfl, hassigned, _, now, hr⟩
  | rejected hp _ =>
    exact hh.goOn rfl rfl (by rw [hp]; exact fun _ hx => hx) (by simp [Watch.goto])
      (by simp [Watch.goto])
  | fileNotFound hp _ =>
    exact hh.goOn rfl rfl (by rw [hp]; exact fun _ hx => hx) (by simp [Watch.goto])
      (by simp [Watch.goto])
  | @granted read request rest grant transferId hp hd =>
    refine ⟨hh.keys, hh.owned, hh.tenant, fun m hm => hh.hand m (by rw [hp]; exact hm),
      by simp [Watch.goto], ?_⟩
    intro _ _ _ _ _ hp'
    cases hp'
    have he := granted_entitled hh now hp hd
    exact ⟨he, [], rfl⟩
  | @xadd request grant transferId m pending rest hp =>
    obtain ⟨he, sent, hs⟩ := hh.sends _ _ _ _ _ hp
    refine ⟨hh.keys, hh.owned, hh.tenant, fun m hm => hh.hand m (by rw [hp]; exact hm),
      by simp [Watch.goto], ?_⟩
    intro _ _ _ _ _ hp'
    cases hp'
    exact ⟨he, sent ++ [m], (List.append_cons sent m pending).symm.trans hs⟩
  | saved hp _ =>
    exact hh.goOn rfl rfl (by rw [hp]; exact fun _ hx => hx) (by simp [Watch.goto])
      (by simp [Watch.goto])
  | _ => exact hh.goOn rfl rfl (drop rfl) (by simp [Watch.goto]) (by simp [Watch.goto])

/-- What a thread publishes belongs to the answer it is making. -/
theorem Holds.publishes (hh : Holds host past world watch tenantId delegateId)
    (h : Moves host world watch input world' watch' seen) {key : String} {message : Fields}
    {request : Message} {grant : Grant} (hm : Seen.published key message request grant ∈ seen) :
    Entitled host past world watch.execution key delegateId request grant ∧
      ∃ transferId,
        message ∈ workspaceMessages watch.execution request.fields transferId grant.zip := by
  have sending {request' : Message} {grant' : Grant} {transferId : String} {m : Fields}
      {pending : List Fields} {rest : List Message}
      (hp : watch.point = .sending request' grant' transferId (m :: pending) rest)
      (hm : Seen.published key message request grant ∈
        [Seen.published watch.keys.events m request' grant']) :
      Entitled host past world watch.execution key delegateId request grant ∧
        ∃ transferId,
          message ∈ workspaceMessages watch.execution request.fields transferId grant.zip := by
    cases List.mem_singleton.mp hm
    obtain ⟨he, sent, hs⟩ := hh.sends _ _ _ _ _ hp
    exact ⟨he, transferId, by rw [← hs]; simp⟩
  cases h with
  | xadd hp => exact sending hp hm
  | xaddUnanswered hp => exact sending hp hm
  | _ => simp at hm

end Threads

/-- Every execution has a tenant and a delegate, and every thread holds its own. -/
structure Owned (host : Host) (past : DB → Prop) (d : Dispatcher) : Prop where
  rows : ∀ id tenantId delegate, owner d.world.store.db id = some (tenantId, delegate) →
    tenantId ≠ "" ∧ delegate ≠ none
  threads : ∀ watch ∈ d.threads, ∃ tenantId delegateId,
    Holds host past d.world watch tenantId delegateId

/-- What may be published: a message of the answer to an entitled request. -/
def Confined (host : Host) (past : DB → Prop) (world : World) (execution : Named) (key : String)
    (message : Fields) (request : Message) (grant : Grant) : Prop :=
  ∃ delegateId, Entitled host past world execution key delegateId request grant ∧
    StartsWith key (delegatePrefix (str delegateId)) ∧
    ∃ transferId, message ∈ workspaceMessages execution request.fields transferId grant.zip

section Process
variable {host : Host} {isDir : String → Bool} {past past' : DB → Prop} {d t : Dispatcher}
variable {a : Action} {o : List Shown}

theorem announced_world {fields : Fields} (h : Announced d fields (.ok t)) :
    t.world.redis = d.world.redis ∧ ∀ id, owner t.world.store.db id = owner d.world.store.db id := by
  cases h with
  | skip _ => exact ⟨rfl, fun _ => rfl⟩
  | watch _ _ _ _ =>
    simp only [Dispatcher.watch]
    split <;> exact ⟨rfl, fun _ => rfl⟩

theorem moved_later (adm : Administered host isDir d a) (hpast : ∀ db, past db → past' db)
    (h : Moved host d a t o) : Later past past' d.world t.world := by
  have same : Later past past' d.world d.world := ⟨hpast, fun _ => List.prefix_refl _, fun _ _ _ ho => ho⟩
  cases h with
  | consume _ ha =>
    obtain ⟨hredis, howner⟩ := announced_world ha
    exact ⟨hpast, fun key => by rw [hredis]; exact List.prefix_refl _,
      fun id _ _ ho => (howner id).trans ho⟩
  | thread _ hm =>
    have hl : Later past past _ _ := moves_later hm
    exact ⟨hpast, hl.streams, hl.owners⟩
  | publish => exact ⟨hpast, fun key => (xadd_history d.world _ _ key).1, fun _ _ _ ho => ho⟩
  | others =>
    refine ⟨hpast, fun _ => List.prefix_refl _, fun id tenantId delegateId ho => ?_⟩
    obtain ⟨e, he, howner⟩ := Option.map_eq_some_iff.mp ho
    rw [owner, viewWrite_execution adm.2 he, Option.map_some, howner]
  | _ => exact same

theorem Owned.rows_step (ho : Owned host past d) (adm : Administered host isDir d a)
    (h : Moved host d a t o) {id : UUID} {tenantId : String} {delegate : Option UUID}
    (hrow : owner t.world.store.db id = some (tenantId, delegate)) :
    tenantId ≠ "" ∧ delegate ≠ none := by
  cases h with
  | consume _ ha => exact ho.rows id tenantId delegate (((announced_world ha).2 id).symm.trans hrow)
  | thread _ hm => exact ho.rows id tenantId delegate ((moves_owner hm id).symm.trans hrow)
  | others =>
    obtain ⟨e, he, howner⟩ := Option.map_eq_some_iff.mp hrow
    rcases viewWrite_assigned adm.2 he with hold | ⟨htenant, hdelegate⟩
    · exact ho.rows id tenantId delegate (by rw [owner, hold, Option.map_some, howner])
    · obtain ⟨rfl, rfl⟩ := Prod.mk.inj howner
      exact ⟨htenant, hdelegate⟩
  | _ => exact ho.rows id tenantId delegate hrow

/-- A thread that has just been started. -/
theorem Owned.started (ho : Owned host past d) {execution : Named} {e : Execution}
    {delegateId : UUID} (hrow : d.world.store.db.execution execution.id = some e)
    (hassigned : e.delegateId = some delegateId) :
    Holds host past d.world (.start execution (streamKeys execution.text (str delegateId)))
      e.tenantId delegateId where
  keys := rfl
  owned := by
    change owner d.world.store.db execution.id = _
    rw [owner, hrow, Option.map_some, hassigned]
  tenant := (ho.rows execution.id e.tenantId e.delegateId (by rw [owner, hrow, Option.map_some])).1
  hand _ hm := by cases hm
  reads _ _ _ hp := by cases hp
  sends _ _ _ _ _ hp := by cases hp

theorem Owned.step (ho : Owned host past d) (now : past d.world.store.db)
    (adm : Administered host isDir d a) (hpast : ∀ db, past db → past' db)
    (h : Moved host d a t o) : Owned host past' t := by
  refine ⟨fun id tenantId delegate hrow => ho.rows_step adm h hrow, fun watch hw => ?_⟩
  have later := moved_later adm hpast h
  have old {watch : Watch} (hw : watch ∈ d.threads) :
      ∃ tenantId delegateId, Holds host past' t.world watch tenantId delegateId := by
    obtain ⟨tenantId, delegateId, hh⟩ := ho.threads watch hw
    exact ⟨tenantId, delegateId, hh.later later⟩
  cases h with
  | consume _ ha =>
    cases ha with
    | skip _ => exact old hw
    | watch _ _ hrow hassigned =>
      rcases List.mem_append.mp hw with hw | hw
      · exact old hw
      · obtain rfl := List.mem_singleton.mp hw
        exact ⟨_, _, (ho.started hrow hassigned).later later⟩
  | @thread i watch₀ watch' input world seen hget hm =>
    rcases List.mem_or_eq_of_mem_set hw with hw | rfl
    · exact old hw
    · obtain ⟨tenantId, delegateId, hh⟩ := ho.threads watch₀ (List.mem_of_getElem? hget)
      refine ⟨tenantId, delegateId, (hh.moves now hm).later ?_⟩
      exact ⟨hpast, fun _ => List.prefix_refl _, fun _ _ _ ho => ho⟩
  | restart => cases hw
  | _ => exact old hw

theorem moved_confined (ho : Owned host past d) (h : Moved host d a t o) {execution : Named}
    {key : String} {message : Fields} {request : Message} {grant : Grant}
    (hm : Shown.thread execution (.published key message request grant) ∈ o) :
    Confined host past d.world execution key message request grant := by
  cases h with
  | thread hget hmoves =>
    obtain ⟨tenantId, delegateId, hh⟩ := ho.threads _ (List.mem_of_getElem? hget)
    obtain ⟨x, hx, he⟩ := List.mem_map.mp hm
    obtain ⟨rfl, rfl⟩ := Shown.thread.inj he
    obtain ⟨entitled, hmessage⟩ := hh.publishes hmoves hx
    have hprefix : StartsWith key (delegatePrefix (str delegateId)) := by
      rw [entitled.stream]
      exact streamKeys_startsWith _ _ .events
    exact ⟨delegateId, entitled, hprefix, hmessage⟩
  | _ => simp at hm

end Process

section Runs
variable {host : Host} {isDir : String → Bool} {media : String → Option (List UInt8)}
variable {redis : String → Log Fields} {d : Dispatcher} {as : List Action} {o : List Shown}

/-- A control plane without delegates and executions. -/
def noRows (media : String → Option (List UInt8)) (redis : String → Log Fields) : Dispatcher :=
  .start ⟨⟨DB.empty, media⟩, redis⟩

theorem Past.later {a : Action} {db : DB} (h : Past host isDir (noRows media redis) as db) :
    Past host isDir (noRows media redis) (as ++ [a]) db := by
  obtain ⟨before, d, o, hpre, hrun, hdb⟩ := h
  exact ⟨before, d, o, hpre.trans (List.prefix_append _ _), hrun, hdb⟩

theorem owned_run
    (h : Run (dispatching host) (Administered host isDir) (noRows media redis) as d o) :
    Owned host (Past host isDir (noRows media redis) as) d := by
  refine h.invariant_along
    (fun as d _ => Owned host (Past host isDir (noRows media redis) as) d) ⟨?_, ?_⟩ ?_
  · intro id tenantId delegate hrow
    cases hrow
  · intro watch hw
    cases hw
  · intro as d o a t o' hr ho adm hs
    have now : Past host isDir (noRows media redis) as d.world.store.db :=
      ⟨as, d, o, List.prefix_refl _, hr, rfl⟩
    exact ho.step now adm (fun _ hdb => hdb.later) (dispatching_moved hs)

/-- In every run, whatever is published carries the workspace of an execution in
answer to a request of its assigned, active delegate of its own tenant, on a
stream of that delegate. -/
theorem workspace_confined
    (h : Run (dispatching host) (Administered host isDir) (noRows media redis) as d o) :
    ∀ execution key message request grant,
      Shown.thread execution (.published key message request grant) ∈ o →
      Confined host (Past host isDir (noRows media redis) as) d.world execution key message request
        grant := by
  refine h.invariant_along (fun as d o => ∀ execution key message request grant,
    Shown.thread execution (.published key message request grant) ∈ o →
    Confined host (Past host isDir (noRows media redis) as) d.world execution key message request
      grant) (by simp) ?_
  intro as d o a t o' hr hconfined adm hs execution key message request grant hx
  have hm := dispatching_moved hs
  have old : Confined host (Past host isDir (noRows media redis) as) d.world execution key message
      request grant := by
    rcases List.mem_append.mp hx with hx | hx
    · exact hconfined execution key message request grant hx
    · exact moved_confined (owned_run hr) hm hx
  obtain ⟨delegateId, entitled, hprefix, hmessage⟩ := old
  exact ⟨delegateId, entitled.later (moved_later adm (fun _ hdb => hdb.later) hm), hprefix, hmessage⟩

/-- Every answer goes to the events stream under the id of the execution as
`str` spells it. -/
def OnOwnStream (o : List Shown) : Prop :=
  ∀ execution key message request grant,
    Shown.thread execution (.published key message request grant) ∈ o →
    key = (streamKeys (str grant.execution.executionId) (strId grant.execution.delegateId)).events

/-- An announcement that starts a watcher spells the id as `str` does: one of an
assigned execution that is not being watched under the announced text. -/
def SpelledOut (d : Dispatcher) : Action → Prop
  | .loop .handle => ∀ (execution : Named) e id fields rest,
      d.loop.point = .handling ((id, fields) :: rest) → Announces fields execution.text →
      d.watching execution.text = false →
      d.world.store.db.execution execution.id = some e → e.delegateId ≠ none →
      execution.text = str execution.id
  | _ => True

/-- All watchers there are, and all that have shown anything, were announced so. -/
structure Canonical (d : Dispatcher) (o : List Shown) : Prop where
  threads : ∀ watch ∈ d.threads, watch.execution.text = str watch.execution.id
  shown : ∀ execution seen, Shown.thread execution seen ∈ o → execution.text = str execution.id

theorem Canonical.step {t : Dispatcher} {a : Action} {o' : List Shown} (hc : Canonical d o)
    (spelled : SpelledOut d a) (h : Moved host d a t o') : Canonical t (o ++ o') := by
  have quiet (h : ∀ execution seen, Shown.thread execution seen ∉ o') (execution : Named)
      (seen : Seen) (hx : Shown.thread execution seen ∈ o ++ o') :
      execution.text = str execution.id := by
    rcases List.mem_append.mp hx with hx | hx
    · exact hc.shown execution seen hx
    · exact absurd hx (h execution seen)
  cases h with
  | consume hp ha =>
    refine ⟨?_, quiet (by simp)⟩
    cases ha with
    | skip _ => exact hc.threads
    | watch announces free hrow hassigned =>
      refine forall_mem_concat hc.threads ?_
      exact spelled _ _ _ _ _ hp announces free hrow (by simp [hassigned])
  | @thread i watch watch' input world seen hget hm =>
    have own := hc.threads watch (List.mem_of_getElem? hget)
    refine ⟨forall_mem_set hc.threads ?_, ?_⟩
    · rw [(moves_same hm).1]
      exact own
    · intro execution x hx
      rcases List.mem_append.mp hx with hx | hx
      · exact hc.shown execution x hx
      · obtain ⟨_, _, he⟩ := List.mem_map.mp hx
        cases he
        exact own
  | restart =>
    refine ⟨?_, quiet (by simp)⟩
    intro watch hw
    cases hw
  | _ => exact ⟨hc.threads, quiet (by simp)⟩

theorem Entitled.own_stream {past : DB → Prop} {world : World} {execution : Named} {key : String}
    {delegateId : UUID} {request : Message} {grant : Grant}
    (he : Entitled host past world execution key delegateId request grant)
    (spelled : execution.text = str execution.id) :
    key = (streamKeys (str grant.execution.executionId)
      (strId grant.execution.delegateId)).events := by
  obtain ⟨db, -, hrow⟩ := he.row
  have hid : grant.execution.executionId = execution.id := KeyedTable.get?_some_key hrow
  rw [he.stream, he.assigned, spelled, hid]
  rfl

/-- In every run a workspace goes out only as `workspace_confined` says, and where
executions are announced under their ids as `str` spells them, it goes out only on
the execution's own events stream. -/
theorem own_stream_confined
    (h : Run (dispatching host) (Administered host isDir) (noRows media redis) as d o) :
    (∀ execution key message request grant,
      Shown.thread execution (.published key message request grant) ∈ o →
      Confined host (Past host isDir (noRows media redis) as) d.world execution key message request
        grant) ∧
    (Run (dispatching host) (fun d a => Administered host isDir d a ∧ SpelledOut d a)
      (noRows media redis) as d o → OnOwnStream o) := by
  have confined := workspace_confined h
  refine ⟨confined, fun spelled => ?_⟩
  have canonical : Canonical d o := by
    refine spelled.invariant Canonical ⟨?_, by simp⟩ ?_
    · intro watch hw
      cases hw
    · intro d o a t o' hc ok hs
      exact hc.step ok.2 (dispatching_moved hs)
  intro execution key message request grant hx
  obtain ⟨delegateId, entitled, -, -⟩ := confined execution key message request grant hx
  exact entitled.own_stream (canonical.shown execution _ hx)

def smallBody : Fields :=
  [("token", "t"), ("csr_pem", "c"), ("tenant_id", "tenant-a"), ("name", "delegate-a"),
    ("delegate_id", str smallDelegate.id), ("workspace_fixture", "empty")]

/-- Between the registration of the delegate and the creation of its execution. -/
def delegateOnly : World :=
  { smallWorld .queued with
    store := ⟨{ smallDB .queued with executions := KeyedTable.empty _ }, fun _ => none⟩ }

theorem delegateOnly_registered :
    ViewWrite smallHost (fun _ => true) DB.empty delegateOnly.store.db := by
  refine @ViewWrite.register smallHost _ DB.empty smallBody 1 10 _ (by decide) rfl

theorem small_created :
    ViewWrite smallHost (fun _ => true) delegateOnly.store.db (smallDB .queued) := by
  refine @ViewWrite.create smallHost _ _ (smallDB .queued) smallBody smallDelegate 1 _ ?_ rfl
  rfl

theorem small_reached {ok : Dispatcher → Action → Prop} (others : ∀ d store,
      Administered smallHost (fun _ => true) d (.others store) → ok d (.others store)) :
    Run (dispatching smallHost) ok (noRows (fun _ => none) (fun _ => Log.empty))
      ([.others delegateOnly.store] ++ [.others (smallWorld .queued).store])
      (.start (smallWorld .queued)) [] := by
  have first : Run (dispatching smallHost) ok (noRows (fun _ => none) (fun _ => Log.empty))
      [.others delegateOnly.store] (.start delegateOnly) [] :=
    .single (others _ _ ⟨rfl, delegateOnly_registered⟩) rfl
  exact first.append (.single (others _ _ ⟨rfl, small_created⟩) rfl)

/-- While nobody else writes, the views write what they may. -/
theorem administered_of_quiet {start : Dispatcher} (h : Run (dispatching host) Free start as d o)
    (quiet : ∀ a ∈ as, ∀ store, a ≠ .others store) :
    Run (dispatching host) (Administered host isDir) start as d o := by
  refine (h.restrict quiet).mono ?_
  intro d a ha
  cases a with
  | others store => exact False.elim (ha store rfl)
  | _ => trivial

/-- The small execution is announced, and its delegate asks for the workspace on
the streams of that spelling. -/
def answers (text : String) : List Action :=
  [.publish globalExecutionEventsStream
      [("type", "EXECUTION_STARTED"), ("execution_id", text)],
    .loop (.xread 1), .loop .handle,
    .publish (streamKeys text (str smallDelegate.id)).events
      (smallMessage "DATA_REQUEST" [("requested_file", "*")]),
    .thread 0 (.check false), .thread 0 (.xread (fun _ => maxCount)), .thread 0 .handle,
    .thread 0 (.authorize "transfer-1"), .thread 0 .xadd]

/-- The key of a published message, and the one its execution's id would give. -/
def publishedKeys : Shown → Option (String × String)
  | .thread _ (.published key _ _ grant) =>
    some (key,
      (streamKeys (str grant.execution.executionId) (strId grant.execution.delegateId)).events)
  | _ => none

/-- A test for `SpelledOut` while the views write nothing. -/
def spellsOut (d : Dispatcher) : Action → Bool
  | .others _ => false
  | .loop .handle =>
    match d.loop.point with
    | .handling ((_, fields) :: _) => (fields.get? "execution_id").all (fun text =>
        (parse text).all (fun id => decide (text = str id)))
    | _ => true
  | _ => true

theorem spellsOut_spelled {d : Dispatcher} {a : Action} (h : spellsOut d a = true) :
    Administered host isDir d a ∧ SpelledOut d a := by
  cases a with
  | others store => cases h
  | loop input =>
    cases input with
    | handle =>
      refine ⟨trivial, ?_⟩
      intro execution e id fields rest hp announces _ _ _
      simp only [spellsOut, hp, announces.2.1, Option.all_some, execution.names] at h
      exact of_decide_eq_true h
    | _ => exact ⟨trivial, trivial⟩
  | _ => exact ⟨trivial, trivial⟩

theorem spelled_out_confined :
    ∃ as d o, Run (dispatching smallHost)
        (fun d a => Administered smallHost (fun _ => true) d a ∧ SpelledOut d a)
        (noRows (fun _ => none) (fun _ => Log.empty)) as d o ∧
      (o.filterMap publishedKeys).map Prod.fst = [smallKeys.events] ∧ OnOwnStream o := by
  have hrun : (replay ((dispatching smallHost).guarded (fun d a => spellsOut d a = true))
      (.start (smallWorld .queued)) (answers smallExecution.text)).any (fun r =>
        decide ((r.2.filterMap publishedKeys).map Prod.fst = [smallKeys.events])) = true := by
    decide +kernel
  obtain ⟨d, o, hr, hkeys⟩ := guarded_run_of_replay_test hrun
  have run : Run (dispatching smallHost)
      (fun d a => Administered smallHost (fun _ => true) d a ∧ SpelledOut d a)
      (noRows (fun _ => none) (fun _ => Log.empty)) _ d ([] ++ o) :=
    (small_reached (fun _ _ adm => ⟨adm, trivial⟩)).append
      (hr.mono (fun _ _ ok => spellsOut_spelled ok))
  have confined := own_stream_confined (run.mono (fun _ _ ok => ok.1))
  exact ⟨_, d, _, run, of_decide_eq_true hkeys, confined.2 run⟩

/-- The id of the small execution without its hyphens. -/
def spelled : Named := ⟨"00000000000000000000000000000001", 1, by decide +kernel⟩

theorem answered_on_other_stream :
    ∃ as d o, Run (dispatching smallHost) (Administered smallHost (fun _ => true))
        (noRows (fun _ => none) (fun _ => Log.empty)) as d o ∧ ¬ OnOwnStream o := by
  have hrun : (replay (dispatching smallHost) (.start (smallWorld .queued))
      (answers spelled.text)).any (fun r => r.2.any (fun x => (publishedKeys x).any
        (fun keys => decide (keys.1 ≠ keys.2)))) = true := by decide +kernel
  obtain ⟨d, o, hr, hother⟩ := run_of_replay_test hrun
  have run : Run (dispatching smallHost) (Administered smallHost (fun _ => true))
      (.start (smallWorld .queued)) (answers spelled.text) d o :=
    administered_of_quiet hr (by simp [answers])
  refine ⟨_, d, _, (small_reached (fun _ _ adm => adm)).append run, ?_⟩
  intro own
  obtain ⟨x, hx, hkeys⟩ := List.any_eq_true.mp hother
  cases x with
  | thread execution seen =>
    cases seen with
    | published key message request grant =>
      have same := own execution key message request grant hx
      exact of_decide_eq_true hkeys same
    | _ => cases hkeys
  | _ => cases hkeys

end Runs

end Confinement
