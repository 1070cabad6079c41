import DelegateProtocol.Agreement
import DelegateProtocol.JunkMessages
import DelegateProtocol.StreamCleanup
import Mathlib.Logic.Relation

/-!
# A watcher that catches up

As long as nothing fails, a watcher handles everything that deliveries in
progress have put on its streams, and answers their data requests, until there
is nothing left to read.
-/

namespace CatchingUp

open AppendLog ChunkedTransfer Deliveries Handlers JunkMessages Models OverlappingTransfers
open ReadingOrder Reassembly Relation Runtime StepMachine StreamCleanup Streams TerminalStatus
open Transfers WatchExecution
open Worker (Task dataRequest)

/-- Nothing fails, and XREAD returns what there is. -/
def Smooth : Input → Prop
  | .check expired => expired = false
  | .xread counts => counts = fun _ => maxCount
  | .handle | .authorize _ | .xadd | .save | .delete => True
  | _ => False

def Goes (host : Host) (s t : System) : Prop :=
  ∃ input seen, Smooth input ∧ (watching host).step s (.watcher input) = some (t, seen)

abbrev Reaches (host : Host) : System → System → Prop := ReflTransGen (Goes host)

/-- The data request of every delivery of the task. -/
def workspaceRequest (task : Task) : Fields := dataRequest task.baseFields task.fileName

/-- A message that a delivery can have published before the last ones. -/
def Harmless (task : Task) (fields : Fields) : Kind → Prop
  | .events => fields.get? "type" = some "DATA_REQUEST" → fields = workspaceRequest task
  | .log => True
  | .status => ∀ status, newStatus fields = some status → status ∉ terminalStatuses
  | .output => Readable fields ∧ fields.get? "type" ≠ some "DATA_END"

/-- The request is granted, going by this row. -/
def Grants (host : Host) (db : DB) (task : Task) (e : Execution) : Prop :=
  ∃ grant, decideRequest host db e (workspaceRequest task) = .ok (.granted grant)

/-- What the watcher has taken up is a request that is granted. -/
def InPlace (host : Host) (db : DB) (task : Task) : Point → Prop
  | .top | .reading | .handling _ => True
  | .authorizing read request _ =>
    request.fields = workspaceRequest task ∧ Grants host db task read
  | .sending _ _ _ pending _ => ∀ m ∈ pending, m.get? "type" ≠ some "DATA_REQUEST"
  | .cleaning _ | .ended _ => False

def unread (s : System) (k : Kind) : List (Nat × Fields) := (s.log k).unread (s.watch.lastIds k)

/-- What a reader of the events stream can get. -/
def available (s : System) : List Fields :=
  (s.log .events).history.drop (s.log .events).removed

/-- The watcher is in its loop, and nothing it is to read ends the execution. -/
structure Serving (host : Host) (job : Job) (s : System) : Prop where
  execution : s.watch.execution = job.execution
  keys : s.watch.keys = job.task.keys
  order : InOrder s
  row : ∃ e, s.row = some e ∧ ¬ e.Terminal ∧ Grants host s.world.store.db job.task e
  harmless : ∀ k, ∀ entry ∈ unread s k, Harmless job.task entry.2 k
  state : ∃ b : Option WireBuffer, s.watch.outputState = b.map stateOf
  inPlace : InPlace host s.world.store.db job.task s.watch.point

section Keeps
variable {host : Host} {job : Job} {s t : System} {world world' : World} {watch watch' : Watch}
variable {input : Input} {seen : List Seen} {e e' : Execution} {db db' : DB} {task : Task}

/-- The terms of an execution that decide a request. -/
def SameTerms (e e' : Execution) : Prop :=
  e'.tenantId = e.tenantId ∧ e'.delegateId = e.delegateId ∧
    e'.workspaceFixture = e.workspaceFixture

theorem SameTerms.symm (h : SameTerms e e') : SameTerms e' e := by
  obtain ⟨htenant, hdelegate, hfixture⟩ := h
  exact ⟨htenant.symm, hdelegate.symm, hfixture.symm⟩

theorem change_terms {f : Execution → Execution} (h : Change host watch f) (e : Execution) :
    SameTerms e (f e) := by
  cases h <;> exact ⟨rfl, rfl, rfl⟩

theorem Grants.later (h : Grants host db task e) (terms : SameTerms e e')
    (delegates : db'.delegates = db.delegates) : Grants host db' task e' := by
  obtain ⟨grant, hg⟩ := h
  obtain ⟨htenant, hdelegate, hfixture⟩ := terms
  obtain ⟨hd, -, ha, hz⟩ := decideRequest_granted hg
  have hd' : requestDelegate db' (workspaceRequest task) = .ok (some grant.delegate) := by
    rw [← hd]
    simp only [requestDelegate, DB.delegate, delegates]
  have ha' : Authorized (some grant.delegate) e' (workspaceRequest task) := by
    simpa only [Authorized, htenant, hdelegate] using ha
  have hz' : requestedZip host e' (workspaceRequest task) = .ok (some grant.zip) := by
    simpa only [requestedZip, hfixture] using hz
  exact ⟨⟨grant.delegate, e', grant.zip⟩, by simp only [decideRequest, hd', if_pos ha', hz']⟩

theorem chunkSize_pos : 0 < chunkSize := by decide

/-- The transfer a granted request is answered with. -/
def answer (execution : Named) (fields : Fields) (transferId : String) (zip : Payload) : Sending :=
  ⟨chunkSize, chunkSize_pos,
    [("execution_id", execution.text), ("tenant_id", fields.getD "tenant_id" "")], transferId, zip⟩

theorem messages_request {x : Sending} {m : Fields} (hm : m ∈ x.messages) :
    m.get? "type" ≠ some "DATA_REQUEST" := by
  rcases messages_cases hm with rfl | ⟨seq, chunk, -, rfl⟩ | rfl
  · simp [startMessage, Fields.get?]
  · simp [chunkMessage, Fields.get?]
  · simp [Sending.end, endMessage, Fields.get?]

theorem pieceOf_finish {fields : Fields} {id : String} (h : pieceOf fields = .finish id) :
    fields.get? "type" = some "DATA_END" := by
  by_contra hend
  simp only [pieceOf, if_neg hend] at h
  split at h
  · split at h <;> cases h
  · split at h
    · cases h
    · split at h
      · rename_i transferId _ _
        rcases chunkPiece_cases fields transferId with hp | ⟨seq, chunk, -, -, hp⟩
        · rw [hp] at h
          cases h
        · rw [hp] at h
          cases h
      · cases h

/-- Only the end of a transfer closes a buffer. -/
theorem closes_open {fields : Fields} (h : fields.get? "type" ≠ some "DATA_END")
    (b : Option WireBuffer) : closes b (pieceOf fields) = none := by
  rw [Option.eq_none_iff_forall_not_mem]
  exact fun c hc => h (pieceOf_finish (closes_finish hc))

theorem Serving.head (hs : Serving host job s) {m : Message} {rest : List Message}
    (hp : s.watch.point = .handling (m :: rest)) : Harmless job.task m.fields m.kind := by
  obtain ⟨later, hunread, -⟩ := hs.order.head hp
  refine hs.harmless m.kind (m.id, m.fields) ?_
  rw [unread, hunread]
  exact List.mem_cons_self

/-- A message that is no request leaves the row open and its terms as they are. -/
theorem Serving.effect (hs : Serving host job s) {m : Message} {rest : List Message}
    (hp : s.watch.point = .handling (m :: rest)) :
    ∃ store logSeq state, effect host s.watch m s.world.store = .ok (store, logSeq, state) ∧
      (∃ b : Option WireBuffer, state = b.map stateOf) ∧
      ∃ e, store.db.execution s.watch.execution.id = some e ∧ ¬ e.Terminal := by
  obtain ⟨e, hrow, open', -⟩ := hs.row
  obtain ⟨b, hb⟩ := hs.state
  have harmless := hs.head hp
  have hrow' : s.world.store.db.execution s.watch.execution.id = some e := hrow
  have old : ∃ b : Option WireBuffer, s.watch.outputState = b.map stateOf := ⟨b, hb⟩
  cases hk : m.kind with
  | events => exact ⟨s.world.store, s.watch.logSeq, s.watch.outputState, by
      simp [WatchExecution.effect, hk], old, e, hrow', open'⟩
  | log =>
    obtain ⟨⟨store, logSeq, state⟩, he⟩ :=
      @effect_log host s.watch m s.world.store hk (by simp [hrow'])
    refine ⟨store, logSeq, state, he, ?_⟩
    cases effect_ok he with
    | skip _ _ _ => exact ⟨old, e, hrow', open'⟩
    | log _ _ => exact ⟨old, e, hrow', open'⟩
    | _ hk' => simp [hk] at hk'
  | status =>
    obtain ⟨⟨store, logSeq, state⟩, he⟩ := @effect_status host s.watch m s.world.store hk
    refine ⟨store, logSeq, state, he, ?_⟩
    cases effect_ok he with
    | skip _ _ _ => exact ⟨old, e, hrow', open'⟩
    | status _ _ =>
      refine ⟨old, { e with status := (newStatus m.fields).getD e.status }, ?_, ?_⟩
      · rw [handleStatus_row, hrow']
        rfl
      · rw [hk] at harmless
        unfold Execution.Terminal
        cases hn : newStatus m.fields with
        | none => exact open'
        | some status => exact harmless status hn
    | _ hk' => simp [hk] at hk'
  | output =>
    rw [hk] at harmless
    obtain ⟨readable, hend⟩ := harmless
    have hopen := closes_open hend b
    refine ⟨s.world.store, s.watch.logSeq, (advance b (pieceOf m.fields)).map stateOf, ?_, ⟨_, rfl⟩,
      e, hrow', open'⟩
    simp only [WatchExecution.effect, hk, hb, handleOutputMessage_open readable hopen]

/-- Handling a message takes it from its stream; nothing else is taken. -/
theorem unread_moves (order : InOrder s) (h : Moves host s.world s.watch input t.world t.watch seen)
    (same : ∀ k, t.log k = s.log k) (k : Kind) : unread t k <:+ unread s k := by
  have keep (ids : t.watch.lastIds = s.watch.lastIds) : unread t k <:+ unread s k := by
    rw [unread, unread, same, ids]
  cases moves_hand h with
  | keep _ ids _ _ => exact keep ids
  | drop _ ids _ => exact keep ids
  | take _ _ _ _ ids _ _ => exact keep ids
  | next m rest hp _ ids _ _ =>
    rw [unread, unread, same, ids]
    by_cases hk : m.kind = k
    · subst hk
      obtain ⟨later, hunread, -⟩ := order.head hp
      obtain ⟨-, -, -, hlater⟩ := unread_cons hunread
      rw [Function.update_self, hlater, hunread]
      exact List.suffix_cons _ _
    · rw [Function.update_of_ne (Ne.symm hk)]

theorem Serving.kept (hs : Serving host job s)
    (h : Moves host s.world s.watch input t.world t.watch seen)
    (same : ∀ k, t.log k = s.log k) : ∀ k, ∀ entry ∈ unread t k, Harmless job.task entry.2 k :=
  fun k entry hentry => hs.harmless k entry ((unread_moves hs.order h same k).subset hentry)

/-- One more message on the events stream. -/
theorem Serving.xadd (hs : Serving host job s) (fields : Fields) (watch : Watch)
    (hkeys : watch.keys = s.watch.keys) (ids : watch.lastIds = s.watch.lastIds) :
    unread ⟨s.world.xadd s.watch.keys.events fields, watch⟩ .events =
        unread s .events ++ [((s.log .events).history.length + 1, fields)] ∧
      available ⟨s.world.xadd s.watch.keys.events fields, watch⟩ = available s ++ [fields] := by
  have grown : ((System.mk (s.world.xadd s.watch.keys.events fields) watch).log .events).history =
      (s.log .events).history ++ [fields] := by
    simp [System.log, hkeys, World.xadd, Keys.key]
  have removed : ((System.mk (s.world.xadd s.watch.keys.events fields) watch).log .events).removed =
      (s.log .events).removed := by
    simp [System.log, hkeys, World.xadd, Keys.key, Log.append]
  constructor
  · rw [unread, ids, unread_grown grown removed (hs.order.behind .events)]
    rfl
  · rw [available, grown, removed, List.drop_append_of_le_length (Log.removed_le _)]
    rfl

/-- One more message of a transfer on the events stream. -/
theorem Serving.appended (hs : Serving host job s) {fields : Fields} {watch : Watch}
    (type : fields.get? "type" ≠ some "DATA_REQUEST") (hkeys : watch.keys = s.watch.keys)
    (ids : watch.lastIds = s.watch.lastIds) :
    ∀ k, ∀ entry ∈ unread ⟨s.world.xadd s.watch.keys.events fields, watch⟩ k,
      Harmless job.task entry.2 k := by
  intro k entry hentry
  by_cases hk : k = .events
  · subst hk
    rw [(hs.xadd fields watch hkeys ids).1] at hentry
    rcases List.mem_append.mp hentry with hentry | hentry
    · exact hs.harmless .events entry hentry
    · obtain rfl := List.mem_singleton.mp hentry
      exact fun ht => False.elim (type ht)
  · have same : (System.mk (s.world.xadd s.watch.keys.events fields) watch).log k = s.log k := by
      have hne : s.watch.keys.key k ≠ s.watch.keys.events := by
        rw [hs.keys]
        exact fun he => hk (task_key_injective he)
      simp only [System.log, hkeys, World.xadd]
      exact Function.update_of_ne hne _ _
    rw [unread, same, ids] at hentry
    exact hs.harmless k entry hentry

/-- A watcher that serves goes on to serve, and deletes nothing. -/
theorem Serving.moves (hs : Serving host job s) (smooth : Smooth input)
    (h : Moves host s.world s.watch input t.world t.watch seen) :
    Serving host job t ∧ Seen.deleted ∉ seen := by
  obtain ⟨hexecution, hkeys⟩ := moves_same h
  obtain ⟨e, hrow, open', grants⟩ := hs.row
  have hrow' : s.world.store.db.execution s.watch.execution.id = some e := hrow
  have order := hs.order.moves h
  have delegates := moves_delegates h
  have terms : ∀ e', t.row = some e' → Grants host t.world.store.db job.task e' := by
    intro e' he'
    obtain ⟨f, hf, hf'⟩ := moves_row h
    have hrow'' : t.world.store.db.execution s.watch.execution.id = some e' := by
      rw [← hexecution]
      exact he'
    rw [hf', hrow', Option.map_some] at hrow''
    cases hrow''
    exact grants.later (change_terms hf e) delegates
  have done (open'' : ∃ e', t.row = some e' ∧ ¬ e'.Terminal)
      (harmless : ∀ k, ∀ entry ∈ unread t k, Harmless job.task entry.2 k)
      (state : ∃ b : Option WireBuffer, t.watch.outputState = b.map stateOf)
      (inPlace : InPlace host t.world.store.db job.task t.watch.point) : Serving host job t := by
    obtain ⟨e', he', open''⟩ := open''
    exact ⟨hexecution.trans hs.execution, hkeys.trans hs.keys, order,
      ⟨e', he', open'', terms e' he'⟩, harmless, state, inPlace⟩
  have unchanged {world : World} {watch : Watch} (hw : world.store = s.world.store)
      (hx : watch.execution = s.watch.execution) :
      ∃ e', (System.mk world watch).row = some e' ∧ ¬ e'.Terminal := by
    refine ⟨e, ?_, open'⟩
    rw [System.row, hw, hx]
    exact hrow
  have inPlace := hs.inPlace
  obtain ⟨world, watch⟩ := t
  have kept := hs.kept h
  cases h with
  | expire _ => cases smooth
  | rowGone _ hnone => simp [hrow'] at hnone
  | finish _ hrow'' hterm =>
    cases hrow'.symm.trans hrow''
    exact False.elim (open' hterm)
  | poll _ _ _ =>
    exact ⟨done (unchanged rfl rfl) (kept fun _ => rfl) hs.state trivial, by simp⟩
  | read _ _ =>
    exact ⟨done (unchanged rfl rfl) (kept fun _ => rfl) hs.state trivial, by simp⟩
  | readLost _ => cases smooth
  | batchDone _ =>
    exact ⟨done (unchanged rfl rfl) (kept fun _ => rfl) hs.state trivial, by simp⟩
  | requestRowGone _ _ hnone => simp [hrow'] at hnone
  | @request m rest read hp hm hread =>
    obtain rfl := Option.some.inj (hrow'.symm.trans hread)
    have hrequest : m.fields = workspaceRequest job.task := by
      have harmless := hs.head hp
      rw [hm.1] at harmless
      exact harmless hm.2
    exact ⟨done (unchanged rfl rfl) (kept fun _ => rfl) hs.state ⟨hrequest, grants⟩, by simp⟩
  | @message m rest store logSeq state hp _ he =>
    obtain ⟨store', logSeq', state', he', hstate, e', hrow'', open''⟩ := hs.effect hp
    rw [he] at he'
    cases he'
    exact ⟨done ⟨e', hrow'', open''⟩ (kept fun _ => rfl) hstate trivial, by simp⟩
  | messageRaised hp _ he =>
    obtain ⟨store, logSeq, state, he', -⟩ := hs.effect hp
    simp [he] at he'
  | @requestRaised read request rest _ _ hp hd =>
    rw [hp] at inPlace
    obtain ⟨hrequest, grant, hg⟩ := inPlace
    rw [hrequest, hg] at hd
    cases hd
  | rejected hp hd =>
    rw [hp] at inPlace
    obtain ⟨hrequest, grant, hg⟩ := inPlace
    rw [hrequest, hg] at hd
    cases hd
  | fileNotFound hp hd =>
    rw [hp] at inPlace
    obtain ⟨hrequest, grant, hg⟩ := inPlace
    rw [hrequest, hg] at hd
    cases hd
  | @granted read request rest grant transferId hp hd =>
    refine ⟨done (unchanged rfl rfl) (kept fun _ => rfl) hs.state ?_, by simp⟩
    intro m hm
    have hx : m ∈ (answer s.watch.execution request.fields transferId grant.zip).messages := hm
    exact messages_request hx
  | @xadd request grant transferId m pending rest hp =>
    rw [hp] at inPlace
    refine ⟨done (unchanged rfl rfl) ?_ hs.state ?_, by simp⟩
    · exact hs.appended (inPlace m List.mem_cons_self) rfl rfl
    · exact fun x hx => inPlace x (List.mem_cons_of_mem _ hx)
  | xaddLost _ => cases smooth
  | xaddUnanswered _ => cases smooth
  | @saved request grant transferId rest db hp hsave =>
    refine ⟨done ?_ (kept fun _ => rfl) hs.state trivial, by simp⟩
    refine ⟨_, (saveTransfer_ok hsave).1.trans (by rw [hrow']; rfl), ?_⟩
    simp [Execution.Terminal, terminalStatuses]
  | @saveRaised request grant transferId rest _ hp hsave =>
    simp [saveTransfer, hrow'] at hsave
  | delete hp => simp [hp, InPlace] at inPlace
  | deleteLost _ => cases smooth
  | deleteUnanswered _ => cases smooth

end Keeps

def isRequest (entry : Nat × Fields) : Bool :=
  decide (entry.2.get? "type" = some "DATA_REQUEST")

def requests (s : System) : Nat := (unread s .events).countP isRequest

def backlog (s : System) : Nat := (kinds.map (fun k => (unread s k).length)).sum

def Answered (s : System) : Prop := ∃ x : Sending, x.messages <:+: available s

/-- Requests have been answered, or other messages have been handled. -/
def Less (s t : System) : Prop :=
  requests t < requests s ∧ Answered t ∨ requests t = requests s ∧ backlog t < backlog s

def Same (s t : System) : Prop := requests t = requests s ∧ backlog t = backlog s

section Progress
variable {host : Host} {job : Job} {s t u : System} {input : Input} {world : World} {watch : Watch}
variable {seen : List Seen}

theorem goes_of_step (smooth : Smooth input)
    (h : step host s.world s.watch input = some (world, watch, seen)) :
    Goes host s ⟨world, watch⟩ := by
  refine ⟨input, seen, smooth, ?_⟩
  simp only [watching, h, Option.map_some]

theorem goes (hs : Serving host job s) (smooth : Smooth input)
    (h : step host s.world s.watch input = some (world, watch, seen)) :
    Reaches host s ⟨world, watch⟩ ∧ Serving host job ⟨world, watch⟩ :=
  ⟨.single (goes_of_step smooth h), (hs.moves smooth (step_moves h)).1⟩

theorem Serving.goes (hs : Serving host job s) (h : Goes host s t) :
    Serving host job t ∧ available s <+: available t ∧ ∀ k, k ≠ .events → t.log k = s.log k := by
  obtain ⟨input, seen, smooth, hstep⟩ := h
  have hm := watching_watcher hstep
  obtain ⟨ht, kept⟩ := hs.moves smooth hm
  refine ⟨ht, ?_, fun k hk => moves_own_log hm hs.keys kept hk⟩
  have removed := moves_removed hm kept (s.watch.keys.key .events)
  obtain ⟨ms, hms⟩ := moves_history hm (s.watch.keys.key .events)
  simp only [available, System.log, (moves_same hm).2, removed, ← hms]
  rw [List.drop_append_of_le_length (Log.removed_le _)]
  exact List.prefix_append _ _

theorem Serving.reaches (hs : Serving host job s) (h : Reaches host s t) :
    Serving host job t ∧ available s <+: available t ∧ ∀ k, k ≠ .events → t.log k = s.log k := by
  induction h with
  | refl => exact ⟨hs, List.prefix_refl _, fun _ _ => rfl⟩
  | tail _ hgo ih =>
    obtain ⟨hserving, hprefix, hlogs⟩ := ih
    obtain ⟨hserving', hprefix', hlogs'⟩ := hserving.goes hgo
    exact ⟨hserving', hprefix.trans hprefix', fun k hk => (hlogs' k hk).trans (hlogs k hk)⟩

theorem Answered.later (h : Answered s) (grown : available s <+: available t) : Answered t := by
  obtain ⟨x, hx⟩ := h
  exact ⟨x, hx.trans grown.isInfix⟩

theorem Less.later (h : Less s t) (grown : available t <+: available u)
    (h' : Less t u ∨ Same t u) : Less s u := by
  rcases h with ⟨hless, hanswered⟩ | ⟨hr, hb⟩
  · have hanswered' := hanswered.later grown
    rcases h' with (⟨hless', -⟩ | ⟨hr', -⟩) | ⟨hr', -⟩
    · exact Or.inl ⟨by omega, hanswered'⟩
    · exact Or.inl ⟨by omega, hanswered'⟩
    · exact Or.inl ⟨by omega, hanswered'⟩
  · rcases h' with (⟨hless', hanswered⟩ | ⟨hr', hb'⟩) | ⟨hr', hb'⟩
    · exact Or.inl ⟨by omega, hanswered⟩
    · exact Or.inr ⟨by omega, by omega⟩
    · exact Or.inr ⟨by omega, by omega⟩

/-- The rest of an answer is sent. -/
theorem sends {request : Message} {grant : Grant} {transferId : String} {pending : List Fields}
    {rest : List Message} (hs : Serving host job s)
    (hp : s.watch.point = .sending request grant transferId pending rest) :
    ∃ t, Reaches host s t ∧ t.watch.point = .handling rest ∧ requests t = requests s ∧
      available t = available s ++ pending := by
  induction pending generalizing s with
  | nil =>
    obtain ⟨e, hrow, -⟩ := hs.row
    have hrow' : s.world.store.db.execution s.watch.execution.id = some e := hrow
    have hsave : ∃ db, saveTransfer s.watch.execution request.fields grant.execution transferId
        s.world.store.db = .ok db := by
      simp [saveTransfer, hrow']
    obtain ⟨db, hdb⟩ := hsave
    have hstep : step host s.world s.watch .save =
        some ({ s.world with store := { s.world.store with db := db } },
          s.watch.goto (.handling rest), [.answered request grant transferId]) := by
      simp [step, hp, save, hdb]
    have smooth : Smooth .save := trivial
    refine ⟨_, (goes hs smooth hstep).1, rfl, rfl, ?_⟩
    rw [List.append_nil]
    rfl
  | cons m pending ih =>
    have hstep : step host s.world s.watch .xadd =
        some (s.world.xadd s.watch.keys.events m,
          s.watch.goto (.sending request grant transferId pending rest),
          [.published s.watch.keys.events m request grant]) := by
      simp [step, hp]
    have smooth : Smooth .xadd := trivial
    obtain ⟨hreach, ht⟩ := goes hs smooth hstep
    obtain ⟨u, hreach', hpoint, hrequests, havailable⟩ := ih ht rfl
    have inPlace := hs.inPlace
    rw [hp] at inPlace
    obtain ⟨hunread, happended⟩ := hs.xadd m (s.watch.goto
      (.sending request grant transferId pending rest)) rfl rfl
    refine ⟨u, hreach.trans hreach', hpoint, hrequests.trans ?_, havailable.trans ?_⟩
    · have hm : isRequest ((s.log .events).history.length + 1, m) = false :=
        decide_eq_false (inPlace m List.mem_cons_self)
      rw [requests, hunread, List.countP_append, List.countP_singleton, hm]
      rfl
    · rw [happended, List.append_assoc, List.singleton_append]

/-- A request that has been taken up is answered. -/
theorem answers {read : Execution} {request : Message} {rest : List Message}
    (hs : Serving host job s) (hp : s.watch.point = .authorizing read request rest) :
    ∃ t, Reaches host s t ∧ t.watch.point = .handling rest ∧ requests t = requests s ∧
      Answered t := by
  have inPlace := hs.inPlace
  rw [hp] at inPlace
  obtain ⟨hrequest, grant, hg⟩ := inPlace
  have hstep : step host s.world s.watch (.authorize "") =
      some (s.world, s.watch.goto (.sending request grant ""
        (workspaceMessages s.watch.execution request.fields "" grant.zip) rest),
        [.authorized request]) := by
    simp [step, hp, authorize, hrequest, hg]
  have smooth : Smooth (.authorize "") := trivial
  obtain ⟨hreach, ht⟩ := goes hs smooth hstep
  obtain ⟨u, hreach', hpoint, hrequests, havailable⟩ := sends ht rfl
  refine ⟨u, hreach.trans hreach', hpoint, hrequests,
    answer s.watch.execution request.fields "" grant.zip, ?_⟩
  rw [havailable]
  exact (List.suffix_append _ _).isInfix

/-- With a message handled that is no request, less is unread. -/
theorem less_of_tail {m : Message} {later : List (Nat × Fields)}
    (hunread : unread s m.kind = (m.id, m.fields) :: later) (hm : ¬ m.IsRequest)
    (htail : unread t m.kind = later) (hother : ∀ k, k ≠ m.kind → unread t k = unread s k) :
    Less s t := by
  refine Or.inr ⟨?_, ?_⟩
  · by_cases hk : m.kind = .events
    · have hno : isRequest (m.id, m.fields) = false :=
        decide_eq_false (fun ht => hm ⟨hk, ht⟩)
      rw [hk] at hunread htail
      rw [requests, requests, hunread, htail, List.countP_cons, hno]
      rfl
    · rw [requests, requests, hother .events (Ne.symm hk)]
  · have hlength : (unread s m.kind).length = (unread t m.kind).length + 1 := by
      rw [hunread, htail, List.length_cons]
    have hsame (k : Kind) (hk : k ≠ m.kind) : (unread t k).length = (unread s k).length := by
      rw [hother k hk]
    simp only [backlog, kinds, List.map_cons, List.map_nil, List.sum_cons, List.sum_nil]
    have hevents := hsame .events
    have hlog := hsame .log
    have hstatus := hsame .status
    have houtput := hsame .output
    cases hk : m.kind <;> simp [hk] at hlength hevents hlog hstatus houtput <;> omega

/-- The first message in hand is handled, and answered if it is a request. -/
theorem handles {m : Message} {rest : List Message} (hs : Serving host job s)
    (hp : s.watch.point = .handling (m :: rest)) :
    ∃ t, Reaches host s t ∧ t.watch.point = .handling rest ∧ Less s t := by
  obtain ⟨later, hunread, -⟩ := hs.order.head hp
  obtain ⟨-, -, -, hlater⟩ := unread_cons hunread
  have smooth : Smooth .handle := trivial
  have tail {world : World} {watch : Watch} (hredis : world.redis = s.world.redis)
      (hkeys : watch.keys = s.watch.keys)
      (ids : watch.lastIds = Function.update s.watch.lastIds m.kind m.id) :
      unread ⟨world, watch⟩ m.kind = later ∧
        ∀ k, k ≠ m.kind → unread ⟨world, watch⟩ k = unread s k := by
    have same (k : Kind) : (System.mk world watch).log k = s.log k := by
      simp only [System.log, hredis, hkeys]
    constructor
    · rw [unread, same, ids, Function.update_self]
      exact hlater
    · intro k hk
      rw [unread, same, ids, Function.update_of_ne hk]
      rfl
  by_cases hm : m.IsRequest
  · obtain ⟨e, hrow, -⟩ := hs.row
    have hrow' : s.world.store.db.execution s.watch.execution.id = some e := hrow
    have hstep : step host s.world s.watch .handle =
        some (s.world, (s.watch.seenUpTo m).goto (.authorizing e m rest), [.handled m]) := by
      simp [step, hp, handle, hm, hrow']
    obtain ⟨hreach, ht⟩ := goes hs smooth hstep
    obtain ⟨u, hreach', hpoint, hrequests, hanswered⟩ := answers ht rfl
    refine ⟨u, hreach.trans hreach', hpoint, Or.inl ⟨?_, hanswered⟩⟩
    have htail := (@tail s.world ((s.watch.seenUpTo m).goto (.authorizing e m rest)) rfl rfl rfl).1
    have hyes : isRequest (m.id, m.fields) = true := decide_eq_true hm.2
    rw [hm.1] at hunread htail
    have hunread' : unread s .events = (m.id, m.fields) :: later := hunread
    rw [hrequests, requests, requests, htail, hunread', List.countP_cons, hyes]
    simp
  · obtain ⟨store, logSeq, state, he, -⟩ := hs.effect hp
    have hstep : step host s.world s.watch .handle =
        some ({ s.world with store := store },
          { (s.watch.seenUpTo m).goto (.handling rest) with
            logSeq := logSeq, outputState := state }, [.handled m]) := by
      simp [step, hp, handle, hm, he]
    obtain ⟨htail, hother⟩ := @tail { s.world with store := store }
      { (s.watch.seenUpTo m).goto (.handling rest) with logSeq := logSeq, outputState := state }
      rfl rfl rfl
    exact ⟨_, (goes hs smooth hstep).1, rfl, less_of_tail hunread hm htail hother⟩

/-- A whole batch is handled. -/
theorem finishes {ms : List Message} (hs : Serving host job s) (hp : s.watch.point = .handling ms) :
    ∃ t, Reaches host s t ∧ t.watch.point = .top ∧ (Less s t ∨ Same s t) ∧
      (ms ≠ [] → Less s t) := by
  induction ms generalizing s with
  | nil =>
    have smooth : Smooth .handle := trivial
    have hstep : step host s.world s.watch .handle =
        some (s.world, s.watch.goto .top, []) := by
      simp [step, hp]
    exact ⟨_, (goes hs smooth hstep).1, rfl, Or.inr ⟨rfl, rfl⟩, fun h => False.elim (h rfl)⟩
  | cons m ms ih =>
    obtain ⟨t, hreach, hpoint, hless⟩ := handles hs hp
    obtain ⟨ht, -⟩ := hs.reaches hreach
    obtain ⟨u, hreach', hpoint', hmore, -⟩ := ih ht hpoint
    have hless' := hless.later (ht.reaches hreach').2.1 hmore
    exact ⟨u, hreach.trans hreach', hpoint', Or.inl hless', fun _ => hless'⟩

theorem reads (hs : Serving host job s) (hp : s.watch.point = .reading) :
    ∃ t, Reaches host s t ∧ t.watch.point = .top ∧ (Less s t ∨ Same s t) ∧
      ((∃ k, unread s k ≠ []) → Less s t) := by
  have smooth : Smooth (.xread (fun _ => maxCount)) := rfl
  have hstep : step host s.world s.watch (.xread (fun _ => maxCount)) =
      some (s.world, s.watch.goto (.handling (xread s.world s.watch (fun _ => maxCount))), []) := by
    simp [step, hp]
  obtain ⟨hreach, ht⟩ := goes hs smooth hstep
  obtain ⟨u, hreach', hpoint, hmore, hless⟩ := finishes ht rfl
  refine ⟨u, hreach.trans hreach', hpoint, hmore, ?_⟩
  rintro ⟨k, hk⟩
  refine hless ?_
  intro hnone
  have hread := ofKind_xread s.world s.watch (fun _ => maxCount) k
  rw [hnone] at hread
  have htake : (unread s k).take maxCount = [] := hread.symm
  rcases List.take_eq_nil_iff.mp htake with hzero | hnil
  · exact absurd hzero (by decide)
  · exact hk hnil

/-- A round of the loop. -/
theorem polls (hs : Serving host job s) (hp : s.watch.point = .top) {k : Kind}
    (hk : unread s k ≠ []) : ∃ t, Reaches host s t ∧ t.watch.point = .top ∧ Less s t := by
  obtain ⟨e, hrow, open', -⟩ := hs.row
  have hrow' : s.world.store.db.execution s.watch.execution.id = some e := hrow
  have smooth : Smooth (.check false) := rfl
  have hstep : step host s.world s.watch (.check false) =
      some (s.world, s.watch.goto .reading, []) := by
    simp [step, hp, hrow', open']
  obtain ⟨hreach, ht⟩ := goes hs smooth hstep
  obtain ⟨u, hreach', hpoint, -, hless⟩ := reads ht rfl
  exact ⟨u, hreach.trans hreach', hpoint, hless ⟨k, hk⟩⟩

/-- By induction on the requests, and between them on the other messages. -/
theorem catches_up_top (hs : Serving host job s) (hp : s.watch.point = .top) :
    ∃ t, Reaches host s t ∧ t.watch.point = .top ∧ (∀ k, unread t k = []) ∧
      (0 < requests s → Answered t) := by
  generalize hr : requests s = r
  induction r using Nat.strongRecOn generalizing s with
  | ind r ihr =>
    generalize hb : backlog s = b
    induction b using Nat.strongRecOn generalizing s with
    | ind b ihb =>
      by_cases hall : ∀ k, unread s k = []
      · refine ⟨s, .refl, hp, hall, fun hpos => ?_⟩
        rw [← hr, requests, hall .events] at hpos
        cases hpos
      · obtain ⟨k, hk⟩ := not_forall.mp hall
        obtain ⟨t, hreach, hpoint, hless⟩ := polls hs hp hk
        obtain ⟨ht, -⟩ := hs.reaches hreach
        rcases hless with ⟨hless, hanswered⟩ | ⟨hsame, hless⟩
        · obtain ⟨u, hreach', hpoint', hdone, -⟩ := ihr _ (hr ▸ hless) ht hpoint rfl
          exact ⟨u, hreach.trans hreach', hpoint', hdone,
            fun _ => hanswered.later (ht.reaches hreach').2.1⟩
        · obtain ⟨u, hreach', hpoint', hdone, hanswered⟩ :=
            ihb _ (hb ▸ hless) ht hpoint (hsame.trans hr) rfl
          exact ⟨u, hreach.trans hreach', hpoint', hdone, hanswered⟩

theorem catches_up_later (hs : Serving host job s) (hreach : Reaches host s t)
    (hp : t.watch.point = .top) (hmore : Less s t ∨ Same s t) :
    ∃ u, Reaches host s u ∧ u.watch.point = .top ∧ (∀ k, unread u k = []) ∧
      (0 < requests s → Answered u) := by
  obtain ⟨ht, -⟩ := hs.reaches hreach
  obtain ⟨u, hreach', hpoint, hdone, hanswered⟩ := catches_up_top ht hp
  refine ⟨u, hreach.trans hreach', hpoint, hdone, fun hpos => ?_⟩
  rcases hmore with (⟨-, hanswered'⟩ | ⟨hr, -⟩) | ⟨hr, -⟩
  · exact hanswered'.later (ht.reaches hreach').2.1
  · exact hanswered (hr ▸ hpos)
  · exact hanswered (hr ▸ hpos)

theorem catches_up_batch {ms : List Message} (hs : Serving host job s) (hreach : Reaches host s t)
    (hp : t.watch.point = .handling ms) (hr : requests t = requests s) :
    ∃ u, Reaches host s u ∧ u.watch.point = .top ∧ (∀ k, unread u k = []) ∧
      (0 < requests s → Answered u) := by
  obtain ⟨ht, -⟩ := hs.reaches hreach
  obtain ⟨u, hreach', hpoint, hmore, -⟩ := finishes ht hp
  obtain ⟨v, hreach'', hpoint', hdone, hanswered⟩ := catches_up_later ht hreach' hpoint hmore
  exact ⟨v, hreach.trans hreach'', hpoint', hdone, fun hpos => hanswered (hr ▸ hpos)⟩

/-- Wherever in its loop it stands, a watcher that serves can come to have read
everything, and has then answered what was requested. -/
theorem catches_up (hs : Serving host job s) :
    ∃ t, Reaches host s t ∧ t.watch.point = .top ∧ (∀ k, unread t k = []) ∧
      (0 < requests s → Answered t) := by
  have inPlace := hs.inPlace
  cases hp : s.watch.point with
  | top => exact catches_up_top hs hp
  | reading =>
    obtain ⟨t, hreach, hpoint, hmore, -⟩ := reads hs hp
    exact catches_up_later hs hreach hpoint hmore
  | handling ms => exact catches_up_batch hs .refl hp rfl
  | authorizing read request rest =>
    obtain ⟨t, hreach, hpoint, hr, -⟩ := answers hs hp
    exact catches_up_batch hs hreach hpoint hr
  | sending request grant transferId pending rest =>
    obtain ⟨t, hreach, hpoint, hr, -⟩ := sends hs hp
    exact catches_up_batch hs hreach hpoint hr
  | cleaning why => simp [hp, InPlace] at inPlace
  | ended why => simp [hp, InPlace] at inPlace

/-- What the output being reassembled comes to once everything is read. -/
def ComesTo (s : System) (b' : Option WireBuffer) : Prop :=
  ∃ b : Option WireBuffer, s.watch.outputState = b.map stateOf ∧
    ((unread s .output).map (fun entry => pieceOf entry.2)).foldl advance b = b'

variable {b b' : Option WireBuffer}

/-- A step takes the next message of the output stream, or leaves output alone. -/
theorem moves_output (hs : Serving host job s) (smooth : Smooth input)
    (h : Moves host s.world s.watch input t.world t.watch seen)
    (hb : s.watch.outputState = b.map stateOf) :
    unread t .output = unread s .output ∧ t.watch.outputState = b.map stateOf ∨
      ∃ entry, unread s .output = entry :: unread t .output ∧
        t.watch.outputState = (advance b (pieceOf entry.2)).map stateOf := by
  have same : t.log .output = s.log .output :=
    moves_own_log h hs.keys (hs.moves smooth h).2 (by decide)
  have from' {n : Nat} (ids : t.watch.lastIds .output = n) :
      unread t .output = (s.log .output).unread n := by
    rw [unread, same, ids]
  obtain ⟨world, watch⟩ := t
  cases h with
  | @message m rest store logSeq state hp hm he =>
    by_cases hk : m.kind = .output
    · obtain ⟨readable, hend⟩ : Harmless job.task m.fields .output := hk ▸ hs.head hp
      have hopen := closes_open hend b
      simp only [WatchExecution.effect, hk, hb, handleOutputMessage_open readable hopen] at he
      cases he
      obtain ⟨later, hunread, -⟩ := hs.order.head hp
      obtain ⟨-, -, -, hlater⟩ := unread_cons hunread
      rw [hk] at hunread hlater
      have ids : Function.update s.watch.lastIds m.kind m.id .output = m.id := by
        rw [hk, Function.update_self]
      refine Or.inr ⟨(m.id, m.fields), ?_, rfl⟩
      rw [from' ids, hlater]
      exact hunread
    · refine Or.inl ⟨from'  (Function.update_of_ne (Ne.symm hk) _ _), ?_⟩
      cases effect_ok he with
      | skip _ _ _ => exact hb
      | log _ _ => exact hb
      | status _ _ => exact hb
      | _ hk' => exact False.elim (hk hk')
  | @request m _ _ _ hm _ =>
    have hk : Kind.output ≠ m.kind := by simp [hm.1]
    exact Or.inl ⟨from' (Function.update_of_ne hk _ _), hb⟩
  | @requestRowGone m _ _ hm _ =>
    have hk : Kind.output ≠ m.kind := by simp [hm.1]
    exact Or.inl ⟨from' (Function.update_of_ne hk _ _), hb⟩
  | messageRaised hp _ he =>
    obtain ⟨store, logSeq, state, he', -⟩ := hs.effect hp
    simp [he] at he'
  | _ => exact Or.inl ⟨from' rfl, hb⟩

theorem ComesTo.goes (h : ComesTo s b') (hs : Serving host job s) (hgo : Goes host s t) :
    ComesTo t b' := by
  obtain ⟨b, hb, hall⟩ := h
  obtain ⟨input, seen, smooth, hstep⟩ := hgo
  rcases moves_output hs smooth (watching_watcher hstep) hb with
    ⟨hunread, hstate⟩ | ⟨entry, hunread, hstate⟩
  · exact ⟨b, hstate, by rw [hunread]; exact hall⟩
  · rw [hunread] at hall
    exact ⟨_, hstate, hall⟩

theorem ComesTo.reaches (h : ComesTo s b') (hs : Serving host job s) (hreach : Reaches host s t) :
    ComesTo t b' := by
  have both : Serving host job t ∧ ComesTo t b' := by
    induction hreach with
    | refl => exact ⟨hs, h⟩
    | tail _ hgo ih => exact ⟨(ih.1.goes hgo).1, ih.2.goes ih.1 hgo⟩
  exact both.2

/-- With everything read, the output has come to it. -/
theorem ComesTo.read (h : ComesTo s b') (hnil : unread s .output = []) :
    s.watch.outputState = b'.map stateOf := by
  obtain ⟨b, hb, hall⟩ := h
  rw [hnil] at hall
  cases hall
  exact hb

end Progress

end CatchingUp
