import DelegateProtocol.JsonBodies
import DelegateProtocol.Views
import DelegateProtocol.Lib.StepMachine

/-!
# The restart gateway

One coroutine per websocket, one map from delegate ids to websockets, and the
requests of the control endpoint, on one event loop: between two awaits a
coroutine runs undisturbed, and the loop goes on in any order. Websockets are
named by the order in which they were accepted. Of the database the gateway
reads the delegates, which only the views write.
-/

namespace RestartGateway

open KeyedTable Models Runtime StepMachine Uuid Views
open JsonBodies (Json)

/-- What `json.loads` makes of a message; `none` when it raises. -/
abbrev Message := Option Json

/-- What the handler makes of a message. -/
inductive Heard where
  | raised
  | other
  | hello (claimed : Option Json)

def heard (message : Message) : Heard :=
  match message with
  | some (.dict fields) =>
    match fields.lookup "type" with
    | some (.str "HELLO") => .hello (fields.lookup "delegate_id")
    | _ => .other
  | _ => .raised

/-- The subject of a certificate: its names, as pairs of key and value. -/
abbrev Subject := List (List (String × String))

/-- The subject of the verified certificate of the peer, if it has shown one. -/
def peerCertDelegateId (peercert : Option Subject) : Option String :=
  match peercert with
  | none => none
  | some subject => subject.flatten.lookup "commonName"

/-- The id of a HELLO that claims what the certificate says. -/
def certified (certDelegateId : Option String) (claimed : Option Json) : Option String :=
  match certDelegateId, claimed with
  | some d, some (.str text) => if d ≠ "" ∧ text = d then some d else none
  | _, _ => none

def lookupActiveDelegate (db : DB) (delegateId : String) : Option Delegate :=
  match uuidField delegateId with
  | .error _ => none
  | .ok id =>
    match db.delegate id with
    | none => none
    | some delegate => if delegate.status = .active then some delegate else none

/-- Where a handler awaits. -/
inductive Point where
  | receiving
  | lookingUp (claimedId : String)
  | lookedUp (claimedId : String) (delegate : Option Delegate)
  | rejecting (code : Nat) (reason : String)
  | finished
  deriving DecidableEq

structure Connection where
  peercert : Option Subject
  delegateId : Option String
  point : Point
  isOpen : Bool

structure Entry where
  delegateId : String
  websocket : Nat

/-- A request of the control endpoint. -/
inductive Task where
  | writing (delegateId : String) (websocket : Nat)
  | checking (delegateId : String)
  | auditing (delegate : Delegate)
  | closing (websocket : Nat)
  | returned (done : Bool)
  | raised
  deriving DecidableEq

structure Gateway where
  db : DB
  connections : List Connection
  connected : Table Entry.delegateId
  tasks : List Task

def Gateway.start (db : DB) : Gateway := ⟨db, [], KeyedTable.empty _, []⟩

/-- `CONNECTED.get(delegate_id)`. -/
def websocketOf (connected : Table Entry.delegateId) (delegateId : String) : Option Nat :=
  (connected.get? delegateId).map Entry.websocket

/-- A RESTART that was written to a websocket. -/
structure RestartSent where
  websocket : Nat
  delegateId : String
  deriving DecidableEq

/-- What lets a handler go on. A message may have come before the websocket was
closed. -/
inductive Event where
  | receive (message : Message)
  | ended
  | query (ok : Bool)
  | resume

/-- The end of a handler, after which its websocket is closed. -/
def Connection.finish (c : Connection) : Connection :=
  { c with point := .finished, isOpen := false }

/-- The `finally` of the handler. -/
def unregister (connected : Table Entry.delegateId) (i : Nat) (delegateId : Option String) :
    Table Entry.delegateId :=
  match delegateId with
  | none => connected
  | some d => if d ≠ "" ∧ websocketOf connected d = some i then connected.erase d else connected

def handlerStep (s : Gateway) (i : Nat) (c : Connection) (event : Event) :
    Option (Connection × Table Entry.delegateId) :=
  match c.point, event with
  | .receiving, .receive message =>
    match heard message with
    | .raised => some (c.finish, unregister s.connected i c.delegateId)
    | .other => some (c, s.connected)
    | .hello claimed =>
      match certified (peerCertDelegateId c.peercert) claimed with
      | none =>
        some ({ c with
          point := .rejecting 4001 "delegate_id does not match client certificate"
          isOpen := false }, s.connected)
      | some claimedId => some ({ c with point := .lookingUp claimedId }, s.connected)
  | .receiving, .ended =>
    if c.isOpen then none else some (c.finish, unregister s.connected i c.delegateId)
  | .lookingUp claimedId, .query ok =>
    let found := if ok then lookupActiveDelegate s.db claimedId else none
    some ({ c with point := .lookedUp claimedId found }, s.connected)
  | .lookedUp _ none, .resume =>
    some ({ c with point := .rejecting 4003 "delegate unknown or revoked", isOpen := false },
      s.connected)
  | .lookedUp claimedId (some _), .resume =>
    some ({ c with delegateId := some claimedId, point := .receiving },
      s.connected.put ⟨claimedId, i⟩)
  | .rejecting _ _, .resume => some (c.finish, unregister s.connected i c.delegateId)
  | _, _ => none

/-- The next step of a request. -/
def taskStep (s : Gateway) (task : Task) (ok : Bool) :
    Option (Task × DB × List RestartSent) :=
  match task with
  | .writing delegateId i =>
    match s.connections[i]? with
    | none => none
    | some c =>
      if c.isOpen then some (.checking delegateId, s.db, [⟨i, delegateId⟩])
      else some (.raised, s.db, [])
  | .checking delegateId =>
    match if ok then lookupActiveDelegate s.db delegateId else none with
    | none => some (.returned true, s.db, [])
    | some delegate => some (.auditing delegate, s.db, [])
  | .auditing delegate =>
    if ok then
      let event : AuditEvent :=
        { eventType := "DELEGATE_RESTART_SENT", tenantId := delegate.tenantId,
          delegateId := str delegate.id }
      some (.returned true, s.db.record event, [])
    else some (.raised, s.db, [])
  | .closing _ => some (.returned true, s.db, [])
  | .returned _ => none
  | .raised => none

/-- `send_restart`, up to its first await. -/
def sendRestart (s : Gateway) (delegateId : String) : Gateway :=
  match websocketOf s.connected delegateId with
  | none => { s with tasks := s.tasks ++ [.returned false] }
  | some i => { s with tasks := s.tasks ++ [.writing delegateId i] }

/-- `ws.close(...)`, up to its first await. -/
def closeWebsocket (connections : List Connection) (i : Nat) : List Connection :=
  match connections[i]? with
  | none => connections
  | some c => connections.set i { c with isOpen := false }

/-- `disconnect`, up to its first await. -/
def disconnect (s : Gateway) (delegateId : String) : Gateway :=
  match websocketOf s.connected delegateId with
  | none => { s with tasks := s.tasks ++ [.returned false] }
  | some i =>
    { s with
      connections := closeWebsocket s.connections i
      connected := s.connected.erase delegateId
      tasks := s.tasks ++ [.closing i] }

inductive Action where
  | connect (peercert : Option Subject)
  | drop (i : Nat)
  | handler (i : Nat) (event : Event)
  | sendRestart (delegateId : String)
  | disconnect (delegateId : String)
  | task (k : Nat) (ok : Bool)
  | register (body : Fields) (concurrency : Int) (delegateId : UUID)
  | revoke (id : UUID)

/-- The gateway, its peers, and the views that write delegates. -/
def gateway : Machine Gateway Action RestartSent where
  step s act :=
    match act with
    | .connect peercert =>
      some ({ s with connections := s.connections ++ [⟨peercert, none, .receiving, true⟩] }, [])
    | .drop i => some ({ s with connections := closeWebsocket s.connections i }, [])
    | .handler i event =>
      match s.connections[i]? with
      | none => none
      | some c =>
        match handlerStep s i c event with
        | none => none
        | some (c', connected) =>
          some ({ s with connections := s.connections.set i c', connected := connected }, [])
    | .sendRestart delegateId => some (sendRestart s delegateId, [])
    | .disconnect delegateId => some (disconnect s delegateId, [])
    | .task k ok =>
      match s.tasks[k]? with
      | none => none
      | some task =>
        match taskStep s task ok with
        | none => none
        | some (task', db, sent) => some ({ s with tasks := s.tasks.set k task', db := db }, sent)
    | .register body concurrency delegateId =>
      match s.db.createDelegate (newDelegate body concurrency delegateId) with
      | none => none
      | some db => some ({ s with db := db }, [])
    | .revoke id => some ({ s with db := s.db.saveDelegateStatus id .revoked }, [])

/-- A step of the handler of websocket `i`. -/
inductive Turn (s : Gateway) (i : Nat) (c : Connection) :
    Event → Connection → Table Entry.delegateId → Prop
  | ignore {message : Message} : Turn s i c (.receive message) c s.connected
  | lookUp {message : Message} {d : String} : c.point = .receiving →
      peerCertDelegateId c.peercert = some d → d ≠ "" →
      Turn s i c (.receive message) { c with point := .lookingUp d } s.connected
  | reject {event : Event} {code : Nat} {reason : String} :
      c.point = .receiving ∨ (∃ d, c.point = .lookedUp d none) →
      Turn s i c event { c with point := .rejecting code reason, isOpen := false } s.connected
  | query {ok : Bool} {d : String} {found : Option Delegate} : c.point = .lookingUp d →
      (found ≠ none → ok = true ∧ found = lookupActiveDelegate s.db d) →
      Turn s i c (.query ok) { c with point := .lookedUp d found } s.connected
  | register {d : String} {delegate : Delegate} : c.point = .lookedUp d (some delegate) →
      Turn s i c .resume { c with delegateId := some d, point := .receiving }
        (s.connected.put ⟨d, i⟩)
  | finish {event : Event} : Turn s i c event c.finish (unregister s.connected i c.delegateId)

section Steps
variable {s t : Gateway} {a : Action} {o : List RestartSent} {i : Nat} {c c' : Connection}
variable {connected : Table Entry.delegateId}

theorem certified_some {cert : Option String} {claimed : Option Json} {d : String}
    (h : certified cert claimed = some d) : cert = some d ∧ d ≠ "" := by
  unfold certified at h
  split at h
  · split at h
    · rename_i hd
      cases h
      exact ⟨rfl, hd.1⟩
    · cases h
  · cases h

theorem lookupActiveDelegate_some {db : DB} {d : String} {delegate : Delegate}
    (h : lookupActiveDelegate db d = some delegate) :
    ∃ id, uuidField d = .ok id ∧ db.delegate id = some delegate ∧ delegate.status = .active := by
  unfold lookupActiveDelegate at h
  cases hid : uuidField d with
  | error e => simp [hid] at h
  | ok id =>
    simp only [hid] at h
    cases hrow : db.delegate id with
    | none => simp [hrow] at h
    | some row =>
      simp only [hrow] at h
      split at h
      · cases h
        exact ⟨id, rfl, hrow, ‹_›⟩
      · cases h

theorem handlerStep_turn {event : Event} (h : handlerStep s i c event = some (c', connected)) :
    Turn s i c event c' connected := by
  unfold handlerStep at h
  split at h
  case h_1 message hp =>
    split at h
    · cases h
      exact .finish
    · cases h
      exact .ignore
    · split at h
      · cases h
        exact .reject (Or.inl hp)
      · rename_i hclaimed
        cases h
        obtain ⟨hcert, hne⟩ := certified_some hclaimed
        exact .lookUp hp hcert hne
  case h_2 hp =>
    split at h
    · cases h
    · cases h
      exact .finish
  case h_3 d ok hp =>
    cases h
    refine .query hp ?_
    cases ok with
    | true => exact fun _ => ⟨rfl, if_pos rfl⟩
    | false => exact fun hfound => False.elim (hfound (if_neg Bool.false_ne_true))
  case h_4 d hp =>
    cases h
    exact .reject (Or.inr ⟨d, hp⟩)
  case h_5 d delegate hp =>
    cases h
    exact .register hp
  case h_6 =>
    cases h
    exact .finish
  case h_7 => cases h

inductive Moves (s : Gateway) : Action → Gateway → List RestartSent → Prop
  | connect {peercert : Option Subject} :
      Moves s (.connect peercert)
        { s with connections := s.connections ++ [⟨peercert, none, .receiving, true⟩] } []
  | drop {i : Nat} : Moves s (.drop i) { s with connections := closeWebsocket s.connections i } []
  | handler {i : Nat} {c c' : Connection} {event : Event} {connected : Table Entry.delegateId} :
      s.connections[i]? = some c → Turn s i c event c' connected →
      Moves s (.handler i event)
        { s with connections := s.connections.set i c', connected := connected } []
  | answer {a : Action} {tasks : List Task} :
      (∀ d i, .writing d i ∈ tasks → .writing d i ∈ s.tasks ∨ websocketOf s.connected d = some i) →
      Moves s a { s with tasks := tasks } []
  | disconnect {d : String} {i : Nat} : websocketOf s.connected d = some i →
      Moves s (.disconnect d)
        { s with connections := closeWebsocket s.connections i,
                 connected := s.connected.erase d, tasks := s.tasks ++ [.closing i] } []
  | task {k : Nat} {ok : Bool} {tasks : List Task} {db : DB} {sent : List RestartSent} :
      (∀ d i, .writing d i ∈ tasks → .writing d i ∈ s.tasks) →
      (∀ id, db.delegate id = s.db.delegate id) →
      (∀ r ∈ sent, .writing r.delegateId r.websocket ∈ s.tasks) →
      Moves s (.task k ok) { s with tasks := tasks, db := db } sent
  | register {body : Fields} {concurrency : Int} {delegateId : UUID} {db : DB} :
      s.db.createDelegate (newDelegate body concurrency delegateId) = some db →
      Moves s (.register body concurrency delegateId) { s with db := db } []
  | revoke {id : UUID} :
      Moves s (.revoke id) { s with db := s.db.saveDelegateStatus id .revoked } []

theorem taskStep_sent {task task' : Task} {ok : Bool} {db : DB} {sent : List RestartSent}
    (h : taskStep s task ok = some (task', db, sent)) :
    (∀ d i, task' ≠ .writing d i) ∧ (∀ id, db.delegate id = s.db.delegate id) ∧
      ∀ r ∈ sent, task = .writing r.delegateId r.websocket := by
  unfold taskStep at h
  split at h
  · split at h
    · cases h
    · split at h
      · cases h
        refine ⟨fun _ _ => by simp, fun _ => rfl, fun r hr => ?_⟩
        obtain rfl := List.mem_singleton.mp hr
        rfl
      · cases h
        exact ⟨fun _ _ => by simp, fun _ => rfl, by simp⟩
  · split at h
    · cases h
      exact ⟨fun _ _ => by simp, fun _ => rfl, by simp⟩
    · cases h
      exact ⟨fun _ _ => by simp, fun _ => rfl, by simp⟩
  · split at h
    · cases h
      exact ⟨fun _ _ => by simp, fun _ => rfl, by simp⟩
    · cases h
      exact ⟨fun _ _ => by simp, fun _ => rfl, by simp⟩
  · cases h
    exact ⟨fun _ _ => by simp, fun _ => rfl, by simp⟩
  · cases h
  · cases h

theorem gateway_moves (h : gateway.step s a = some (t, o)) : Moves s a t o := by
  cases a with
  | connect peercert =>
    cases h
    exact .connect
  | drop i =>
    cases h
    exact .drop
  | handler i event =>
    simp only [gateway] at h
    cases hc : s.connections[i]? with
    | none => simp [hc] at h
    | some c =>
      simp only [hc] at h
      cases hs : handlerStep s i c event with
      | none => simp [hs] at h
      | some r =>
        simp only [hs] at h
        cases h
        exact .handler hc (handlerStep_turn hs)
  | sendRestart d =>
    cases h
    unfold sendRestart
    cases hws : websocketOf s.connected d with
    | none =>
      refine .answer fun d' i hmem => Or.inl ?_
      simpa using hmem
    | some i =>
      refine .answer fun d' j hmem => ?_
      rcases List.mem_append.mp hmem with hmem | hmem
      · exact Or.inl hmem
      · cases List.mem_singleton.mp hmem
        exact Or.inr hws
  | disconnect d =>
    cases h
    unfold disconnect
    cases hws : websocketOf s.connected d with
    | none =>
      refine .answer fun d' i hmem => Or.inl ?_
      simpa using hmem
    | some i => exact .disconnect hws
  | task k ok =>
    simp only [gateway] at h
    cases hk : s.tasks[k]? with
    | none => simp [hk] at h
    | some task =>
      simp only [hk] at h
      cases hs : taskStep s task ok with
      | none => simp [hs] at h
      | some r =>
        obtain ⟨task', db, sent⟩ := r
        simp only [hs] at h
        cases h
        obtain ⟨hwriting, hdb, hsent⟩ := taskStep_sent hs
        refine .task ?_ hdb ?_
        · intro d i hmem
          rcases List.mem_or_eq_of_mem_set hmem with hmem | heq
          · exact hmem
          · exact False.elim (hwriting d i heq.symm)
        · intro r hr
          exact hsent r hr ▸ List.mem_of_getElem? hk
  | register body concurrency delegateId =>
    simp only [gateway] at h
    cases hc : s.db.createDelegate (newDelegate body concurrency delegateId) with
    | none => simp [hc] at h
    | some db =>
      simp only [hc] at h
      cases h
      exact .register hc
  | revoke id =>
    cases h
    exact .revoke

theorem websocketOf_put (d k : String) :
    websocketOf (connected.put ⟨d, i⟩) k = if d = k then some i else websocketOf connected k := by
  simp only [websocketOf, get?_put]
  split
  · rfl
  · rfl

theorem websocketOf_erase (d k : String) :
    websocketOf (connected.erase d) k = if k = d then none else websocketOf connected k := by
  simp only [websocketOf, get?_erase]
  split
  · rfl
  · rfl

/-- What a handler that ends leaves in the map: the entries of other websockets. -/
theorem unregister_some {delegateId : Option String} {d : String} {j : Nat} :
    websocketOf (unregister connected i delegateId) d = some j ↔
      websocketOf connected d = some j ∧ ¬ (j = i ∧ delegateId = some d ∧ d ≠ "") := by
  cases delegateId with
  | none => simp [unregister]
  | some own =>
    simp only [unregister, Option.some.injEq]
    split
    · rename_i howns
      obtain ⟨hne, hown⟩ := howns
      rw [websocketOf_erase]
      constructor
      · intro h
        split at h
        · cases h
        · rename_i hd
          exact ⟨h, fun hc => hd hc.2.1.symm⟩
      · rintro ⟨h, hc⟩
        rw [if_neg, h]
        rintro rfl
        rw [hown] at h
        exact hc ⟨(Option.some.inj h).symm, rfl, hne⟩
    · rename_i howns
      constructor
      · intro h
        refine ⟨h, ?_⟩
        rintro ⟨rfl, rfl, hne⟩
        exact howns ⟨hne, h⟩
      · exact And.left

/-- What a step makes of connection `j`. -/
def Evolves (s : Gateway) (a : Action) (j : Nat) (c c' : Connection) : Prop :=
  c' = c ∨ c' = { c with isOpen := false } ∨
    ∃ event connected, a = .handler j event ∧ Turn s j c event c' connected

theorem closeWebsocket_getElem? {connections : List Connection} {j : Nat}
    (hc : connections[j]? = some c) :
    (closeWebsocket connections i)[j]? =
      some (if j = i then { c with isOpen := false } else c) := by
  unfold closeWebsocket
  by_cases hij : j = i
  · subst hij
    rw [hc, if_pos rfl]
    exact List.getElem?_set_self (List.getElem?_eq_some_iff.mp hc).1
  · rw [if_neg hij]
    split
    · exact hc
    · rw [List.getElem?_set_ne (Ne.symm hij), hc]

theorem closeWebsocket_length (connections : List Connection) :
    (closeWebsocket connections i).length = connections.length := by
  unfold closeWebsocket
  split
  · rfl
  · exact List.length_set

theorem evolves_close {j : Nat} :
    Evolves s a j c (if j = i then { c with isOpen := false } else c) := by
  split
  · exact Or.inr (Or.inl rfl)
  · exact Or.inl rfl

/-- A connection stays. -/
theorem connection_moves (h : Moves s a t o) {j : Nat} (hc : s.connections[j]? = some c) :
    ∃ c', t.connections[j]? = some c' ∧ Evolves s a j c c' := by
  cases h with
  | connect =>
    refine ⟨c, ?_, Or.inl rfl⟩
    exact (List.getElem?_append_left (List.getElem?_eq_some_iff.mp hc).1).trans hc
  | drop => exact ⟨_, closeWebsocket_getElem? hc, evolves_close⟩
  | @handler i x x' event connected hx turn =>
    by_cases hij : j = i
    · subst hij
      obtain rfl := Option.some.inj (hc.symm.trans hx)
      exact ⟨x', List.getElem?_set_self (List.getElem?_eq_some_iff.mp hc).1,
        Or.inr (Or.inr ⟨event, connected, rfl, turn⟩)⟩
    · exact ⟨c, (List.getElem?_set_ne (Ne.symm hij)).trans hc, Or.inl rfl⟩
  | disconnect _ => exact ⟨_, closeWebsocket_getElem? hc, evolves_close⟩
  | _ => exact ⟨c, hc, Or.inl rfl⟩

/-- A connection is from before, or it has come in with the step. -/
theorem connection_before (h : Moves s a t o) {j : Nat} (hc : t.connections[j]? = some c') :
    (∃ c, s.connections[j]? = some c ∧ Evolves s a j c c') ∨
      ∃ peercert, a = .connect peercert ∧ c' = ⟨peercert, none, .receiving, true⟩ := by
  cases hs : s.connections[j]? with
  | some c =>
    obtain ⟨c'', hc'', hev⟩ := connection_moves h hs
    obtain rfl := Option.some.inj (hc.symm.trans hc'')
    exact Or.inl ⟨c, rfl, hev⟩
  | none =>
    right
    have hlen := List.getElem?_eq_none_iff.mp hs
    have hlt := (List.getElem?_eq_some_iff.mp hc).1
    cases h with
    | @connect peercert =>
      rw [List.getElem?_append_right hlen] at hc
      obtain rfl := List.mem_singleton.mp (List.mem_of_getElem? hc)
      exact ⟨peercert, rfl, rfl⟩
    | drop =>
      rw [closeWebsocket_length] at hlt
      omega
    | handler _ _ =>
      simp only [List.length_set] at hlt
      omega
    | disconnect _ =>
      simp only [closeWebsocket_length] at hlt
      omega
    | _ => exact absurd hlt (Nat.not_lt.mpr hlen)

theorem Turn.peercert {event : Event} (h : Turn s i c event c' connected) :
    c'.peercert = c.peercert := by
  cases h with
  | _ => rfl

theorem Evolves.peercert {j : Nat} (h : Evolves s a j c c') : c'.peercert = c.peercert := by
  rcases h with rfl | rfl | ⟨_, _, _, turn⟩
  · rfl
  · rfl
  · exact turn.peercert

/-- The connection was accepted as `d`, or is on its way to that. -/
def Connection.Names (c : Connection) (d : String) : Prop :=
  c.delegateId = some d ∨ c.point = .lookingUp d ∨ ∃ found, c.point = .lookedUp d found

/-- A websocket whose handler rejects it or has ended is not open any more. -/
def Connection.Closing (c : Connection) : Prop :=
  c.point = .finished ∨ ∃ code reason, c.point = .rejecting code reason

structure Connection.Sound (c : Connection) : Prop where
  named : ∀ d, c.Names d → peerCertDelegateId c.peercert = some d ∧ d ≠ ""
  closed : c.Closing → c.isOpen = false

/-- Every entry is of a connection that was accepted under its id and whose
handler has not ended; every RESTART is for the peer of its websocket. -/
structure Gateway.Sound (s : Gateway) : Prop where
  connections : ∀ (i : Nat) (c : Connection), s.connections[i]? = some c → c.Sound
  entries : ∀ d i, websocketOf s.connected d = some i →
    ∃ c, s.connections[i]? = some c ∧ c.delegateId = some d ∧ c.point ≠ .finished
  writing : ∀ d i, .writing d i ∈ s.tasks →
    ∃ c, s.connections[i]? = some c ∧ peerCertDelegateId c.peercert = some d

theorem Connection.Sound.close (h : c.Sound) :
    ({ c with isOpen := false } : Connection).Sound :=
  ⟨h.named, fun _ => rfl⟩

theorem Connection.Sound.fresh (peercert : Option Subject) :
    Connection.Sound ⟨peercert, none, .receiving, true⟩ where
  named d hd := by
    rcases hd with hd | hd | ⟨_, hd⟩
    · cases hd
    · cases hd
    · cases hd
  closed hc := by
    rcases hc with hc | ⟨_, _, hc⟩
    · cases hc
    · cases hc

theorem Connection.Sound.turn (h : c.Sound) {event : Event}
    (turn : Turn s i c event c' connected) : c'.Sound := by
  cases turn with
  | ignore => exact h
  | @lookUp _ d hp hcert hne =>
    constructor
    · rintro k (hk | hk | ⟨_, hk⟩)
      · exact h.named k (Or.inl hk)
      · cases hk
        exact ⟨hcert, hne⟩
      · cases hk
    · rintro (hc | ⟨_, _, hc⟩)
      · cases hc
      · cases hc
  | reject _ =>
    constructor
    · rintro k (hk | hk | ⟨_, hk⟩)
      · exact h.named k (Or.inl hk)
      · cases hk
      · cases hk
    · exact fun _ => rfl
  | @query _ d found hp _ =>
    constructor
    · rintro k (hk | hk | ⟨_, hk⟩)
      · exact h.named k (Or.inl hk)
      · cases hk
      · cases hk
        exact h.named _ (Or.inr (Or.inl hp))
    · rintro (hc | ⟨_, _, hc⟩)
      · cases hc
      · cases hc
  | @register d delegate hp =>
    constructor
    · rintro k (hk | hk | ⟨_, hk⟩)
      · cases hk
        exact h.named _ (Or.inr (Or.inr ⟨_, hp⟩))
      · cases hk
      · cases hk
    · rintro (hc | ⟨_, _, hc⟩)
      · cases hc
      · cases hc
  | finish =>
    constructor
    · rintro k (hk | hk | ⟨_, hk⟩)
      · exact h.named k (Or.inl hk)
      · cases hk
      · cases hk
    · exact fun _ => rfl

theorem Connection.Sound.evolves (h : c.Sound) {j : Nat} (hev : Evolves s a j c c') :
    c'.Sound := by
  rcases hev with rfl | rfl | ⟨_, _, _, turn⟩
  · exact h
  · exact h.close
  · exact h.turn turn

/-- A live connection accepted as `d`. -/
def Serves (connections : List Connection) (d : String) (j : Nat) : Prop :=
  ∃ c, connections[j]? = some c ∧ c.delegateId = some d ∧ c.point ≠ .finished

theorem Serves.set {d : String} {j : Nat} (h : Serves s.connections d j)
    (hc : s.connections[i]? = some c)
    (goes : j = i → c'.delegateId = some d ∧ c'.point ≠ .finished) :
    Serves (s.connections.set i c') d j := by
  obtain ⟨x, hx, hid, hlive⟩ := h
  by_cases hij : j = i
  · subst hij
    exact ⟨c', List.getElem?_set_self (List.getElem?_eq_some_iff.mp hc).1, goes rfl⟩
  · exact ⟨x, (List.getElem?_set_ne (Ne.symm hij)).trans hx, hid, hlive⟩

/-- The entries after a step of a handler are of live connections. -/
theorem turn_entries (hs : s.Sound) (hc : s.connections[i]? = some c) {event : Event}
    (turn : Turn s i c event c' connected) {d : String} {j : Nat}
    (hj : websocketOf connected d = some j) : Serves (s.connections.set i c') d j := by
  have old (hj : websocketOf s.connected d = some j) : Serves s.connections d j :=
    hs.entries d j hj
  have own (hj : websocketOf s.connected d = some j) (hij : j = i) : c.delegateId = some d := by
    obtain ⟨x, hx, hid, -⟩ := old hj
    obtain rfl := Option.some.inj (hx.symm.trans (hij ▸ hc))
    exact hid
  cases turn with
  | ignore =>
    refine (old hj).set hc fun hij => ⟨own hj hij, ?_⟩
    obtain ⟨x, hx, -, hlive⟩ := old hj
    obtain rfl := Option.some.inj (hx.symm.trans (hij ▸ hc))
    exact hlive
  | lookUp => exact (old hj).set hc fun hij => ⟨own hj hij, by simp⟩
  | reject => exact (old hj).set hc fun hij => ⟨own hj hij, by simp⟩
  | query => exact (old hj).set hc fun hij => ⟨own hj hij, by simp⟩
  | @register d' delegate hp =>
    rw [websocketOf_put] at hj
    split at hj
    · rename_i hd
      cases hj
      exact ⟨_, List.getElem?_set_self (List.getElem?_eq_some_iff.mp hc).1, congrArg some hd,
        by simp⟩
    · rename_i hd
      refine (old hj).set hc fun hij => False.elim (hd ?_)
      -- the certificate names one id only
      have hsound := hs.connections i c hc
      have hcert := (hsound.named d (Or.inl (own hj hij))).1
      have hcert' := (hsound.named d' (Or.inr (Or.inr ⟨_, hp⟩))).1
      exact Option.some.inj (hcert'.symm.trans hcert)
  | finish =>
    obtain ⟨hj, hother⟩ := unregister_some.mp hj
    refine (old hj).set hc fun hij => False.elim (hother ⟨hij, own hj hij, ?_⟩)
    exact ((hs.connections i c hc).named d (Or.inl (own hj hij))).2

theorem Serves.close {d : String} {j : Nat} (h : Serves s.connections d j) :
    Serves (closeWebsocket s.connections i) d j := by
  obtain ⟨x, hx, hid, hlive⟩ := h
  refine ⟨_, closeWebsocket_getElem? hx, ?_⟩
  split
  · exact ⟨hid, hlive⟩
  · exact ⟨hid, hlive⟩

theorem entries_moves (hs : s.Sound) (h : Moves s a t o) {d : String} {j : Nat}
    (hj : websocketOf t.connected d = some j) : Serves t.connections d j := by
  cases h with
  | connect =>
    obtain ⟨x, hx, hserves⟩ := hs.entries d j hj
    exact ⟨x, (List.getElem?_append_left (List.getElem?_eq_some_iff.mp hx).1).trans hx, hserves⟩
  | drop => exact Serves.close (hs.entries d j hj)
  | handler hc turn => exact turn_entries hs hc turn hj
  | disconnect _ =>
    rw [websocketOf_erase] at hj
    split at hj
    · cases hj
    · exact Serves.close (hs.entries d j hj)
  | _ => exact hs.entries d j hj

theorem writing_moves (h : Moves s a t o) {d : String} {j : Nat}
    (hmem : .writing d j ∈ t.tasks) :
    .writing d j ∈ s.tasks ∨ websocketOf s.connected d = some j := by
  cases h with
  | answer hnew => exact hnew d j hmem
  | disconnect _ => exact Or.inl (by simpa using hmem)
  | task hkept _ _ => exact Or.inl (hkept d j hmem)
  | _ => exact Or.inl hmem

theorem Gateway.Sound.step (hs : s.Sound) (h : Moves s a t o) : t.Sound where
  connections j c' hc' := by
    rcases connection_before h hc' with ⟨c, hc, hev⟩ | ⟨peercert, -, rfl⟩
    · exact (hs.connections j c hc).evolves hev
    · exact .fresh peercert
  entries d j hj := entries_moves hs h hj
  writing d j hmem := by
    have before : ∃ c, s.connections[j]? = some c ∧ peerCertDelegateId c.peercert = some d := by
      rcases writing_moves h hmem with hmem | hj
      · exact hs.writing d j hmem
      · obtain ⟨c, hc, hid, -⟩ := hs.entries d j hj
        exact ⟨c, hc, ((hs.connections j c hc).named d (Or.inl hid)).1⟩
    obtain ⟨c, hc, hcert⟩ := before
    obtain ⟨c', hc', hev⟩ := connection_moves h hc
    exact ⟨c', hc', hev.peercert ▸ hcert⟩

theorem Gateway.Sound.start (db : DB) : (Gateway.start db).Sound where
  connections i c hc := by simp [Gateway.start] at hc
  entries d i hd := by cases hd
  writing d i hmem := by cases hmem

end Steps

section Runs
variable {db : DB} {as : List Action} {s t : Gateway} {a : Action} {o : List RestartSent}
variable {i j : Nat} {c : Connection} {d : String}

/-- The handler of websocket `i` has looked `d` up while it was an active delegate. -/
def FoundActive (db : DB) (as : List Action) (d : String) (i : Nat) : Prop :=
  ∃ bs s o c delegate, bs ++ [.handler i (.query true)] <+: as ∧
    Run gateway Free (.start db) bs s o ∧ s.connections[i]? = some c ∧ c.point = .lookingUp d ∧
    lookupActiveDelegate s.db d = some delegate

def Connection.Found (c : Connection) (d : String) : Prop :=
  c.delegateId = some d ∨ ∃ delegate, c.point = .lookedUp d (some delegate)

/-- The websocket was written to under the id its certificate names. -/
def ForPeer (connections : List Connection) (r : RestartSent) : Prop :=
  ∃ c, connections[r.websocket]? = some c ∧ peerCertDelegateId c.peercert = some r.delegateId

theorem FoundActive.later (h : FoundActive db as d i) : FoundActive db (as ++ [a]) d i := by
  obtain ⟨bs, s, o, c, delegate, hpre, hfound⟩ := h
  exact ⟨bs, s, o, c, delegate, hpre.trans (List.prefix_append as [a]), hfound⟩

/-- A connection that has found its delegate had done so before, or does it now. -/
theorem found_turn {event : Event} {c' : Connection} {connected : Table Entry.delegateId}
    (turn : Turn s i c event c' connected) (hf : c'.Found d) :
    c.Found d ∨ event = .query true ∧ c.point = .lookingUp d ∧
      ∃ delegate, lookupActiveDelegate s.db d = some delegate := by
  cases turn with
  | ignore => exact Or.inl hf
  | lookUp =>
    rcases hf with hf | ⟨_, hf⟩
    · exact Or.inl (Or.inl hf)
    · cases hf
  | reject =>
    rcases hf with hf | ⟨_, hf⟩
    · exact Or.inl (Or.inl hf)
    · cases hf
  | query hp hfound =>
    rcases hf with hf | ⟨delegate, hf⟩
    · exact Or.inl (Or.inl hf)
    · cases hf
      obtain ⟨rfl, hlookup⟩ := hfound (by simp)
      exact Or.inr ⟨rfl, hp, delegate, hlookup.symm⟩
  | register hp =>
    rcases hf with hf | ⟨_, hf⟩
    · cases hf
      exact Or.inl (Or.inr ⟨_, hp⟩)
    · cases hf
  | finish =>
    rcases hf with hf | ⟨_, hf⟩
    · exact Or.inl (Or.inl hf)
    · cases hf

theorem found_active (h : Run gateway Free (.start db) as s o) :
    ∀ (i : Nat) (c : Connection), s.connections[i]? = some c → ∀ d, c.Found d →
      FoundActive db as d i := by
  refine h.invariant_along
    (fun as s _ => ∀ (i : Nat) (c : Connection), s.connections[i]? = some c → ∀ d, c.Found d →
      FoundActive db as d i) ?_ ?_
  · intro i c hc
    simp [Gateway.start] at hc
  · intro as s o a t o' hr hi _ hs i c' hc' d hf
    have hm := gateway_moves hs
    rcases connection_before hm hc' with ⟨c, hc, hev⟩ | ⟨peercert, -, rfl⟩
    · rcases hev with rfl | rfl | ⟨event, connected, rfl, turn⟩
      · exact (hi i _ hc d hf).later
      · exact (hi i c hc d hf).later
      · rcases found_turn turn hf with hf | ⟨rfl, hp, delegate, hlookup⟩
        · exact (hi i c hc d hf).later
        · exact ⟨as, s, o, c, delegate, List.prefix_refl _, hr, hc, hp, hlookup⟩
    · rcases hf with hf | ⟨_, hf⟩
      · cases hf
      · cases hf

theorem sound_run (h : Run gateway Free (.start db) as s o) : s.Sound :=
  h.state_invariant Gateway.Sound (.start db) (fun hs _ step => hs.step (gateway_moves step))

theorem sent_moves {r : RestartSent} (h : Moves s a t o) (hr : r ∈ o) :
    .writing r.delegateId r.websocket ∈ s.tasks := by
  cases h with
  | task _ _ hsent => exact hsent r hr
  | _ => cases hr

theorem sent_run (h : Run gateway Free (.start db) as s o) :
    ∀ r ∈ o, ForPeer s.connections r := by
  have both : s.Sound ∧ ∀ r ∈ o, ForPeer s.connections r := by
    refine h.invariant (fun s o => s.Sound ∧ ∀ r ∈ o, ForPeer s.connections r)
      ⟨.start db, by simp⟩ ?_
    rintro s o a t o' ⟨hs, ho⟩ _ step
    have hm := gateway_moves step
    refine ⟨hs.step hm, fun r hr => ?_⟩
    have before : ForPeer s.connections r := by
      rcases List.mem_append.mp hr with hr | hr
      · exact ho r hr
      · exact hs.writing _ _ (sent_moves hm hr)
    obtain ⟨c, hc, hcert⟩ := before
    obtain ⟨c', hc', hev⟩ := connection_moves hm hc
    exact ⟨c', hc', hev.peercert ▸ hcert⟩
  exact both.2

/-- A handler that ends leaves the entries of other websockets. -/
theorem turn_keeps {event : Event} {c' : Connection} {connected : Table Entry.delegateId}
    (turn : Turn s i c event c' connected) (hf : c'.point = .finished) (hne : j ≠ i)
    (hj : websocketOf s.connected d = some j) : websocketOf connected d = some j := by
  cases turn with
  | ignore => exact hj
  | finish => exact unregister_some.mpr ⟨hj, fun own => hne own.1⟩
  | _ => cases hf

/-- In every reachable state an entry of the map is of a live connection whose
certificate names its id, and whose handler has found that id active; a RESTART
only ever went to a peer authenticated as the delegate; a handler that ends
takes no other websocket's entry with it. -/
theorem connected_authenticated (h : Run gateway Free (.start db) as s o) :
    (∀ d i, websocketOf s.connected d = some i → ∃ c, s.connections[i]? = some c ∧
      peerCertDelegateId c.peercert = some d ∧ FoundActive db as d i ∧ c.point ≠ .finished) ∧
    (∀ r ∈ o, ForPeer s.connections r) ∧
    ∀ i event t o' c d j, gateway.step s (.handler i event) = some (t, o') →
      t.connections[i]? = some c → c.point = .finished → j ≠ i →
      websocketOf s.connected d = some j → websocketOf t.connected d = some j := by
  have hs := sound_run h
  refine ⟨?_, sent_run h, ?_⟩
  · intro d i hd
    obtain ⟨c, hc, hid, hlive⟩ := hs.entries d i hd
    exact ⟨c, hc, ((hs.connections i c hc).named d (Or.inl hid)).1,
      found_active h i c hc d (Or.inl hid), hlive⟩
  · intro i event t o' c d j step hc hf hne hj
    cases gateway_moves step with
    | @handler _ x x' _ connected hx turn =>
      have hxc : x' = c := by
        simpa [List.getElem?_set_self (List.getElem?_eq_some_iff.mp hx).1] using hc
      exact turn_keeps turn (hxc ▸ hf) hne hj
    | answer _ => exact hj

def smallId : String := "00000000-0000-0000-0000-000000000001"

def smallCert : Subject := [[("commonName", smallId)]]

def hello (delegateId : String) : Message :=
  some (.dict [("type", .str "HELLO"), ("delegate_id", .str delegateId)])

def registerSmall : Action := .register [("tenant_id", "acme"), ("name", "delegate")] 1 1

/-- The peer of websocket `i` says HELLO, up to the answer of the database. -/
def greets (i : Nat) : List Action :=
  [.connect (some smallCert), .handler i (.receive (hello smallId)), .handler i (.query true)]

/-- The second websocket takes the entry over before the first one is gone. -/
def reconnects : List Action :=
  [registerSmall] ++ greets 0 ++ [.handler 0 .resume] ++ greets 1 ++ [.handler 1 .resume] ++
    [.drop 0, .handler 0 .ended, .sendRestart smallId, .task 0 true]

/-- The second websocket has the entry and has been written to. -/
def secondServes (s : Gateway) (o : List RestartSent) : Bool :=
  decide (websocketOf s.connected smallId = some 1) && decide (o = [⟨1, smallId⟩])

theorem reconnects_secondServes :
    (replay gateway (.start DB.empty) reconnects).any (fun r => secondServes r.1 r.2) = true := by
  decide +kernel

theorem reconnects_authenticated :
    ∃ s c, Run gateway Free (.start DB.empty) reconnects s [⟨1, smallId⟩] ∧
      websocketOf s.connected smallId = some 1 ∧ s.connections[1]? = some c ∧
      peerCertDelegateId c.peercert = some smallId ∧
      FoundActive DB.empty reconnects smallId 1 ∧ c.point ≠ .finished := by
  obtain ⟨s, o, h, hserves⟩ := run_of_replay_test reconnects_secondServes
  simp only [secondServes, Bool.and_eq_true, decide_eq_true_eq] at hserves
  obtain ⟨hentry, rfl⟩ := hserves
  obtain ⟨c, hc, hcert, hfound, hlive⟩ := (connected_authenticated h).1 smallId 1 hentry
  exact ⟨s, c, h, hentry, hc, hcert, hfound, hlive⟩

end Runs

end RestartGateway
