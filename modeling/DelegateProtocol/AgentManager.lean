import DelegateProtocol.RestartGateway

/-!
# The agent manager and the control endpoint

The gateway is asked to act by the requests of its control endpoint, and its
peers are the agent managers: each dials out with the certificate of its
delegate, says HELLO, and restarts the containers of the delegate for every
RESTART it receives. A websocket keeps its number after an end has left it, and
what is on its way there by then is never read.
-/

namespace AgentManager

open KeyedTable Models RestartGateway StepMachine
open JsonBodies (Json)

/-- What follows a marker that a path starts with. -/
def after (marker path : String) : Option String :=
  if marker.toList.isPrefixOf path.toList then
    some (String.ofList (path.toList.drop marker.toList.length))
  else none

inductive Route where
  | restart (delegateId : String)
  | disconnect (delegateId : String)
  deriving DecidableEq

/-- The paths `do_POST` knows. -/
def route (path : String) : Option Route :=
  match after "/restart/" path with
  | some delegateId => some (.restart delegateId)
  | none => (after "/disconnect/" path).map .disconnect

structure Response where
  code : Nat
  body : Option Json

/-- The coroutine a request starts, up to its first await. -/
def Route.start (s : Gateway) : Route → Gateway
  | .restart delegateId => sendRestart s delegateId
  | .disconnect delegateId => RestartGateway.disconnect s delegateId

/-- The response to what the coroutine has returned. -/
def Route.response (done : Bool) : Route → Response
  | .restart _ => ⟨if done then 200 else 404, some (.dict [("sent", .bool done)])⟩
  | .disconnect _ => ⟨200, some (.dict [("disconnected", .bool done)])⟩

/-- A request has no response when its coroutine raises, or takes longer than
five seconds. -/
inductive Progress where
  | waiting
  | answered (response : Response)
  | broken

/-- The requests that have started a coroutine, each beside the task of it. -/
structure Request where
  route : Route
  progress : Progress

structure Endpoint where
  gateway : Gateway
  requests : List Request

def Endpoint.start (db : DB) : Endpoint := ⟨.start db, []⟩

/-- A RESTART, with the request it was written for. -/
structure Told where
  request : Nat
  restart : RestartSent
  deriving DecidableEq

inductive Call where
  | post (path : String)
  | reply (k : Nat)
  | timeout (k : Nat)
  | gateway (action : Action)
  | crash

/-- The request whose coroutine takes a step. -/
def request : Action → Nat
  | .task k _ => k
  | _ => 0

/-- Only requests start the coroutines of the endpoint. -/
def startsTask : Action → Bool
  | .sendRestart _ => true
  | .disconnect _ => true
  | _ => false

/-- The process ends, and another one starts with the same database. -/
def crashed (s : Gateway) : Gateway where
  db := s.db
  connections := s.connections.map Connection.finish
  connected := KeyedTable.empty _
  tasks := s.tasks.map (fun _ => .raised)

def Request.fail (r : Request) : Request :=
  match r.progress with
  | .waiting => { r with progress := .broken }
  | _ => r

/-- `future.result(timeout=5)`, once the coroutine has ended. -/
def Request.result (r : Request) : Task → Option Request
  | .returned done => some { r with progress := .answered (r.route.response done) }
  | .raised => some { r with progress := .broken }
  | _ => none

def endpoint : Machine Endpoint Call Told where
  step s call :=
    match call with
    | .post path =>
      match route path with
      | none => some (s, [])
      | some r => some (⟨r.start s.gateway, s.requests ++ [⟨r, .waiting⟩]⟩, [])
    | .reply k =>
      match s.requests[k]?, s.gateway.tasks[k]? with
      | some ⟨r, .waiting⟩, some task =>
        (Request.result ⟨r, .waiting⟩ task).map
          (fun done => ({ s with requests := s.requests.set k done }, []))
      | _, _ => none
    | .timeout k =>
      match s.requests[k]? with
      | none => none
      | some r => some ({ s with requests := s.requests.set k r.fail }, [])
    | .gateway action =>
      if startsTask action then none
      else (gateway.step s.gateway action).map
        (fun p => ({ s with gateway := p.1 }, p.2.map (fun sent => ⟨request action, sent⟩)))
    | .crash => some (⟨crashed s.gateway, s.requests.map Request.fail⟩, [])

/-- What an agent manager finds in its mount of the certificate directory: the
id in `identity.json` and the subject of the certificate it presents. -/
structure Identity where
  delegateId : String
  subject : Subject

/-- Where `run` awaits; in a thread it asks for the containers of the delegate and
restarts one after the other. -/
inductive Place where
  | connecting
  | greeting (websocket : Nat)
  | listening (websocket : Nat)
  | listing (websocket : Nat)
  | restarting (websocket : Nat) (containers : List String)
  | sleeping
  deriving DecidableEq

/-- The containers with the label of the delegate. -/
structure Containers where
  names : List String
  distinct : names.Nodup

/-- What lets `run` go on; `false` and `none` where something is raised. A process
that is killed is started again. -/
inductive AgentEvent where
  | connect (ok : Bool)
  | send (ok : Bool)
  | receive
  | ended (orderly : Bool)
  | list (found : Option Containers)
  | restart (ok : Bool)
  | wake
  | killed

/-- Whether a message is a RESTART; `none` when that raises. -/
def commanded (message : Message) : Option Bool :=
  match message with
  | some (.dict fields) =>
    match fields.lookup "type" with
    | some (.str "RESTART") => some true
    | _ => some false
  | _ => none

def restartMessage : Message := some (.dict [("type", .str "RESTART")])

/-- The end of a websocket that is not the gateway's: what its peer has shown, the
agent manager that is the peer, and the messages on their way. -/
structure Wire where
  peercert : Option Subject
  agent : Option Nat
  up : List Message
  down : List Message

structure Channel where
  endpoint : Endpoint
  places : List Place
  wires : List Wire

inductive Seen where
  | sent (told : Told)
  | received (agent : Nat)
  | restarted (agent : Nat) (container : String)
  deriving DecidableEq

def Channel.start (identities : List Identity) (db : DB) : Channel :=
  ⟨.start db, identities.map (fun _ => .connecting), []⟩

/-- A websocket is opened at both ends. -/
def Channel.open (s : Channel) (peercert : Option Subject) (agent : Option Nat) : Channel where
  endpoint := { s.endpoint with
    gateway := { s.endpoint.gateway with
      connections := s.endpoint.gateway.connections ++ [⟨peercert, none, .receiving, true⟩] } }
  places := s.places
  wires := s.wires ++ [⟨peercert, agent, [], []⟩]

def Channel.setWire (s : Channel) (i : Nat) (w : Wire) : Channel :=
  { s with wires := s.wires.set i w }

/-- One turn of agent manager `k`, which goes on at a place. -/
def agentStep (identity : Identity) (s : Channel) (k : Nat) (place : Place) (event : AgentEvent) :
    Option (Place × Channel × List Seen) :=
  match place, event with
  | .connecting, .connect ok =>
    if ok then
      some (.greeting s.endpoint.gateway.connections.length,
        s.open (some identity.subject) (some k), [])
    else some (.sleeping, s, [])
  | .greeting i, .send ok =>
    match s.wires[i]? with
    | none => none
    | some w =>
      if ok then
        some (.listening i, s.setWire i { w with up := w.up ++ [hello identity.delegateId] }, [])
      else some (.sleeping, s, [])
  | .listening i, .receive =>
    match s.wires[i]? with
    | none => none
    | some w =>
      match w.down with
      | [] => none
      | message :: down =>
        match commanded message with
        | none => some (.sleeping, s.setWire i { w with down := down }, [])
        | some false => some (.listening i, s.setWire i { w with down := down }, [])
        | some true => some (.listing i, s.setWire i { w with down := down }, [.received k])
  -- the loop over the messages ends or raises, as the websocket was closed
  | .listening _, .ended orderly => some (if orderly then .connecting else .sleeping, s, [])
  | .listing i, .list found =>
    match found with
    | none => some (.sleeping, s, [])
    | some containers =>
      -- no container is an error as well
      some (if containers.names = [] then .sleeping else .restarting i containers.names, s, [])
  | .restarting i (container :: rest), .restart ok =>
    if ok then
      some (if rest = [] then .listening i else .restarting i rest, s, [.restarted k container])
    else some (.sleeping, s, [.restarted k container])
  | .sleeping, .wake => some (.connecting, s, [])
  | _, .killed => some (.connecting, s, [])
  | _, _ => none

inductive Act where
  | agent (k : Nat) (event : AgentEvent)
  | deliver (i : Nat)
  | stranger (peercert : Option Subject)
  | call (call : Call)

/-- A RESTART is on its way to the peer. -/
def write (wires : List Wire) (told : Told) : List Wire :=
  wires.modify told.restart.websocket (fun w => { w with down := w.down ++ [restartMessage] })

/-- What reaches the handler of an agent manager's websocket is what that one has
sent; other peers send anything. Connections come from peers. -/
def allowed (wires : List Wire) : Call → Bool
  | .gateway (.connect _) => false
  | .gateway (.handler i (.receive _)) =>
    match wires[i]? with
    | some w => w.agent.isNone
    | none => false
  | _ => true

def channel (identities : List Identity) : Machine Channel Act Seen where
  step s act :=
    match act with
    | .agent k event =>
      match identities[k]?, s.places[k]? with
      | some identity, some place =>
        (agentStep identity s k place event).map
          (fun r => ({ r.2.1 with places := s.places.set k r.1 }, r.2.2))
      | _, _ => none
    | .deliver i =>
      match s.wires[i]? with
      | some ⟨peercert, some k, message :: up, down⟩ =>
        (endpoint.step s.endpoint (.gateway (.handler i (.receive message)))).map
          (fun r => ({ s.setWire i ⟨peercert, some k, up, down⟩ with endpoint := r.1 }, []))
      | _ => none
    | .stranger peercert => some (s.open peercert none, [])
    | .call call =>
      if allowed s.wires call then
        (endpoint.step s.endpoint call).map
          (fun r => (⟨r.1, s.places, r.2.foldl write s.wires⟩, r.2.map .sent))
      else none

end AgentManager
