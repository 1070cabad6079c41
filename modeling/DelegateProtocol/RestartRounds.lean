import DelegateProtocol.RestartChannel

/-!
# Rounds of restarts

A RESTART is counted where it is: in the task that is to write it, on its way
down a websocket, or received. The count goes up with a request only, so the
agent managers of a delegate never begin more rounds than were requested for it.
-/

namespace RestartRounds

open AgentManager KeyedTable Models RestartChannel RestartGateway Runtime StepMachine

/-- A turn of agent manager `k`. -/
inductive AgentTurn (identity : Identity) (s : Channel) (k : Nat) :
    Place → AgentEvent → Place → Channel → List Seen → Prop
  | connect : AgentTurn identity s k .connecting (.connect true)
      (.greeting s.endpoint.gateway.connections.length) (s.open (some identity.subject) (some k)) []
  | greet {i : Nat} {w : Wire} : s.wires[i]? = some w →
      AgentTurn identity s k (.greeting i) (.send true) (.listening i)
        (s.setWire i { w with up := w.up ++ [hello identity.delegateId] }) []
  | skip {i : Nat} {w : Wire} {message : Message} {down : List Message} {place : Place} :
      s.wires[i]? = some w → w.down = message :: down → commanded message ≠ some true →
      place = .listening i ∨ place = .sleeping →
      AgentTurn identity s k (.listening i) .receive place (s.setWire i { w with down := down }) []
  | command {i : Nat} {w : Wire} {message : Message} {down : List Message} :
      s.wires[i]? = some w → w.down = message :: down → commanded message = some true →
      AgentTurn identity s k (.listening i) .receive (.listing i)
        (s.setWire i { w with down := down }) [.received k]
  | list {i : Nat} {containers : Containers} : containers.names ≠ [] →
      AgentTurn identity s k (.listing i) (.list (some containers))
        (.restarting i containers.names) s []
  | restart {i : Nat} {container : String} {rest : List String} {ok : Bool} {place : Place} :
      place = .sleeping ∨ place = .listening i ∨ rest ≠ [] ∧ place = .restarting i rest →
      AgentTurn identity s k (.restarting i (container :: rest)) (.restart ok) place s
        [.restarted k container]
  | leave {place place' : Place} {event : AgentEvent} :
      place' = .connecting ∨ place' = .sleeping → AgentTurn identity s k place event place' s []

inductive ChannelMoves (identities : List Identity) (s : Channel) :
    Act → Channel → List Seen → Prop
  | agent {k : Nat} {identity : Identity} {place place' : Place} {event : AgentEvent} {s' : Channel}
      {seen : List Seen} : identities[k]? = some identity → s.places[k]? = some place →
      AgentTurn identity s k place event place' s' seen →
      ChannelMoves identities s (.agent k event) { s' with places := s.places.set k place' } seen
  | deliver {i : Nat} {w : Wire} {k : Nat} {message : Message} {up : List Message} {e : Endpoint} :
      s.wires[i]? = some w → w.agent = some k → w.up = message :: up →
      Calls s.endpoint (.gateway (.handler i (.receive message))) e [] →
      ChannelMoves identities s (.deliver i)
        { s.setWire i { w with up := up } with endpoint := e } []
  | stranger {peercert : Option Subject} :
      ChannelMoves identities s (.stranger peercert) (s.open peercert none) []
  | call {call : Call} {e : Endpoint} {told : List Told} : allowed s.wires call = true →
      Calls s.endpoint call e told →
      ChannelMoves identities s (.call call) ⟨e, s.places, told.foldl write s.wires⟩
        (told.map .sent)

section Steps
variable {identities : List Identity} {s s' t : Channel} {act : Act} {seen : List Seen}
variable {identity : Identity} {k : Nat} {place place' : Place} {event : AgentEvent}

theorem agentStep_turn (h : agentStep identity s k place event = some (place', s', seen)) :
    AgentTurn identity s k place event place' s' seen := by
  unfold agentStep at h
  split at h
  case h_1 ok =>
    split at h
    · rename_i hok
      cases h
      subst hok
      exact .connect
    · cases h
      exact .leave (Or.inr rfl)
  case h_2 i ok =>
    split at h
    · cases h
    · rename_i w hw
      split at h
      · rename_i hok
        cases h
        subst hok
        exact .greet hw
      · cases h
        exact .leave (Or.inr rfl)
  case h_3 i =>
    split at h
    · cases h
    · rename_i w hw
      split at h
      · cases h
      · rename_i message down hdown
        split at h
        · rename_i hc
          cases h
          exact .skip hw hdown (by simp [hc]) (Or.inr rfl)
        · rename_i hc
          cases h
          exact .skip hw hdown (by simp [hc]) (Or.inl rfl)
        · rename_i hc
          cases h
          exact .command hw hdown hc
  case h_4 i orderly =>
    cases h
    cases orderly with
    | true => exact .leave (Or.inl rfl)
    | false => exact .leave (Or.inr rfl)
  case h_5 i found =>
    split at h
    · cases h
      exact .leave (Or.inr rfl)
    · rename_i containers
      cases h
      by_cases hempty : containers.names = []
      · rw [if_pos hempty]
        exact .leave (Or.inr rfl)
      · rw [if_neg hempty]
        exact .list hempty
  case h_6 i container rest ok =>
    split at h
    · cases h
      by_cases hempty : rest = []
      · rw [if_pos hempty]
        exact .restart (Or.inr (Or.inl rfl))
      · rw [if_neg hempty]
        exact .restart (Or.inr (Or.inr ⟨hempty, rfl⟩))
    · cases h
      exact .restart (Or.inl rfl)
  case h_7 =>
    cases h
    exact .leave (Or.inl rfl)
  case h_8 =>
    cases h
    exact .leave (Or.inl rfl)
  case h_9 => cases h

/-- What a handler does with a message tells nothing. -/
theorem receive_calls {e e' : Endpoint} {i : Nat} {message : Message} {told : List Told}
    (h : endpoint.step e (.gateway (.handler i (.receive message))) = some (e', told)) :
    Calls e (.gateway (.handler i (.receive message))) e' [] := by
  have hcalls := endpoint_calls h
  cases hcalls with
  | gateway hstarts hstep =>
    rcases gateway_tasks hstarts hstep with ⟨_, _, _, _, _, he, _⟩ | ⟨-, rfl⟩
    · cases he
    · exact .gateway hstarts hstep

theorem channel_moves (h : (channel identities).step s act = some (t, seen)) :
    ChannelMoves identities s act t seen := by
  cases act with
  | agent k event =>
    simp only [channel] at h
    split at h
    · rename_i identity place hk hplace
      obtain ⟨⟨place', s', seen'⟩, hstep, he⟩ := Option.map_eq_some_iff.mp h
      cases he
      exact .agent hk hplace (agentStep_turn hstep)
    · cases h
  | deliver i =>
    simp only [channel] at h
    split at h
    · rename_i peercert k message up down hw
      obtain ⟨⟨e, told⟩, hstep, he⟩ := Option.map_eq_some_iff.mp h
      cases he
      exact .deliver (w := ⟨peercert, some k, message :: up, down⟩) hw rfl rfl (receive_calls hstep)
    · cases h
  | stranger peercert =>
    cases h
    exact .stranger
  | call call =>
    simp only [channel] at h
    split at h
    · rename_i hallowed
      obtain ⟨⟨e, told⟩, hstep, he⟩ := Option.map_eq_some_iff.mp h
      cases he
      exact .call hallowed (endpoint_calls hstep)
    · cases h

end Steps

def websocket : Place → Option Nat
  | .greeting i => some i
  | .listening i => some i
  | .listing i => some i
  | .restarting i _ => some i
  | _ => none

/-- Both ends know of one certificate, and an agent manager is at websockets of
its own. -/
structure Wired (identities : List Identity) (s : Channel) : Prop where
  certs : s.wires.map Wire.peercert = s.endpoint.gateway.connections.map Connection.peercert
  places : ∀ (k : Nat) (place : Place) i, s.places[k]? = some place → websocket place = some i →
    ∃ w identity, s.wires[i]? = some w ∧ w.agent = some k ∧ identities[k]? = some identity ∧
      w.peercert = some identity.subject

section Wires
variable {identities : List Identity} {s s' t : Channel} {act : Act} {seen : List Seen}
variable {identity : Identity} {k i : Nat} {place place' : Place} {event : AgentEvent} {w : Wire}

/-- Two ends of one list of websockets. -/
theorem Wired.cert (h : Wired identities s) {c : Connection} (hw : s.wires[i]? = some w)
    (hc : s.endpoint.gateway.connections[i]? = some c) : w.peercert = c.peercert := by
  have hget := congrArg (fun l => l[i]?) h.certs
  simpa [List.getElem?_map, hw, hc] using hget

/-- The wires stay with their peers. -/
def Same (wires wires' : List Wire) : Prop :=
  wires'.map Wire.peercert = wires.map Wire.peercert ∧ wires'.map Wire.agent = wires.map Wire.agent

theorem Same.refl (wires : List Wire) : Same wires wires := ⟨rfl, rfl⟩

theorem Same.trans {wires wires' wires'' : List Wire} (h : Same wires wires')
    (h' : Same wires' wires'') : Same wires wires'' :=
  ⟨h'.1.trans h.1, h'.2.trans h.2⟩

theorem Same.wire {wires wires' : List Wire} (h : Same wires wires') (hw : wires[i]? = some w) :
    ∃ w', wires'[i]? = some w' ∧ w'.peercert = w.peercert ∧ w'.agent = w.agent := by
  have hcert := congrArg (fun l => l[i]?) h.1
  have hagent := congrArg (fun l => l[i]?) h.2
  simp only [List.getElem?_map, hw, Option.map_some] at hcert hagent
  obtain ⟨w', hw', hc⟩ := Option.map_eq_some_iff.mp hcert
  rw [hw', Option.map_some, Option.some.injEq] at hagent
  exact ⟨w', hw', hc, hagent⟩

theorem map_set_same {α β : Type} {f : α → β} {l : List α} {x y : α} (hx : l[i]? = some x)
    (hf : f y = f x) : (l.set i y).map f = l.map f := by
  apply List.ext_getElem?
  intro j
  rw [List.getElem?_map, List.getElem?_map]
  by_cases hij : i = j
  · subst hij
    rw [List.getElem?_set_self (List.getElem?_eq_some_iff.mp hx).1, hx]
    exact congrArg some hf
  · rw [List.getElem?_set_ne hij]

theorem same_set {wires : List Wire} {w' : Wire} (hw : wires[i]? = some w)
    (hcert : w'.peercert = w.peercert) (hagent : w'.agent = w.agent) :
    Same wires (wires.set i w') :=
  ⟨map_set_same hw hcert, map_set_same hw hagent⟩

/-- The wire that is written to, if there is one. -/
theorem write_cases (wires : List Wire) (told : Told) : write wires told = wires ∧
      wires[told.restart.websocket]? = none ∨
    ∃ w, wires[told.restart.websocket]? = some w ∧ write wires told =
      wires.set told.restart.websocket { w with down := w.down ++ [restartMessage] } := by
  unfold write
  rw [List.modify_eq_set_getElem?]
  cases hw : wires[told.restart.websocket]? with
  | none => exact Or.inl ⟨rfl, rfl⟩
  | some w => exact Or.inr ⟨w, rfl, rfl⟩

theorem same_write (wires : List Wire) (told : Told) : Same wires (write wires told) := by
  rcases write_cases wires told with ⟨he, -⟩ | ⟨w, hw, he⟩
  · rw [he]
    exact .refl wires
  · rw [he]
    exact same_set hw rfl rfl

theorem same_writes (wires : List Wire) (told : List Told) :
    Same wires (told.foldl write wires) := by
  induction told generalizing wires with
  | nil => exact .refl wires
  | cons x told ih => exact (same_write wires x).trans (ih _)

/-- Nothing is opened, and agent manager `k` stays where it is or leaves. -/
theorem Wired.keep (h : Wired identities s) (hsame : Same s.wires t.wires)
    (hcerts : t.endpoint.gateway.connections.map Connection.peercert =
      s.endpoint.gateway.connections.map Connection.peercert)
    (hplaces : ∀ (k : Nat) (place : Place) i, t.places[k]? = some place →
      websocket place = some i →
      ∃ place', s.places[k]? = some place' ∧ websocket place' = some i) : Wired identities t where
  certs := hsame.1.trans (h.certs.trans hcerts.symm)
  places k place i hplace hi := by
    obtain ⟨place', hplace', hi'⟩ := hplaces k place i hplace hi
    obtain ⟨w, identity, hw, hagent, hk, hcert⟩ := h.places k place' i hplace' hi'
    obtain ⟨w', hw', hcert', hagent'⟩ := hsame.wire hw
    exact ⟨w', identity, hw', hagent'.trans hagent, hk, hcert'.trans hcert⟩

theorem Wired.length (h : Wired identities s) :
    s.wires.length = s.endpoint.gateway.connections.length := by
  simpa using congrArg List.length h.certs

/-- The peer of a new websocket is at it, if it is an agent manager. -/
theorem Wired.open (h : Wired identities s) {peercert : Option Subject} {agent : Option Nat}
    {places : List Place} (hplaces : ∀ (k : Nat) (place : Place) i, places[k]? = some place →
      websocket place = some i →
      (∃ place', s.places[k]? = some place' ∧ websocket place' = some i) ∨
        i = s.endpoint.gateway.connections.length ∧ agent = some k ∧
          ∃ identity, identities[k]? = some identity ∧ peercert = some identity.subject) :
    Wired identities { s.open peercert agent with places := places } where
  certs := by simp [Channel.open, h.certs]
  places k place i hplace hi := by
    rcases hplaces k place i hplace hi with ⟨place', hplace', hi'⟩ | ⟨rfl, ha, identity, hk, hp⟩
    · obtain ⟨w, identity, hw, hrest⟩ := h.places k place' i hplace' hi'
      refine ⟨w, identity, ?_, hrest⟩
      exact (List.getElem?_append_left (List.getElem?_eq_some_iff.mp hw).1).trans hw
    · refine ⟨⟨peercert, agent, [], []⟩, identity, ?_, ha, hk, hp⟩
      simp only [Channel.open]
      rw [← h.length]
      exact List.getElem?_concat_length

/-- A turn that opens nothing leaves the websocket or stays at it. -/
theorem AgentTurn.stays (h : AgentTurn identity s k place event place' s' seen) :
    place = .connecting ∧ place' = .greeting s.endpoint.gateway.connections.length ∧
        s' = s.open (some identity.subject) (some k) ∨
      (websocket place' = none ∨ websocket place' = websocket place) ∧ s'.endpoint = s.endpoint ∧
        Same s.wires s'.wires := by
  cases h with
  | connect => exact Or.inl ⟨rfl, rfl, rfl⟩
  | greet hw => exact Or.inr ⟨Or.inr rfl, rfl, same_set hw rfl rfl⟩
  | skip hw _ _ hplace =>
    refine Or.inr ⟨?_, rfl, same_set hw rfl rfl⟩
    rcases hplace with rfl | rfl
    · exact Or.inr rfl
    · exact Or.inl rfl
  | command hw _ _ => exact Or.inr ⟨Or.inr rfl, rfl, same_set hw rfl rfl⟩
  | list _ => exact Or.inr ⟨Or.inr rfl, rfl, .refl _⟩
  | restart hplace =>
    refine Or.inr ⟨?_, rfl, .refl _⟩
    rcases hplace with rfl | rfl | ⟨-, rfl⟩
    · exact Or.inl rfl
    · exact Or.inr rfl
    · exact Or.inr rfl
  | leave hplace =>
    refine Or.inr ⟨Or.inl ?_, rfl, .refl _⟩
    rcases hplace with rfl | rfl
    · rfl
    · rfl

theorem Wired.step (h : Wired identities s) (hm : ChannelMoves identities s act t seen) :
    Wired identities t := by
  cases hm with
  | @agent k identity place place' event s' seen hk hplace turn =>
    rcases turn.stays with ⟨rfl, rfl, rfl⟩ | ⟨hws, he, hsame⟩
    · refine h.open ?_
      intro j p i hp hi
      rcases getElem?_set_cases hplace hp with ⟨rfl, rfl⟩ | ⟨-, hp⟩
      · obtain rfl := Option.some.inj hi
        exact Or.inr ⟨rfl, rfl, identity, hk, rfl⟩
      · exact Or.inl ⟨p, hp, hi⟩
    · refine h.keep hsame (by rw [he]) ?_
      intro j p i hp hi
      rcases getElem?_set_cases hplace hp with ⟨rfl, rfl⟩ | ⟨-, hp⟩
      · rcases hws with hws | hws
        · rw [hws] at hi
          cases hi
        · exact ⟨place, hplace, hws ▸ hi⟩
      · exact ⟨p, hp, hi⟩
  | deliver hw _ _ hcalls =>
    refine h.keep (same_set hw rfl rfl) (hcalls.certs ?_) (fun k p i hp hi => ⟨p, hp, hi⟩)
    intro peercert he
    cases he
  | stranger =>
    exact h.open (fun k p i hp hi => Or.inl ⟨p, hp, hi⟩)
  | call hallowed hcalls =>
    refine h.keep (same_writes _ _) (hcalls.certs ?_) (fun k p i hp hi => ⟨p, hp, hi⟩)
    rintro peercert rfl
    cases hallowed

theorem Wired.start (db : DB) : Wired identities (.start identities db) where
  certs := rfl
  places k place i hplace hi := by
    simp only [Channel.start, List.getElem?_map, Option.map_eq_some_iff] at hplace
    obtain ⟨_, _, rfl⟩ := hplace
    cases hi

end Wires

def posts (d : String) : Act → Bool
  | .call (.post path) => decide (path = "/restart/" ++ d)
  | _ => false

def toWrite (d : String) : Task → Bool
  | .writing d' _ => decide (d' = d)
  | _ => false

def isFor (d : String) (told : Told) : Bool := decide (told.restart.delegateId = d)

def isRestart (message : Message) : Bool := decide (commanded message = some true)

/-- The RESTARTs on their way to a peer with the certificate of a delegate. -/
def commands (d : String) (w : Wire) : Nat :=
  if peerCertDelegateId w.peercert = some d then w.down.countP isRestart else 0

def onWay (d : String) (wires : List Wire) : Nat := (wires.map (commands d)).sum

/-- Agent manager `k` presents the certificate of the delegate. -/
def certifiedAs (identities : List Identity) (d : String) (k : Nat) : Bool :=
  match identities[k]? with
  | some identity => decide (peerCertDelegateId (some identity.subject) = some d)
  | none => false

def receivedBy (identities : List Identity) (d : String) : Seen → Bool
  | .received k => certifiedAs identities d k
  | _ => false

section Counts
variable {identities : List Identity} {s t : Channel} {act : Act} {seen : List Seen} {d : String}
variable {e e' : Endpoint} {call : Call} {told : List Told} {g : Gateway}

theorem start_pending (r : Route) : (r.start g).tasks.countP (toWrite d) ≤
    g.tasks.countP (toWrite d) + if r = .restart d then 1 else 0 := by
  cases r with
  | restart d' =>
    simp only [Route.start, sendRestart]
    split
    · simp [toWrite]
    · simp [toWrite]
  | disconnect d' =>
    simp only [Route.start, RestartGateway.disconnect]
    split
    · simp [toWrite]
    · simp [toWrite]

/-- The task that writes has been waiting to. -/
theorem task_pending {task task' : Task} {ok : Bool} {db : DB} {sent : List RestartSent}
    (h : taskStep g task ok = some (task', db, sent)) :
    (if toWrite d task' then 1 else 0) + sent.countP (fun r => decide (r.delegateId = d)) ≤
      if toWrite d task then 1 else 0 := by
  cases task with
  | writing d' i =>
    simp only [taskStep] at h
    split at h
    · cases h
    · split at h
      · cases h
        simp [toWrite]
      · cases h
        simp [toWrite]
  | checking d' =>
    simp only [taskStep] at h
    split at h
    · cases h
      simp [toWrite]
    · cases h
      simp [toWrite]
  | auditing delegate =>
    simp only [taskStep] at h
    split at h
    · cases h
      simp [toWrite]
    · cases h
      simp [toWrite]
  | closing i =>
    cases h
    simp [toWrite]
  | returned done => cases h
  | raised => cases h

theorem countP_told {n : Nat} {sent : List RestartSent} :
    (sent.map (fun r => (⟨n, r⟩ : Told))).countP (isFor d) =
      sent.countP (fun r => decide (r.delegateId = d)) := by
  rw [List.countP_map]
  rfl

/-- A call writes what was waiting, and only a request adds to that. -/
theorem pending_calls (h : Calls e call e' told) :
    e'.gateway.tasks.countP (toWrite d) + told.countP (isFor d) ≤
      e.gateway.tasks.countP (toWrite d) + if posts d (.call call) then 1 else 0 := by
  cases h with
  | unknown _ => simp
  | @post path r hr =>
    have hstart := start_pending (g := e.gateway) (d := d) r
    have hposts : posts d (.call (.post path)) = decide (r = .restart d) := by
      rw [posts, decide_eq_decide, ← route_restart, hr, Option.some.injEq]
    rw [hposts]
    simpa using hstart
  | reply _ _ _ => simp
  | timeout _ => simp
  | gateway hstarts hstep =>
    rw [countP_told]
    rcases gateway_tasks hstarts hstep with
      ⟨k, ok, task, task', db, -, hk, hs, htasks, -⟩ | ⟨htasks, rfl⟩
    · have hlt := (List.getElem?_eq_some_iff.mp hk).1
      have hget : e.gateway.tasks[k] = task := (List.getElem?_eq_some_iff.mp hk).2
      have hone := task_pending (d := d) hs
      have hpos : (if toWrite d task then 1 else 0) ≤ e.gateway.tasks.countP (toWrite d) := by
        split
        · rename_i hw
          exact List.countP_pos_iff.mpr ⟨task, List.mem_of_getElem? hk, hw⟩
        · exact Nat.zero_le _
      change List.countP _ _ + _ ≤ _
      rw [htasks, List.countP_set hlt, hget]
      omega
    · rw [htasks]
      simp
  | crash =>
    have hzero : (crashed e.gateway).tasks.countP (toWrite d) = 0 := by
      simp [crashed, List.countP_eq_zero, toWrite]
    change (crashed e.gateway).tasks.countP (toWrite d) + _ ≤ _
    rw [hzero]
    simp

variable {wires : List Wire} {i : Nat} {w w' : Wire}

theorem onWay_set (hw : wires[i]? = some w) :
    onWay d (wires.set i w') + commands d w = onWay d wires + commands d w' :=
  sum_map_set_add hw

theorem onWay_append (peercert : Option Subject) (agent : Option Nat) :
    onWay d (wires ++ [⟨peercert, agent, [], []⟩]) = onWay d wires := by
  simp [onWay, commands]

theorem onWay_write {x : Told} (peer : ∀ w, wires[x.restart.websocket]? = some w →
    peerCertDelegateId w.peercert = some x.restart.delegateId) :
    onWay d (write wires x) ≤ onWay d wires + if isFor d x then 1 else 0 := by
  rcases write_cases wires x with ⟨he, -⟩ | ⟨w, hw, he⟩
  · rw [he]
    exact Nat.le_add_right _ _
  · have hset := @onWay_set d wires _ w { w with down := w.down ++ [restartMessage] } hw
    have hcert := peer w hw
    have hadd : commands d { w with down := w.down ++ [restartMessage] } ≤
        commands d w + if isFor d x then 1 else 0 := by
      simp only [commands, hcert, isFor, Option.some.injEq]
      by_cases hd : x.restart.delegateId = d
      · simp [hd, isRestart, commanded, restartMessage]
      · simp [hd]
    rw [he]
    omega

theorem onWay_writes (peer : ∀ x ∈ told, ∀ w, wires[x.restart.websocket]? = some w →
    peerCertDelegateId w.peercert = some x.restart.delegateId) :
    onWay d (told.foldl write wires) ≤ onWay d wires + told.countP (isFor d) := by
  induction told generalizing wires with
  | nil => simp
  | cons x told ih =>
    have hone := onWay_write (d := d) (peer x (List.mem_cons_self ..))
    have later : ∀ y ∈ told, ∀ w, (write wires x)[y.restart.websocket]? = some w →
        peerCertDelegateId w.peercert = some y.restart.delegateId := by
      intro y hy w' hw'
      have hsame := same_write wires x
      have back : Same (write wires x) wires := ⟨hsame.1.symm, hsame.2.symm⟩
      obtain ⟨w, hw, hcert, -⟩ := back.wire hw'
      rw [← hcert]
      exact peer y (List.mem_cons_of_mem _ hy) w hw
    have hrest := ih later
    rw [List.foldl_cons, List.countP_cons]
    omega

/-- What was written stands for a peer with the certificate of the delegate. -/
theorem told_peer (hw : Wired identities s) (hs : s.endpoint.gateway.Sound)
    (h : Calls s.endpoint call e told) {x : Told} (hx : x ∈ told)
    (hget : s.wires[x.restart.websocket]? = some w) :
    peerCertDelegateId w.peercert = some x.restart.delegateId := by
  cases h with
  | gateway _ hstep =>
    obtain ⟨r, hr, rfl⟩ := List.mem_map.mp hx
    obtain ⟨c, hc, hcert⟩ := hs.writing _ _ (sent_moves (gateway_moves hstep) hr)
    rw [hw.cert hget hc]
    exact hcert
  | _ => cases hx

/-- The RESTARTs there are for a delegate. -/
def outstanding (d : String) (s : Channel) : Nat :=
  onWay d s.wires + s.endpoint.gateway.tasks.countP (toWrite d)

theorem turn_outstanding {identity : Identity} {k : Nat} {place place' : Place}
    {event : AgentEvent} {s' : Channel} (hw : Wired identities s)
    (hk : identities[k]? = some identity) (hplace : s.places[k]? = some place)
    (turn : AgentTurn identity s k place event place' s' seen) :
    seen.countP (receivedBy identities d) + outstanding d s' ≤ outstanding d s := by
  cases turn with
  | connect => simp [outstanding, Channel.open, onWay_append]
  | @greet i w hget =>
    have hset := @onWay_set d s.wires i w { w with up := w.up ++ [hello identity.delegateId] } hget
    simp only [commands] at hset
    simp only [outstanding, Channel.setWire, List.countP_nil]
    omega
  | @skip i w message down _ hget hdown hc _ =>
    have hset := @onWay_set d s.wires i w { w with down := down } hget
    have hless : commands d { w with down := down } ≤ commands d w := by
      simp only [commands, hdown]
      split
      · exact (List.sublist_cons_self message down).countP_le
      · exact le_refl _
    simp only [outstanding, Channel.setWire, List.countP_nil]
    omega
  | @command i w message down hget hdown hc =>
    have hset := @onWay_set d s.wires i w { w with down := down } hget
    obtain ⟨w₁, identity₁, hget₁, -, hk₁, hcert⟩ := hw.places k _ i hplace rfl
    obtain rfl := Option.some.inj (hget.symm.trans hget₁)
    obtain rfl := Option.some.inj (hk.symm.trans hk₁)
    have hreceived : [Seen.received k].countP (receivedBy identities d) +
        commands d { w with down := down } = commands d w := by
      simp only [commands, hdown, List.countP_cons, List.countP_nil, receivedBy, certifiedAs, hk,
        hcert, isRestart, hc]
      by_cases hd : peerCertDelegateId (some identity.subject) = some d
      · simp [hd]
        omega
      · simp [hd]
    simp only [outstanding, Channel.setWire]
    omega
  | list _ => simp
  | restart _ => simp [receivedBy]
  | leave _ => simp

/-- A step receives what there was, and only a request adds to that. -/
theorem outstanding_step (hw : Wired identities s) (hs : s.endpoint.gateway.Sound)
    (hm : ChannelMoves identities s act t seen) :
    seen.countP (receivedBy identities d) + outstanding d t ≤
      outstanding d s + if posts d act then 1 else 0 := by
  cases hm with
  | agent hk hplace turn =>
    have hturn := turn_outstanding (d := d) hw hk hplace turn
    simpa [posts, outstanding] using hturn
  | @deliver i w k message up e hget _ _ hcalls =>
    have hset := @onWay_set d s.wires i w { w with up := up } hget
    have hcall := pending_calls (d := d) hcalls
    simp only [commands] at hset
    simp only [posts, List.countP_nil, Bool.false_eq_true, if_false] at hcall ⊢
    simp only [outstanding, Channel.setWire]
    omega
  | stranger => simp [outstanding, Channel.open, onWay_append, posts]
  | @call call e told _ hcalls =>
    have hcall := pending_calls (d := d) hcalls
    have hwrites := onWay_writes (d := d) (fun x hx w hget => told_peer hw hs hcalls hx hget)
    have hnone : (told.map Seen.sent).countP (receivedBy identities d) = 0 := by
      simp [List.countP_map, List.countP_eq_zero, receivedBy]
    simp only [outstanding]
    omega

theorem sound_step (hs : s.endpoint.gateway.Sound) (hm : ChannelMoves identities s act t seen) :
    t.endpoint.gateway.Sound := by
  have opened (peercert : Option Subject) (agent : Option Nat) :
      (s.open peercert agent).endpoint.gateway.Sound :=
    hs.step (a := .connect peercert) (o := []) .connect
  cases hm with
  | agent _ _ turn =>
    rcases turn.stays with ⟨-, -, rfl⟩ | ⟨-, he, -⟩
    · exact opened _ none
    · change Gateway.Sound (Channel.endpoint _).gateway
      rw [he]
      exact hs
  | deliver _ _ _ hcalls => exact hcalls.sound hs
  | stranger => exact opened _ none
  | call _ hcalls => exact hcalls.sound hs

end Counts

def restartsOf (k : Nat) (container : String) : Seen → Bool
  | .restarted k' container' => decide (k' = k ∧ container' = container)
  | _ => false

def receives (k : Nat) : Seen → Bool
  | .received k' => decide (k' = k)
  | _ => false

/-- The restart of the container that a round still owes it. -/
def owed (container : String) : Place → Nat
  | .listing _ => 1
  | .restarting _ containers => containers.count container
  | _ => 0

/-- A round restarts a container once at most. -/
structure Paced (s : Channel) (o : List Seen) (k : Nat) (container : String) : Prop where
  distinct : ∀ i containers, s.places[k]? = some (.restarting i containers) → containers.Nodup
  paced : ∀ place, s.places[k]? = some place →
    o.countP (restartsOf k container) + owed container place ≤ o.countP (receives k)
  few : o.countP (restartsOf k container) ≤ o.countP (receives k)

section Pace
variable {identities : List Identity} {s s' t : Channel} {act : Act} {seen o : List Seen}
variable {identity : Identity} {k : Nat} {place place' : Place} {event : AgentEvent}
variable {container : String}

theorem Paced.start (db : DB) : Paced (.start identities db) [] k container where
  distinct i containers h := by
    simp only [Channel.start, List.getElem?_map, Option.map_eq_some_iff] at h
    obtain ⟨_, _, he⟩ := h
    cases he
  paced place h := by
    simp only [Channel.start, List.getElem?_map, Option.map_eq_some_iff] at h
    obtain ⟨_, _, rfl⟩ := h
    exact le_refl _
  few := le_refl _

/-- What one turn adds to a round. -/
theorem turn_paced (turn : AgentTurn identity s k place event place' s' seen)
    (distinct : ∀ i containers, place = .restarting i containers → containers.Nodup)
    (paced : o.countP (restartsOf k container) + owed container place ≤ o.countP (receives k))
    (few : o.countP (restartsOf k container) ≤ o.countP (receives k)) :
    (∀ i containers, place' = .restarting i containers → containers.Nodup) ∧
      (o ++ seen).countP (restartsOf k container) + owed container place' ≤
        (o ++ seen).countP (receives k) := by
  cases turn with
  | connect => exact ⟨fun _ _ he => (nomatch he), by simpa [owed] using few⟩
  | greet _ => exact ⟨fun _ _ he => (nomatch he), by simpa [owed] using few⟩
  | skip _ _ _ hplace =>
    rcases hplace with rfl | rfl
    · exact ⟨fun _ _ he => (nomatch he), by simpa [owed] using few⟩
    · exact ⟨fun _ _ he => (nomatch he), by simpa [owed] using few⟩
  | command _ _ _ =>
    refine ⟨fun _ _ he => (nomatch he), ?_⟩
    simpa [owed, restartsOf, receives, List.countP_append] using few
  | @list i containers _ =>
    constructor
    · rintro _ _ he
      cases he
      exact containers.distinct
    · have hone := List.nodup_iff_count_le_one.mp containers.distinct container
      simp only [owed, List.append_nil] at paced ⊢
      omega
  | @restart i first rest ok _ hplace =>
    have hrest : rest.Nodup := (List.nodup_cons.mp (distinct i _ rfl)).2
    have hcount : (first :: rest).count container =
        rest.count container + if first = container then 1 else 0 := by
      rw [List.count_cons]
      simp
    have howed : owed container place' ≤ rest.count container := by
      rcases hplace with rfl | rfl | ⟨-, rfl⟩
      · exact Nat.zero_le _
      · exact Nat.zero_le _
      · exact le_refl _
    constructor
    · rintro _ _ he
      rcases hplace with rfl | rfl | ⟨-, rfl⟩
      · cases he
      · cases he
      · cases he
        exact hrest
    · simp only [owed, hcount] at paced
      simp only [List.countP_append, List.countP_singleton, restartsOf, receives, true_and,
        decide_eq_true_eq, Bool.false_eq_true, if_false]
      omega
  | leave hplace =>
    rcases hplace with rfl | rfl
    · exact ⟨fun _ _ he => (nomatch he), by simpa [owed] using few⟩
    · exact ⟨fun _ _ he => (nomatch he), by simpa [owed] using few⟩

/-- What the turn of another agent manager shows. -/
theorem turn_other {j : Nat} (container : String)
    (turn : AgentTurn identity s j place event place' s' seen)
    (hne : j ≠ k) :
    seen.countP (restartsOf k container) = 0 ∧ seen.countP (receives k) = 0 := by
  cases turn with
  | command => simp [restartsOf, receives, hne]
  | restart => simp [restartsOf, receives, hne]
  | _ => exact ⟨rfl, rfl⟩

theorem Paced.keep (h : Paced s o k container) (same : t.places[k]? = s.places[k]?)
    (hrestarts : seen.countP (restartsOf k container) = 0)
    (hreceives : seen.countP (receives k) = 0) : Paced t (o ++ seen) k container where
  distinct i containers hp := h.distinct i containers (same ▸ hp)
  paced place hp := by
    have before := h.paced place (same ▸ hp)
    rw [List.countP_append, List.countP_append, hrestarts, hreceives]
    omega
  few := by
    have before := h.few
    rw [List.countP_append, List.countP_append, hrestarts, hreceives]
    omega

theorem Paced.step (h : Paced s o k container) (hm : ChannelMoves identities s act t seen) :
    Paced t (o ++ seen) k container := by
  cases hm with
  | @agent j identity place place' event s' _ _ hplace turn =>
    by_cases hj : j = k
    · subst hj
      obtain ⟨hdistinct, hpaced⟩ := turn_paced turn
        (fun i containers he => h.distinct i containers (he ▸ hplace)) (h.paced place hplace) h.few
      have hset : (s.places.set j place')[j]? = some place' :=
        List.getElem?_set_self (List.getElem?_eq_some_iff.mp hplace).1
      refine ⟨fun i containers hp => hdistinct i containers ?_, fun p hp => ?_, by omega⟩
      · exact Option.some.inj (hset.symm.trans hp)
      · obtain rfl := Option.some.inj (hset.symm.trans hp)
        exact hpaced
    · obtain ⟨hrestarts, hreceives⟩ := turn_other (k := k) container turn hj
      exact h.keep (List.getElem?_set_ne hj) hrestarts hreceives
  | deliver => exact h.keep rfl rfl rfl
  | stranger => exact h.keep rfl rfl rfl
  | call _ _ =>
    refine h.keep rfl ?_ ?_
    · simp [List.countP_map, List.countP_eq_zero, restartsOf]
    · simp [List.countP_map, List.countP_eq_zero, receives]

end Pace

section Runs
variable {identities : List Identity} {db : DB} {as : List Act} {s : Channel} {o : List Seen}

theorem wired_run (h : Run (channel identities) Free (.start identities db) as s o) :
    Wired identities s ∧ s.endpoint.gateway.Sound :=
  h.state_invariant (fun s => Wired identities s ∧ s.endpoint.gateway.Sound)
    ⟨.start db, .start db⟩
    (fun hi _ hs => ⟨hi.1.step (channel_moves hs), sound_step hi.2 (channel_moves hs)⟩)

/-- The agent managers that present the certificate of a delegate have begun no
more rounds of restarts than were requested for it by that time, whatever any
peer has sent and whatever was lost; and none has restarted a container more
often than it has begun a round. -/
theorem rounds_requested (h : Run (channel identities) Free (.start identities db) as s o) :
    (∀ d, o.countP (receivedBy identities d) ≤ as.countP (posts d)) ∧
    ∀ k container, o.countP (restartsOf k container) ≤ o.countP (receives k) := by
  constructor
  · intro d
    have balance : o.countP (receivedBy identities d) + outstanding d s ≤ as.countP (posts d) := by
      refine h.invariant_along
        (fun as s o => o.countP (receivedBy identities d) + outstanding d s ≤ as.countP (posts d))
        (by simp [outstanding, onWay, Channel.start, Endpoint.start, Gateway.start]) ?_
      intro as s o act t seen hr hi _ hs
      obtain ⟨hw, hsound⟩ := wired_run hr
      have hstep := outstanding_step (d := d) hw hsound (channel_moves hs)
      rw [List.countP_append, List.countP_append, List.countP_singleton]
      omega
    omega
  · intro k container
    have paced : Paced s o k container := by
      refine h.invariant (fun s o => Paced s o k container) (.start db) ?_
      intro s o act t seen hi _ hs
      exact hi.step (channel_moves hs)
    exact paced.few

def small : List Identity := [⟨smallId, smallCert⟩]

def worker : Containers := ⟨["worker"], by decide⟩

/-- The agent manager of the delegate comes to stand in the map. -/
def connectsSmall : List Act :=
  [.call (.gateway registerSmall), .agent 0 (.connect true), .agent 0 (.send true), .deliver 0,
    .call (.gateway (.handler 0 (.query true))), .call (.gateway (.handler 0 .resume))]

def restartsSmall : List Act :=
  connectsSmall ++ [.call (.post ("/restart/" ++ smallId)), .call (.gateway (.task 0 true)),
    .agent 0 .receive, .agent 0 (.list (some worker)), .agent 0 (.restart true)]

def oneRound : List Seen := [.sent ⟨0, 0, smallId⟩, .received 0, .restarted 0 "worker"]

theorem restartsSmall_requested :
    ∃ s, Run (channel small) Free (.start small DB.empty) restartsSmall s oneRound ∧
      oneRound.countP (receivedBy small smallId) ≤ restartsSmall.countP (posts smallId) ∧
      oneRound.countP (restartsOf 0 "worker") ≤ oneRound.countP (receives 0) := by
  have hrun : (replay (channel small) (.start small DB.empty) restartsSmall).any
      (fun r => decide (r.2 = oneRound)) = true := by decide +kernel
  obtain ⟨s, o, hr, ho⟩ := run_of_replay_test hrun
  obtain rfl := of_decide_eq_true ho
  exact ⟨s, hr, (rounds_requested hr).1 smallId, (rounds_requested hr).2 0 "worker"⟩

end Runs

end RestartRounds
