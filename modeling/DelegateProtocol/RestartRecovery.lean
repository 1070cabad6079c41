import DelegateProtocol.Greetings

/-!
# The channel comes back

An agent manager that goes on comes to dial out or to wait at its websocket. Its
HELLO is answered from the database, and a request then restarts the containers
of its delegate. It waits in vain if its websocket was accepted and has lost its
entry in the map: neither end notices.
-/

namespace RestartRecovery

open AgentManager Greetings KeyedTable Models RestartChannel RestartGateway RestartRounds
open StepMachine

/-- Agent manager `k` reads from an open websocket that stands in the map for its
delegate. -/
structure Ready (s : Channel) (k i : Nat) (d : String) : Prop where
  place : s.places[k]? = some (.listening i)
  wire : ∃ w, s.wires[i]? = some w ∧ w.down = []
  connection : ∃ c, s.endpoint.gateway.connections[i]? = some c ∧ c.isOpen = true
  entry : websocketOf s.endpoint.gateway.connected d = some i

/-- Agent manager `k` is at an open websocket that was accepted, and the map has no
entry for it any more. -/
structure Stranded (s : Channel) (k i : Nat) (d : String) : Prop where
  place : ∃ place, s.places[k]? = some place ∧ websocket place = some i
  connection : ∃ c, s.endpoint.gateway.connections[i]? = some c ∧ c.isOpen = true ∧
    c.point = .receiving ∧ c.delegateId = some d
  entry : websocketOf s.endpoint.gateway.connected d ≠ some i

def closedAt (s : Channel) (i : Nat) : Bool :=
  match s.endpoint.gateway.connections[i]? with
  | some c => !c.isOpen
  | none => false

/-- Nothing is raised in the agent manager, and its loop over the messages only ends
once the gateway has closed the websocket. -/
def succeeds (s : Channel) (place : Place) : AgentEvent → Bool
  | .connect ok => ok
  | .send ok => ok
  | .receive => true
  | .ended _ =>
    match place with
    | .listening i => closedAt s i
    | _ => false
  | .list found => found.any (fun containers => decide (containers.names ≠ []))
  | .restart ok => ok
  | .wake => true
  | .killed => false

/-- The steps of agent manager `k` and of the handlers in which nothing fails and no
websocket is lost. -/
def goesOn (k : Nat) (s : Channel) : Act → Bool
  | .agent j event => decide (j = k) && (s.places[k]?).any (fun place => succeeds s place event)
  | .deliver _ => true
  | .call (.gateway (.handler _ (.query ok))) => ok
  | .call (.gateway (.handler _ .resume)) => true
  | .call (.gateway (.handler _ .ended)) => true
  | _ => false

abbrev OwnRun (identities : List Identity) (k : Nat) (s : Channel) (as : List Act) (t : Channel)
    (o : List Seen) : Prop :=
  Run (channel identities) (fun s a => goesOn k s a = true) s as t o

/-- Agent manager `k` can get into the map while nothing is lost. -/
def ComesBack (identities : List Identity) (k : Nat) (d : String) (s : Channel) : Prop :=
  ∃ bs t o i, OwnRun identities k s bs t o ∧ Ready t k i d

section Steps
variable {identities : List Identity} {identity : Identity} {s t : Channel} {k i : Nat}
variable {place place' : Place} {event : AgentEvent} {seen : List Seen}

theorem agent_step (event : AgentEvent) {s' : Channel} (hk : identities[k]? = some identity)
    (hplace : s.places[k]? = some place)
    (h : agentStep identity s k place event = some (place', s', seen)) :
    (channel identities).step s (.agent k event) =
        some ({ s' with places := s.places.set k place' }, seen) ∧
      (s.places.set k place')[k]? = some place' := by
  constructor
  · simp only [channel, hk, hplace, h, Option.map_some]
  · exact List.getElem?_set_self (List.getElem?_eq_some_iff.mp hplace).1

theorem own_step (event : AgentEvent) {s' : Channel} (hk : identities[k]? = some identity)
    (hplace : s.places[k]? = some place) (succ : succeeds s place event = true)
    (h : agentStep identity s k place event = some (place', s', seen)) :
    ∃ t, OwnRun identities k s [.agent k event] t seen ∧
      t.places[k]? = some place' ∧ t.endpoint = s'.endpoint ∧ t.wires = s'.wires := by
  obtain ⟨hstep, hset⟩ := agent_step event hk hplace h
  exact ⟨_, .single (by simp [goesOn, hplace, succ]) hstep, hset, rfl, rfl⟩

/-- A round ends at its websocket. -/
theorem restarts_run (hk : identities[k]? = some identity) {first : String} {rest : List String}
    (hplace : s.places[k]? = some (.restarting i (first :: rest))) :
    ∃ bs t, OwnRun identities k s bs t ((first :: rest).map (.restarted k)) ∧
      t.places[k]? = some (.listening i) ∧ t.endpoint = s.endpoint ∧ t.wires = s.wires := by
  induction rest generalizing s first with
  | nil =>
    obtain ⟨t, hrun, ht⟩ := own_step (.restart true) hk hplace rfl rfl
    exact ⟨_, t, hrun, ht⟩
  | cons second rest ih =>
    obtain ⟨t, hrun, hplace', he, hw⟩ := own_step (.restart true) hk hplace rfl rfl
    rw [if_neg (List.cons_ne_nil second rest)] at hplace'
    obtain ⟨bs, u, hrun', hu, he', hw'⟩ := ih hplace'
    exact ⟨_, u, hrun.append hrun', hu, he'.trans he, hw'.trans hw⟩

/-- No round is left with nothing to restart. -/
def Busy (s : Channel) : Prop := ∀ (k : Nat) (i : Nat), s.places[k]? ≠ some (.restarting i [])

theorem Busy.step {act : Act} (h : Busy s) (hm : ChannelMoves identities s act t seen) :
    Busy t := by
  cases hm with
  | @agent j identity place place' event s' _ _ hplace turn =>
    intro n i hp
    rcases getElem?_set_cases hplace hp with ⟨rfl, rfl⟩ | ⟨-, hp⟩
    · generalize hg : Place.restarting i [] = place' at turn
      cases turn with
      | skip _ _ _ hplace => rcases hplace with rfl | rfl <;> cases hg
      | list hne =>
        obtain ⟨-, he⟩ := Place.restarting.inj hg
        exact hne he.symm
      | restart hplace =>
        rcases hplace with rfl | rfl | ⟨hne, rfl⟩
        · cases hg
        · cases hg
        · cases hg
          exact hne rfl
      | leave hplace => rcases hplace with rfl | rfl <;> cases hg
      | _ => cases hg
    · exact h n i hp
  | _ => exact h

structure Steady (identities : List Identity) (s : Channel) : Prop where
  wired : Wired identities s
  sound : s.endpoint.gateway.Sound
  busy : Busy s
  greeted : Greeted identities s

theorem Steady.run {ok : Channel → Act → Prop} {as : List Act} (h : Steady identities s)
    (hr : Run (channel identities) ok s as t seen) : Steady identities t := by
  refine hr.state_invariant (Steady identities) h ?_
  intro s a t o hs _ step
  have hm := channel_moves step
  exact ⟨hs.wired.step hm, sound_step hs.sound hm, hs.busy.step hm, hs.greeted.step hs.wired hm⟩

theorem Steady.start (db : DB) : Steady identities (.start identities db) where
  wired := .start db
  sound := .start db
  busy k i hp := by
    simp only [Channel.start, List.getElem?_map, Option.map_eq_some_iff] at hp
    obtain ⟨_, _, he⟩ := hp
    cases he
  greeted := .start db

/-- What agent manager `k` brings along: a certificate with its id, and containers to
restart. -/
structure Equipped (identities : List Identity) (k : Nat) (identity : Identity)
    (containers : Containers) : Prop where
  agent : identities[k]? = some identity
  cert : peerCertDelegateId (some identity.subject) = some identity.delegateId
  named : identity.delegateId ≠ ""
  some : containers.names ≠ []

def Active (s : Channel) (d : String) : Prop :=
  ∃ delegate, lookupActiveDelegate s.endpoint.gateway.db d = some delegate

variable {containers : Containers} {d : String} {as : List Act}

theorem ComesBack.after (h : ComesBack identities k d t) (hrun : OwnRun identities k s as t seen) :
    ComesBack identities k d s := by
  obtain ⟨bs, u, o, i, hrun', hready⟩ := h
  exact ⟨as ++ bs, u, seen ++ o, i, hrun.append hrun', hready⟩

/-- The agent manager reads a RESTART and restarts what there is. -/
theorem obeys (hq : Equipped identities k identity containers)
    (hplace : s.places[k]? = some (.listening i)) {w : Wire} {down : List Message}
    (hw : s.wires[i]? = some w) (hdown : w.down = restartMessage :: down) :
    ∃ bs t, OwnRun identities k s bs t (.received k :: containers.names.map (.restarted k)) ∧
      t.places[k]? = some (.listening i) ∧ t.endpoint = s.endpoint ∧
      ∃ w, t.wires[i]? = some w ∧ w.down = down := by
  have hread : agentStep identity s k (.listening i) .receive =
      some (.listing i, s.setWire i { w with down := down }, [.received k]) := by
    simp [agentStep, hw, hdown, commanded, restartMessage]
  obtain ⟨s₁, hrun₁, hp₁, he₁, hw₁⟩ := own_step .receive hq.agent hplace rfl hread
  have hlist : agentStep identity s₁ k (.listing i) (.list (some containers)) =
      some (.restarting i containers.names, s₁, []) := by simp [agentStep, hq.some]
  obtain ⟨s₂, hrun₂, hp₂, he₂, hw₂⟩ :=
    own_step _ hq.agent hp₁ (by simp [succeeds, hq.some]) hlist
  obtain ⟨first, rest, hnames⟩ := List.exists_cons_of_ne_nil hq.some
  rw [hnames] at hp₂ ⊢
  obtain ⟨bs, t, hrun₃, ht, he, hwt⟩ := restarts_run hq.agent hp₂
  refine ⟨_, t, (hrun₁.append hrun₂).append hrun₃, ht, (he.trans he₂).trans he₁,
    { w with down := down }, ?_, rfl⟩
  rw [hwt, hw₂, hw₁]
  exact List.getElem?_set_self (List.getElem?_eq_some_iff.mp hw).1

/-- How far agent manager `k` and the handler have come with websocket `n`. -/
structure At (s : Channel) (k n : Nat) (place : Place) (w : Wire) (c : Connection) : Prop where
  place : s.places[k]? = some place
  wire : s.wires[n]? = some w
  connection : s.endpoint.gateway.connections[n]? = some c

variable {n : Nat} {w : Wire} {c c' : Connection} {connected : Table Entry.delegateId}

/-- What a step of the handler of websocket `n` makes of the endpoint. -/
def handled (e : Endpoint) (n : Nat) (c : Connection) (connected : Table Entry.delegateId) :
    Endpoint :=
  { e with gateway := { e.gateway with
      connections := e.gateway.connections.set n c, connected := connected } }

theorem handled_step {e : Endpoint} {event : Event} (hc : e.gateway.connections[n]? = some c)
    (h : handlerStep e.gateway n c event = some (c', connected)) :
    endpoint.step e (.gateway (.handler n event)) = some (handled e n c' connected, []) := by
  simp [endpoint, startsTask, gateway, hc, h, handled]

theorem At.handles (h : At s k n place w c) (event : Event)
    (hs : handlerStep s.endpoint.gateway n c event = some (c', connected))
    (halone : allowed s.wires (.gateway (.handler n event)) = true)
    (own : goesOn k s (.call (.gateway (.handler n event))) = true) :
    ∃ t, OwnRun identities k s [.call (.gateway (.handler n event))] t [] ∧
      t.endpoint = handled s.endpoint n c' connected ∧ At t k n place w c' := by
  have hstep : (channel identities).step s (.call (.gateway (.handler n event))) =
      some ({ s with endpoint := handled s.endpoint n c' connected }, []) := by
    simp [channel, halone, handled_step h.connection hs]
  refine ⟨_, .single own hstep, rfl, h.place, h.wire, ?_⟩
  exact List.getElem?_set_self (List.getElem?_eq_some_iff.mp h.connection).1

theorem At.delivers {message : Message} {up : List Message} (h : At s k n place w c)
    (hagent : w.agent = some k) (hup : w.up = message :: up)
    (hs : handlerStep s.endpoint.gateway n c (.receive message) = some (c', connected)) :
    ∃ t, OwnRun identities k s [.deliver n] t [] ∧
      t.endpoint = handled s.endpoint n c' connected ∧ At t k n place { w with up := up } c' := by
  obtain ⟨peercert, agent, _, down⟩ := w
  obtain rfl := hagent
  obtain rfl := hup
  have hstep : (channel identities).step s (.deliver n) =
      some ({ s.setWire n ⟨peercert, some k, up, down⟩ with
        endpoint := handled s.endpoint n c' connected }, []) := by
    simp only [channel, h.wire, handled_step h.connection hs, Option.map_some]
  refine ⟨_, .single rfl hstep, rfl, h.place, ?_, ?_⟩
  · exact List.getElem?_set_self (List.getElem?_eq_some_iff.mp h.wire).1
  · exact List.getElem?_set_self (List.getElem?_eq_some_iff.mp h.connection).1

/-- In the map only the RESTARTs on their way are still to be obeyed. -/
theorem At.entered (hq : Equipped identities k identity containers)
    (h : At s k i (.listening i) w c) (hopen : c.isOpen = true)
    (entry : websocketOf s.endpoint.gateway.connected d = some i)
    (restarts : ∀ m ∈ w.down, m = restartMessage) : ComesBack identities k d s := by
  induction hdown : w.down generalizing s w with
  | nil =>
    exact ⟨[], s, [], i, .start, h.place, ⟨w, h.wire, hdown⟩, ⟨c, h.connection, hopen⟩, entry⟩
  | cons m down ih =>
    have hm : m = restartMessage := restarts m (by rw [hdown]; exact List.mem_cons_self ..)
    subst hm
    obtain ⟨bs, t, hrun, hplace, he, w', hw', hdown'⟩ := obeys hq h.place h.wire hdown
    have ht : At t k i (.listening i) w' c := ⟨hplace, hw', by rw [he]; exact h.connection⟩
    have rest : ∀ m ∈ w'.down, m = restartMessage := by
      intro m hm
      rw [hdown'] at hm
      exact restarts m (by rw [hdown]; exact List.mem_cons_of_mem _ hm)
    exact (ih ht (by rw [he]; exact entry) rest hdown').after hrun

theorem At.registers (hq : Equipped identities k identity containers)
    (h : At s k i (.listening i) w c) {delegate : Delegate}
    (hp : c.point = .lookedUp d (some delegate)) (hopen : c.isOpen = true)
    (restarts : ∀ m ∈ w.down, m = restartMessage) : ComesBack identities k d s := by
  have hs : handlerStep s.endpoint.gateway i c .resume =
      some ({ c with delegateId := some d, point := .receiving },
        s.endpoint.gateway.connected.put ⟨d, i⟩) := by simp [handlerStep, hp]
  obtain ⟨t, hrun, he, ht⟩ := h.handles .resume hs rfl rfl
  refine (ht.entered hq hopen ?_ restarts).after hrun
  rw [he]
  exact (websocketOf_put _ _).trans (if_pos rfl)

theorem At.lookingUp (hq : Equipped identities k identity containers)
    (h : At s k i (.listening i) w c) (hp : c.point = .lookingUp d) (hopen : c.isOpen = true)
    (active : Active s d) (restarts : ∀ m ∈ w.down, m = restartMessage) :
    ComesBack identities k d s := by
  obtain ⟨delegate, hfound⟩ := active
  have hs : handlerStep s.endpoint.gateway i c (.query true) =
      some ({ c with point := .lookedUp d (some delegate) }, s.endpoint.gateway.connected) := by
    simp [handlerStep, hp, hfound]
  obtain ⟨t, hrun, -, ht⟩ := h.handles (.query true) hs rfl rfl
  exact (ht.registers hq rfl hopen restarts).after hrun

/-- A HELLO on its way is certified and looked up. -/
theorem At.underWay (hq : Equipped identities k identity containers)
    (h : At s k i (.listening i) w c) (hagent : w.agent = some k)
    (hup : w.up = [hello identity.delegateId]) (hpeer : c.peercert = some identity.subject)
    (hp : c.point = .receiving) (hopen : c.isOpen = true) (active : Active s identity.delegateId)
    (restarts : ∀ m ∈ w.down, m = restartMessage) :
    ComesBack identities k identity.delegateId s := by
  have hs : handlerStep s.endpoint.gateway i c (.receive (hello identity.delegateId)) =
      some ({ c with point := .lookingUp identity.delegateId }, s.endpoint.gateway.connected) := by
    simp [handlerStep, hp, heard, hello, List.lookup_cons, certified, hpeer, hq.cert,
      hq.named]
  obtain ⟨t, hrun, he, ht⟩ := h.delivers hagent hup hs
  refine (ht.lookingUp hq rfl hopen ?_ restarts).after hrun
  rw [Active, he]
  exact active

theorem At.dialled (hwired : Wired identities s) (hk : identities[k]? = some identity)
    (hplace : s.places[k]? = some .connecting) :
    ∃ t, OwnRun identities k s [.agent k (.connect true)] t [] ∧
      t.endpoint.gateway.db = s.endpoint.gateway.db ∧
      At t k s.wires.length (.greeting s.wires.length) ⟨some identity.subject, some k, [], []⟩
        ⟨some identity.subject, none, .receiving, true⟩ := by
  obtain ⟨t, hrun, hp, he, hw⟩ := own_step (.connect true) hk hplace rfl rfl
  rw [← hwired.length] at hp
  refine ⟨t, hrun, by rw [he]; rfl, hp, ?_, ?_⟩
  · rw [hw]
    exact List.getElem?_concat_length
  · rw [he, hwired.length]
    exact List.getElem?_concat_length

theorem At.greeted (hk : identities[k]? = some identity) (h : At s k n (.greeting n) w c) :
    ∃ t, OwnRun identities k s [.agent k (.send true)] t [] ∧ t.endpoint = s.endpoint ∧
      At t k n (.listening n) { w with up := w.up ++ [hello identity.delegateId] } c := by
  have hturn : agentStep identity s k (.greeting n) (.send true) = some (.listening n,
      s.setWire n { w with up := w.up ++ [hello identity.delegateId] }, []) := by
    simp [agentStep, h.wire]
  obtain ⟨t, hrun, hp, he, hw⟩ := own_step (.send true) hk h.place rfl hturn
  refine ⟨t, hrun, he, hp, ?_, by rw [he]; exact h.connection⟩
  rw [hw]
  exact List.getElem?_set_self (List.getElem?_eq_some_iff.mp h.wire).1

/-- From dialling out, agent manager `k` comes to stand in the map. -/
theorem connects (hq : Equipped identities k identity containers) (hwired : Wired identities s)
    (active : Active s identity.delegateId) (hplace : s.places[k]? = some .connecting) :
    ComesBack identities k identity.delegateId s := by
  obtain ⟨s₁, hrun₁, hdb, at₁⟩ := At.dialled hwired hq.agent hplace
  obtain ⟨s₂, hrun₂, he, at₂⟩ := at₁.greeted hq.agent
  refine ((at₂.underWay hq rfl rfl rfl rfl rfl ?_ (by simp)).after hrun₂).after hrun₁
  rw [Active, he, hdb]
  exact active

/-- A websocket that the gateway has closed is left for a new one. -/
theorem At.closed (hq : Equipped identities k identity containers) (hs : Steady identities s)
    (active : Active s identity.delegateId) (h : At s k i (.listening i) w c)
    (hclosed : c.isOpen = false) : ComesBack identities k identity.delegateId s := by
  have succ : succeeds s (.listening i) (.ended true) = true := by
    simp [succeeds, closedAt, h.connection, hclosed]
  obtain ⟨t, hrun, hp, he, -⟩ := own_step (.ended true) hq.agent h.place succ rfl
  refine (connects hq (hs.run hrun).wired ?_ hp).after hrun
  rw [Active, he]
  exact active

theorem At.rejected (hq : Equipped identities k identity containers) (hs : Steady identities s)
    (active : Active s identity.delegateId) (h : At s k i (.listening i) w c)
    (hp : c.point = .lookedUp d none) : ComesBack identities k identity.delegateId s := by
  have hstep : handlerStep s.endpoint.gateway i c .resume =
      some ({ c with point := .rejecting 4003 "delegate unknown or revoked", isOpen := false },
        s.endpoint.gateway.connected) := by simp [handlerStep, hp]
  obtain ⟨t, hrun, he, ht⟩ := h.handles .resume hstep rfl rfl
  refine (ht.closed hq (hs.run hrun) ?_ rfl).after hrun
  rw [Active, he]
  exact active

/-- The handler at the other end knows the agent manager by its own id. -/
theorem Steady.names (hs : Steady identities s) (hq : Equipped identities k identity containers)
    (h : At s k i place w c) (hi : websocket place = some i) :
    w.agent = some k ∧ c.peercert = some identity.subject ∧
      ∀ d, c.Names d → d = identity.delegateId := by
  obtain ⟨w', identity', hw', hagent, hk, hpeer⟩ := hs.wired.places k place i h.place hi
  obtain rfl := Option.some.inj (h.wire.symm.trans hw')
  obtain rfl := Option.some.inj (hq.agent.symm.trans hk)
  have hcert : c.peercert = some identity.subject :=
    (hs.wired.cert h.wire h.connection).symm.trans hpeer
  refine ⟨hagent, hcert, fun d hd => ?_⟩
  have hnamed := ((hs.sound.connections i c h.connection).named d hd).1
  rw [hcert, hq.cert] at hnamed
  exact (Option.some.inj hnamed).symm

/-- By cases on where the handler of its websocket stands. -/
theorem At.listening (hq : Equipped identities k identity containers) (hs : Steady identities s)
    (active : Active s identity.delegateId) (h : At s k i (.listening i) w c)
    (free : ∀ i, ¬ Stranded s k i identity.delegateId) :
    ComesBack identities k identity.delegateId s := by
  obtain ⟨hagent, hpeer, names⟩ := hs.names hq h rfl
  have restarts := hs.greeted.down w (List.mem_of_getElem? h.wire)
  cases hopen : c.isOpen with
  | false => exact h.closed hq hs active hopen
  | true =>
    have open_ne (hc : c.Closing) : False := by
      have hclosed := (hs.sound.connections i c h.connection).closed hc
      rw [hopen] at hclosed
      cases hclosed
    cases hp : c.point with
    | receiving =>
      rcases hs.greeted.up k i identity _ w c hq.agent h.place rfl h.wire h.connection hopen with
        ⟨hup, -, -⟩ | ⟨-, accepted⟩
      · exact h.underWay hq hagent hup hpeer hp hopen active restarts
      · obtain ⟨d, hd⟩ := Option.ne_none_iff_exists'.mp (accepted hp)
        obtain rfl := names d (Or.inl hd)
        by_cases entry : websocketOf s.endpoint.gateway.connected identity.delegateId = some i
        · exact h.entered hq hopen entry restarts
        · exact False.elim (free i ⟨⟨_, h.place, rfl⟩, ⟨c, h.connection, hopen, hp, hd⟩, entry⟩)
    | lookingUp d =>
      obtain rfl := names d (Or.inr (Or.inl hp))
      exact h.lookingUp hq hp hopen active restarts
    | lookedUp d found =>
      obtain rfl := names d (Or.inr (Or.inr ⟨_, hp⟩))
      cases found with
      | none => exact h.rejected hq hs active hp
      | some delegate => exact h.registers hq hp hopen restarts
    | rejecting code reason => exact False.elim (open_ne (Or.inr ⟨_, _, hp⟩))
    | finished => exact False.elim (open_ne (Or.inl hp))

/-- Where both ends are as they were, an agent manager is no more stranded. -/
theorem Stranded.back (h : Stranded t k n d) (hplace : s.places[k]? = some place)
    (hi : websocket place = some i) (hplace' : t.places[k]? = some place')
    (hi' : websocket place' = some i) (he : t.endpoint = s.endpoint) : Stranded s k n d := by
  obtain ⟨⟨p, hp, hn⟩, hc, hentry⟩ := h
  obtain rfl := Option.some.inj (hplace'.symm.trans hp)
  obtain rfl := Option.some.inj (hi'.symm.trans hn)
  rw [he] at hc hentry
  exact ⟨⟨place, hplace, hi⟩, hc, hentry⟩

/-- At a websocket the agent manager comes to read from it. -/
theorem reads (hq : Equipped identities k identity containers) (hs : Steady identities s)
    (hplace : s.places[k]? = some place) (hi : websocket place = some i) :
    ∃ as t o, OwnRun identities k s as t o ∧ t.endpoint = s.endpoint ∧
      t.places[k]? = some (.listening i) := by
  have restarting {s : Channel} {names : List String} (hne : names ≠ [])
      (hp : s.places[k]? = some (.restarting i names)) :
      ∃ as t o, OwnRun identities k s as t o ∧ t.endpoint = s.endpoint ∧
        t.places[k]? = some (.listening i) := by
    obtain ⟨first, rest, rfl⟩ := List.exists_cons_of_ne_nil hne
    obtain ⟨as, t, hrun, ht, he, -⟩ := restarts_run hq.agent hp
    exact ⟨as, t, _, hrun, he, ht⟩
  cases place with
  | connecting => cases hi
  | sleeping => cases hi
  | greeting j =>
    cases hi
    obtain ⟨w, _, hw, -⟩ := hs.wired.places k _ i hplace rfl
    obtain ⟨c, hc⟩ : ∃ c, s.endpoint.gateway.connections[i]? = some c := by
      have hlt := (List.getElem?_eq_some_iff.mp hw).1
      exact ⟨_, List.getElem?_eq_getElem (hs.wired.length ▸ hlt)⟩
    have hat : At s k i (.greeting i) w c := ⟨hplace, hw, hc⟩
    obtain ⟨t, hrun, he, ht⟩ := hat.greeted hq.agent
    exact ⟨_, t, _, hrun, he, ht.place⟩
  | listening j =>
    cases hi
    exact ⟨[], s, [], .start, rfl, hplace⟩
  | listing j =>
    cases hi
    have hturn : agentStep identity s k (.listing i) (.list (some containers)) =
        some (.restarting i containers.names, s, []) := by simp [agentStep, hq.some]
    obtain ⟨t, hrun, ht, he, -⟩ :=
      own_step _ hq.agent hplace (by simp [succeeds, hq.some]) hturn
    obtain ⟨as, u, o, hrun', he', hu⟩ := restarting hq.some ht
    exact ⟨_, u, _, hrun.append hrun', he'.trans he, hu⟩
  | restarting j names =>
    cases hi
    refine restarting ?_ hplace
    rintro rfl
    exact hs.busy k i hplace

/-- An agent manager that is not stranded comes back. -/
theorem back (hq : Equipped identities k identity containers) (hs : Steady identities s)
    (active : Active s identity.delegateId) (hplace : s.places[k]? = some place)
    (free : ∀ i, ¬ Stranded s k i identity.delegateId) :
    ComesBack identities k identity.delegateId s := by
  cases hi : websocket place with
  | some i =>
    obtain ⟨as, t, o, hrun, he, ht⟩ := reads hq hs hplace hi
    have hst := hs.run hrun
    obtain ⟨w, _, hw, -⟩ := hst.wired.places k _ i ht rfl
    obtain ⟨c, hc⟩ : ∃ c, t.endpoint.gateway.connections[i]? = some c := by
      have hlt := (List.getElem?_eq_some_iff.mp hw).1
      exact ⟨_, List.getElem?_eq_getElem (hst.wired.length ▸ hlt)⟩
    have hat : At t k i (.listening i) w c := ⟨ht, hw, hc⟩
    refine (hat.listening hq hst (by rw [Active, he]; exact active) ?_).after hrun
    exact fun n stranded => free n (stranded.back hplace hi ht rfl he)
  | none =>
    cases place with
    | connecting => exact connects hq hs.wired active hplace
    | sleeping =>
      obtain ⟨t, hrun, ht, he, -⟩ := own_step .wake hq.agent hplace rfl rfl
      exact (connects hq (hs.run hrun).wired (by rw [Active, he]; exact active) ht).after hrun
    | _ => cases hi

/-- What succeeds at an open websocket stays there. -/
theorem succeeds_stays (hturn : agentStep identity s k place event = some (place', t, seen))
    (hi : websocket place = some i) (hopen : closedAt s i = false)
    (succ : succeeds s place event = true)
    (restarts : ∀ w ∈ s.wires, ∀ m ∈ w.down, m = restartMessage) :
    websocket place' = some i ∧ t.endpoint = s.endpoint := by
  unfold agentStep at hturn
  split at hturn
  case h_1 ok => cases hi
  case h_2 j ok =>
    obtain rfl : ok = true := succ
    split at hturn
    · cases hturn
    · cases hturn
      exact ⟨hi, rfl⟩
  case h_3 j =>
    split at hturn
    · cases hturn
    · rename_i w hw
      split at hturn
      · cases hturn
      · rename_i message down hdown
        have hm := restarts w (List.mem_of_getElem? hw) message (by simp [hdown])
        subst hm
        cases hturn
        exact ⟨hi, rfl⟩
  case h_4 j orderly =>
    obtain rfl := Option.some.inj hi
    rw [succeeds, hopen] at succ
    cases succ
  case h_5 j found =>
    split at hturn
    · cases succ
    · rename_i containers
      cases hturn
      have hne : containers.names ≠ [] := by simpa [succeeds] using succ
      rw [if_neg hne]
      exact ⟨hi, rfl⟩
  case h_6 j container rest ok =>
    obtain rfl : ok = true := succ
    cases hturn
    split
    · exact ⟨hi, rfl⟩
    · exact ⟨hi, rfl⟩
  case h_7 => cases hi
  case h_8 => cases succ
  case h_9 => cases hturn

theorem handlerStep_entry {g : Gateway} {event : Event}
    (h : handlerStep g n c event = some (c', connected)) (hne : i ≠ n)
    (hi : websocketOf connected d = some i) : websocketOf g.connected d = some i := by
  cases handlerStep_turn h with
  | register _ =>
    rw [websocketOf_put] at hi
    split at hi
    · exact False.elim (hne (Option.some.inj hi).symm)
    · exact hi
  | finish => exact (unregister_some.mp hi).1
  | _ => exact hi

/-- The handlers of other websockets do not put a stranded one back. -/
theorem Stranded.handled (h : Stranded s k i d) (hne : i ≠ n) {event : Event} {e : Endpoint}
    {told : List Told} (hcalls : Calls s.endpoint (.gateway (.handler n event)) e told)
    (same : t.places[k]? = s.places[k]?) (he : t.endpoint = e) : Stranded t k i d := by
  obtain ⟨hplace, ⟨c, hc, accepted⟩, hentry⟩ := h
  obtain ⟨c₀, c', connected, hc₀, hs, rfl⟩ := handler_calls hcalls
  refine ⟨by rw [same]; exact hplace, ⟨c, ?_, accepted⟩, ?_⟩
  · rw [he]
    exact (List.getElem?_set_ne (Ne.symm hne)).trans hc
  · rw [he]
    exact fun hi => hentry (handlerStep_entry hs hne hi)

theorem Stranded.step (h : Stranded s k i d) (hs : Steady identities s) {act : Act}
    (own : goesOn k s act = true) (step : (channel identities).step s act = some (t, seen)) :
    Stranded t k i d := by
  obtain ⟨⟨place, hplace, hi⟩, ⟨c, hc, hopen, hp, hd⟩, hentry⟩ := id h
  cases act with
  | stranger _ => cases own
  | agent j event =>
    simp only [goesOn, hplace, Option.any_some, Bool.and_eq_true, decide_eq_true_eq] at own
    obtain ⟨rfl, succ⟩ := own
    simp only [channel] at step
    split at step
    · rename_i identity place₀ hk hplace₀
      obtain rfl := Option.some.inj (hplace.symm.trans hplace₀)
      obtain ⟨⟨place', s', seen'⟩, hturn, he⟩ := Option.map_eq_some_iff.mp step
      cases he
      obtain ⟨hi', he⟩ := succeeds_stays hturn hi (by simp [closedAt, hc, hopen]) succ
        hs.greeted.down
      refine ⟨⟨place', ?_, hi'⟩, ⟨c, ?_, hopen, hp, hd⟩, ?_⟩
      · exact List.getElem?_set_self (List.getElem?_eq_some_iff.mp hplace).1
      · rw [he]
        exact hc
      · rw [he]
        exact hentry
    · cases step
  | deliver n =>
    cases channel_moves step with
    | @deliver _ w m message up e hw hagent hup hcalls =>
      refine h.handled ?_ hcalls rfl rfl
      rintro rfl
      -- its HELLO has been taken, and it says nothing else
      obtain ⟨w', identity, hw', -, hk, -⟩ := hs.wired.places k place i hplace hi
      have greets := hs.greeted.up k i identity place w c hk hplace hi hw hc hopen
      rw [hup] at greets
      cases place with
      | greeting _ => cases greets.1
      | _ =>
        rcases greets with ⟨-, -, hnone⟩ | ⟨hup', -⟩
        · rw [hd] at hnone
          cases hnone
        · cases hup'
  | call call =>
    cases channel_moves step with
    | @call _ e told _ hcalls =>
      unfold goesOn at own
      split at own
      · contradiction
      · contradiction
      · rename_i n ok he
        cases he
        refine h.handled ?_ hcalls rfl rfl
        rintro rfl
        obtain ⟨c₀, _, _, hc₀, hstep, -⟩ := handler_calls hcalls
        obtain rfl := Option.some.inj (hc.symm.trans hc₀)
        simp [handlerStep, hp] at hstep
      · rename_i n he
        cases he
        refine h.handled ?_ hcalls rfl rfl
        rintro rfl
        obtain ⟨c₀, _, _, hc₀, hstep, -⟩ := handler_calls hcalls
        obtain rfl := Option.some.inj (hc.symm.trans hc₀)
        simp [handlerStep, hp] at hstep
      · rename_i n he
        cases he
        refine h.handled ?_ hcalls rfl rfl
        rintro rfl
        obtain ⟨c₀, _, _, hc₀, hstep, -⟩ := handler_calls hcalls
        obtain rfl := Option.some.inj (hc.symm.trans hc₀)
        simp [handlerStep, hp, hopen] at hstep
      · cases own

/-- A stranded agent manager does not come back. -/
theorem Stranded.stays (h : Stranded s k i d) (hs : Steady identities s) :
    ¬ ComesBack identities k d s := by
  rintro ⟨as, t, o, n, hrun, hready⟩
  have still : Steady identities t ∧ Stranded t k i d := by
    refine hrun.state_invariant (fun t => Steady identities t ∧ Stranded t k i d) ⟨hs, h⟩ ?_
    rintro s a t o ⟨hs, h⟩ own step
    have single : Run (channel identities) Free s [a] t o := .single trivial step
    exact ⟨hs.run single, h.step hs own step⟩
  obtain ⟨-, ⟨place, hplace, hi⟩, -, hentry⟩ := still
  obtain rfl := Option.some.inj (hready.place.symm.trans hplace)
  obtain rfl := Option.some.inj hi
  exact hentry hready.entry

theorem write_wire {told : Told} (hi : told.restart.websocket = i) (hw : s.wires[i]? = some w) :
    write s.wires told = s.wires.set i { w with down := w.down ++ [restartMessage] } := by
  subst hi
  rcases write_cases s.wires told with ⟨-, hnone⟩ | ⟨w', hw', he⟩
  · rw [hw] at hnone
    cases hnone
  · obtain rfl := Option.some.inj (hw.symm.trans hw')
    exact he

/-- The request finds the websocket in the map and writes to it. -/
theorem Ready.asked {d : String} (h : Ready s k i d) :
    ∃ t m, Run (channel identities) Free s
        [.call (.post ("/restart/" ++ d)), .call (.gateway (.task m true))] t [.sent ⟨m, i, d⟩] ∧
      t.places = s.places ∧ t.endpoint.gateway.connections = s.endpoint.gateway.connections ∧
      t.endpoint.gateway.connected = s.endpoint.gateway.connected ∧
      ∃ w, t.wires[i]? = some w ∧ w.down = [restartMessage] := by
  obtain ⟨-, ⟨w, hw, hdown⟩, ⟨c, hc, hopen⟩, hentry⟩ := h
  have hroute : route ("/restart/" ++ d) = some (.restart d) := route_restart.mpr rfl
  let m := s.endpoint.gateway.tasks.length
  let asked : Gateway :=
    { s.endpoint.gateway with tasks := s.endpoint.gateway.tasks ++ [.writing d i] }
  let requests := s.endpoint.requests ++ [⟨.restart d, .waiting⟩]
  have hs₁ : (channel identities).step s (.call (.post ("/restart/" ++ d))) =
      some (⟨⟨asked, requests⟩, s.places, s.wires⟩, []) := by
    simp [channel, allowed, endpoint, hroute, Route.start, sendRestart, hentry, asked, requests]
  have htask : asked.tasks[m]? = some (.writing d i) := List.getElem?_concat_length
  have hgateway : gateway.step asked (.task m true) =
      some ({ asked with tasks := asked.tasks.set m (.checking d) }, [⟨i, d⟩]) := by
    simp only [gateway, htask, taskStep, asked, hc, hopen, if_true]
  have hs₂ : (channel identities).step ⟨⟨asked, requests⟩, s.places, s.wires⟩
      (.call (.gateway (.task m true))) =
      some (⟨⟨{ asked with tasks := asked.tasks.set m (.checking d) }, requests⟩, s.places,
        write s.wires ⟨m, i, d⟩⟩, [.sent ⟨m, i, d⟩]) := by
    simp [channel, allowed, endpoint, startsTask, hgateway, request]
  have hrun : Run (channel identities) Free s _ _ _ :=
    (Run.single trivial hs₁).append (.single trivial hs₂)
  refine ⟨_, m, hrun, rfl, rfl, rfl, { w with down := [restartMessage] }, ?_, rfl⟩
  have websocket : (⟨m, i, d⟩ : Told).restart.websocket = i := rfl
  have hwrite := write_wire websocket hw
  rw [hdown] at hwrite
  change (write s.wires _)[i]? = _
  rw [hwrite]
  exact List.getElem?_set_self (List.getElem?_eq_some_iff.mp hw).1

/-- A request that is written is obeyed. -/
theorem Ready.serves (hq : Equipped identities k identity containers) (h : Ready s k i d) :
    ∃ m bs t u, Run (channel identities) Free s
        [.call (.post ("/restart/" ++ d)), .call (.gateway (.task m true))] t [.sent ⟨m, i, d⟩] ∧
      OwnRun identities k t bs u (.received k :: containers.names.map (.restarted k)) ∧
      Ready u k i d := by
  obtain ⟨t, m, hrun, hplaces, hconnections, hconnected, w, hw, hdown⟩ := h.asked
  obtain ⟨bs, u, hrun', hplace, he, hwire⟩ := obeys hq (hplaces ▸ h.place) hw hdown
  refine ⟨m, bs, t, u, hrun, hrun', hplace, hwire, ?_, ?_⟩
  · rw [he, hconnections]
    exact h.connection
  · rw [he, hconnected]
    exact h.entry

end Steps

section Runs
variable {identities : List Identity} {identity : Identity} {db : DB} {as : List Act} {s : Channel}
variable {o : List Seen} {k : Nat} {delegate : Delegate}

/-- In every reachable state the agent manager of an active delegate can get into the
map by its own steps and those of the handlers, without anything being lost, exactly
if it is not stranded. Where it stands in the map, a request can be obeyed, and it
stands there again. -/
theorem comes_back (h : Run (channel identities) Free (.start identities db) as s o)
    (hk : identities[k]? = some identity)
    (cert : peerCertDelegateId (some identity.subject) = some identity.delegateId)
    (named : identity.delegateId ≠ "")
    (active : lookupActiveDelegate s.endpoint.gateway.db identity.delegateId = some delegate)
    (containers : Containers) (hne : containers.names ≠ []) :
    (ComesBack identities k identity.delegateId s ↔ ∀ i, ¬ Stranded s k i identity.delegateId) ∧
    ∀ u i, Ready u k i identity.delegateId → ∃ m bs v w, Run (channel identities) Free u
        [.call (.post ("/restart/" ++ identity.delegateId)), .call (.gateway (.task m true))] v
        [.sent ⟨m, i, identity.delegateId⟩] ∧
      OwnRun identities k v bs w (.received k :: containers.names.map (.restarted k)) ∧
      Ready w k i identity.delegateId := by
  have hs : Steady identities s := (Steady.start db).run h
  have hq : Equipped identities k identity containers := ⟨hk, cert, named, hne⟩
  obtain ⟨place, hplace⟩ : ∃ place, s.places[k]? = some place := by
    have hlen : s.places.length = identities.length := by
      refine h.state_invariant (fun s => s.places.length = identities.length) ?_ ?_
      · simp [Channel.start]
      · intro s a t o' hi _ hs
        cases channel_moves hs with
        | agent _ _ _ => simpa using hi
        | _ => exact hi
    have hlt := (List.getElem?_eq_some_iff.mp hk).1
    exact ⟨_, List.getElem?_eq_getElem (hlen ▸ hlt)⟩
  refine ⟨⟨fun hback i stranded => stranded.stays hs hback, ?_⟩, fun u i ready => ready.serves hq⟩
  exact back hq hs ⟨delegate, active⟩ hplace

/-- After its first round the agent manager of the delegate can be restarted again. -/
theorem restartsSmall_comes_back :
    ∃ s, Run (channel small) Free (.start small DB.empty) restartsSmall s oneRound ∧
      ComesBack small 0 smallId s := by
  have hrun : (replay (channel small) (.start small DB.empty) restartsSmall).any (fun r =>
      decide (r.2 = oneRound) && decide (r.1.places[0]? = some (.listening 0)) &&
        decide (websocketOf r.1.endpoint.gateway.connected smallId = some 0) &&
        (lookupActiveDelegate r.1.endpoint.gateway.db smallId).isSome) = true := by decide +kernel
  obtain ⟨s, o, hr, htest⟩ := run_of_replay_test hrun
  simp only [Bool.and_eq_true, decide_eq_true_eq] at htest
  obtain ⟨⟨⟨rfl, hplace⟩, hentry⟩, hactive⟩ := htest
  obtain ⟨delegate, hactive⟩ := Option.isSome_iff_exists.mp hactive
  have both := @comes_back small ⟨smallId, smallCert⟩ DB.empty restartsSmall s _ 0 delegate hr rfl
    rfl (by decide) hactive worker (by decide)
  refine ⟨s, hr, both.1.mpr ?_⟩
  rintro i ⟨⟨place, hp, hi⟩, -, hnone⟩
  obtain rfl := Option.some.inj (hplace.symm.trans hp)
  obtain rfl := Option.some.inj hi
  exact hnone hentry

/-- The agent manager is killed before its HELLO is read and dials again. The old
HELLO is read after the new one, and then the old websocket goes. -/
def overtakes : List Act :=
  [.call (.gateway registerSmall), .agent 0 (.connect true), .agent 0 (.send true),
    .agent 0 .killed, .agent 0 (.connect true), .agent 0 (.send true), .deliver 1,
    .call (.gateway (.handler 1 (.query true))), .call (.gateway (.handler 1 .resume)), .deliver 0,
    .call (.gateway (.handler 0 (.query true))), .call (.gateway (.handler 0 .resume)),
    .call (.gateway (.drop 0)), .call (.gateway (.handler 0 .ended))]

theorem overtakes_strands :
    ∃ s, Run (channel small) Free (.start small DB.empty) overtakes s [] ∧
      Stranded s 0 1 smallId := by
  have hrun : (replay (channel small) (.start small DB.empty) overtakes).any (fun r =>
      decide (r.2 = []) && decide (r.1.places[0]? = some (.listening 1)) &&
        decide (websocketOf r.1.endpoint.gateway.connected smallId = none) &&
        (r.1.endpoint.gateway.connections[1]?).any (fun c =>
          c.isOpen && decide (c.point = .receiving) && decide (c.delegateId = some smallId))) =
        true := by decide +kernel
  obtain ⟨s, o, hr, htest⟩ := run_of_replay_test hrun
  simp only [Bool.and_eq_true, decide_eq_true_eq] at htest
  obtain ⟨⟨⟨rfl, hplace⟩, hnone⟩, hconnection⟩ := htest
  obtain ⟨c, hc, haccepted⟩ := (Option.any_eq_true _ _).mp hconnection
  simp only [Bool.and_eq_true, decide_eq_true_eq] at haccepted
  obtain ⟨⟨hopen, hp⟩, hd⟩ := haccepted
  refine ⟨s, hr, ⟨_, hplace, rfl⟩, ⟨c, hc, hopen, hp, hd⟩, ?_⟩
  rw [hnone]
  exact fun he => (nomatch he)

end Runs

end RestartRecovery
