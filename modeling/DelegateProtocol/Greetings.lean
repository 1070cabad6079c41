import DelegateProtocol.RestartRounds

/-!
# Where a HELLO is

An agent manager says HELLO once on a websocket. As long as the websocket is open
the HELLO is still to be sent, on its way, or with the handler, and nothing else
comes up; down the websocket come RESTARTs only.
-/

namespace Greetings

open AgentManager KeyedTable Models RestartChannel RestartGateway RestartRounds StepMachine

/-- How far the HELLO of an agent manager at a place has come: what is on its way
up, and the connection at the other end. -/
def Greets (d : String) (up : List Message) (c : Connection) : Place → Prop
  | .greeting _ => up = [] ∧ c.point = .receiving ∧ c.delegateId = none
  | _ => up = [hello d] ∧ c.point = .receiving ∧ c.delegateId = none ∨
      up = [] ∧ (c.point = .receiving → c.delegateId ≠ none)

structure Greeted (identities : List Identity) (s : Channel) : Prop where
  up : ∀ (k i : Nat) identity place w c, identities[k]? = some identity →
    s.places[k]? = some place → websocket place = some i → s.wires[i]? = some w →
    s.endpoint.gateway.connections[i]? = some c → c.isOpen = true →
    Greets identity.delegateId w.up c place
  down : ∀ w ∈ s.wires, ∀ m ∈ w.down, m = restartMessage

section Handlers
variable {g : Gateway} {i : Nat} {c c' : Connection} {event : Event}
variable {connected : Table Entry.delegateId} {e e' : Endpoint} {call : Call} {told : List Told}

theorem handlerStep_open (h : handlerStep g i c event = some (c', connected))
    (hopen : c'.isOpen = true) : c.isOpen = true := by
  cases handlerStep_turn h with
  | ignore => exact hopen
  | lookUp => exact hopen
  | query => exact hopen
  | register => exact hopen
  | reject => cases hopen
  | finish => cases hopen

/-- A HELLO that is read is looked up, or the websocket is closed. -/
theorem handlerStep_hello {d : String}
    (h : handlerStep g i c (.receive (hello d)) = some (c', connected))
    (hopen : c'.isOpen = true) : c'.point ≠ .receiving := by
  cases hp : c.point with
  | receiving =>
    simp only [handlerStep, hp, heard, hello, List.lookup_cons, beq_self_eq_true] at h
    split at h
    · cases h
      cases hopen
    · cases h
      simp
  | _ => simp [handlerStep, hp] at h

/-- Without a message a handler goes on after a HELLO only. -/
theorem handlerStep_quiet (h : handlerStep g i c event = some (c', connected))
    (hopen : c'.isOpen = true) (quiet : ∀ message, event ≠ .receive message) :
    c.point ≠ .receiving ∧ (c'.point = .receiving → c'.delegateId ≠ none) := by
  unfold handlerStep at h
  split at h
  case h_1 message _ => exact False.elim (quiet message rfl)
  case h_2 hp =>
    split at h
    · cases h
    · cases h
      cases hopen
  case h_3 d ok hp =>
    cases h
    exact ⟨by simp [hp], by simp⟩
  case h_4 d hp =>
    cases h
    cases hopen
  case h_5 d delegate hp =>
    cases h
    exact ⟨by simp [hp], by simp⟩
  case h_6 =>
    cases h
    cases hopen
  case h_7 => cases h

theorem handler_calls (h : Calls e (.gateway (.handler i event)) e' told) :
    ∃ c c' connected, e.gateway.connections[i]? = some c ∧
      handlerStep e.gateway i c event = some (c', connected) ∧
      e' = { e with gateway := { e.gateway with
        connections := e.gateway.connections.set i c', connected := connected } } := by
  cases h with
  | gateway _ hstep =>
    simp only [gateway] at hstep
    cases hc : e.gateway.connections[i]? with
    | none => simp [hc] at hstep
    | some c =>
      cases hs : handlerStep e.gateway i c event with
      | none => simp [hc, hs] at hstep
      | some r =>
        simp only [hc, hs] at hstep
        cases hstep
        exact ⟨c, r.1, r.2, rfl, hs, rfl⟩

/-- Only its handler changes a connection that stays open. -/
theorem calls_open (h : Calls e call e' told)
    (handler : ∀ j event, call ≠ .gateway (.handler j event))
    (connect : ∀ peercert, call ≠ .gateway (.connect peercert))
    (hc : e'.gateway.connections[i]? = some c) (hopen : c.isOpen = true) :
    e.gateway.connections[i]? = some c := by
  have same {a : Action} {g' : Gateway} {sent : List RestartSent}
      (hstep : gateway.step e.gateway a = some (g', sent)) (hc : g'.connections[i]? = some c)
      (hhandler : ∀ j event, a ≠ .handler j event) (hconnect : ∀ peercert, a ≠ .connect peercert) :
      e.gateway.connections[i]? = some c := by
    rcases connection_before (gateway_moves hstep) hc with
      ⟨c₀, hc₀, rfl | rfl | ⟨event, _, ha, _⟩⟩ | ⟨peercert, ha, -⟩
    · exact hc₀
    · cases hopen
    · exact False.elim (hhandler i event ha)
    · exact False.elim (hconnect peercert ha)
  cases h with
  | @post path r _ =>
    obtain ⟨action, hstep⟩ := start_step (g := e.gateway) r
    cases r with
    | restart d =>
      have hsend : gateway.step e.gateway (.sendRestart d) = some (_, []) := rfl
      exact same hsend hc (by simp) (by simp)
    | disconnect d =>
      have hdisconnect : gateway.step e.gateway (.disconnect d) = some (_, []) := rfl
      exact same hdisconnect hc (by simp) (by simp)
  | gateway _ hstep =>
    refine same hstep hc ?_ ?_
    · rintro j event rfl
      exact handler j event rfl
    · rintro peercert rfl
      exact connect peercert rfl
  | crash =>
    simp only [crashed, List.getElem?_map, Option.map_eq_some_iff] at hc
    obtain ⟨_, _, rfl⟩ := hc
    cases hopen
  | _ => exact hc

end Handlers

section Wires
variable {wires : List Wire} {i j : Nat} {w w' x : Wire}

theorem set_up (hw : wires[j]? = some w) (same : w'.up = w.up)
    (hx : (wires.set j w')[i]? = some x) : ∃ y, wires[i]? = some y ∧ y.up = x.up := by
  rcases getElem?_set_cases hw hx with ⟨rfl, rfl⟩ | ⟨-, hx⟩
  · exact ⟨w, hw, same.symm⟩
  · exact ⟨x, hx, rfl⟩

theorem writes_up (told : List Told) (hx : (told.foldl write wires)[i]? = some x) :
    ∃ y, wires[i]? = some y ∧ y.up = x.up := by
  induction told generalizing wires with
  | nil => exact ⟨x, hx, rfl⟩
  | cons restart told ih =>
    obtain ⟨y, hy, hup⟩ := ih hx
    rcases write_cases wires restart with ⟨he, -⟩ | ⟨w, hw, he⟩
    · rw [he] at hy
      exact ⟨y, hy, hup⟩
    · rw [he] at hy
      have same : ({ w with down := w.down ++ [restartMessage] } : Wire).up = w.up := rfl
      obtain ⟨z, hz, hup'⟩ := set_up hw same hy
      exact ⟨z, hz, hup'.trans hup⟩

theorem writes_down (told : List Told) (h : ∀ w ∈ wires, ∀ m ∈ w.down, m = restartMessage) :
    ∀ w ∈ told.foldl write wires, ∀ m ∈ w.down, m = restartMessage := by
  induction told generalizing wires with
  | nil => exact h
  | cons restart told ih =>
    refine ih ?_
    rcases write_cases wires restart with ⟨he, -⟩ | ⟨w, hw, he⟩
    · rw [he]
      exact h
    · rw [he]
      refine forall_mem_set h ?_
      exact forall_mem_concat (h w (List.mem_of_getElem? hw)) rfl

end Wires

section Steps
variable {identities : List Identity} {identity : Identity} {s s' t : Channel} {act : Act}
variable {seen : List Seen} {k i : Nat} {place place' : Place} {event : AgentEvent}

/-- Two agent managers are not at one websocket. -/
theorem wired_alone (h : Wired identities s) {j : Nat} (hk : s.places[k]? = some place)
    (hj : s.places[j]? = some place') (hi : websocket place = some i)
    (hi' : websocket place' = some i) : j = k := by
  obtain ⟨w, _, hw, hagent, -⟩ := h.places k place i hk hi
  obtain ⟨w', _, hw', hagent', -⟩ := h.places j place' i hj hi'
  obtain rfl := Option.some.inj (hw.symm.trans hw')
  exact Option.some.inj (hagent'.symm.trans hagent)

/-- What is under way was so before, or is as it has to be. -/
theorem Greeted.keep (h : Greeted identities s)
    (before : ∀ (k i : Nat) identity place w c, identities[k]? = some identity →
      t.places[k]? = some place → websocket place = some i → t.wires[i]? = some w →
      t.endpoint.gateway.connections[i]? = some c → c.isOpen = true →
      Greets identity.delegateId w.up c place ∨ ∃ place₀ w₀ c₀, s.places[k]? = some place₀ ∧
        websocket place₀ = some i ∧ s.wires[i]? = some w₀ ∧
        s.endpoint.gateway.connections[i]? = some c₀ ∧ c₀.isOpen = true ∧
        (Greets identity.delegateId w₀.up c₀ place₀ → Greets identity.delegateId w.up c place))
    (down : ∀ w ∈ t.wires, ∀ m ∈ w.down, m = restartMessage) : Greeted identities t where
  up k i identity place w c hk hplace hi hw hc hopen := by
    rcases before k i identity place w c hk hplace hi hw hc hopen with hg | ⟨_, _, _, hplace₀, hi₀,
      hw₀, hc₀, hopen₀, hg⟩
    · exact hg
    · exact hg (h.up k i identity _ _ _ hk hplace₀ hi₀ hw₀ hc₀ hopen₀)
  down := down

/-- A turn at one websocket: the agent manager stays where its HELLO has been sent. -/
theorem Greeted.turn (h : Greeted identities s) (hplace : s.places[k]? = some place)
    (sent : ∀ i, websocket place' = some i → websocket place = some i ∧
      ∀ d up c, Greets d up c place → Greets d up c place')
    (hup : ∀ (i : Nat) (w : Wire), s'.wires[i]? = some w →
      ∃ w₀, s.wires[i]? = some w₀ ∧ w₀.up = w.up)
    (he : s'.endpoint = s.endpoint) (down : ∀ w ∈ s'.wires, ∀ m ∈ w.down, m = restartMessage) :
    Greeted identities { s' with places := s.places.set k place' } := by
  refine h.keep ?_ down
  intro j i identity p w c _ hp hi hw hc hopen
  obtain ⟨w₀, hw₀, hup₀⟩ := hup i w hw
  simp only [he] at hc
  right
  rcases getElem?_set_cases hplace hp with ⟨rfl, rfl⟩ | ⟨-, hp⟩
  · obtain ⟨hi₀, hg⟩ := sent i hi
    exact ⟨place, w₀, c, hplace, hi₀, hw₀, hc, hopen, fun h₀ => hup₀ ▸ hg _ _ _ h₀⟩
  · exact ⟨p, w₀, c, hp, hi, hw₀, hc, hopen, fun h₀ => hup₀ ▸ h₀⟩

theorem Greeted.agent (h : Greeted identities s) (hwired : Wired identities s)
    (hk : identities[k]? = some identity) (hplace : s.places[k]? = some place)
    (turn : AgentTurn identity s k place event place' s' seen) :
    Greeted identities { s' with places := s.places.set k place' } := by
  have same (i : Nat) (w : Wire) (hw : s.wires[i]? = some w) :
      ∃ w₀, s.wires[i]? = some w₀ ∧ w₀.up = w.up := ⟨w, hw, rfl⟩
  have read {i : Nat} {w : Wire} {m : Message} {down : List Message} (hw : s.wires[i]? = some w)
      (hdown : w.down = m :: down) :
      ∀ x ∈ s.wires.set i { w with down := down }, ∀ m ∈ x.down, m = restartMessage := by
    refine forall_mem_set h.down ?_
    intro m' hm'
    exact h.down w (List.mem_of_getElem? hw) m' (hdown ▸ List.mem_cons_of_mem _ hm')
  cases turn with
  | connect =>
    refine h.keep ?_ (forall_mem_concat h.down (by simp))
    intro j i identity p w c _ hp hi hw hc hopen
    rcases getElem?_set_cases hplace hp with ⟨rfl, rfl⟩ | ⟨-, hp⟩
    · -- the websocket is new at both ends
      obtain rfl := Option.some.inj hi
      left
      rcases getElem?_concat_cases hc with hc | ⟨-, rfl⟩
      · have hlt := (List.getElem?_eq_some_iff.mp hc).1
        omega
      · rcases getElem?_concat_cases hw with hw | ⟨-, rfl⟩
        · have hlt := (List.getElem?_eq_some_iff.mp hw).1
          rw [hwired.length] at hlt
          omega
        · exact ⟨rfl, rfl, rfl⟩
    · obtain ⟨w₀, _, hw₀, -⟩ := hwired.places j p i hp hi
      have hlt := (List.getElem?_eq_some_iff.mp hw₀).1
      have hlt' := hwired.length ▸ hlt
      have hwire : s.wires[i]? = some w := (List.getElem?_append_left hlt).symm.trans hw
      have hconnection : s.endpoint.gateway.connections[i]? = some c :=
        (List.getElem?_append_left hlt').symm.trans hc
      exact Or.inr ⟨p, w, c, hp, hi, hwire, hconnection, hopen, id⟩
  | @greet n x hx =>
    refine h.keep ?_ (forall_mem_set h.down (h.down x (List.mem_of_getElem? hx)))
    intro j i identity' p w c hk' hp hi hw hc hopen
    right
    rcases getElem?_set_cases hplace hp with ⟨rfl, rfl⟩ | ⟨hne, hold⟩
    · obtain rfl := Option.some.inj hi
      refine ⟨.greeting n, x, c, hplace, rfl, hx, hc, hopen, ?_⟩
      rintro ⟨hup, hpoint, hnone⟩
      obtain rfl := Option.some.inj
        (hw.symm.trans (List.getElem?_set_self (List.getElem?_eq_some_iff.mp hx).1))
      obtain rfl := Option.some.inj (hk'.symm.trans hk)
      exact Or.inl ⟨by simp [hup], hpoint, hnone⟩
    · refine ⟨p, w, c, hold, hi, ?_, hc, hopen, id⟩
      rcases getElem?_set_cases hx hw with ⟨rfl, -⟩ | ⟨-, hw⟩
      · exact False.elim (hne (wired_alone hwired hplace hold rfl hi))
      · exact hw
  | skip hw hdown _ hp =>
    refine h.turn hplace ?_ (fun _ _ => set_up hw rfl) rfl (read hw hdown)
    rcases hp with rfl | rfl
    · exact fun _ hi => ⟨hi, fun _ _ _ h₀ => h₀⟩
    · exact fun _ hi => (nomatch hi)
  | command hw hdown _ =>
    refine h.turn hplace ?_ (fun _ _ => set_up hw rfl) rfl (read hw hdown)
    exact fun _ hi => ⟨hi, fun _ _ _ h₀ => h₀⟩
  | list _ => exact h.turn hplace (fun _ hi => ⟨hi, fun _ _ _ h₀ => h₀⟩) same rfl h.down
  | restart hp =>
    refine h.turn hplace ?_ same rfl h.down
    rcases hp with rfl | rfl | ⟨-, rfl⟩
    · exact fun _ hi => (nomatch hi)
    · exact fun _ hi => ⟨hi, fun _ _ _ h₀ => h₀⟩
    · exact fun _ hi => ⟨hi, fun _ _ _ h₀ => h₀⟩
  | leave hp =>
    refine h.turn hplace ?_ same rfl h.down
    rcases hp with rfl | rfl
    · exact fun _ hi => (nomatch hi)
    · exact fun _ hi => (nomatch hi)

/-- A handler that goes on without a message has taken the HELLO. -/
theorem Greets.quiet {d : String} {up : List Message} {c c' : Connection} (h : Greets d up c place)
    (taken : c.point ≠ .receiving) (hc : c'.point = .receiving → c'.delegateId ≠ none) :
    Greets d up c' place := by
  cases place with
  | greeting _ => exact False.elim (taken h.2.1)
  | _ =>
    rcases h with ⟨-, hp, -⟩ | ⟨hup, -⟩
    · exact False.elim (taken hp)
    · exact Or.inr ⟨hup, hc⟩

/-- A HELLO that has come is with the handler. -/
theorem Greets.taken {d : String} {m : Message} {up : List Message} {c : Connection}
    (h : Greets d (m :: up) c place) :
    m = hello d ∧ ∀ c', c'.point ≠ .receiving → Greets d up c' place := by
  cases place with
  | greeting _ => cases h.1
  | _ =>
    rcases h with ⟨hup, -, -⟩ | ⟨hup, -⟩
    · cases hup
      exact ⟨rfl, fun c' hc => Or.inr ⟨rfl, fun hp => absurd hp hc⟩⟩
    · cases hup

theorem Greeted.deliver (h : Greeted identities s) {n : Nat} {w : Wire} {message : Message}
    {up : List Message} {e : Endpoint} (hw : s.wires[n]? = some w) (hup : w.up = message :: up)
    (hcalls : Calls s.endpoint (.gateway (.handler n (.receive message))) e []) :
    Greeted identities { s.setWire n { w with up := up } with endpoint := e } := by
  obtain ⟨c₀, c', connected, hc₀, hs, rfl⟩ := handler_calls hcalls
  refine h.keep ?_ (forall_mem_set h.down (h.down w (List.mem_of_getElem? hw)))
  intro k i identity p x c _ hp hi hx hc hopen
  right
  rcases getElem?_set_cases hc₀ hc with ⟨rfl, rfl⟩ | ⟨hne, hc⟩
  · refine ⟨p, w, c₀, hp, hi, hw, hc₀, handlerStep_open hs hopen, ?_⟩
    obtain rfl := Option.some.inj
      (hx.symm.trans (List.getElem?_set_self (List.getElem?_eq_some_iff.mp hw).1))
    rw [hup]
    intro hg
    obtain ⟨rfl, after⟩ := hg.taken
    exact after c (handlerStep_hello hs hopen)
  · exact ⟨p, x, c, hp, hi, (List.getElem?_set_ne (Ne.symm hne)).symm.trans hx, hc, hopen, id⟩

theorem Greeted.call (h : Greeted identities s) (hwired : Wired identities s) {call : Call}
    {e : Endpoint} {told : List Told} (hallowed : allowed s.wires call = true)
    (hcalls : Calls s.endpoint call e told) :
    Greeted identities ⟨e, s.places, told.foldl write s.wires⟩ := by
  refine h.keep ?_ (writes_down told h.down)
  intro k i identity p x c _ hp hi hx hc hopen
  obtain ⟨w, hw, hup⟩ := writes_up told hx
  right
  by_cases hhandler : ∃ j event, call = .gateway (.handler j event)
  · obtain ⟨j, event, rfl⟩ := hhandler
    obtain ⟨c₀, c', connected, hc₀, hs, rfl⟩ := handler_calls hcalls
    rcases getElem?_set_cases hc₀ hc with ⟨rfl, rfl⟩ | ⟨-, hc⟩
    · refine ⟨p, w, c₀, hp, hi, hw, hc₀, handlerStep_open hs hopen, ?_⟩
      rw [hup]
      intro hg
      have quiet : ∀ message, event ≠ .receive message := by
        -- what others send does not reach the websocket of an agent manager
        rintro message rfl
        obtain ⟨w', _, hw', hagent, -⟩ := hwired.places k p i hp hi
        simp [allowed, hw', hagent] at hallowed
      obtain ⟨taken, hc'⟩ := handlerStep_quiet hs hopen quiet
      exact hg.quiet taken hc'
    · exact ⟨p, w, c, hp, hi, hw, hc, hopen, fun hg => hup ▸ hg⟩
  · have hold := calls_open hcalls (fun j event he => hhandler ⟨j, event, he⟩)
      (by rintro peercert rfl; cases hallowed) hc hopen
    exact ⟨p, w, c, hp, hi, hw, hold, hopen, fun hg => hup ▸ hg⟩

theorem Greeted.step (h : Greeted identities s) (hwired : Wired identities s)
    (hm : ChannelMoves identities s act t seen) : Greeted identities t := by
  cases hm with
  | agent hk hplace turn => exact h.agent hwired hk hplace turn
  | deliver hw _ hup hcalls => exact h.deliver hw hup hcalls
  | stranger =>
    refine h.keep ?_ (forall_mem_concat h.down (by simp))
    intro j i identity p w c _ hp hi hw hc hopen
    obtain ⟨w₀, _, hw₀, -⟩ := hwired.places j p i hp hi
    have hlt := (List.getElem?_eq_some_iff.mp hw₀).1
    have hlt' := hwired.length ▸ hlt
    have hwire : s.wires[i]? = some w := (List.getElem?_append_left hlt).symm.trans hw
    have hconnection : s.endpoint.gateway.connections[i]? = some c :=
      (List.getElem?_append_left hlt').symm.trans hc
    exact Or.inr ⟨p, w, c, hp, hi, hwire, hconnection, hopen, id⟩
  | call hallowed hcalls => exact h.call hwired hallowed hcalls

theorem Greeted.start (db : Models.DB) : Greeted identities (.start identities db) where
  up k i identity place w c _ hplace hi := by
    simp only [Channel.start, List.getElem?_map, Option.map_eq_some_iff] at hplace
    obtain ⟨_, _, rfl⟩ := hplace
    cases hi
  down w hw := by cases hw

end Steps

end Greetings
