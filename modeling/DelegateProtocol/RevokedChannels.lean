import DelegateProtocol.RestartGateway

/-!
# The channels of a revoked delegate

`revoke_delegate` marks the row and then has the gateway disconnect the id.
Only the websocket in the map is closed, and only what is in the map by then.
-/

namespace RevokedChannels

open KeyedTable Models RestartGateway Runtime StepMachine Uuid Views

/-- No handler has a step to take, and no `disconnect` is under way. -/
structure Quiet (s : Gateway) : Prop where
  handlers : ∀ c ∈ s.connections, c.point = .finished ∨ c.point = .receiving ∧ c.isOpen = true
  requests : ∀ i, .closing i ∉ s.tasks

/-- No websocket accepted as `d` is open, and the map has no entry for it. -/
structure Closed (s : Gateway) (d : String) : Prop where
  websockets : ∀ c ∈ s.connections, c.delegateId = some d → c.isOpen = false
  entry : websocketOf s.connected d = none

/-- An open websocket that was accepted as `d` and awaits messages, or that is
about to be accepted: its handler stands between the lookup and the entry. -/
def Stays (c : Connection) (d : String) : Prop :=
  c.isOpen = true ∧ (c.point = .receiving ∧ c.delegateId = some d ∨
    ∃ delegate, c.point = .lookedUp d (some delegate))

/-- Only the websocket of the entry stays. -/
def OnlyEntryStays (s : Gateway) (d : String) : Prop :=
  ∀ i c, s.connections[i]? = some c → Stays c d → websocketOf s.connected d = some i

/-- The row of the delegate is there, and is marked. -/
def Revoked (db : DB) (d : String) : Prop :=
  ∃ id delegate, uuidField d = .ok id ∧ db.delegate id = some delegate ∧
    delegate.status = .revoked

section Steps
variable {s t : Gateway} {a : Action} {o : List RestartSent} {i j : Nat} {c c' : Connection}
variable {connected : Table Entry.delegateId} {d : String}

theorem Revoked.moves (h : Revoked s.db d) (hm : Moves s a t o) : Revoked t.db d := by
  obtain ⟨id, delegate, hid, hrow, hstatus⟩ := h
  refine ⟨id, ?_⟩
  cases hm with
  | task _ hdb _ => exact ⟨delegate, hid, (hdb id).trans hrow, hstatus⟩
  | register hc =>
    refine ⟨delegate, hid, ?_, hstatus⟩
    rw [createDelegate_delegate hc, if_neg, hrow]
    rintro rfl
    have hfresh := createDelegate_fresh hc
    rw [hrow] at hfresh
    cases hfresh
  | @revoke k =>
    simp only [saveDelegateStatus_delegate]
    split
    · rename_i hk
      subst hk
      exact ⟨_, hid, congrArg (Option.map _) hrow, rfl⟩
    · exact ⟨delegate, hid, hrow, hstatus⟩
  | _ => exact ⟨delegate, hid, hrow, hstatus⟩

theorem Revoked.lookup {db : DB} (h : Revoked db d) : lookupActiveDelegate db d = none := by
  obtain ⟨id, delegate, hid, hrow, hstatus⟩ := h
  cases hl : lookupActiveDelegate db d with
  | none => rfl
  | some found =>
    obtain ⟨id', hid', hrow', hactive⟩ := lookupActiveDelegate_some hl
    rw [hid] at hid'
    cases hid'
    rw [hrow] at hrow'
    cases hrow'
    rw [hstatus] at hactive
    cases hactive

/-- Nothing that stays is left, and nothing comes to stay again. -/
structure Gone (s : Gateway) (d : String) : Prop where
  sound : s.Sound
  revoked : Revoked s.db d
  leaving : ∀ (i : Nat) (c : Connection), s.connections[i]? = some c → ¬ Stays c d
  entry : ∀ (i : Nat) (c : Connection), websocketOf s.connected d = some i →
    s.connections[i]? = some c → c.isOpen = false

theorem stays_turn (revoked : Revoked s.db d) {event : Event}
    (turn : Turn s i c event c' connected) (h : Stays c' d) : Stays c d := by
  obtain ⟨hopen, hp⟩ := h
  cases turn with
  | ignore => exact ⟨hopen, hp⟩
  | lookUp =>
    rcases hp with ⟨hp, -⟩ | ⟨_, hp⟩
    · cases hp
    · cases hp
  | reject => cases hopen
  | query _ hfound =>
    rcases hp with ⟨hp, -⟩ | ⟨delegate, hp⟩
    · cases hp
    · cases hp
      have hlookup := (hfound (by simp)).2
      rw [revoked.lookup] at hlookup
      cases hlookup
  | register hlooked =>
    rcases hp with ⟨-, hid⟩ | ⟨_, hp⟩
    · cases hid
      exact ⟨hopen, Or.inr ⟨_, hlooked⟩⟩
    · cases hp
  | finish => cases hopen

theorem closed_evolves (h : Evolves s a j c c') (hc : c.isOpen = false) : c'.isOpen = false := by
  rcases h with rfl | rfl | ⟨_, _, _, turn⟩
  · exact hc
  · rfl
  · cases turn with
    | reject => rfl
    | finish => rfl
    | _ => exact hc

/-- An entry is from before, or its handler has just passed the lookup. -/
theorem entry_before (h : Moves s a t o) (hj : websocketOf t.connected d = some j) :
    websocketOf s.connected d = some j ∨ ∃ c delegate, s.connections[j]? = some c ∧
      c.point = .lookedUp d (some delegate) := by
  cases h with
  | handler hc turn =>
    cases turn with
    | register hp =>
      simp only [websocketOf_put] at hj
      split at hj
      · rename_i hd
        cases hj
        subst hd
        exact Or.inr ⟨_, _, hc, hp⟩
      · exact Or.inl hj
    | finish => exact Or.inl (unregister_some.mp hj).1
    | _ => exact Or.inl hj
  | disconnect _ =>
    simp only [websocketOf_erase] at hj
    split at hj
    · cases hj
    · exact Or.inl hj
  | _ => exact Or.inl hj

theorem Gone.step (hg : Gone s d) (h : Moves s a t o) : Gone t d where
  sound := hg.sound.step h
  revoked := hg.revoked.moves h
  leaving j c' hc' hstays := by
    rcases connection_before h hc' with ⟨c, hc, hev⟩ | ⟨peercert, -, rfl⟩
    · rcases hev with rfl | rfl | ⟨_, _, _, turn⟩
      · exact hg.leaving j _ hc hstays
      · cases hstays.1
      · exact hg.leaving j c hc (stays_turn hg.revoked turn hstays)
    · rcases hstays.2 with ⟨-, hid⟩ | ⟨_, hp⟩
      · cases hid
      · cases hp
  entry j c' hj hc' := by
    have before : ∃ c, s.connections[j]? = some c ∧ c.isOpen = false := by
      rcases entry_before h hj with hj | ⟨c, delegate, hc, hp⟩
      · obtain ⟨c, hc, -⟩ := hg.sound.entries d j hj
        exact ⟨c, hc, hg.entry j c hj hc⟩
      · refine ⟨c, hc, ?_⟩
        by_contra hopen
        exact hg.leaving j c hc ⟨by simpa using hopen, Or.inr ⟨delegate, hp⟩⟩
    obtain ⟨c, hc, hclosed⟩ := before
    obtain ⟨c'', hc'', hev⟩ := connection_moves h hc
    obtain rfl := Option.some.inj (hc'.symm.trans hc'')
    exact closed_evolves hev hclosed

theorem Gone.closed (hg : Gone s d) (hq : Quiet s) : Closed s d where
  websockets c hmem hid := by
    obtain ⟨j, hc⟩ := List.mem_iff_getElem?.mp hmem
    rcases hq.handlers c hmem with hp | ⟨hp, hopen⟩
    · exact (hg.sound.connections j c hc).closed (Or.inl hp)
    · exact False.elim (hg.leaving j c hc ⟨hopen, Or.inl ⟨hp, hid⟩⟩)
  entry := by
    cases hj : websocketOf s.connected d with
    | none => rfl
    | some j =>
      obtain ⟨c, hc, -, hlive⟩ := hg.sound.entries d j hj
      have hclosed := hg.entry j c hj hc
      rcases hq.handlers c (List.mem_of_getElem? hc) with hp | ⟨-, hopen⟩
      · exact False.elim (hlive hp)
      · rw [hclosed] at hopen
        cases hopen

theorem closeWebsocket_before {connections : List Connection}
    (hc : (closeWebsocket connections i)[j]? = some c') :
    ∃ c, connections[j]? = some c ∧ c' = if j = i then { c with isOpen := false } else c := by
  have hlt := (List.getElem?_eq_some_iff.mp hc).1
  rw [closeWebsocket_length] at hlt
  have hbefore := List.getElem?_eq_getElem hlt
  refine ⟨connections[j], hbefore, ?_⟩
  exact Option.some.inj (hc.symm.trans (closeWebsocket_getElem? hbefore))

/-- Where only the websocket of the entry stays, the disconnect closes it. -/
theorem Gone.disconnect (hs : s.Sound) (revoked : Revoked s.db d) (only : OnlyEntryStays s d) :
    Gone (disconnect s d) d := by
  have hm : Moves s (.disconnect d) (RestartGateway.disconnect s d) [] := gateway_moves rfl
  refine ⟨hs.step hm, revoked.moves hm, ?_, ?_⟩
  · intro j c' hc' hstays
    unfold RestartGateway.disconnect at hc'
    split at hc'
    · rename_i hnone
      have hentry := only j c' hc' hstays
      rw [hnone] at hentry
      cases hentry
    · rename_i i hi
      obtain ⟨c, hc, rfl⟩ := closeWebsocket_before hc'
      split at hstays
      · cases hstays.1
      · rename_i hne
        have hentry := only j c hc hstays
        rw [hi] at hentry
        exact hne (Option.some.inj hentry).symm
  · intro j c' hj _
    unfold RestartGateway.disconnect at hj
    split at hj
    · rename_i hnone
      rw [hnone] at hj
      cases hj
    · simp only [websocketOf_erase, if_true] at hj
      cases hj

/-- Websocket `i` stays. -/
def StaysAt (d : String) (i : Nat) (s : Gateway) : Prop :=
  ∃ c, s.connections[i]? = some c ∧ Stays c d

/-- The disconnect leaves the websockets that are not in the map. -/
theorem stays_disconnect (hc : s.connections[i]? = some c) (hstays : Stays c d)
    (hother : websocketOf s.connected d ≠ some i) : StaysAt d i (disconnect s d) := by
  unfold disconnect
  split
  · exact ⟨c, hc, hstays⟩
  · rename_i j hj
    refine ⟨c, ?_, hstays⟩
    have hget := closeWebsocket_getElem? (i := j) hc
    rw [if_neg] at hget
    · exact hget
    · rintro rfl
      exact hother hj

/-- How many steps a handler has before it at most. -/
def Connection.steps (c : Connection) : Nat :=
  match c.point with
  | .receiving => if c.isOpen then 0 else 1
  | .lookingUp _ => 3
  | .lookedUp _ _ => 2
  | .rejecting _ _ => 1
  | .finished => 0

def Task.steps : Task → Nat
  | .closing _ => 1
  | _ => 0

def pending (s : Gateway) : Nat :=
  (s.connections.map Connection.steps).sum + (s.tasks.map Task.steps).sum

/-- A handler that is not quiet has a step to take, and what stays goes on to
stay. -/
theorem handler_progress (s : Gateway) (i : Nat) (c : Connection)
    (hn : ¬ (c.point = .finished ∨ c.point = .receiving ∧ c.isOpen = true)) :
    ∃ event c' connected, handlerStep s i c event = some (c', connected) ∧
      Connection.steps c' < Connection.steps c ∧ (Stays c d → Stays c' d) := by
  cases hp : c.point with
  | receiving =>
    have hclosed : c.isOpen = false := by
      by_contra hopen
      exact hn (Or.inr ⟨hp, by simpa using hopen⟩)
    refine ⟨.ended, c.finish, unregister s.connected i c.delegateId, ?_, ?_, ?_⟩
    · simp [handlerStep, hp, hclosed]
    · simp [Connection.steps, Connection.finish, hp, hclosed]
    · intro hstays
      rw [hstays.1] at hclosed
      cases hclosed
  | lookingUp k =>
    refine ⟨.query true, { c with point := .lookedUp k (lookupActiveDelegate s.db k) },
      s.connected, ?_, ?_, ?_⟩
    · simp [handlerStep, hp]
    · simp [Connection.steps, hp]
    · rintro ⟨-, ⟨hr, -⟩ | ⟨_, hr⟩⟩
      · simp [hp] at hr
      · simp [hp] at hr
  | lookedUp k found =>
    cases found with
    | none =>
      refine ⟨.resume,
        { c with point := .rejecting 4003 "delegate unknown or revoked", isOpen := false },
        s.connected, ?_, ?_, ?_⟩
      · simp [handlerStep, hp]
      · simp [Connection.steps, hp]
      · rintro ⟨-, ⟨hr, -⟩ | ⟨_, hr⟩⟩
        · simp [hp] at hr
        · simp [hp] at hr
    | some delegate =>
      refine ⟨.resume, { c with delegateId := some k, point := .receiving },
        s.connected.put ⟨k, i⟩, ?_, ?_, ?_⟩
      · simp [handlerStep, hp]
      · simp only [Connection.steps, hp]
        split <;> omega
      · rintro ⟨hopen, ⟨hr, -⟩ | ⟨_, hr⟩⟩
        · simp [hp] at hr
        · simp only [hp, Point.lookedUp.injEq] at hr
          exact ⟨hopen, Or.inl ⟨rfl, congrArg some hr.1⟩⟩
  | rejecting code reason =>
    refine ⟨.resume, c.finish, unregister s.connected i c.delegateId, ?_, ?_, ?_⟩
    · simp [handlerStep, hp]
    · simp [Connection.steps, Connection.finish, hp]
    · rintro ⟨-, ⟨hr, -⟩ | ⟨_, hr⟩⟩
      · simp [hp] at hr
      · simp [hp] at hr
  | finished => exact False.elim (hn (Or.inl hp))

theorem gateway_progress (hstays : StaysAt d i s) (hn : ¬ Quiet s) :
    ∃ a t o, Free s a ∧ gateway.step s a = some (t, o) ∧ StaysAt d i t ∧ pending t < pending s := by
  by_cases hhandlers : ∀ c ∈ s.connections,
      c.point = .finished ∨ c.point = .receiving ∧ c.isOpen = true
  · have hrequests : ∃ j, .closing j ∈ s.tasks := by
      by_contra hnone
      exact hn ⟨hhandlers, fun j hj => hnone ⟨j, hj⟩⟩
    obtain ⟨j, hmem⟩ := hrequests
    obtain ⟨k, hk⟩ := List.mem_iff_getElem?.mp hmem
    refine ⟨.task k true, { s with tasks := s.tasks.set k (.returned true) }, [], trivial, ?_,
      hstays, ?_⟩
    · simp [gateway, hk, taskStep]
    · have hlt : Task.steps (.returned true) < Task.steps (.closing j) := by simp [Task.steps]
      have hsum := sum_map_set_lt hk hlt
      simp only [pending]
      omega
  · push Not at hhandlers
    obtain ⟨c, hmem, hfinished, hreceiving⟩ := hhandlers
    obtain ⟨j, hc⟩ := List.mem_iff_getElem?.mp hmem
    obtain ⟨event, c', connected, hstep, hlt, hkeeps⟩ := handler_progress (d := d) s j c (by
      rintro (h | ⟨h, hopen⟩)
      · exact hfinished h
      · exact hreceiving h hopen)
    refine ⟨.handler j event,
      { s with connections := s.connections.set j c', connected := connected }, [], trivial,
      ?_, ?_, ?_⟩
    · simp [gateway, hc, hstep]
    · obtain ⟨x, hx, hstaysx⟩ := hstays
      by_cases hij : i = j
      · subst hij
        obtain rfl := Option.some.inj (hx.symm.trans hc)
        exact ⟨c', List.getElem?_set_self (List.getElem?_eq_some_iff.mp hc).1, hkeeps hstaysx⟩
      · exact ⟨x, (List.getElem?_set_ne (Ne.symm hij)).trans hx, hstaysx⟩
    · have hsum := sum_map_set_lt hc hlt
      simp only [pending]
      omega

theorem not_closed_of_stays (hstays : StaysAt d i s) (hq : Quiet s) : ¬ Closed s d := by
  obtain ⟨c, hc, hopen, hp⟩ := hstays
  intro closed
  have hmem := List.mem_of_getElem? hc
  have hid : c.delegateId = some d := by
    rcases hp with ⟨-, hid⟩ | ⟨_, hp⟩
    · exact hid
    · rcases hq.handlers c hmem with hq | ⟨hq, -⟩
      · rw [hp] at hq
        cases hq
      · rw [hp] at hq
        cases hq
  have hclosed := closed.websockets c hmem hid
  rw [hopen] at hclosed
  cases hclosed

end Steps

section Runs
variable {db : DB} {as bs : List Action} {r s t : Gateway} {o o' : List RestartSent} {id : UUID}

/-- The view marks the row of the delegate, and it stays marked. -/
theorem revoked_run (row : r.db.delegate id ≠ none)
    (h : Run gateway Free r (.revoke id :: bs) s o') : Revoked s.db (str id) := by
  obtain ⟨t, _, _, -, hstep, hrest, -⟩ := h.cons_inv
  obtain ⟨delegate, hrow⟩ := Option.ne_none_iff_exists'.mp row
  have marked : Revoked t.db (str id) := by
    cases hstep
    refine ⟨id, { delegate with status := .revoked }, ?_, ?_, rfl⟩
    · simp [uuidField, parse_str]
    · simp [saveDelegateStatus_delegate, hrow]
  exact hrest.state_invariant (fun s => Revoked s.db (str id)) marked
    (fun hr _ hs => hr.moves (gateway_moves hs))

/-- A delegate is revoked and then disconnected. However the gateway goes on, it
is without an open channel for the delegate whenever nothing is pending, exactly
if at the disconnect only the websocket of the entry stays. -/
theorem closed_iff_only_entry_stays (h : Run gateway Free (.start db) as r o)
    (row : r.db.delegate id ≠ none) (h' : Run gateway Free r (.revoke id :: bs) s o') :
    (∀ cs t o₁, Run gateway Free s (.disconnect (str id) :: cs) t o₁ → Quiet t →
        Closed t (str id)) ↔ OnlyEntryStays s (str id) := by
  have hs : s.Sound := sound_run (h.append h')
  have revoked := revoked_run row h'
  have hstep : gateway.step s (.disconnect (str id)) = some (disconnect s (str id), []) := rfl
  have hfirst : Run gateway Free s [.disconnect (str id)] (disconnect s (str id)) [] :=
    Run.single trivial hstep
  constructor
  · intro all i c hc hstays
    by_contra hother
    have hat := stays_disconnect hc hstays hother
    have rests : ∃ cs t o₁, Run gateway Free (disconnect s (str id)) cs t o₁ ∧
        StaysAt (str id) i t ∧ Quiet t :=
      exists_rest (StaysAt (str id) i) Quiet pending
        (fun _ hstays hn => gateway_progress hstays hn) hat
    obtain ⟨cs, t, o₁, hrun, hstayed, hquiet⟩ := rests
    have hclosed := all cs t _ (hfirst.append hrun) hquiet
    exact not_closed_of_stays hstayed hquiet hclosed
  · intro only cs t o₁ hrun hquiet
    obtain ⟨s₁, _, _, -, hstep', hrest, -⟩ := hrun.cons_inv
    obtain ⟨rfl, -⟩ := Prod.mk.inj (Option.some.inj (hstep.symm.trans hstep'))
    have hgone : Gone t (str id) := hrest.state_invariant (fun s => Gone s (str id))
      (Gone.disconnect hs revoked only) (fun hg _ hs => hg.step (gateway_moves hs))
    exact hgone.closed hquiet

/-- The delegate says HELLO and has been found active. -/
def greeted : List Action := [registerSmall] ++ greets 0

def disconnected : List Action := [.disconnect (str 1), .handler 0 .resume]

/-- The row of the delegate is there. -/
def hasRow (s : Gateway) : Bool := decide (s.db.delegate 1 ≠ none)

/-- The only websocket is open, accepted, and awaits messages. -/
def lingers (s : Gateway) : Bool :=
  match s.connections with
  | [c] => c.isOpen && decide (c.point = .receiving) && decide (c.delegateId = some (str 1)) &&
      decide (s.tasks = [.returned false])
  | _ => false

theorem greeted_hasRow :
    (replay gateway (.start DB.empty) greeted).any (fun r => hasRow r.1) = true := by
  decide +kernel

theorem race_lingers :
    (replay gateway (.start DB.empty) (greeted ++ ([.revoke 1] ++ disconnected))).any
      (fun r => lingers r.1) = true := by
  decide +kernel

theorem lingers_quiet (h : lingers s = true) : Quiet s ∧ ¬ Closed s (str 1) := by
  unfold lingers at h
  split at h
  · rename_i c hconnections
    simp only [Bool.and_eq_true, decide_eq_true_eq] at h
    obtain ⟨⟨⟨hopen, hp⟩, hid⟩, htasks⟩ := h
    constructor
    · constructor
      · intro x hx
        rw [hconnections, List.mem_singleton] at hx
        subst hx
        exact Or.inr ⟨hp, hopen⟩
      · simp [htasks]
    · intro closed
      have hclosed := closed.websockets c (by simp [hconnections]) hid
      rw [hopen] at hclosed
      cases hclosed
  · cases h

/-- The run of the race, taken apart. -/
theorem race_runs :
    ∃ r s t o o' o₁, Run gateway Free (.start DB.empty) greeted r o ∧ r.db.delegate 1 ≠ none ∧
      Run gateway Free r [.revoke 1] s o' ∧ Run gateway Free s disconnected t o₁ ∧
      lingers t = true := by
  obtain ⟨r', o', hgreeted, hrow⟩ := run_of_replay_test greeted_hasRow
  obtain ⟨t, o, h, hlingers⟩ := run_of_replay_test race_lingers
  obtain ⟨r, o₀, _, hr, hrest, -⟩ := h.split
  obtain ⟨s, _, _, hs, ht, -⟩ := hrest.split
  obtain ⟨rfl, -⟩ := hgreeted.deterministic hr
  exact ⟨r, s, t, o₀, _, _, hr, of_decide_eq_true hrow, hs, ht, hlingers⟩

theorem race_closed_iff :
    ∃ r s o o', Run gateway Free (.start DB.empty) greeted r o ∧
      Run gateway Free r [.revoke 1] s o' ∧
      ((∀ cs t o₁, Run gateway Free s (.disconnect (str 1) :: cs) t o₁ → Quiet t →
        Closed t (str 1)) ↔ OnlyEntryStays s (str 1)) := by
  obtain ⟨r, s, _, o, o', _, hr, hrow, hs, -, -⟩ := race_runs
  exact ⟨r, s, o, o', hr, hs, closed_iff_only_entry_stays hr hrow hs⟩

theorem channel_open_after_revocation :
    ∃ r s t o o' o₁, Run gateway Free (.start DB.empty) greeted r o ∧ r.db.delegate 1 ≠ none ∧
      Run gateway Free r [.revoke 1] s o' ∧
      Run gateway Free s (.disconnect (str 1) :: [.handler 0 .resume]) t o₁ ∧ Quiet t ∧
      ¬ Closed t (str 1) := by
  obtain ⟨r, s, t, o, o', o₁, hr, hrow, hs, ht, hlingers⟩ := race_runs
  obtain ⟨hquiet, hopen⟩ := lingers_quiet hlingers
  exact ⟨r, s, t, o, o', o₁, hr, hrow, hs, ht, hquiet, hopen⟩

end Runs

end RevokedChannels
