import DelegateProtocol.RestartGateway

/-!
# Websockets that are overtaken

The map has one entry for a delegate. An agent manager that is connected is
reached through it, unless another HELLO of the same delegate was accepted while
its websocket was open; one that was long under way counts as well.
-/

namespace OvertakenChannels

open KeyedTable Models RestartGateway StepMachine

/-- An open websocket that was accepted as `d`. -/
def Accepted (s : Gateway) (d : String) (j : Nat) : Prop :=
  ∃ c, s.connections[j]? = some c ∧ c.delegateId = some d ∧ c.isOpen = true

/-- Every open websocket that was accepted as `d` is the one a RESTART goes to. -/
def Reached (d : String) (s : Gateway) : Prop :=
  ∀ j, Accepted s d j → websocketOf s.connected d = some j

/-- No HELLO is accepted as `d` while another websocket accepted as `d` is open. -/
def Alone (d : String) (s : Gateway) : Action → Prop
  | .handler i .resume => ∀ c delegate, s.connections[i]? = some c →
      c.point = .lookedUp d (some delegate) → ∀ j, Accepted s d j → j = i
  | _ => True

section Steps
variable {s t : Gateway} {a : Action} {o : List RestartSent} {i j : Nat} {c c' : Connection}
variable {connected : Table Entry.delegateId} {d : String} {event : Event}

theorem accepted_close (h : (closeWebsocket s.connections i)[j]? = some c')
    (hopen : c'.isOpen = true) :
    j ≠ i ∧ s.connections[j]? = some c' := by
  have hlt := (List.getElem?_eq_some_iff.mp h).1
  rw [closeWebsocket_length] at hlt
  have hget := closeWebsocket_getElem? (i := i) (List.getElem?_eq_getElem hlt)
  rw [h, Option.some.injEq] at hget
  split at hget
  · rw [hget] at hopen
    cases hopen
  · rename_i hne
    rw [hget]
    exact ⟨hne, List.getElem?_eq_getElem hlt⟩

/-- The step of a handler that accepts nothing as `d` leaves `d` reached. -/
theorem reached_turn (hr : Reached d s) (hc : s.connections[i]? = some c)
    (turn : Turn s i c event c' connected)
    (alone : event = .resume → ∀ delegate, c.point = .lookedUp d (some delegate) →
      ∀ j, Accepted s d j → j = i) :
    Reached d { s with connections := s.connections.set i c', connected := connected } := by
  rintro j ⟨x, hx, hid, hopen⟩
  have keep (hne : j ≠ i) (hx : s.connections[j]? = some x) :
      websocketOf s.connected d = some j := hr j ⟨x, hx, hid, hopen⟩
  rcases getElem?_set_cases hc hx with ⟨rfl, rfl⟩ | ⟨hne, hold⟩
  · cases turn with
    | ignore => exact hr j ⟨_, hc, hid, hopen⟩
    | lookUp => exact hr j ⟨c, hc, hid, hopen⟩
    | reject => cases hopen
    | query => exact hr j ⟨c, hc, hid, hopen⟩
    | register hp =>
      cases hid
      exact (websocketOf_put _ _).trans (if_pos rfl)
    | finish => cases hopen
  · cases turn with
    | @register e delegate hp =>
      refine (websocketOf_put _ _).trans ?_
      by_cases he : e = d
      · subst he
        exact False.elim (hne (alone rfl delegate hp j ⟨x, hold, hid, hopen⟩))
      · rw [if_neg he]
        exact keep hne hold
    | finish => exact unregister_some.mpr ⟨keep hne hold, fun own => hne own.1⟩
    | _ => exact keep hne hold

theorem reached_moves (hr : Reached d s) (hm : Moves s a t o) (alone : Alone d s a) :
    Reached d t := by
  cases hm with
  | connect =>
    rintro j ⟨x, hx, hid, hopen⟩
    rcases getElem?_concat_cases hx with hx | ⟨-, rfl⟩
    · exact hr j ⟨x, hx, hid, hopen⟩
    · cases hid
  | drop =>
    rintro j ⟨x, hx, hid, hopen⟩
    exact hr j ⟨x, (accepted_close hx hopen).2, hid, hopen⟩
  | @handler i c c' event connected hc turn =>
    refine reached_turn hr hc turn ?_
    rintro rfl delegate hp
    exact alone c delegate hc hp
  | @disconnect e i hi =>
    rintro j ⟨x, hx, hid, hopen⟩
    obtain ⟨hne, hx⟩ := accepted_close hx hopen
    have hj := hr j ⟨x, hx, hid, hopen⟩
    refine (websocketOf_erase _ _).trans ?_
    rw [if_neg, hj]
    rintro rfl
    exact hne (Option.some.inj (hj.symm.trans hi))
  | _ => exact hr

theorem alone_of_reached (hs : gateway.step s a = some (t, o)) (hr : Reached d t) :
    Alone d s a := by
  cases a with
  | handler i event =>
    cases event with
    | resume =>
      rintro c delegate hc hp j ⟨x, hx, hid, hopen⟩
      have hentered : gateway.step s (.handler i .resume) = some ({ s with
          connections := s.connections.set i { c with delegateId := some d, point := .receiving }
          connected := s.connected.put ⟨d, i⟩ }, []) := by
        simp [gateway, hc, handlerStep, hp]
      obtain ⟨rfl, -⟩ := Prod.mk.inj (Option.some.inj (hentered.symm.trans hs))
      by_contra hne
      have hj := hr j ⟨x, (List.getElem?_set_ne (Ne.symm hne)).trans hx, hid, hopen⟩
      have hi : websocketOf (s.connected.put ⟨d, i⟩) d = some i :=
        (websocketOf_put d d).trans (if_pos rfl)
      exact hne (Option.some.inj (hj.symm.trans hi))
    | _ => trivial
  | _ => trivial

end Steps

/-- Along a run every agent manager that is connected as `d` can be reached, exactly
if no HELLO was accepted as `d` while another websocket accepted as `d` was
open. -/
theorem reached_iff_alone {db : DB} {as : List Action} {s : Gateway} {o : List RestartSent}
    (h : Run gateway Free (.start db) as s o) (d : String) :
    (∀ bs t o', bs <+: as → Run gateway Free (.start db) bs t o' → Reached d t) ↔
      Run gateway (Alone d) (.start db) as s o := by
  have start : Reached d (.start db) := by
    rintro j ⟨c, hc, -⟩
    simp [Gateway.start] at hc
  have decides := h.always_iff (fun _ => True) (Reached d) ⟨trivial, start⟩ (fun _ _ _ => trivial)
    (fun _ hr _ hs => ⟨alone_of_reached hs, reached_moves hr (gateway_moves hs)⟩)
  rw [decides, run_free_and_iff]

/-- A test for `Alone`: no other websocket accepted as `d` is open. -/
def noOther (d : String) (s : Gateway) : Action → Bool
  | .handler i .resume => s.connections.zipIdx.all (fun p =>
      decide (p.1.delegateId = some d → p.1.isOpen = true → p.2 = i))
  | _ => true

theorem noOther_alone {d : String} {s : Gateway} {a : Action} (h : noOther d s a = true) :
    Alone d s a := by
  cases a with
  | handler i event =>
    cases event with
    | resume =>
      rintro c delegate hc hp j ⟨x, hx, hid, hopen⟩
      have hmem : (x, j) ∈ s.connections.zipIdx := List.mem_zipIdx_iff_getElem?.mpr hx
      exact of_decide_eq_true (List.all_eq_true.mp h _ hmem) hid hopen
    | _ => trivial
  | _ => trivial

/-- The first websocket is gone before the second one says HELLO. -/
def comesAgain : List Action :=
  [registerSmall] ++ greets 0 ++ [.handler 0 .resume, .drop 0] ++ greets 1 ++ [.handler 1 .resume]

/-- The first HELLO waits for the database until the second one has been accepted. -/
def lateHello : List Action :=
  [registerSmall, .connect (some smallCert), .handler 0 (.receive (hello smallId)), .drop 0] ++
    greets 1 ++
    [.handler 1 .resume, .handler 0 (.query true), .handler 0 .resume, .handler 0 .ended]

theorem comesAgain_reached :
    ∃ s o, Run gateway Free (.start DB.empty) comesAgain s o ∧
      websocketOf s.connected smallId = some 1 ∧
      ∀ bs t o', bs <+: comesAgain → Run gateway Free (.start DB.empty) bs t o' →
        Reached smallId t := by
  have hrun : (replay (gateway.guarded (fun s a => noOther smallId s a = true))
      (.start DB.empty) comesAgain).any
      (fun r => decide (websocketOf r.1.connected smallId = some 1)) = true := by decide +kernel
  obtain ⟨s, o, hr, hentry⟩ := guarded_run_of_replay_test hrun
  exact ⟨s, o, hr.free, of_decide_eq_true hentry,
    (reached_iff_alone hr.free smallId).mpr (hr.mono (fun _ _ => noOther_alone))⟩

/-- The second websocket stays open, and no RESTART can reach it. -/
example : (replay gateway (.start DB.empty) lateHello).any (fun r =>
    decide (r.1.connections[1]?.map Connection.isOpen = some true) &&
      decide (r.1.connections[1]?.map Connection.delegateId = some (some smallId)) &&
      decide (websocketOf r.1.connected smallId = none)) = true := by
  decide +kernel

end OvertakenChannels
