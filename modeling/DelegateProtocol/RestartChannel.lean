import DelegateProtocol.AgentManager

/-!
# What a request for a restart leads to

A request writes one RESTART at most, to a peer that is authenticated as the
delegate, and its response says whether it did. On the other side every round of
restarts has a request of its own behind it.
-/

namespace RestartChannel

open AgentManager KeyedTable Models RestartGateway Runtime StepMachine

section Paths
variable {marker path rest d : String}

theorem after_some : after marker path = some rest ↔ path = marker ++ rest := by
  unfold after
  constructor
  · intro h
    split at h
    · rename_i hp
      obtain ⟨tail, ht⟩ := List.isPrefixOf_iff_prefix.mp hp
      cases h
      apply String.toList_inj.mp
      rw [String.toList_append, String.toList_ofList, ← ht, List.drop_left]
    · cases h
  · rintro rfl
    rw [if_pos]
    · rw [String.toList_append, List.drop_left, String.ofList_toList]
    · rw [List.isPrefixOf_iff_prefix, String.toList_append]
      exact List.prefix_append _ _

theorem route_restart : route path = some (.restart d) ↔ path = "/restart/" ++ d := by
  unfold route
  cases h : after "/restart/" path with
  | none =>
    have hne : path ≠ "/restart/" ++ d := fun he => by simp [after_some.mpr he] at h
    cases hd : after "/disconnect/" path <;> simp [hne]
  | some e =>
    have hp := after_some.mp h
    simp only [Option.some.injEq, Route.restart.injEq]
    constructor
    · rintro rfl
      exact hp
    · intro hd
      exact Option.some.inj (h.symm.trans (after_some.mpr hd))

end Paths

inductive Calls (s : Endpoint) : Call → Endpoint → List Told → Prop
  | unknown {path : String} : route path = none → Calls s (.post path) s []
  | post {path : String} {r : Route} : route path = some r →
      Calls s (.post path) ⟨r.start s.gateway, s.requests ++ [⟨r, .waiting⟩]⟩ []
  | reply {k : Nat} {r : Route} {task : Task} {done : Request} :
      s.requests[k]? = some ⟨r, .waiting⟩ → s.gateway.tasks[k]? = some task →
      Request.result ⟨r, .waiting⟩ task = some done →
      Calls s (.reply k) { s with requests := s.requests.set k done } []
  | timeout {k : Nat} {r : Request} : s.requests[k]? = some r →
      Calls s (.timeout k) { s with requests := s.requests.set k r.fail } []
  | gateway {action : Action} {g : Gateway} {sent : List RestartSent} :
      startsTask action = false → gateway.step s.gateway action = some (g, sent) →
      Calls s (.gateway action) { s with gateway := g }
        (sent.map (fun r => ⟨request action, r⟩))
  | crash : Calls s .crash ⟨crashed s.gateway, s.requests.map Request.fail⟩ []

section Steps
variable {s t : Endpoint} {call : Call} {told : List Told} {g g' : Gateway} {k : Nat}

theorem endpoint_calls (h : endpoint.step s call = some (t, told)) : Calls s call t told := by
  cases call with
  | post path =>
    simp only [endpoint] at h
    cases hr : route path with
    | none =>
      simp only [hr] at h
      cases h
      exact .unknown hr
    | some r =>
      simp only [hr] at h
      cases h
      exact .post hr
  | reply k =>
    simp only [endpoint] at h
    split at h
    · rename_i r task hr htask
      obtain ⟨done, hdone, he⟩ := Option.map_eq_some_iff.mp h
      cases he
      exact .reply hr htask hdone
    · cases h
  | timeout k =>
    simp only [endpoint] at h
    cases hr : s.requests[k]? with
    | none => simp [hr] at h
    | some r =>
      simp only [hr] at h
      cases h
      exact .timeout hr
  | gateway action =>
    simp only [endpoint] at h
    split at h
    · cases h
    · rename_i hstarts
      obtain ⟨⟨g, sent⟩, hstep, he⟩ := Option.map_eq_some_iff.mp h
      cases he
      exact .gateway (by simpa using hstarts) hstep
  | crash =>
    cases h
    exact .crash

theorem start_step (r : Route) : ∃ action, gateway.step g action = some (r.start g, []) := by
  cases r with
  | restart d => exact ⟨.sendRestart d, rfl⟩
  | disconnect d => exact ⟨.disconnect d, rfl⟩

theorem crashed_sound (h : g.Sound) : (crashed g).Sound where
  connections i c hc := by
    simp only [crashed, List.getElem?_map, Option.map_eq_some_iff] at hc
    obtain ⟨x, hx, rfl⟩ := hc
    have turn : Turn g i x .ended x.finish (unregister g.connected i x.delegateId) := .finish
    exact (h.connections i x hx).turn turn
  entries d i hd := by cases hd
  writing d i hmem := by
    obtain ⟨_, _, he⟩ := List.mem_map.mp hmem
    cases he

/-- The gateway stays sound, whatever it is asked to do. -/
theorem Calls.sound (h : Calls s call t told) (hs : s.gateway.Sound) : t.gateway.Sound := by
  cases h with
  | @post path r _ =>
    obtain ⟨action, hstep⟩ := start_step (g := s.gateway) r
    exact hs.step (gateway_moves hstep)
  | gateway _ hstep => exact hs.step (gateway_moves hstep)
  | crash => exact crashed_sound hs
  | _ => exact hs

/-- Only the step of a task changes the tasks, and only it writes. -/
theorem gateway_tasks {action : Action} {sent : List RestartSent}
    (hstarts : startsTask action = false) (h : gateway.step g action = some (g', sent)) :
    (∃ k ok task task' db, action = .task k ok ∧ g.tasks[k]? = some task ∧
      taskStep g task ok = some (task', db, sent) ∧ g'.tasks = g.tasks.set k task' ∧
      g'.connections = g.connections) ∨ g'.tasks = g.tasks ∧ sent = [] := by
  cases action with
  | sendRestart d => cases hstarts
  | disconnect d => cases hstarts
  | task k ok =>
    left
    simp only [gateway] at h
    cases hk : g.tasks[k]? with
    | none => simp [hk] at h
    | some task =>
      simp only [hk] at h
      cases hs : taskStep g task ok with
      | none => simp [hs] at h
      | some r =>
        obtain ⟨task', db, sent'⟩ := r
        simp only [hs] at h
        cases h
        exact ⟨k, ok, task, task', db, rfl, hk, hs, rfl, rfl⟩
  | handler i event =>
    right
    simp only [gateway] at h
    split at h
    · cases h
    · split at h
      · cases h
      · cases h
        exact ⟨rfl, rfl⟩
  | connect peercert =>
    cases h
    exact Or.inr ⟨rfl, rfl⟩
  | drop i =>
    cases h
    exact Or.inr ⟨rfl, rfl⟩
  | register body concurrency delegateId =>
    simp only [gateway] at h
    split at h
    · cases h
    · cases h
      exact Or.inr ⟨rfl, rfl⟩
  | revoke id =>
    cases h
    exact Or.inr ⟨rfl, rfl⟩

def sentFor (k : Nat) (told : List Told) : List RestartSent :=
  (told.filter (fun x => decide (x.request = k))).map Told.restart

/-- How far the task of a request has come says what the request has written. -/
def Fits (r : Route) (task : Task) (sent : List RestartSent) : Prop :=
  match r, task with
  | .restart d, .writing d' _ => d' = d ∧ sent = []
  | .restart d, .checking _ => ∃ i, sent = [⟨i, d⟩]
  | .restart d, .auditing _ => ∃ i, sent = [⟨i, d⟩]
  | .restart d, .returned true => ∃ i, sent = [⟨i, d⟩]
  | .restart _, .returned false => sent = []
  | .restart d, .raised => sent = [] ∨ ∃ i, sent = [⟨i, d⟩]
  | .disconnect _, .closing _ => sent = []
  | .disconnect _, .returned _ => sent = []
  | .disconnect _, .raised => sent = []
  | _, _ => False

def Ended (task : Task) : Prop := task = .raised ∨ ∃ done, task = .returned done

/-- What a response says of a restart. -/
def Says (r : Route) (response : Response) (sent : List RestartSent) : Prop :=
  ∃ done, response = r.response done ∧ Fits r (.returned done) sent

/-- Every request is beside its task, which fits what it has written, and so does
the response. -/
structure Accounted (s : Endpoint) (told : List Told) : Prop where
  aligned : s.requests.length = s.gateway.tasks.length
  fits : ∀ (k : Nat) (r : Request) (task : Task), s.requests[k]? = some r →
    s.gateway.tasks[k]? = some task → Fits r.route task (sentFor k told)
  answered : ∀ (k : Nat) (r : Request) (response : Response), s.requests[k]? = some r →
    r.progress = .answered response →
    Says r.route response (sentFor k told) ∧ ∀ task, s.gateway.tasks[k]? = some task → Ended task
  known : ∀ x ∈ told, x.request < s.requests.length

variable {r : Route} {task task' : Task} {sent sent' : List RestartSent}

theorem sentFor_append (told' : List Told) :
    sentFor k (told ++ told') = sentFor k told ++ sentFor k told' := by
  simp [sentFor]

theorem sentFor_map (n : Nat) :
    sentFor k (sent.map (fun x => ⟨n, x⟩)) = if n = k then sent else [] := by
  unfold sentFor
  by_cases h : n = k
  · simp [h, List.filter_map, Function.comp_def]
  · simp [h, List.filter_map, Function.comp_def]

theorem sentFor_new (known : ∀ x ∈ told, x.request < k) : sentFor k told = [] := by
  simp only [sentFor, List.map_eq_nil_iff, List.filter_eq_nil_iff, decide_eq_true_eq]
  intro x hx he
  exact absurd (known x hx) (by omega)

theorem Fits.few (h : Fits r task sent) : sent = [] ∨ ∃ i d, r = .restart d ∧ sent = [⟨i, d⟩] := by
  unfold Fits at h
  split at h
  · exact Or.inl h.2
  · obtain ⟨i, rfl⟩ := h
    exact Or.inr ⟨i, _, rfl, rfl⟩
  · obtain ⟨i, rfl⟩ := h
    exact Or.inr ⟨i, _, rfl, rfl⟩
  · obtain ⟨i, rfl⟩ := h
    exact Or.inr ⟨i, _, rfl, rfl⟩
  · exact Or.inl h
  · rcases h with h | ⟨i, rfl⟩
    · exact Or.inl h
    · exact Or.inr ⟨i, _, rfl, rfl⟩
  · exact Or.inl h
  · exact Or.inl h
  · exact Or.inl h
  · cases h

theorem Fits.raise (h : Fits r task sent) : Fits r .raised sent := by
  rcases h.few with rfl | ⟨i, d, rfl, rfl⟩
  · cases r with
    | restart d => exact Or.inl rfl
    | disconnect d => rfl
  · exact Or.inr ⟨i, rfl⟩

theorem Fits.step {ok : Bool} {db : DB} (h : Fits r task sent)
    (hs : taskStep g task ok = some (task', db, sent')) : Fits r task' (sent ++ sent') := by
  cases task with
  | writing d i =>
    cases r with
    | disconnect e => cases h
    | restart e =>
      obtain ⟨rfl, rfl⟩ := h
      simp only [taskStep] at hs
      split at hs
      · cases hs
      · split at hs
        · cases hs
          exact ⟨i, rfl⟩
        · cases hs
          exact Or.inl rfl
  | checking d =>
    cases r with
    | disconnect e => cases h
    | restart e =>
      obtain ⟨i, rfl⟩ := h
      simp only [taskStep] at hs
      split at hs
      · cases hs
        exact ⟨i, rfl⟩
      · cases hs
        exact ⟨i, rfl⟩
  | auditing delegate =>
    cases r with
    | disconnect e => cases h
    | restart e =>
      obtain ⟨i, rfl⟩ := h
      simp only [taskStep] at hs
      split at hs
      · cases hs
        exact ⟨i, rfl⟩
      · cases hs
        exact Or.inr ⟨i, rfl⟩
  | closing i =>
    cases hs
    cases r with
    | restart e => cases h
    | disconnect e =>
      obtain rfl := h
      rfl
  | returned done => cases hs
  | raised => cases hs

theorem Ended.step {ok : Bool} (h : Ended task) : taskStep g task ok = none := by
  rcases h with rfl | ⟨done, rfl⟩
  · rfl
  · rfl

/-- A request starts with nothing written. -/
theorem start_task (r : Route) :
    ∃ task, (r.start g).tasks = g.tasks ++ [task] ∧ Fits r task [] := by
  cases r with
  | restart d =>
    simp only [Route.start, sendRestart]
    split
    · exact ⟨_, rfl, rfl⟩
    · exact ⟨_, rfl, rfl, rfl⟩
  | disconnect d =>
    simp only [Route.start, RestartGateway.disconnect]
    split
    · exact ⟨_, rfl, rfl⟩
    · exact ⟨_, rfl, rfl⟩

theorem fail_route (r : Request) : r.fail.route = r.route := by
  unfold Request.fail
  split
  · rfl
  · rfl

theorem fail_answered {r : Request} {response : Response}
    (h : r.fail.progress = .answered response) :
    r.progress = .answered response := by
  unfold Request.fail at h
  split at h
  · cases h
  · exact h

theorem Accounted.start (db : DB) : Accounted (.start db) [] where
  aligned := rfl
  fits k r task hr _ := by simp [Endpoint.start] at hr
  answered k r response hr _ := by simp [Endpoint.start] at hr
  known x hx := by cases hx

theorem Accounted.post (h : Accounted s told) (r : Route) :
    Accounted ⟨r.start s.gateway, s.requests ++ [⟨r, .waiting⟩]⟩ told := by
  obtain ⟨task, htasks, hfits⟩ := start_task (g := s.gateway) r
  have hnew : sentFor s.requests.length told = [] := sentFor_new h.known
  constructor
  · simp [htasks, h.aligned]
  · intro k x task' hx htask
    rw [htasks] at htask
    rcases getElem?_concat_cases hx with hx | ⟨rfl, rfl⟩
    · rcases getElem?_concat_cases htask with htask | ⟨hk, -⟩
      · exact h.fits k x task' hx htask
      · have hlt := (List.getElem?_eq_some_iff.mp hx).1
        rw [h.aligned, hk] at hlt
        omega
    · rw [h.aligned, List.getElem?_concat_length] at htask
      obtain rfl := Option.some.inj htask
      rw [hnew]
      exact hfits
  · intro k x response hx hp
    rcases getElem?_concat_cases hx with hx | ⟨-, rfl⟩
    · obtain ⟨htold, hended⟩ := h.answered k x response hx hp
      refine ⟨htold, fun task' htask => ?_⟩
      rw [htasks] at htask
      rcases getElem?_concat_cases htask with htask | ⟨hk, -⟩
      · exact hended task' htask
      · have hlt := (List.getElem?_eq_some_iff.mp hx).1
        rw [h.aligned, hk] at hlt
        omega
    · cases hp
  · intro x hx
    have := h.known x hx
    simp only [List.length_append, List.length_singleton]
    omega

/-- A request whose progress changes. -/
theorem Accounted.setRequest (h : Accounted s told) {x y : Request} (hx : s.requests[k]? = some x)
    (same : y.route = x.route)
    (answered : ∀ response, y.progress = .answered response → x.progress = .answered response ∨
      ∃ done, response = y.route.response done ∧ s.gateway.tasks[k]? = some (.returned done)) :
    Accounted { s with requests := s.requests.set k y } told := by
  constructor
  · simp [h.aligned]
  · intro j z task hz htask
    rcases getElem?_set_cases hx hz with ⟨rfl, rfl⟩ | ⟨-, hz⟩
    · rw [same]
      exact h.fits j x task hx htask
    · exact h.fits j z task hz htask
  · intro j z response hz hp
    rcases getElem?_set_cases hx hz with ⟨rfl, rfl⟩ | ⟨-, hz⟩
    · rcases answered response hp with hp | ⟨done, rfl, htask⟩
      · rw [same]
        exact h.answered j x response hx hp
      · refine ⟨⟨done, rfl, same ▸ h.fits j x _ hx htask⟩, fun task ht => ?_⟩
        exact Or.inr ⟨done, Option.some.inj (ht.symm.trans htask)⟩
    · exact h.answered j z response hz hp
  · intro z hz
    simpa using h.known z hz

theorem Accounted.gateway (h : Accounted s told) {action : Action}
    (hstarts : startsTask action = false)
    (hstep : RestartGateway.gateway.step s.gateway action = some (g, sent)) :
    Accounted { s with gateway := g } (told ++ sent.map (fun r => ⟨request action, r⟩)) := by
  rcases gateway_tasks hstarts hstep with
    ⟨n, ok, old, next, db, rfl, hold, hs, htasks, -⟩ | ⟨htasks, rfl⟩
  · have hlt : n < s.requests.length := by
      rw [h.aligned]
      exact (List.getElem?_eq_some_iff.mp hold).1
    constructor
    · simp [htasks, h.aligned]
    · intro k r task hr htask
      change g.tasks[k]? = some task at htask
      rw [htasks] at htask
      rw [sentFor_append, sentFor_map]
      rcases getElem?_set_cases hold htask with ⟨rfl, rfl⟩ | ⟨hne, htask⟩
      · rw [request, if_pos rfl]
        exact (h.fits k r old hr hold).step hs
      · rw [request, if_neg (Ne.symm hne), List.append_nil]
        exact h.fits k r task hr htask
    · intro k r response hr hp
      obtain ⟨htold, hended⟩ := h.answered k r response hr hp
      have hne : n ≠ k := by
        rintro rfl
        rw [(hended old hold).step] at hs
        cases hs
      rw [sentFor_append, sentFor_map, request, if_neg hne, List.append_nil]
      refine ⟨htold, fun task htask => ?_⟩
      change g.tasks[k]? = some task at htask
      rw [htasks, List.getElem?_set_ne hne] at htask
      exact hended task htask
    · intro x hx
      rcases List.mem_append.mp hx with hx | hx
      · exact h.known x hx
      · obtain ⟨_, -, rfl⟩ := List.mem_map.mp hx
        exact hlt
  · rw [List.map_nil, List.append_nil]
    refine ⟨h.aligned.trans (congrArg List.length htasks.symm), ?_, ?_, h.known⟩
    · intro k r task hr htask
      exact h.fits k r task hr (htasks ▸ htask)
    · intro k r response hr hp
      obtain ⟨htold, hended⟩ := h.answered k r response hr hp
      exact ⟨htold, fun task htask => hended task (htasks ▸ htask)⟩

theorem Accounted.crash (h : Accounted s told) :
    Accounted ⟨crashed s.gateway, s.requests.map Request.fail⟩ told where
  aligned := by simp [crashed, h.aligned]
  fits k r task hr htask := by
    simp only [List.getElem?_map, Option.map_eq_some_iff] at hr
    simp only [crashed, List.getElem?_map, Option.map_eq_some_iff] at htask
    obtain ⟨x, hx, rfl⟩ := hr
    obtain ⟨old, hold, rfl⟩ := htask
    rw [fail_route]
    exact (h.fits k x old hx hold).raise
  answered k r response hr hp := by
    simp only [List.getElem?_map, Option.map_eq_some_iff] at hr
    obtain ⟨x, hx, rfl⟩ := hr
    obtain ⟨htold, -⟩ := h.answered k x response hx (fail_answered hp)
    refine ⟨fail_route x ▸ htold, fun task htask => ?_⟩
    simp only [crashed, List.getElem?_map, Option.map_eq_some_iff] at htask
    obtain ⟨_, _, rfl⟩ := htask
    exact Or.inl rfl
  known x hx := by
    rw [List.length_map]
    exact h.known x hx

theorem result_some {r : Request} {task : Task} {done : Request} (h : r.result task = some done) :
    done.route = r.route ∧ ∀ response, done.progress = .answered response →
      ∃ b, response = r.route.response b ∧ task = .returned b := by
  unfold Request.result at h
  split at h
  · rename_i b
    cases h
    refine ⟨rfl, fun response hp => ?_⟩
    cases hp
    exact ⟨b, rfl, rfl⟩
  · cases h
    exact ⟨rfl, fun response hp => by cases hp⟩
  · cases h

theorem Accounted.step {told' : List Told} (h : Accounted s told) (hc : Calls s call t told') :
    Accounted t (told ++ told') := by
  cases hc with
  | unknown _ => simpa using h
  | post _ => simpa using h.post _
  | reply hr htask hdone =>
    obtain ⟨hroute, hresponse⟩ := result_some hdone
    have hset := h.setRequest hr hroute (fun response hp => by
      obtain ⟨b, rfl, rfl⟩ := hresponse response hp
      exact Or.inr ⟨b, by rw [hroute], htask⟩)
    simpa using hset
  | @timeout k r hr =>
    have hset := h.setRequest hr (fail_route r) (fun response hp => Or.inl (fail_answered hp))
    simpa using hset
  | gateway hstarts hstep => exact h.gateway hstarts hstep
  | crash => simpa using h.crash

/-- A connection stays, with the certificate its peer has shown. -/
theorem Calls.connection (h : Calls s call t told) {i : Nat} {c : Connection}
    (hc : s.gateway.connections[i]? = some c) :
    ∃ c', t.gateway.connections[i]? = some c' ∧ c'.peercert = c.peercert := by
  cases h with
  | @post path r _ =>
    obtain ⟨action, hstep⟩ := start_step (g := s.gateway) r
    obtain ⟨c', hc', hev⟩ := connection_moves (gateway_moves hstep) hc
    exact ⟨c', hc', hev.peercert⟩
  | gateway _ hstep =>
    obtain ⟨c', hc', hev⟩ := connection_moves (gateway_moves hstep) hc
    exact ⟨c', hc', hev.peercert⟩
  | crash =>
    refine ⟨c.finish, ?_, rfl⟩
    simp [crashed, hc]
  | _ => exact ⟨c, hc, rfl⟩

/-- Only peers open connections. -/
theorem Calls.certs (h : Calls s call t told)
    (hconnect : ∀ peercert, call ≠ .gateway (.connect peercert)) :
    t.gateway.connections.map Connection.peercert =
      s.gateway.connections.map Connection.peercert := by
  have step {action : Action} {g : Gateway} {sent : List RestartSent}
      (hne : ∀ peercert, action ≠ .connect peercert)
      (hs : RestartGateway.gateway.step s.gateway action = some (g, sent)) :
      g.connections.map Connection.peercert = s.gateway.connections.map Connection.peercert := by
    apply List.ext_getElem?
    intro j
    rw [List.getElem?_map, List.getElem?_map]
    cases hc : g.connections[j]? with
    | some c' =>
      rcases connection_before (gateway_moves hs) hc with ⟨c, hc', hev⟩ | ⟨peercert, he, -⟩
      · rw [hc']
        exact congrArg some hev.peercert
      · exact False.elim (hne peercert he)
    | none =>
      cases hc' : s.gateway.connections[j]? with
      | none => rfl
      | some c =>
        obtain ⟨c'', hc'', -⟩ := connection_moves (gateway_moves hs) hc'
        rw [hc] at hc''
        cases hc''
  cases h with
  | @post path r _ =>
    cases r with
    | restart d =>
      have hs : RestartGateway.gateway.step s.gateway (.sendRestart d) =
          some (sendRestart s.gateway d, []) := rfl
      exact step (by simp) hs
    | disconnect d =>
      have hs : RestartGateway.gateway.step s.gateway (.disconnect d) =
          some (RestartGateway.disconnect s.gateway d, []) := rfl
      exact step (by simp) hs
  | gateway _ hs => exact step (fun peercert he => hconnect peercert (congrArg Call.gateway he)) hs
  | crash =>
    simp only [crashed, List.map_map]
    rfl
  | _ => rfl

/-- What a call writes goes to a peer that is authenticated as the delegate. -/
theorem Calls.forPeer (h : Calls s call t told) (hs : s.gateway.Sound) {x : Told} (hx : x ∈ told) :
    ForPeer t.gateway.connections x.restart := by
  have before : ForPeer s.gateway.connections x.restart := by
    cases h with
    | gateway _ hstep =>
      obtain ⟨r, hr, rfl⟩ := List.mem_map.mp hx
      exact hs.writing _ _ (sent_moves (gateway_moves hstep) hr)
    | _ => cases hx
  obtain ⟨c, hc, hcert⟩ := before
  obtain ⟨c', hc', hsame⟩ := h.connection hc
  exact ⟨c', hc', hsame ▸ hcert⟩

end Steps

section Runs
variable {db : DB} {calls : List Call} {s : Endpoint} {told : List Told} {k : Nat} {r : Request}

/-- What holds of the endpoint after any run of it. -/
structure Kept (s : Endpoint) (told : List Told) : Prop where
  sound : s.gateway.Sound
  accounted : Accounted s told
  peers : ∀ x ∈ told, ForPeer s.gateway.connections x.restart

theorem Kept.start (db : DB) : Kept (.start db) [] :=
  ⟨.start db, .start db, by simp⟩

theorem Kept.step {t : Endpoint} {call : Call} {told' : List Told} (h : Kept s told)
    (hc : Calls s call t told') : Kept t (told ++ told') where
  sound := hc.sound h.sound
  accounted := h.accounted.step hc
  peers x hx := by
    rcases List.mem_append.mp hx with hx | hx
    · obtain ⟨c, hget, hcert⟩ := h.peers x hx
      obtain ⟨c', hget', hsame⟩ := hc.connection hget
      exact ⟨c', hget', hsame ▸ hcert⟩
    · exact hc.forPeer h.sound hx

theorem kept_run (h : Run endpoint Free (.start db) calls s told) : Kept s told :=
  h.invariant Kept (.start db) (fun hk _ hs => hk.step (endpoint_calls hs))

/-- However requests overlap, time out and are cut off by a crash: a request for
a restart writes one RESTART at most, to a peer that is authenticated as the
delegate it names; the response is 200 if it has written one, and 404 if it has
not; and there is no RESTART without a request. -/
theorem answered_exactly (h : Run endpoint Free (.start db) calls s told) :
    (∀ (k : Nat) (r : Request) d, s.requests[k]? = some r → r.route = .restart d →
      (sentFor k told).length ≤ 1 ∧
      (∀ sent ∈ sentFor k told, sent.delegateId = d ∧ ForPeer s.gateway.connections sent) ∧
      ∀ response, r.progress = .answered response →
        response.code = 200 ∧ (sentFor k told).length = 1 ∨
          response.code = 404 ∧ sentFor k told = []) ∧
    ∀ x ∈ told, ∃ r, s.requests[x.request]? = some r ∧
      r.route = .restart x.restart.delegateId := by
  obtain ⟨-, hacc, hpeers⟩ := kept_run h
  have fits (k : Nat) (r : Request) (hr : s.requests[k]? = some r) :
      ∃ task, Fits r.route task (sentFor k told) := by
    have hlt := (List.getElem?_eq_some_iff.mp hr).1
    rw [hacc.aligned] at hlt
    exact ⟨_, hacc.fits k r _ hr (List.getElem?_eq_getElem hlt)⟩
  have mem {k : Nat} {sent : RestartSent} : sent ∈ sentFor k told ↔ ⟨k, sent⟩ ∈ told := by
    simp only [sentFor, List.mem_map, List.mem_filter, decide_eq_true_eq]
    constructor
    · rintro ⟨x, ⟨hx, rfl⟩, rfl⟩
      exact hx
    · intro hx
      exact ⟨_, ⟨hx, rfl⟩, rfl⟩
  constructor
  · intro k r d hr hroute
    obtain ⟨task, hfits⟩ := fits k r hr
    refine ⟨?_, ?_, ?_⟩
    · rcases hfits.few with he | ⟨i, e, -, he⟩
      · simp [he]
      · simp [he]
    · intro sent hsent
      refine ⟨?_, hpeers ⟨k, sent⟩ (mem.mp hsent)⟩
      rcases hfits.few with he | ⟨i, e, hroute', he⟩
      · rw [he] at hsent
        cases hsent
      · rw [he] at hsent
        obtain rfl := List.mem_singleton.mp hsent
        rw [hroute] at hroute'
        cases hroute'
        rfl
    · intro response hp
      obtain ⟨⟨done, rfl, htold⟩, -⟩ := hacc.answered k r response hr hp
      rw [hroute] at htold ⊢
      cases done with
      | true =>
        obtain ⟨i, he⟩ := htold
        exact Or.inl ⟨rfl, by simp [he]⟩
      | false => exact Or.inr ⟨rfl, htold⟩
  · intro x hx
    have hlt := hacc.known x hx
    have hr := List.getElem?_eq_getElem hlt
    refine ⟨_, hr, ?_⟩
    obtain ⟨task, hfits⟩ := fits _ _ hr
    have hmem : x.restart ∈ sentFor x.request told := mem.mpr hx
    rcases hfits.few with he | ⟨i, e, hroute, he⟩
    · rw [he] at hmem
      cases hmem
    · rw [he] at hmem
      rw [List.mem_singleton.mp hmem, hroute]

/-- A delegate has connected, is restarted, and the request has its response. -/
def asked : List Call :=
  ([registerSmall] ++ greets 0 ++ [Action.handler 0 .resume]).map Call.gateway ++
    [.post ("/restart/" ++ smallId), .gateway (.task 0 true), .gateway (.task 0 true),
      .gateway (.task 0 true), .reply 0]

def isAnswered (s : Endpoint) : Bool :=
  match (s.requests[0]? : Option Request) with
  | some ⟨.restart d, .answered response⟩ => decide (d = smallId ∧ response.code = 200)
  | _ => false

theorem asked_answered :
    ∃ s r response, Run endpoint Free (.start DB.empty) asked s [⟨0, 0, smallId⟩] ∧
      s.requests[0]? = some r ∧ r.route = .restart smallId ∧ r.progress = .answered response ∧
      response.code = 200 ∧ (sentFor 0 [⟨0, 0, smallId⟩]).length = 1 := by
  have hrun : (replay endpoint (.start DB.empty) asked).any
      (fun r => isAnswered r.1 && decide (r.2 = [⟨0, 0, smallId⟩])) = true := by decide +kernel
  obtain ⟨s, o, hr, htest⟩ := run_of_replay_test hrun
  simp only [Bool.and_eq_true, decide_eq_true_eq] at htest
  obtain ⟨hanswered, rfl⟩ := htest
  unfold isAnswered at hanswered
  split at hanswered
  · rename_i d response hget
    obtain ⟨rfl, hcode⟩ := of_decide_eq_true hanswered
    refine ⟨s, _, response, hr, hget, rfl, rfl, hcode, ?_⟩
    rcases ((answered_exactly hr).1 0 _ _ hget rfl).2.2 response rfl with ⟨-, hone⟩ | ⟨hmissing, -⟩
    · exact hone
    · rw [hcode] at hmissing
      cases hmissing
  · cases hanswered

end Runs

end RestartChannel
