import DelegateProtocol.JunkMessages

/-!
# Losing the connection to Redis

Only the XREAD of a watcher is retried. A connection lost on an XADD of an
answer or on the final DELETE kills the thread, and with it the request it had
already consumed.
-/

namespace RedisOutages

open Handlers Models Runtime StepMachine Streams WatchExecution ReadingOrder JunkMessages

/-- What the watcher comes to parse can be parsed, and what it is asked for is
in the fixture. -/
structure WellFormed (host : Host) (s : System) (a : Act) : Prop where
  digests : Digests host s a
  found : ∀ read m rest transferId, a = .watcher (.authorize transferId) →
    s.watch.point = .authorizing read m rest →
    decideRequest host s.world.store.db read m.fields ≠ .ok .fileNotFound

/-- The messages of the answer to a request are on the events stream, in order,
among those appended since the watcher started. -/
def Complete (base : Nat) (s : System) (request : Message) (grant : Grant) (transferId : String) :
    Prop :=
  (workspaceMessages s.watch.execution request.fields transferId grant.zip).Sublist
    ((s.log .events).history.drop base)

/-- What a watcher of a well-formed history should do whatever happens to the
connection: end in one of the three ways, and leave no authorised request behind
that it has neither answered, nor is answering, nor will read again. -/
structure Survives (world : World) (keys : Keys) (s : System) (o : List Seen) : Prop where
  ends : ∀ why, s.watch.point = .ended why → EndsWell s o why
  answers : ∀ m, Seen.authorized m ∈ o →
    (∃ grant transferId, Seen.answered m grant transferId ∈ o ∧
      Complete (world.redis keys.events).history.length s m grant transferId) ∨
    (∃ grant transferId pending rest, s.watch.point = .sending m grant transferId pending rest) ∨
    (m.id, m.fields) ∈ (s.log .events).unread (s.watch.lastIds .events)

/-- An answer in the making, and those that are made. -/
structure Serving (base : Nat) (s : System) (o : List Seen) : Prop where
  below : base ≤ (s.log .events).history.length
  sent : ∀ request grant transferId pending rest,
    s.watch.point = .sending request grant transferId pending rest →
    ∃ sent, sent ++ pending =
        workspaceMessages s.watch.execution request.fields transferId grant.zip ∧
      sent.Sublist ((s.log .events).history.drop base)
  answered : ∀ m grant transferId, Seen.answered m grant transferId ∈ o →
    Complete base s m grant transferId
  settled : ∀ m, Seen.authorized m ∈ o → Raised s ∨
    (∃ grant transferId, Seen.answered m grant transferId ∈ o) ∨
    (∃ grant transferId pending rest, s.watch.point = .sending m grant transferId pending rest)

section Steps
variable {host : Host} {s t : System} {a : Act} {o o' : List Seen} {base : Nat}

theorem Serving.start (world : World) (execution : Named) (keys : Keys) :
    Serving (world.redis keys.events).history.length ⟨world, .start execution keys⟩ [] where
  below := Nat.le_refl _
  sent _ _ _ _ _ hp := by cases hp
  answered _ _ _ hm := by cases hm
  settled _ hm := by cases hm

theorem Complete.grow {request : Message} {grant : Grant} {transferId : String}
    (hc : Complete base s request grant transferId)
    (hexec : t.watch.execution = s.watch.execution)
    (hgrown : (s.log .events).history <+: (t.log .events).history) :
    Complete base t request grant transferId := by
  unfold Complete at hc ⊢
  rw [hexec]
  exact hc.trans (hgrown.drop base).sublist

/-- Streams that grow while the thread keeps its place. -/
theorem Serving.grow (hi : Serving base s o) (hpoint : t.watch.point = s.watch.point)
    (hexec : t.watch.execution = s.watch.execution)
    (hgrown : (s.log .events).history <+: (t.log .events).history) : Serving base t o where
  below := Nat.le_trans hi.below hgrown.length_le
  sent request grant transferId pending rest hp := by
    rw [hpoint] at hp
    obtain ⟨sent, hs, hsub⟩ := hi.sent _ _ _ _ _ hp
    rw [hexec]
    exact ⟨sent, hs, hsub.trans (hgrown.drop base).sublist⟩
  answered m grant transferId hm := (hi.answered m grant transferId hm).grow hexec hgrown
  settled m hm := by
    unfold Raised
    rw [hpoint]
    exact hi.settled m hm

/-- Where every request was settled before the step, and the step settles its
own, all are settled after it. -/
theorem Serving.settle (hi : Serving base s o) (alive : ¬ Raised s)
    (flight : ∀ m grant transferId pending rest,
      s.watch.point = .sending m grant transferId pending rest → Raised t ∨
        (∃ grant transferId, Seen.answered m grant transferId ∈ o') ∨
        (∃ grant transferId pending rest, t.watch.point = .sending m grant transferId pending rest))
    (new : ∀ m, Seen.authorized m ∈ o' →
      ∃ grant transferId pending rest, t.watch.point = .sending m grant transferId pending rest)
    (m : Message) (hm : Seen.authorized m ∈ o ++ o') : Raised t ∨
      (∃ grant transferId, Seen.answered m grant transferId ∈ o ++ o') ∨
      (∃ grant transferId pending rest,
        t.watch.point = .sending m grant transferId pending rest) := by
  rcases List.mem_append.mp hm with hm | hm
  · rcases hi.settled m hm with hr | ⟨grant, transferId, ha⟩ | ⟨grant, transferId, pending, rest, hp⟩
    · exact False.elim (alive hr)
    · exact Or.inr (Or.inl ⟨grant, transferId, List.mem_append_left _ ha⟩)
    · rcases flight m grant transferId pending rest hp with hr | ⟨grant, transferId, ha⟩ | hp
      · exact Or.inl hr
      · exact Or.inr (Or.inl ⟨grant, transferId, List.mem_append_right _ ha⟩)
      · exact Or.inr (Or.inr hp)
  · exact Or.inr (Or.inr (new m hm))

/-- A step that is not part of an answer, or ends one by raising. -/
theorem Serving.aside (hi : Serving base s o) (alive : ¬ Raised s)
    (hexec : t.watch.execution = s.watch.execution)
    (hgrown : (s.log .events).history <+: (t.log .events).history)
    (before : ∀ m grant transferId pending rest,
      s.watch.point ≠ .sending m grant transferId pending rest ∨ Raised t)
    (after : ∀ m grant transferId pending rest,
      t.watch.point ≠ .sending m grant transferId pending rest)
    (hanswered : ∀ m grant transferId, Seen.answered m grant transferId ∉ o')
    (hauthorized : ∀ m, Seen.authorized m ∉ o') : Serving base t (o ++ o') where
  below := Nat.le_trans hi.below hgrown.length_le
  sent _ _ _ _ _ hp := False.elim (after _ _ _ _ _ hp)
  answered m grant transferId hm := by
    rcases List.mem_append.mp hm with hm | hm
    · exact (hi.answered m grant transferId hm).grow hexec hgrown
    · exact False.elim (hanswered _ _ _ hm)
  settled := by
    refine hi.settle alive (fun m grant transferId pending rest hp => ?_) (fun m hm => ?_)
    · rcases before m grant transferId pending rest with hn | hr
      · exact False.elim (hn hp)
      · exact Or.inl hr
    · exact False.elim (hauthorized _ hm)

/-- The request is authorised, and nothing of its answer sent yet. -/
theorem Serving.granted (hi : Serving base s o) (alive : ¬ Raised s)
    (hexec : t.watch.execution = s.watch.execution)
    (hgrown : (s.log .events).history <+: (t.log .events).history)
    {read : Execution} {request : Message} {grant : Grant} {transferId : String}
    {rest : List Message} (hp : s.watch.point = .authorizing read request rest)
    (hp' : t.watch.point = .sending request grant transferId
      (workspaceMessages t.watch.execution request.fields transferId grant.zip) rest) :
    Serving base t (o ++ [.authorized request]) where
  below := Nat.le_trans hi.below hgrown.length_le
  sent _ _ _ _ _ h := by
    rw [hp'] at h
    cases h
    exact ⟨[], rfl, List.nil_sublist _⟩
  answered m grant transferId hm :=
    (hi.answered m grant transferId (by simpa using hm)).grow hexec hgrown
  settled := by
    refine hi.settle alive (fun _ _ _ _ _ h => ?_) (fun m hm => ?_)
    · rw [hp] at h
      cases h
    · obtain rfl : m = request := by simpa using hm
      exact ⟨_, _, _, _, hp'⟩

/-- One more message of the answer is on the stream. -/
theorem Serving.xadd (hi : Serving base s o) (alive : ¬ Raised s)
    (hexec : t.watch.execution = s.watch.execution) {key : String}
    {request : Message} {grant : Grant} {transferId : String} {m : Fields}
    {pending : List Fields} {rest : List Message}
    (hp : s.watch.point = .sending request grant transferId (m :: pending) rest)
    (hp' : t.watch.point = .sending request grant transferId pending rest)
    (hlog : (t.log .events).history = (s.log .events).history ++ [m]) :
    Serving base t (o ++ [.published key m request grant]) where
  below := by
    rw [hlog, List.length_append]
    exact Nat.le_trans hi.below (Nat.le_add_right _ _)
  sent _ _ _ _ _ h := by
    rw [hp'] at h
    cases h
    obtain ⟨sent, hall, hsub⟩ := hi.sent _ _ _ _ _ hp
    rw [hexec, hlog, List.drop_append_of_le_length hi.below]
    exact ⟨sent ++ [m], (List.append_cons sent m pending).symm.trans hall,
      hsub.append (List.Sublist.refl _)⟩
  answered m' grant transferId hm := by
    have hold : Seen.answered m' grant transferId ∈ o := by simpa using hm
    exact (hi.answered m' grant transferId hold).grow hexec (hlog ▸ List.prefix_append _ _)
  settled := by
    refine hi.settle alive (fun _ _ _ _ _ h => ?_) (fun m hm => ?_)
    · rw [hp] at h
      cases h
      exact Or.inr (Or.inr ⟨_, _, _, _, hp'⟩)
    · simp at hm

/-- The whole answer is on the stream. -/
theorem Serving.saved (hi : Serving base s o) (alive : ¬ Raised s)
    (hexec : t.watch.execution = s.watch.execution)
    (hgrown : (s.log .events).history <+: (t.log .events).history)
    {request : Message} {grant : Grant} {transferId : String} {rest : List Message}
    (hp : s.watch.point = .sending request grant transferId [] rest)
    (hp' : t.watch.point = .handling rest) :
    Serving base t (o ++ [.answered request grant transferId]) where
  below := Nat.le_trans hi.below hgrown.length_le
  sent _ _ _ _ _ h := by
    rw [hp'] at h
    cases h
  answered m grant' transferId' hm := by
    rcases List.mem_append.mp hm with hm | hm
    · exact (hi.answered m grant' transferId' hm).grow hexec hgrown
    · cases List.mem_singleton.mp hm
      obtain ⟨sent, hall, hsub⟩ := hi.sent _ _ _ _ _ hp
      rw [List.append_nil] at hall
      have hc : Complete base s request grant transferId := by
        rw [Complete, ← hall]
        exact hsub
      exact hc.grow hexec hgrown
  settled := by
    refine hi.settle alive (fun _ _ _ _ _ h => ?_) (fun m hm => ?_)
    · rw [hp] at h
      cases h
      exact Or.inr (Or.inl ⟨_, _, List.mem_singleton_self _⟩)
    · simp at hm

theorem Serving.moves (hi : Serving base s o) {input : Input} {world : World} {watch : Watch}
    (found : WellFormed host s (.watcher input))
    (h : Moves host s.world s.watch input world watch o') :
    Serving base ⟨world, watch⟩ (o ++ o') := by
  have same := moves_same h
  have grown : (s.log .events).history <+: (System.log ⟨world, watch⟩ .events).history := by
    simp only [System.log, same.2]
    exact moves_history h _
  have alive : ¬ Raised s := by
    rintro ⟨e, he⟩
    exact moves_live h _ he
  have aside := @Serving.aside s ⟨world, watch⟩ o o' base hi alive same.1 grown
  cases h with
  | fileNotFound hp hd => exact False.elim (found.found _ _ _ _ rfl hp hd)
  | granted hp hd => exact hi.granted (t := ⟨_, _⟩) alive same.1 grown hp rfl
  | xadd hp =>
    refine hi.xadd (t := ⟨_, _⟩) alive same.1 hp rfl ?_
    simp [System.log, World.xadd, Keys.key]
  | saved hp hs => exact hi.saved (t := ⟨_, _⟩) alive same.1 grown hp rfl
  | xaddLost _ | xaddUnanswered _ | saveRaised _ _ =>
    exact aside (fun _ _ _ _ _ => Or.inr ⟨_, rfl⟩) (by simp [Watch.goto]) (by simp) (by simp)
  | expire hp | rowGone hp _ | finish hp _ _ | poll hp _ _ | read hp _ | readLost hp
  | batchDone hp | requestRowGone hp _ _ | request hp _ _ | message hp _ _
  | messageRaised hp _ _ | requestRaised hp _ | rejected hp _ | delete hp | deleteLost hp
  | deleteUnanswered hp =>
    exact aside (by simp [hp]) (by simp [Watch.goto]) (by simp) (by simp)

/-- A connection lost on an XADD or a DELETE is not caught. -/
theorem lost_raises (lost : ¬ Spared a) (h : (watching host).step s a = some (t, o)) :
    Raised t := by
  cases a with
  | watcher input =>
    have hm := watching_watcher h
    generalize t.world = world at hm
    generalize hw : t.watch = watch at hm
    unfold Raised
    rw [hw]
    cases hm with
    | xaddLost _ => exact ⟨_, rfl⟩
    | xaddUnanswered _ => exact ⟨_, rfl⟩
    | deleteLost _ => exact ⟨_, rfl⟩
    | deleteUnanswered _ => exact ⟨_, rfl⟩
    | _ => exact False.elim (lost trivial)
  | publish key fields => exact False.elim (lost trivial)
  | others store => exact False.elim (lost trivial)

theorem Serving.step (hi : Serving base s o) (wellFormed : WellFormed host s a)
    (h : (watching host).step s a = some (t, o')) : Serving base t (o ++ o') := by
  cases a with
  | watcher input => exact hi.moves wellFormed (watching_watcher h)
  | publish key fields =>
    obtain ⟨rfl, rfl⟩ := watching_publish h
    rw [List.append_nil]
    exact hi.grow rfl rfl (xadd_history s.world key fields _).1
  | others store =>
    obtain ⟨-, rfl, rfl⟩ := watching_others h
    rw [List.append_nil]
    exact hi.grow rfl rfl (List.prefix_refl _)

end Steps

section Runs
variable {host : Host} {world : World} {execution : Named} {keys : Keys}
variable {s : System} {as : List Act} {o : List Seen}

theorem serving_run
    (h : Run (watching host) (WellFormed host) ⟨world, .start execution keys⟩ as s o) :
    Serving (world.redis keys.events).history.length s o :=
  h.invariant (Serving (world.redis keys.events).history.length) (.start world execution keys)
    (fun hi hok hs => hi.step hok hs)

/-- A watcher of a well-formed history survives a run exactly if no XADD and no
DELETE in it loses the connection. -/
theorem survives_iff_spared
    (h : Run (watching host) (WellFormed host) ⟨world, .start execution keys⟩ as s o) :
    Survives world keys s o ↔ Run (watching host) (fun s a => WellFormed host s a ∧ Spared a)
      ⟨world, .start execution keys⟩ as s o := by
  have alive : ¬ Raised s ↔ Run (watching host) (fun s a => WellFormed host s a ∧ Spared a)
      ⟨world, .start execution keys⟩ as s o := by
    refine Run.good_iff Placed (fun s => ¬ Raised s)
      ⟨.start world execution keys, ?_⟩ (fun hi _ hs => hi.step hs) ?_ ?_ (fun _ hn hs => ?_) h
    · rintro ⟨e, he⟩
      cases he
    · intro s a t o' hi alive wellFormed spared hs
      exact alive_step hi alive spared wellFormed.digests hs
    · intro s a t o' _ _ _ lost hs
      exact not_not.mpr (lost_raises lost hs)
    · exact not_not.mpr (raised_stays (not_not.mp hn) hs)
  rw [← alive]
  constructor
  · rintro hsurvives ⟨e, he⟩
    exact hsurvives.ends _ he
  · intro hn
    have serving := serving_run h
    refine ⟨fun why hp => ends_well h hn hp, fun m hm => ?_⟩
    rcases serving.settled m hm with hr | ⟨grant, transferId, ha⟩ | hp
    · exact False.elim (hn hr)
    · exact Or.inl ⟨grant, transferId, ha, serving.answered _ _ _ ha⟩
    · exact Or.inr (Or.inl hp)

end Runs

/-- A test for well-formed steps that asks the handlers. -/
def harmless (host : Host) (s : System) : Act → Bool
  | .watcher .handle =>
    match s.watch.point with
    | .handling (m :: _) =>
      decide (m.kind ≠ .output) || (effect host s.watch m s.world.store).toBool
    | _ => true
  | .watcher (.authorize _) =>
    match s.watch.point with
    | .authorizing read m _ =>
      match decideRequest host s.world.store.db read m.fields with
      | .ok .rejected => true
      | .ok (.granted _) => true
      | _ => false
    | _ => true
  | _ => true

theorem harmless_wellFormed {host : Host} {s : System} {a : Act} (h : harmless host s a = true) :
    WellFormed host s a where
  digests.output m rest ha hp hk := by
    subst ha
    have written : ∃ r, effect host s.watch m s.world.store = .ok r := by
      cases he : effect host s.watch m s.world.store with
      | error e => simp [harmless, hp, hk, he, Except.toBool] at h
      | ok r => exact ⟨r, rfl⟩
    exact (effect_output hk).mp written
  digests.request read m rest transferId ha hp := by
    subst ha
    refine decideRequest_digestible.mp ?_
    cases hd : decideRequest host s.world.store.db read m.fields with
    | error e => simp [harmless, hp, hd] at h
    | ok d => exact ⟨d, rfl⟩
  found read m rest transferId ha hp hd := by
    subst ha
    simp [harmless, hp, hd] at h

/-- A request whose answer is cut off behind its DATA_START. -/
def cutOff : List Act :=
  .publish smallKeys.events (smallMessage "DATA_REQUEST" [("requested_file", "*")]) :: pollAll ++
    [.watcher .handle, .watcher (.authorize "transfer-1"), .watcher .xadd,
      .watcher (.xaddLost false)]

theorem cutOff_raised : (replay ((watching smallHost).guarded (fun s a => harmless smallHost s a))
    (smallStart .running) cutOff).any (fun r => decide (Raised r.1)) = true := by
  decide +kernel

theorem cutOff_survives_iff :
    ∃ s o, Run (watching smallHost) (WellFormed smallHost) (smallStart .running) cutOff s o ∧
      (Survives (smallWorld .running) smallKeys s o ↔
        Run (watching smallHost) (fun s a => WellFormed smallHost s a ∧ Spared a)
          (smallStart .running) cutOff s o) := by
  obtain ⟨s, o, hr, -⟩ := guarded_run_of_replay_test cutOff_raised
  have h := hr.mono (fun _ _ => harmless_wellFormed)
  exact ⟨s, o, h, survives_iff_spared h⟩

theorem cutOff_kills_watcher :
    ∃ s o, Run (watching smallHost) (WellFormed smallHost) (smallStart .running) cutOff s o ∧
      ¬ Survives (smallWorld .running) smallKeys s o := by
  obtain ⟨s, o, hr, raised⟩ := guarded_run_of_replay_test cutOff_raised
  refine ⟨s, o, hr.mono (fun _ _ => harmless_wellFormed), ?_⟩
  intro hsurvives
  obtain ⟨e, he⟩ := of_decide_eq_true raised
  exact hsurvives.ends _ he

end RedisOutages
