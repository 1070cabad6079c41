import DelegateProtocol.TerminalStatus

/-!
# Junk on the streams

A delegate can write anything to its own streams. Most of it is skipped, but
some handlers read a field that is missing or does not parse, and then the
thread of the watcher dies. The predicates say which messages are harmless.
-/

namespace JunkMessages

open ChunkedTransfer Handlers Models Runtime StepMachine Streams WatchExecution ReadingOrder
  TerminalStatus

/-- An output message whose fields the handler can read, as far as it reads
them; a complete output also needs a file that can be opened. -/
def DigestibleOutput (host : Host) (watch : Watch) (m : Message) : Prop :=
  (m.type = some "DATA_START" → ∃ s, readStart m.fields = .ok s) ∧
  ∀ state, watch.outputState = some state →
    (m.type = some "DATA_CHUNK" → m.fields.get? "transfer_id" = some state.transferId →
      ∃ seq, readSequenceNo m.fields = .ok seq ∧
        (seq ∉ state.seenSeq → ∃ chunk, readChunk m.fields = .ok chunk)) ∧
    (Closes m.fields state → state.Valid →
      host.writable (outPath host watch.execution) = true)

/-- A data request whose `delegate_id` is a UUID and, if it is authorised, one
the archive routines can serve. -/
def DigestibleRequest (host : Host) (db : DB) (read : Execution) (m : Message) : Prop :=
  ∃ id, Uuid.parse (m.fields.getD "delegate_id" "") = some id ∧
    (Authorized (db.delegate id) read m.fields → ∃ zip, requestedZip host read m.fields = .ok zip)

/-- What the watcher is about to parse can be parsed. -/
structure Digests (host : Host) (s : System) (a : Act) : Prop where
  output : ∀ m rest, a = .watcher .handle → s.watch.point = .handling (m :: rest) →
    m.kind = .output → DigestibleOutput host s.watch m
  request : ∀ read m rest transferId, a = .watcher (.authorize transferId) →
    s.watch.point = .authorizing read m rest → DigestibleRequest host s.world.store.db read m

/-- A step in which no Redis command loses the connection. -/
def Connected : Act → Prop
  | .watcher .xreadLost => False
  | .watcher (.xaddLost _) => False
  | .watcher (.deleteLost _) => False
  | _ => True

/-- A step in which no XADD and no DELETE loses the connection. -/
def Spared : Act → Prop
  | .watcher (.xaddLost _) => False
  | .watcher (.deleteLost _) => False
  | _ => True

theorem Connected.spared {a : Act} (h : Connected a) : Spared a := by
  cases a with
  | watcher input =>
    cases input with
    | xaddLost _ => exact h
    | deleteLost _ => exact h
    | _ => trivial
  | _ => trivial

section Handlers
variable {host : Host} {watch : Watch} {m : Message} {store : Store}

theorem effect_events (hk : m.kind = .events) : ∃ r, effect host watch m store = .ok r := by
  simp [effect, hk]

theorem effect_status (hk : m.kind = .status) : ∃ r, effect host watch m store = .ok r := by
  by_cases ht : m.type = some "STATUS"
  · simp [effect, hk, ht]
  · simp [effect, hk, ht]

theorem effect_log (hk : m.kind = .log) (hrow : store.db.execution watch.execution.id ≠ none) :
    ∃ r, effect host watch m store = .ok r := by
  obtain ⟨e, he⟩ := Option.ne_none_iff_exists'.mp hrow
  by_cases ht : m.type = some "LOG"
  · simp [effect, hk, ht, handleLog, he]
  · simp [effect, hk, ht]

/-- An output message raises exactly if it is not digestible. -/
theorem effect_output (hk : m.kind = .output) :
    (∃ r, effect host watch m store = .ok r) ↔ DigestibleOutput host watch m := by
  have hred : (∃ r, effect host watch m store = .ok r) ↔
      ∃ r, handleOutputMessage host watch.execution m.fields watch.outputState store = .ok r := by
    simp only [effect, hk]
    cases handleOutputMessage host watch.execution m.fields watch.outputState store with
    | error e => simp
    | ok r => simp
  rw [hred]
  unfold handleOutputMessage DigestibleOutput
  by_cases hstart : m.type = some "DATA_START"
  · have hstart' : m.fields.get? "type" = some "DATA_START" := hstart
    cases hr : readStart m.fields with
    | error e => simp [outputVerdict, hstart, hstart', hr]
    | ok s => simp [outputVerdict, hstart, hstart', hr, Closes]
  · have hstart' : m.fields.get? "type" ≠ some "DATA_START" := hstart
    cases hs : watch.outputState with
    | none => simp [outputVerdict, hstart, hstart']
    | some state =>
      by_cases hc : Closes m.fields state
      · rw [outputVerdict_closes hc]
        have hchunk : m.type ≠ some "DATA_CHUNK" := by
          rw [Message.type, hc.1]
          decide
        by_cases hv : state.Valid
        · by_cases hw : host.writable (outPath host watch.execution) = true
          · simp [hv, hw, hstart, hchunk]
          · simp [hv, hw, hc]
        · simp [hv, hstart, hchunk]
      · by_cases hchunk : m.type = some "DATA_CHUNK" ∧
            m.fields.get? "transfer_id" = some state.transferId
        · obtain ⟨ht, hid⟩ := hchunk
          have ht' : m.fields.get? "type" = some "DATA_CHUNK" := ht
          simp only [outputVerdict, ht', hid, ht, hc, Option.some.injEq, String.reduceEq, if_false,
            and_self, if_true, false_implies, true_and, forall_const, and_true,
            forall_eq']
          cases readSequenceNo m.fields with
          | error e => simp
          | ok seq =>
            by_cases hseq : seq ∈ state.seenSeq
            · simp [hseq]
            · cases readChunk m.fields with
              | error e => simp [hseq]
              | ok chunk => simp [hseq]
        · have hchunk' : ¬ (m.fields.get? "type" = some "DATA_CHUNK" ∧
              m.fields.get? "transfer_id" = some state.transferId) := hchunk
          have hc' : ¬ (m.fields.get? "type" = some "DATA_END" ∧
              m.fields.get? "transfer_id" = some state.transferId) := hc
          simp only [outputVerdict, if_neg hstart', if_neg hchunk', if_neg hc']
          constructor
          · intro _
            refine ⟨fun h => False.elim (hstart h), fun s he => ?_⟩
            cases he
            exact ⟨fun ht hid => False.elim (hchunk ⟨ht, hid⟩), fun h => False.elim (hc h)⟩
          · intro _
            exact ⟨_, rfl⟩

/-- A data request raises exactly if it is not digestible. -/
theorem decideRequest_digestible {db : DB} {read : Execution} :
    (∃ d, decideRequest host db read m.fields = .ok d) ↔ DigestibleRequest host db read m := by
  unfold decideRequest DigestibleRequest requestDelegate uuidField
  cases hp : Uuid.parse (m.fields.getD "delegate_id" "") with
  | none => simp
  | some id =>
    cases hd : db.delegate id with
    | none =>
      have hno : ¬ Authorized none read m.fields := by
        rintro ⟨d, h, -⟩
        cases h
      simp [hd, hno]
    | some delegate =>
      by_cases ha : Authorized (some delegate) read m.fields
      · cases requestedZip host read m.fields with
        | error e => simp [hd, ha]
        | ok zip =>
          cases zip with
          | none => simp [hd, ha]
          | some zip => simp [hd, ha]
      · simp [hd, ha]

end Handlers

/-- Where the thread stands the row is there, or as the thread has seen it. -/
def Placed (s : System) : Prop :=
  match s.watch.point with
  | .reading | .handling _ | .authorizing _ _ _ | .sending _ _ _ _ _ => s.row ≠ none
  | .cleaning .terminal | .ended .terminal => ∃ e, s.row = some e ∧ e.Terminal
  | .cleaning .rowGone | .cleaning (.raised _) => False
  | .ended .rowGone => s.row = none
  | _ => True

/-- The three ways a watcher is meant to end. -/
def EndsWell (s : System) (o : List Seen) : Why → Prop
  | .rowGone => s.row = none
  | .terminal => (∃ e, s.row = some e ∧ e.Terminal) ∧ Seen.deleted ∈ o
  | .lifetime => Seen.deleted ∈ o
  | .raised _ => False

section Steps
variable {host : Host} {s t : System} {a : Act} {o o' : List Seen}

theorem Placed.start (world : World) (execution : Named) (keys : Keys) :
    Placed ⟨world, .start execution keys⟩ := trivial

theorem Placed.moves (hi : Placed s) {input : Input} {world : World} {watch : Watch}
    (h : Moves host s.world s.watch input world watch o) : Placed ⟨world, watch⟩ := by
  obtain ⟨f, -, hf⟩ := moves_row h
  have hrow : System.row ⟨world, watch⟩ = s.row.map f := by
    rw [System.row, (moves_same h).1]
    exact hf
  have kept (hr : s.row ≠ none) : System.row ⟨world, watch⟩ ≠ none := by
    rw [hrow]
    simpa using hr
  unfold Placed at hi
  cases h with
  | expire _ => trivial
  | rowGone _ hr => exact hr
  | finish _ hr ht => exact ⟨_, hr, ht⟩
  | poll _ hr _ => exact kept (by simp [System.row, hr])
  | read hp _ =>
    rw [hp] at hi
    exact kept hi
  | readLost _ => trivial
  | batchDone _ => trivial
  | requestRowGone hp _ _ =>
    rw [hp] at hi
    exact kept hi
  | request hp _ _ =>
    rw [hp] at hi
    exact kept hi
  | message hp _ _ =>
    rw [hp] at hi
    exact kept hi
  | messageRaised _ _ _ => trivial
  | requestRaised _ _ => trivial
  | rejected hp _ =>
    rw [hp] at hi
    exact kept hi
  | fileNotFound hp _ =>
    rw [hp] at hi
    exact kept hi
  | granted hp _ =>
    rw [hp] at hi
    exact kept hi
  | xadd hp =>
    rw [hp] at hi
    exact kept hi
  | xaddLost _ => trivial
  | xaddUnanswered _ => trivial
  | saved hp _ =>
    rw [hp] at hi
    exact kept hi
  | saveRaised _ _ => trivial
  | @delete why hp =>
    rw [hp] at hi
    cases why with
    | rowGone => exact False.elim hi
    | terminal => exact hi
    | lifetime => trivial
    | raised e => exact False.elim hi
  | deleteLost _ => trivial
  | deleteUnanswered _ => trivial

theorem Placed.step (hi : Placed s) (h : (watching host).step s a = some (t, o)) : Placed t := by
  cases a with
  | watcher input => exact hi.moves (watching_watcher h)
  | publish key fields =>
    obtain ⟨rfl, -⟩ := watching_publish h
    exact hi
  | others store =>
    obtain ⟨hl, rfl, -⟩ := watching_others h
    have hrow : System.row ⟨{ s.world with store := store }, s.watch⟩ = s.row := hl.1
    unfold Placed at hi ⊢
    rw [hrow]
    exact hi

/-- Only handling and authorising parse anything. -/
theorem digests_other {input : Input} (handle : input ≠ .handle)
    (authorize : ∀ transferId, input ≠ .authorize transferId) :
    Digests host s (.watcher input) := by
  constructor
  · rintro m rest ha
    exact False.elim (handle (Act.watcher.inj ha))
  · rintro read m rest transferId ha
    exact False.elim (authorize transferId (Act.watcher.inj ha))

theorem digests_handle {m : Message} {rest : List Message}
    (hp : s.watch.point = .handling (m :: rest)) :
    Digests host s (.watcher .handle) ↔ (m.kind = .output → DigestibleOutput host s.watch m) := by
  constructor
  · intro hd hk
    exact hd.output m rest rfl hp hk
  · intro hd
    constructor
    · intro m' rest' _ hp' hk
      rw [hp] at hp'
      cases hp'
      exact hd hk
    · rintro read m rest transferId ha
      cases ha

theorem digests_authorize {read : Execution} {m : Message} {rest : List Message}
    (hp : s.watch.point = .authorizing read m rest) (transferId : String) :
    Digests host s (.watcher (.authorize transferId)) ↔
      DigestibleRequest host s.world.store.db read m := by
  constructor
  · intro hd
    exact hd.request read m rest transferId rfl hp
  · intro hd
    constructor
    · rintro m rest ha
      cases ha
    · intro read' m' rest' _ _ hp'
      rw [hp] at hp'
      cases hp'
      exact hd

/-- With the row there, an error comes from an output message. -/
theorem effect_raised {m : Message} {e : PyError} (hrow : s.row ≠ none)
    (he : effect host s.watch m s.world.store = .error e) :
    m.kind = .output ∧ ¬ DigestibleOutput host s.watch m := by
  have clash : ¬ ∃ r, effect host s.watch m s.world.store = .ok r := by
    rintro ⟨r, hr⟩
    rw [he] at hr
    cases hr
  cases hk : m.kind with
  | events => exact False.elim (clash (effect_events hk))
  | log => exact False.elim (clash (effect_log hk hrow))
  | status => exact False.elim (clash (effect_status hk))
  | output => exact ⟨rfl, fun hd => clash ((effect_output hk).mpr hd)⟩

theorem batchDone_digests (hp : s.watch.point = .handling []) :
    Digests host s (.watcher .handle) := by
  constructor
  · intro m rest _ hp'
    rw [hp] at hp'
    cases hp'
  · rintro read m rest transferId ha
    cases ha

/-- A step that sends nothing in vain raises exactly if it meets something
indigestible. -/
theorem moves_raised (hi : Placed s) {input : Input} {world : World} {watch : Watch}
    (h : Moves host s.world s.watch input world watch o) (spared : Spared (.watcher input)) :
    (∃ e, watch.point = .ended (.raised e)) ↔ ¬ Digests host s (.watcher input) := by
  have quiet (hd : Digests host s (.watcher input))
      (hp : ∀ e, watch.point ≠ .ended (.raised e)) :
      (∃ e, watch.point = .ended (.raised e)) ↔ ¬ Digests host s (.watcher input) := by
    constructor
    · rintro ⟨e, he⟩
      exact False.elim (hp e he)
    · intro hn
      exact False.elim (hn hd)
  have loud {e : PyError} (hp : watch.point = .ended (.raised e))
      (hd : ¬ Digests host s (.watcher input)) :
      (∃ e, watch.point = .ended (.raised e)) ↔ ¬ Digests host s (.watcher input) := by
    constructor
    · intro _
      exact hd
    · intro _
      exact ⟨e, hp⟩
  cases h with
  | requestRowGone hp hm _ =>
    refine quiet ((digests_handle hp).mpr fun hk => ?_) (by simp [Watch.goto])
    simp [hm.1] at hk
  | request hp hm _ =>
    refine quiet ((digests_handle hp).mpr fun hk => ?_) (by simp [Watch.goto])
    simp [hm.1] at hk
  | message hp _ he =>
    exact quiet ((digests_handle hp).mpr fun hk => (effect_output hk).mp ⟨_, he⟩)
      (by simp [Watch.goto])
  | messageRaised hp _ he =>
    unfold Placed at hi
    rw [hp] at hi
    obtain ⟨hk, hd⟩ := effect_raised hi he
    exact loud rfl (fun h => hd ((digests_handle hp).mp h hk))
  | batchDone hp => exact quiet (batchDone_digests hp) (by simp [Watch.goto])
  | requestRaised hp hd =>
    refine loud rfl (fun h => ?_)
    obtain ⟨d, hok⟩ := decideRequest_digestible.mpr ((digests_authorize hp _).mp h)
    rw [hd] at hok
    cases hok
  | rejected hp hd =>
    exact quiet ((digests_authorize hp _).mpr (decideRequest_digestible.mp ⟨_, hd⟩))
      (by simp [Watch.goto])
  | fileNotFound hp hd =>
    exact quiet ((digests_authorize hp _).mpr (decideRequest_digestible.mp ⟨_, hd⟩))
      (by simp [Watch.goto])
  | granted hp hd =>
    exact quiet ((digests_authorize hp _).mpr (decideRequest_digestible.mp ⟨_, hd⟩))
      (by simp [Watch.goto])
  | saveRaised hp hs =>
    unfold Placed at hi
    rw [hp] at hi
    obtain ⟨e, he⟩ := Option.ne_none_iff_exists'.mp hi
    have hrow : s.world.store.db.execution s.watch.execution.id = some e := he
    simp [saveTransfer, hrow] at hs
  | xaddLost _ => exact False.elim spared
  | xaddUnanswered _ => exact False.elim spared
  | deleteLost _ => exact False.elim spared
  | deleteUnanswered _ => exact False.elim spared
  | @delete why hp =>
    refine quiet (digests_other (by simp) (by simp)) (fun e he => ?_)
    unfold Placed at hi
    rw [hp] at hi
    cases why with
    | raised e => exact hi
    | _ => simp [Watch.goto] at he
  | _ => exact quiet (digests_other (by simp) (by simp)) (by simp [Watch.goto])

/-- A thread that has died of an exception does not come back. -/
theorem raised_stays (hr : Raised s) (h : (watching host).step s a = some (t, o)) : Raised t := by
  obtain ⟨e, he⟩ := hr
  cases a with
  | watcher input => exact False.elim (moves_live (watching_watcher h) _ he)
  | publish key fields =>
    obtain ⟨rfl, -⟩ := watching_publish h
    exact ⟨e, he⟩
  | others store =>
    obtain ⟨-, rfl, -⟩ := watching_others h
    exact ⟨e, he⟩

/-- A step that sends nothing in vain and meets nothing indigestible leaves the
thread alive. -/
theorem alive_step (hi : Placed s) (alive : ¬ Raised s) (spared : Spared a)
    (hd : Digests host s a) (h : (watching host).step s a = some (t, o)) : ¬ Raised t := by
  cases a with
  | watcher input =>
    intro hr
    exact (moves_raised hi (watching_watcher h) spared).mp hr hd
  | publish key fields =>
    obtain ⟨rfl, -⟩ := watching_publish h
    exact alive
  | others store =>
    obtain ⟨-, rfl, -⟩ := watching_others h
    exact alive

theorem digests_outside (ha : ∀ input, a ≠ .watcher input) : Digests host s a := by
  constructor
  · intro _ _ he
    exact False.elim (ha _ he)
  · intro _ _ _ _ he
    exact False.elim (ha _ he)

theorem moves_cleaned {input : Input} {world : World} {watch : Watch}
    (h : Moves host s.world s.watch input world watch o) {why : Why}
    (hp : watch.point = .ended why) (hw : why = .terminal ∨ why = .lifetime) :
    Seen.deleted ∈ o := by
  cases h with
  | delete _ => exact List.mem_singleton_self _
  | deleteUnanswered _ => exact List.mem_singleton_self _
  | _ =>
    simp only [Watch.goto, reduceCtorEq, Point.ended.injEq] at hp
    try (subst hp; simp at hw)

/-- A thread that has not ended can go on. -/
theorem goes_on (h : ∀ why, s.watch.point ≠ .ended why) :
    ∃ input, Connected (.watcher input) ∧ ((watching host).step s (.watcher input)).isSome := by
  have run (input : Input) (hs : (step host s.world s.watch input).isSome) :
      ((watching host).step s (.watcher input)).isSome := by
    simpa [watching] using hs
  cases hp : s.watch.point with
  | top => exact ⟨.check true, trivial, run _ (by simp [step, hp])⟩
  | reading =>
    exact ⟨.xread (fun _ => 0), trivial, run _ (by simp [step, hp])⟩
  | handling rest =>
    refine ⟨.handle, trivial, run _ ?_⟩
    cases rest <;> simp [step, hp]
  | authorizing _ _ _ => exact ⟨.authorize "", trivial, run _ (by simp [step, hp])⟩
  | sending _ _ _ pending _ =>
    cases pending with
    | nil => exact ⟨.save, trivial, run _ (by simp [step, hp])⟩
    | cons m pending => exact ⟨.xadd, trivial, run _ (by simp [step, hp])⟩
  | cleaning _ => exact ⟨.delete, trivial, run _ (by simp [step, hp])⟩
  | ended why => exact False.elim (h why hp)

end Steps

section Runs
variable {host : Host} {world : World} {execution : Named} {keys : Keys}
variable {s : System} {as : List Act} {o : List Seen}

theorem placed_run {ok : System → Act → Prop}
    (h : Run (watching host) ok ⟨world, .start execution keys⟩ as s o) : Placed s :=
  h.state_invariant Placed (.start world execution keys) (fun hi _ hs => hi.step hs)

/-- A watcher that has not died of an exception has ended well, if at all. -/
theorem ends_well {ok : System → Act → Prop}
    (h : Run (watching host) ok ⟨world, .start execution keys⟩ as s o) (alive : ¬ Raised s)
    {why : Why} (hp : s.watch.point = .ended why) : EndsWell s o why := by
  have cleaned : ∀ why, s.watch.point = .ended why → why = .terminal ∨ why = .lifetime →
      Seen.deleted ∈ o := by
    refine h.invariant (fun s o => ∀ why, s.watch.point = .ended why →
      why = .terminal ∨ why = .lifetime → Seen.deleted ∈ o) (by simp [Watch.start]) ?_
    intro s o a t o' hi _ hs why hp hw
    cases a with
    | watcher input =>
      exact List.mem_append_right _ (moves_cleaned (watching_watcher hs) hp hw)
    | publish key fields =>
      obtain ⟨rfl, -⟩ := watching_publish hs
      exact List.mem_append_left _ (hi why hp hw)
    | others store =>
      obtain ⟨-, rfl, -⟩ := watching_others hs
      exact List.mem_append_left _ (hi why hp hw)
  have placed := placed_run h
  unfold Placed at placed
  rw [hp] at placed
  cases why with
  | rowGone => exact placed
  | terminal => exact ⟨placed, cleaned _ hp (Or.inl rfl)⟩
  | lifetime => exact cleaned _ hp (Or.inr rfl)
  | raised e => exact False.elim (alive ⟨e, hp⟩)

/-- What a watcher of junk should do: end in one of the three ways, pass over no
message, and go on while it has not ended. -/
structure Withstands (host : Host) (world : World) (keys : Keys) (s : System) (o : List Seen) :
    Prop where
  ends : ∀ why, s.watch.point = .ended why → EndsWell s o why
  first : ∀ k, handledOf k o <+: entries (world.redis (keys.key k)).removed (s.log k)
  next : (∀ why, s.watch.point ≠ .ended why) → ∃ input, Connected (.watcher input) ∧
    ((watching host).step s (.watcher input)).isSome

/-- With Redis and the database up, a watcher withstands a run exactly if
everything it came to parse could be parsed. -/
theorem withstands_iff_digests
    (h : Run (watching host) (fun _ a => Connected a) ⟨world, .start execution keys⟩ as s o) :
    Withstands host world keys s o ↔
      Run (watching host) (fun s a => Connected a ∧ Digests host s a)
        ⟨world, .start execution keys⟩ as s o := by
  have survives : ¬ Raised s ↔ Run (watching host) (fun s a => Connected a ∧ Digests host s a)
      ⟨world, .start execution keys⟩ as s o := by
    refine Run.good_iff Placed (fun s => ¬ Raised s) ⟨.start world execution keys, ?_⟩
      (fun hi _ hs => hi.step hs) ?_ ?_ (fun _ hn hs => ?_) h
    · rintro ⟨e, he⟩
      cases he
    · intro s a t o' hi alive connected hd hs
      exact alive_step hi alive connected.spared hd hs
    · intro s a t o' hi alive connected hd hs
      cases a with
      | watcher input =>
        intro hn
        exact hn ((moves_raised hi (watching_watcher hs) connected.spared).mpr hd)
      | publish key fields => exact False.elim (hd (digests_outside (by simp)))
      | others store => exact False.elim (hd (digests_outside (by simp)))
    · exact not_not.mpr (raised_stays (not_not.mp hn) hs)
  rw [← survives]
  constructor
  · rintro hw ⟨e, he⟩
    exact hw.ends _ he
  · intro alive
    exact ⟨fun why hp => ends_well h alive hp, (consecutive_run h).2.first, goes_on⟩

/-- A DATA_START without any field. -/
def bareStart : List Act :=
  .publish smallKeys.output [("type", "DATA_START")] :: pollAll ++ [.watcher .handle]

theorem bareStart_connected : ∀ a ∈ bareStart, Connected a := by
  intro a ha
  simp only [bareStart, pollAll, List.cons_append, List.nil_append, List.mem_cons,
    List.not_mem_nil, or_false] at ha
  rcases ha with rfl | rfl | rfl | rfl <;> trivial

theorem bareStart_withstands_iff :
    ∃ s o, Run (watching smallHost) (fun _ a => Connected a) (smallStart .running) bareStart s o ∧
      (Withstands smallHost (smallWorld .running) smallKeys s o ↔
        Run (watching smallHost) (fun s a => Connected a ∧ Digests smallHost s a)
          (smallStart .running) bareStart s o) := by
  have hrun : (replay (watching smallHost) (smallStart .running) bareStart).any
      (fun _ => true) = true := by decide +kernel
  obtain ⟨s, o, h, -⟩ := run_of_replay_test hrun
  have hc := h.restrict bareStart_connected
  exact ⟨s, o, hc, withstands_iff_digests hc⟩

theorem bareStart_kills_watcher :
    ∃ s o, Run (watching smallHost) (fun _ a => Connected a) (smallStart .running) bareStart s o ∧
      ¬ Withstands smallHost (smallWorld .running) smallKeys s o := by
  have hrun : (replay (watching smallHost) (smallStart .running) bareStart).any
      (fun r => decide (Raised r.1)) = true := by decide +kernel
  obtain ⟨s, o, h, raised⟩ := run_of_replay_test hrun
  refine ⟨s, o, h.restrict bareStart_connected, ?_⟩
  intro hw
  obtain ⟨e, he⟩ := of_decide_eq_true raised
  exact hw.ends _ he

end Runs

end JunkMessages
