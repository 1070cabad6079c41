import DelegateProtocol.ReaderAgreement
import DelegateProtocol.UnfinishedDeliveries

/-!
# Starting again

Earlier deliveries of a task may have been cut off anywhere and the watcher may
stand anywhere in its loop. As long as nothing has ended the execution, one more
delivery, started from nothing, can still bring it to SUCCEEDED.
-/

namespace FreshDelivery

open Agreement AppendLog CatchingUp ChunkedTransfer Deliveries Handlers Models OverlappingTransfers
open ReaderAgreement Reassembly Relation Runtime SerialTransfers StepMachine Streams
open TerminalStatus Transfers UnfinishedDeliveries WatchExecution WovenTransfers
open Worker (Deed Stage Task dataRequest logMessage poll published receiveCount received
  statusMessage)

variable {ι : Type}

/-- What the task comes to when it is run once more. -/
structure Product where
  path : String
  lines : List String
  zip : Payload
  transferId : String

/-- Local work succeeds, and comes to what it comes to. -/
def Works (product : Product) : Worker.Work → Prop
  | .prepare ok => ok = true
  | .publish | .start _ => True
  | .poll _ count _ => count = receiveCount
  | .mirrored path => path = product.path
  | .execute lines => lines = product.lines
  | .zip zip transferId => zip = product.zip ∧ transferId = product.transferId
  | .mirrorFailed _ | .raise _ => False

/-- Only the watcher and one delivery take steps, and nothing fails. -/
def Untroubled (i : ι) (product : Product) (_ : Site ι) : Turn ι → Prop
  | .watcher input => Smooth input
  | .worker j work => j = i ∧ Works product work
  | .elsewhere _ _ | .others _ => False

variable [DecidableEq ι]

/-- Without trouble the delivery and the watcher can go from one state to another. -/
def Leads (host : Host) (task : Task) (i : ι) (product : Product) (s t : Site ι) : Prop :=
  ∃ turns o, Run (delivering host task) (Untroubled i product) s turns t o

/-- What a step of a delivery leads to. -/
def worked (keys : Keys) (i : ι) (s : Site ι) (stage : Stage) (deeds : List Deed) : Site ι :=
  ⟨deeds.foldl (perform keys) s.world, s.watch, Function.update s.stages i stage⟩

/-- The delivery stands at a stage, none has finished, and the watcher serves
the execution. -/
structure Standing (host : Host) (job : Job) (world : World) (i : ι) (s : Site ι)
    (stage : Stage) : Prop where
  reached : ∃ turns o, Run (delivering host job.task) Free (.start job world) turns s o
  stands : s.stages i = stage
  unfinished : ∀ j, finishing (s.stages j) = false
  serving : Serving host job s.system

section Steps
variable {host : Host} {job : Job} {world : World} {i : ι} {product : Product} {s t u : Site ι}
variable {stage stage' : Stage} {deeds : List Deed} {input : Input}
variable {seen : List Seen} {world' : World} {watch' : Watch}

theorem Leads.refl (s : Site ι) : Leads host job.task i product s s := ⟨[], [], .start⟩

theorem Leads.trans (h : Leads host job.task i product s t)
    (h' : Leads host job.task i product t u) : Leads host job.task i product s u := by
  obtain ⟨turns, o, hr⟩ := h
  obtain ⟨turns', o', hr'⟩ := h'
  exact ⟨_, _, hr.append hr'⟩

theorem leads_worker {work : Worker.Work} (works : Works product work)
    (h : Worker.step job.task (s.world.redis job.task.keys.events) (s.stages i) work =
      some (stage', deeds)) :
    Leads host job.task i product s (worked job.task.keys i s stage' deeds) := by
  refine ⟨[.worker i work], deeds.map (.worker i), .single ⟨rfl, works⟩ ?_⟩
  simp only [delivering, h]
  rfl

theorem leads_watcher {system : System} (h : Reaches host s.system system) :
    Leads host job.task i product s (s.withSystem system) := by
  induction h with
  | refl => exact .refl s
  | @tail before after _ hgo ih =>
    obtain ⟨input, seen, smooth, hstep⟩ := hgo
    refine ih.trans ⟨[.watcher input], seen.map .watcher, .single smooth ?_⟩
    have hstep' : (watching host).step (s.withSystem before).system (.watcher input) =
        some (after, seen) := hstep
    simp only [delivering, hstep']
    rfl

theorem Leads.reached (h : Leads host job.task i product s t)
    (reached : ∃ turns o, Run (delivering host job.task) Free (.start job world) turns s o) :
    ∃ turns o, Run (delivering host job.task) Free (.start job world) turns t o := by
  obtain ⟨turns, o, hr⟩ := reached
  obtain ⟨turns', o', hr'⟩ := h
  exact ⟨_, _, hr.append hr'.free⟩

theorem looping_serving {system : System} (hs : Serving host job system) :
    looping system.watch.point = true := by
  have inPlace := hs.inPlace
  cases hp : system.watch.point with
  | cleaning why => simp [hp, InPlace] at inPlace
  | ended why => simp [hp, InPlace] at inPlace
  | _ => rfl

/-- The messages of a step come behind what is unread. -/
theorem worked_unread (hs : Serving host job s.system) (stage : Stage) (deeds : List Deed)
    (k : Kind) : unread (worked job.task.keys i s stage deeds).system k =
      unread s.system k ++ number ((s.system.log k).history.length + 1) (published k deeds) := by
  have hlog := @performs_log job.task deeds s.world k
  have keys : s.watch.keys = job.task.keys := hs.keys
  refine unread_grown ?_ ?_ (hs.order.behind k)
  · simp only [System.log, Site.system, worked, keys, hlog]
  · simp only [System.log, Site.system, worked, keys, hlog]

theorem worked_available (hs : Serving host job s.system) (stage : Stage) (deeds : List Deed) :
    available (worked job.task.keys i s stage deeds).system =
      available s.system ++ published .events deeds := available_performs hs.keys deeds

theorem worked_answered (h : Answered s.system) (hs : Serving host job s.system) :
    Answered (worked job.task.keys i s stage deeds).system := by
  refine h.later ?_
  rw [worked_available hs]
  exact List.prefix_append _ _

variable (fresh : Fresh job world) (queued : Queued job world)
include fresh queued

/-- A delivery that goes on leaves the watcher serving. -/
theorem Standing.step (hs : Standing host job world i s stage) (work : Worker.Work)
    (works : Works product work)
    (h : Worker.step job.task (s.world.redis job.task.keys.events) stage work =
      some (stage', deeds)) (goesOn : finishing stage' = false) :
    Leads host job.task i product s (worked job.task.keys i s stage' deeds) ∧
      Standing host job world i (worked job.task.keys i s stage' deeds) stage' := by
  rw [← hs.stands] at h
  have leads : Leads host job.task i product s (worked job.task.keys i s stage' deeds) :=
    leads_worker works h
  have unfinished : ∀ j, finishing ((worked job.task.keys i s stage' deeds).stages j) = false := by
    intro j
    by_cases hj : j = i
    · subst hj
      simpa [worked] using goesOn
    · simpa [worked, hj] using hs.unfinished j
  obtain ⟨turns, o, hr⟩ := leads.reached hs.reached
  obtain ⟨e, hrow, -, grants⟩ := hs.serving.row
  have store : (worked job.task.keys i s stage' deeds).world.store = s.world.store :=
    performs_store deeds job.task.keys s.world
  have hrow' : (worked job.task.keys i s stage' deeds).system.row = some e := by
    rw [← hrow]
    simp only [System.row, Site.system, store]
    rfl
  have grants' : Grants host (worked job.task.keys i s stage' deeds).world.store.db job.task e := by
    rw [store]
    exact grants
  exact ⟨leads, ⟨_, _, hr⟩, by simp [worked], unfinished,
    serving_run fresh queued hr (looping_serving hs.serving) unfinished hrow' grants'⟩

omit fresh queued in
/-- The watcher goes on while the delivery stands still. -/
theorem Standing.watch (hs : Standing host job world i s stage) {system : System}
    (h : Reaches host s.system system) :
    Leads host job.task i product s (s.withSystem system) ∧
      Standing host job world i (s.withSystem system) stage := by
  have leads : Leads host job.task i product s (s.withSystem system) := leads_watcher h
  exact ⟨leads, leads.reached hs.reached, hs.stands, hs.unfinished, (hs.serving.reaches h).1⟩

end Steps

/-- A clock that stands still, and XREAD returns what there is. -/
def atOnce : Polled := ⟨0, receiveCount, Nat.le_refl _, fun _ => 0⟩

/-- What is to be read ends a transfer, and whatever it ends is whole. -/
structure Whole (b : Option WireBuffer) (entries : List (Nat × Fields)) : Prop where
  readable : ∀ e ∈ entries, Readable e.2
  whole : ∀ c ∈ closings b (wire entries), ∃ x : Sending, c = whole (fun n => (n : Int)) x.transfer
  ends : closings b (wire entries) ≠ []

section Receives
variable {waitTimeout now : ℚ} {r r' : Receiving} {ms : List Arrival} {b : Option WireBuffer}
variable {log : Log Fields} {lastId lastId' : Nat} {task : Task}

theorem receiveMessage_deadline {m : Arrival} (hnow : m.now = now)
    (h : receiveMessage waitTimeout m r = .ok r') (hr : r.deadline = now + waitTimeout) :
    r'.deadline = now + waitTimeout := by
  unfold receiveMessage at h
  simp only [hnow] at h
  repeat' split at h
  all_goals cases h
  · rfl
  · exact hr
  · rfl
  · exact hr

theorem receiveBatch_deadline (hnow : ∀ m ∈ ms, m.now = now)
    (h : receiveBatch waitTimeout ms lastId r = .ok (lastId', r'))
    (hr : r.deadline = now + waitTimeout) : r'.deadline = now + waitTimeout := by
  induction ms generalizing lastId r with
  | nil =>
    cases h
    exact hr
  | cons m ms ih =>
    simp only [receiveBatch] at h
    cases hm : receiveMessage waitTimeout m r with
    | error e => simp [hm] at h
    | ok r₁ =>
      simp only [hm] at h
      refine ih (fun x hx => hnow x (List.mem_cons_of_mem _ hx)) h ?_
      exact receiveMessage_deadline (hnow m List.mem_cons_self) hm hr

/-- A round reads on with something left to read, or has got a payload. -/
theorem poll_whole (h : Whole b (log.unread lastId)) (holds : Matches r b)
    (patient : 0 < task.waitTimeout) (deadline : r.deadline = 0 + task.waitTimeout)
    (attempt : Nat) :
    (∃ data transferId, poll task log attempt lastId r 0 receiveCount (fun _ => 0) =
      (.extracting data transferId, [])) ∨
    (∃ lastId' r' b', poll task log attempt lastId r 0 receiveCount (fun _ => 0) =
      (.receiving attempt lastId' r', []) ∧ Whole b' (log.unread lastId') ∧ Matches r' b' ∧
      r'.deadline = 0 + task.waitTimeout ∧
      (log.unread lastId').length < (log.unread lastId).length) := by
  obtain ⟨entries, harr, hnext⟩ := arrivals_next log lastId atOnce
  have early : ¬ r.deadline - 0 ≤ 0 := by
    rw [deadline]
    simpa using patient
  have readable : ∀ m ∈ arrivals log lastId atOnce, Readable m.fields := by
    rw [harr]
    intro m hm
    obtain ⟨e, he, rfl⟩ := List.mem_map.mp hm
    exact h.readable e (by rw [hnext]; exact List.mem_append_left _ he)
  have hpieces : pieces (arrivals log lastId atOnce) = wire entries := by
    rw [harr, pieces_arrivals]
  have hclosings : closings b (wire (log.unread lastId)) = closings b (wire entries) ++
      closings ((wire entries).foldl advance b)
        (wire (log.unread (lastOf lastId (arrivals log lastId atOnce)))) := by
    conv_lhs => rw [hnext, wire, List.map_append, closings_append]
    rfl
  unfold poll
  rw [if_neg early]
  rcases @receiveBatch_split task.waitTimeout r b _ readable holds lastId with
    ⟨r', hbatch, hnone, hmatch, -⟩ | ⟨pre, m, post, c, hsplit, -, hclose, hbatch, -⟩
  · have same : closings ((wire entries).foldl advance b)
        (wire (log.unread (lastOf lastId (arrivals log lastId atOnce)))) =
          closings b (wire (log.unread lastId)) := by
      rw [hclosings, ← hpieces, hnone, List.nil_append]
    have some : entries ≠ [] := by
      rintro rfl
      have hread : (log.unread lastId).take receiveCount = [] := List.map_eq_nil_iff.mp harr
      rcases List.take_eq_nil_iff.mp hread with hzero | hnil
      · exact absurd hzero (by decide)
      · exact h.ends (by rw [hnil]; rfl)
    rw [hpieces] at hmatch
    right
    refine ⟨lastOf lastId (arrivals log lastId atOnce), r', (wire entries).foldl advance b, ?_, ?_,
      hmatch, ?_, ?_⟩
    · simp only [arrivals, atOnce] at hbatch ⊢
      rw [hbatch]
    · refine ⟨fun e he => h.readable e ?_, by rw [same]; exact h.whole, by rw [same]; exact h.ends⟩
      rw [hnext]
      exact List.mem_append_right _ he
    · refine receiveBatch_deadline ?_ hbatch deadline
      rw [harr]
      intro m hm
      obtain ⟨e, -, rfl⟩ := List.mem_map.mp hm
      rfl
    · have hlength := congrArg List.length hnext
      have hpos := List.length_pos_of_ne_nil some
      rw [List.length_append] at hlength
      omega
  · have closed : c ∈ closings b (wire (log.unread lastId)) := by
      rw [hclosings, ← hpieces, hsplit]
      refine List.mem_append_left _ ?_
      rw [pieces, List.map_append, List.map_cons, closings_append]
      refine List.mem_append_right _ ?_
      rw [closings]
      exact List.mem_append_left _ (Option.mem_toList.mpr hclose)
    obtain ⟨x, rfl⟩ := h.whole c closed
    left
    refine ⟨x.payload.data, some x.transferId, ?_⟩
    simp only [arrivals, atOnce] at hbatch
    rw [hbatch, whole_ending]
    rfl

end Receives

section Arrives
variable {host : Host} {job : Job} {world : World} {i : ι} {s : Site ι}
variable (product : Product)

/-- By induction on what is left to read. -/
theorem receives (fresh : Fresh job world) (queued : Queued job world)
    (patient : 0 < job.task.waitTimeout) {attempt lastId : Nat} {r : Receiving}
    {b : Option WireBuffer} (hs : Standing host job world i s (.receiving attempt lastId r))
    (h : Whole b ((s.world.redis job.task.keys.events).unread lastId)) (holds : Matches r b)
    (deadline : r.deadline = 0 + job.task.waitTimeout) :
    ∃ t data transferId, Leads host job.task i product s t ∧
      Standing host job world i t (.extracting data transferId) := by
  generalize hn : ((s.world.redis job.task.keys.events).unread lastId).length = n
  induction n using Nat.strongRecOn generalizing s lastId r b with
  | ind n ih =>
    have works : Works product (.poll 0 receiveCount (fun _ => 0)) := rfl
    have polled (stage : Stage)
        (hp : poll job.task (s.world.redis job.task.keys.events) attempt lastId r 0 receiveCount
          (fun _ => 0) = (stage, [])) :
        Worker.step job.task (s.world.redis job.task.keys.events) (.receiving attempt lastId r)
          (.poll 0 receiveCount (fun _ => 0)) = some (stage, []) := by
      rw [← hp]
      rfl
    rcases poll_whole h holds patient deadline attempt with
      ⟨data, transferId, hp⟩ | ⟨lastId', r', b', hp, h', holds', deadline', hless⟩
    · obtain ⟨leads, ht⟩ := hs.step fresh queued _ works (polled _ hp) rfl
      exact ⟨_, data, transferId, leads, ht⟩
    · obtain ⟨leads, ht⟩ := hs.step fresh queued _ works (polled _ hp) rfl
      obtain ⟨u, data, transferId, leads', hu⟩ := ih _ (hn ▸ hless) ht h' holds' deadline' rfl
      exact ⟨u, data, transferId, leads.trans leads', hu⟩

/-- Once a transfer stands on the stream, it ends whole ones and no others. -/
theorem whole_available {s : System} (facing : Facing job s) (answered : Answered s) :
    Whole none ((s.log .events).unread 0) := by
  have hmap : ((s.log .events).unread 0).map Prod.snd = available s := by
    rw [available, Log.unread, number_map_snd, Log.floor, Nat.zero_max]
  have hwire : wire ((s.log .events).unread 0) = (available s).map pieceOf := by
    rw [← hmap, List.map_map]
    rfl
  refine ⟨fun e he => facing.readable _ (hmap ▸ List.mem_map_of_mem he), ?_, ?_⟩
  · rw [hwire]
    intro c hc
    obtain ⟨_, ⟨x, rfl⟩, hwhole⟩ := (facing.serial.closings natCast_injective).1 c hc
    exact ⟨x, hwhole⟩
  · obtain ⟨x, pre, post, hx⟩ := answered
    rw [hwire, ← hx, List.map_append, List.map_append, messages_pieces]
    exact closings_ne_nil natCast_injective _ _ _ _

variable (fresh : Fresh job world) (queued : Queued job world)
include fresh queued

theorem gets_ready (retries : 1 ≤ job.task.maxRetries)
    (hs : Standing host job world i s .identifying) :
    ∃ t, Leads host job.task i product s t ∧ Standing host job world i t (.requesting 1 0) := by
  have named : job.task.executionId ≠ "" := by
    rw [job.names]
    exact named_ne_empty job.execution
  have ready : Works product (.prepare true) := rfl
  have publishes : Works product .publish := trivial
  have identifies {events : Log Fields} : Worker.step job.task events .identifying (.prepare true) =
      some (.announcing, []) := by
    simp [Worker.step, named]
  have makes {events : Log Fields} : Worker.step job.task events .makingWorkspace (.prepare true) =
      some (.requesting 1 0, []) := by
    simp [Worker.step, Task.attempt, retries]
  obtain ⟨l₁, h₁⟩ := hs.step fresh queued _ ready identifies rfl
  obtain ⟨l₂, h₂⟩ := h₁.step fresh queued _ publishes rfl rfl
  obtain ⟨l₃, h₃⟩ := h₂.step fresh queued _ publishes rfl rfl
  obtain ⟨l₄, h₄⟩ := h₃.step fresh queued _ ready makes rfl
  exact ⟨_, l₁.trans (l₂.trans (l₃.trans l₄)), h₄⟩

/-- The watcher answers the request when it has caught up. -/
theorem gets_answer (hs : Standing host job world i s (.requesting 1 0)) :
    ∃ t, Leads host job.task i product s t ∧ Standing host job world i t (.requested 1 0) ∧
      Answered t.system := by
  have publishes : Works product .publish := trivial
  obtain ⟨l₁, h₁⟩ := hs.step fresh queued _ publishes rfl rfl
  have asked : 0 < CatchingUp.requests (worked job.task.keys i s (.requested 1 0)
      [.publish .events (dataRequest job.task.baseFields job.task.fileName)]).system := by
    rw [CatchingUp.requests, worked_unread hs.serving, List.countP_append]
    have one : (number ((s.system.log .events).history.length + 1)
        (published .events [Deed.publish .events
          (dataRequest job.task.baseFields job.task.fileName)])).countP isRequest = 1 := by
      simp [published, number, isRequest, dataRequest, Task.baseFields, Fields.get?,
        List.lookup_cons]
    omega
  obtain ⟨u, hreach, -, -, hanswered⟩ := catches_up h₁.serving
  obtain ⟨l₂, h₂⟩ := h₁.watch hreach
  exact ⟨_, l₁.trans l₂, h₂, hanswered asked⟩

theorem gets_workspace (patient : 0 < job.task.waitTimeout)
    (hs : Standing host job world i s (.requested 1 0)) (answered : Answered s.system) :
    ∃ t data transferId, Leads host job.task i product s t ∧
      Standing host job world i t (.extracting data transferId) := by
  have publishes : Works product .publish := trivial
  have starts : Works product (.start 0) := trivial
  obtain ⟨l₁, h₁⟩ := hs.step fresh queued _ publishes rfl rfl
  obtain ⟨l₂, h₂⟩ := h₁.step fresh queued _ starts rfl rfl
  obtain ⟨turns, o, hr⟩ := h₂.reached
  have facing := facing_run fresh hr (looping_serving h₂.serving)
  have whole := whole_available facing
    (worked_answered (worked_answered answered hs.serving) h₁.serving)
  rw [System.log, h₂.serving.keys] at whole
  obtain ⟨t, data, transferId, l₃, h₃⟩ := receives product fresh queued patient h₂ whole rfl rfl
  exact ⟨t, data, transferId, l₁.trans (l₂.trans l₃), h₃⟩

/-- The task is run, line by line. -/
theorem runs {lines : List String} (hs : Standing host job world i s (.running lines)) :
    ∃ t, Leads host job.task i product s t ∧ Standing host job world i t (.running []) := by
  have publishes : Works product .publish := trivial
  induction lines generalizing s with
  | nil => exact ⟨s, .refl s, hs⟩
  | cons line lines ih =>
    obtain ⟨l₁, h₁⟩ := hs.step fresh queued _ publishes rfl rfl
    obtain ⟨t, l₂, h₂⟩ := ih h₁
    exact ⟨t, l₁.trans l₂, h₂⟩

theorem gets_output {data : List UInt8} {transferId : Option String}
    (hs : Standing host job world i s (.extracting data transferId)) :
    ∃ t, Leads host job.task i product s t ∧
      Standing host job world i t (.sending product.zip product.transferId
        (outputSending job.task product.transferId product.zip).messages) := by
  have ready : Works product (.prepare true) := rfl
  have publishes : Works product .publish := trivial
  have mirrors : Works product (.mirrored product.path) := rfl
  have executes : Works product (.execute product.lines) := rfl
  have zips : Works product (.zip product.zip product.transferId) := ⟨rfl, rfl⟩
  obtain ⟨l₁, h₁⟩ := hs.step fresh queued _ ready rfl rfl
  obtain ⟨l₂, h₂⟩ := h₁.step fresh queued _ publishes rfl rfl
  obtain ⟨l₃, h₃⟩ := h₂.step fresh queued _ mirrors rfl rfl
  obtain ⟨l₄, h₄⟩ := h₃.step fresh queued _ ready rfl rfl
  obtain ⟨l₅, h₅⟩ := h₄.step fresh queued _ executes rfl rfl
  obtain ⟨t, l₆, h₆⟩ := runs product fresh queued h₅
  obtain ⟨l₇, h₇⟩ := h₆.step fresh queued _ zips rfl rfl
  exact ⟨_, l₁.trans (l₂.trans (l₃.trans (l₄.trans (l₅.trans (l₆.trans l₇))))), h₇⟩

/-- All but the last message of the output are sent. -/
theorem sends_body {zip : Payload} {transferId : String} {ms : List Fields} {last : Fields}
    {b : Option WireBuffer}
    (hs : Standing host job world i s (.sending zip transferId (ms ++ [last])))
    (comes : ComesTo s.system b) :
    ∃ t, Leads host job.task i product s t ∧
      Standing host job world i t (.sending zip transferId [last]) ∧
      ComesTo t.system ((ms.map pieceOf).foldl advance b) := by
  have publishes : Works product .publish := trivial
  induction ms generalizing s b with
  | nil => exact ⟨s, .refl s, hs, comes⟩
  | cons m ms ih =>
    have goesOn : finishing (.sending zip transferId (ms ++ [last])) = false := by
      cases ms <;> rfl
    obtain ⟨l₁, h₁⟩ := hs.step fresh queued _ publishes rfl goesOn
    obtain ⟨b₀, hb₀, hall⟩ := comes
    have comes₁ : ComesTo (worked job.task.keys i s (.sending zip transferId (ms ++ [last]))
        [.publish .output m]).system (advance b (pieceOf m)) := by
      refine ⟨b₀, hb₀, ?_⟩
      rw [worked_unread hs.serving, List.map_append, List.foldl_append, hall]
      rfl
    obtain ⟨t, l₂, h₂, comes₂⟩ := ih h₁ comes₁
    exact ⟨t, l₁.trans l₂, h₂, comes₂⟩

/-- The watcher holds the whole output when only its end is still to be sent. -/
theorem sends_output {x : Sending}
    (hs : Standing host job world i s (.sending product.zip product.transferId x.messages)) :
    ∃ t, Leads host job.task i product s t ∧
      Standing host job world i t (.sending product.zip product.transferId [x.end]) ∧
      t.watch.point = .top ∧ (∀ k, unread t.system k = []) ∧
      t.watch.outputState = some (stateOf (whole (fun n => (n : Int)) x.transfer)) := by
  obtain ⟨b, hb⟩ := hs.serving.state
  rw [(messages_body x).1] at hs
  obtain ⟨t, l₁, h₁, comes⟩ := sends_body product fresh queued hs ⟨b, hb, rfl⟩
  obtain ⟨u, hreach, hpoint, hread, -⟩ := catches_up h₁.serving
  obtain ⟨l₂, h₂⟩ := h₁.watch hreach
  have held := (comes.reaches h₁.serving hreach).read (hread .output)
  rw [List.map_dropLast, messages_pieces, holds_whole natCast_injective] at held
  exact ⟨_, l₁.trans l₂, h₂, hpoint, hread, held⟩

end Arrives

/-- The output has been accepted and the watcher is back at the top of its loop. -/
structure Accepted (host : Host) (job : Job) (product : Product) (s : Site ι) : Prop where
  execution : s.watch.execution = job.execution
  keys : s.watch.keys = job.task.keys
  point : s.watch.point = .top
  row : ∃ e, s.system.row = some e ∧ e.status = .succeeded ∧
    e.outputPath = outPath host job.execution ∧ e.outputChecksum = sha256Bytes product.zip.data
  file : s.world.store.media (outPath host job.execution) = some product.zip.data

/-- The delivery has succeeded, its output is stored and its streams are gone. -/
structure Completed (host : Host) (job : Job) (i : ι) (product : Product) (s : Site ι) :
    Prop where
  stage : s.stages i = .ended .succeeded
  point : s.watch.point = .ended .terminal
  row : ∃ e, s.system.row = some e ∧ e.status = .succeeded ∧
    e.outputPath = outPath host job.execution ∧ e.outputChecksum = sha256Bytes product.zip.data
  file : s.world.store.media (outPath host job.execution) = some product.zip.data
  gone : ∀ k, ¬ (s.world.redis (job.task.keys.key k)).Exists

section Accepts
variable {host : Host} {job : Job} {world : World} {i : ι} {product : Product} {s : Site ι}

/-- The end of a whole output is accepted. -/
theorem effect_end {x : Sending} {watch : Watch} {store : Store} {m : Message}
    (hk : m.kind = .output) (hm : m.fields = x.end)
    (state : watch.outputState = some (stateOf (whole (fun n => (n : Int)) x.transfer)))
    (writable : host.writable (outPath host watch.execution) = true) :
    effect host watch m store =
      .ok (acceptOutput host watch.execution x.payload.data (sha256Bytes x.payload.data) store,
        watch.logSeq, none) := by
  have hc : Closes m.fields (stateOf (whole (fun n => (n : Int)) x.transfer)) := by
    rw [hm]
    constructor
    · simp [Sending.end, endMessage, Fields.get?]
    · simp [Sending.end, endMessage, Fields.get?]
      rfl
  have hbytes : (stateOf (whole (fun n => (n : Int)) x.transfer)).buf = x.payload.data :=
    whole_bytes x
  have hsum : (stateOf (whole (fun n => (n : Int)) x.transfer)).checksum =
      sha256Bytes x.payload.data := rfl
  simp only [effect, hk, handleOutputMessage, state, outputVerdict_closes hc,
    if_pos (whole_valid x), hbytes, hsum, if_pos writable]

/-- The watcher reads nothing but the end of the output, and accepts it. -/
theorem accepts {x : Sending} (data : x.payload.data = product.zip.data)
    (hs : Standing host job world i s (.sending product.zip product.transferId [x.end]))
    (hpoint : s.watch.point = .top) (hread : ∀ k, unread s.system k = [])
    (state : s.watch.outputState = some (stateOf (whole (fun n => (n : Int)) x.transfer)))
    (writable : host.writable (outPath host job.execution) = true) :
    ∃ t, Leads host job.task i product s t ∧
      t.stages i = .sending product.zip product.transferId [] ∧ Accepted host job product t := by
  have publishes : Works product .publish := trivial
  have execution : s.watch.execution = job.execution := hs.serving.execution
  have keys : s.watch.keys = job.task.keys := hs.serving.keys
  obtain ⟨e, hrow, open', -⟩ := hs.serving.row
  have l₁ : Leads host job.task i product s (worked job.task.keys i s
      (.sending product.zip product.transferId []) [.publish .output x.end]) :=
    leads_worker publishes (by rw [hs.stands]; rfl)
  generalize hs₁ : worked job.task.keys i s (.sending product.zip product.transferId [])
    [.publish .output x.end] = s₁ at l₁
  have hwatch : s₁.watch = s.watch := by rw [← hs₁]; rfl
  have execution₁ : s₁.watch.execution = job.execution := by rw [hwatch, execution]
  have keys₁ : s₁.watch.keys = job.task.keys := by rw [hwatch, keys]
  have hstage : s₁.stages i = .sending product.zip product.transferId [] := by
    rw [← hs₁]
    exact Function.update_self _ _ _
  have hrow₁ : s₁.world.store.db.execution job.execution.id = some e := by
    rw [← hs₁, ← execution]
    exact hrow
  have hunread (k : Kind) : unread s₁.system k =
      if k = .output then [((s.system.log .output).history.length + 1, x.end)] else [] := by
    rw [← hs₁, worked_unread hs.serving, hread]
    cases k <;> rfl
  let m : Message := ⟨.output, (s.system.log .output).history.length + 1, x.end⟩
  have hxread : xread s₁.world s₁.watch (fun _ => maxCount) = [m] := by
    have hentries (k : Kind) : (s₁.world.redis (s₁.watch.keys.key k)).read (s₁.watch.lastIds k)
        maxCount = if k = .output then [(m.id, m.fields)] else [] := by
      change (unread s₁.system k).take maxCount = _
      rw [hunread]
      cases k <;> rfl
    simp only [xread, hentries]
    rfl
  have smooth : Smooth (.check false) := rfl
  have reads : Smooth (.xread (fun _ => maxCount)) := rfl
  have handles : Smooth .handle := trivial
  have polls : step host s₁.world s₁.watch (.check false) =
      some (s₁.world, s₁.watch.goto .reading, []) := by
    simp [step, hwatch, hpoint, execution, hrow₁, open']
  have read : step host s₁.world (s₁.watch.goto .reading) (.xread (fun _ => maxCount)) =
      some (s₁.world, s₁.watch.goto (.handling [m]), []) := by
    rw [← hxread]
    simp [step]
    rfl
  have accepted : step host s₁.world (s₁.watch.goto (.handling [m])) .handle =
      some ({ s₁.world with
          store := acceptOutput host job.execution product.zip.data
            (sha256Bytes product.zip.data) s₁.world.store },
        { (s₁.watch.seenUpTo m).goto (.handling []) with outputState := none }, [.handled m]) := by
    have hstate : (s₁.watch.goto (.handling [m])).outputState =
        some (stateOf (whole (fun n => (n : Int)) x.transfer)) := by
      rw [← state, ← hwatch]
      rfl
    have same : (s₁.watch.goto (.handling [m])).execution = job.execution := execution₁
    have he := @effect_end host x _ s₁.world.store m rfl rfl hstate (by rw [same]; exact writable)
    have hm : ¬ m.IsRequest := by
      rintro ⟨hkind, -⟩
      cases hkind
    rw [same, data] at he
    simp only [Watch.goto] at he
    simp only [step, Watch.goto, handle, if_neg hm, he]
    rfl
  have reach : Reaches host s₁.system _ :=
    (((ReflTransGen.single (goes_of_step smooth polls)).tail (goes_of_step reads read)).tail
      (goes_of_step handles accepted)).tail (goes_of_step handles rfl)
  refine ⟨_, l₁.trans (leads_watcher reach), hstage, ?_⟩
  refine ⟨execution₁, keys₁, rfl, ?_, ?_⟩
  · refine ⟨{ e with status := .succeeded, outputPath := outPath host job.execution,
                     outputChecksum := sha256Bytes product.zip.data }, ?_, rfl, rfl, rfl⟩
    have hrow₂ := @acceptOutput_row job.execution s₁.world.store host product.zip.data
      (sha256Bytes product.zip.data)
    rw [hrow₁] at hrow₂
    change (acceptOutput host job.execution product.zip.data (sha256Bytes product.zip.data)
      s₁.world.store).db.execution s₁.watch.execution.id = _
    rw [execution₁]
    exact hrow₂
  · simp [Site.withSystem, acceptOutput]

/-- The delivery goes on, which leaves the row and the file as they are. -/
theorem Accepted.step (h : Accepted host job product s) {stage' : Stage} {deeds : List Deed}
    {work : Worker.Work} (works : Works product work)
    (hstep : Worker.step job.task (s.world.redis job.task.keys.events) (s.stages i) work =
      some (stage', deeds)) :
    ∃ t, Leads host job.task i product s t ∧ t.stages i = stage' ∧ Accepted host job product t := by
  have store : (worked job.task.keys i s stage' deeds).world.store = s.world.store :=
    performs_store deeds job.task.keys s.world
  obtain ⟨e, hrow, hrest⟩ := h.row
  refine ⟨worked job.task.keys i s stage' deeds, leads_worker works hstep,
    Function.update_self _ _ _, h.execution, h.keys, h.point, ⟨e, ?_, hrest⟩, ?_⟩
  · rw [← hrow]
    simp only [System.row, Site.system, store]
    rfl
  · rw [store]
    exact h.file

/-- The delivery reports its success, and the watcher deletes the streams. -/
theorem closes_down (h : Accepted host job product s) {zip : Payload} {transferId : String}
    (hstage : s.stages i = .sending zip transferId []) :
    ∃ t, Leads host job.task i product s t ∧ Completed host job i product t := by
  have publishes : Works product .publish := trivial
  obtain ⟨s₁, l₁, hstage₁, h₁⟩ := h.step (i := i) publishes (by rw [hstage]; rfl)
  obtain ⟨t, l₂, hstage₂, h₂⟩ := h₁.step (i := i) publishes (by rw [hstage₁]; rfl)
  obtain ⟨e, hrow, hstatus, hrest⟩ := h₂.row
  have hterm : e.Terminal := by simp [Execution.Terminal, terminalStatuses, hstatus]
  have smooth : Smooth (.check false) := rfl
  have deletes : Smooth .delete := trivial
  have hrow' : t.world.store.db.execution t.watch.execution.id = some e := hrow
  have polls : step host t.world t.watch (.check false) =
      some (t.world, t.watch.goto (.cleaning .terminal), []) := by
    simp [step, h₂.point, hrow', hterm]
  have reach : Reaches host t.system _ :=
    (ReflTransGen.single (goes_of_step smooth polls)).tail (goes_of_step deletes rfl)
  refine ⟨_, l₁.trans (l₂.trans (leads_watcher reach)), hstage₂, rfl, ⟨e, hrow, hstatus, hrest⟩,
    h₂.file, ?_⟩
  intro k
  have own : ∃ k' ∈ kinds, t.watch.keys.key k' = job.task.keys.key k :=
    ⟨k, mem_kinds k, by rw [h₂.keys]⟩
  have deleted : ((t.world.deleteKeys t.watch.keys).redis (job.task.keys.key k)) =
      (t.world.redis (job.task.keys.key k)).delete := if_pos own
  change ¬ ((t.world.deleteKeys t.watch.keys).redis (job.task.keys.key k)).Exists
  rw [deleted]
  exact Nat.lt_irrefl _

end Accepts

/-- However many deliveries have been cut off, and wherever the watcher stands in
its loop: as long as none of them has made its last report or sent the end of its
output and the request is one that is granted, a new delivery can be brought to
SUCCEEDED with whatever output it comes to, leaving no stream behind. -/
theorem recreated_from_start {host : Host} {job : Job} {world : World} {i : ι} {s : Site ι}
    {turns : List (Turn ι)} {o : List (Event ι)} {e : Execution} (fresh : Fresh job world)
    (queued : Queued job world)
    (run : Run (delivering host job.task) Free (.start job world) turns s o)
    (loop : looping s.watch.point = true) (unfinished : ∀ j, finishing (s.stages j) = false)
    (row : s.system.row = some e) (grants : Grants host s.world.store.db job.task e)
    (untaken : s.stages i = .identifying) (patient : 0 < job.task.waitTimeout)
    (retries : 1 ≤ job.task.maxRetries)
    (writable : host.writable (outPath host job.execution) = true) (product : Product) :
    ∃ turns' t o', Run (delivering host job.task) (Untroubled i product) s turns' t o' ∧
      Completed host job i product t := by
  have standing : Standing host job world i s .identifying :=
    ⟨⟨turns, o, run⟩, untaken, unfinished, serving_run fresh queued run loop unfinished row grants⟩
  obtain ⟨s₁, l₁, h₁⟩ := gets_ready product fresh queued retries standing
  obtain ⟨s₂, l₂, h₂, answered⟩ := gets_answer product fresh queued h₁
  obtain ⟨s₃, data, transferId, l₃, h₃⟩ :=
    gets_workspace product fresh queued patient h₂ answered
  obtain ⟨s₄, l₄, h₄⟩ := gets_output product fresh queued h₃
  obtain ⟨s₅, l₅, h₅, point, read, state⟩ := sends_output product fresh queued h₄
  obtain ⟨s₆, l₆, stage, accepted⟩ := accepts rfl h₅ point read state writable
  obtain ⟨t, l₇, completed⟩ := closes_down accepted stage
  obtain ⟨turns', o', hr⟩ :=
    l₁.trans (l₂.trans (l₃.trans (l₄.trans (l₅.trans (l₆.trans l₇)))))
  exact ⟨turns', t, o', hr, completed⟩

/-- The first delivery is cut off while the watcher answers it. -/
def cutOff : List (Turn Bool) :=
  ([.prepare true, .publish, .publish, .prepare true, .publish, .publish, .start 0] :
    List Worker.Work).map (.worker true) ++
    ([.check false, .xread (fun _ => maxCount), .handle, .authorize "t0", .xadd] :
      List Input).map .watcher

def isGranted : Except PyError Decision → Bool
  | .ok (.granted _) => true
  | _ => false

def isWaiting : Stage → Bool
  | .identifying => true
  | _ => false

theorem grants_of_isGranted {host : Host} {db : DB} {task : Task} {e : Execution}
    (h : isGranted (decideRequest host db e (workspaceRequest task)) = true) :
    Grants host db task e := by
  unfold Grants
  cases hd : decideRequest host db e (workspaceRequest task) with
  | error err =>
    rw [hd] at h
    cases h
  | ok decision =>
    cases decision with
    | granted grant => exact ⟨grant, rfl⟩
    | _ =>
      rw [hd] at h
      cases h

theorem cutOff_recreated : ∃ s o t turns o',
    Run (delivering smallHost smallTask) Free (.start smallJob (smallWorld .queued)) cutOff s o ∧
      Run (delivering smallHost smallTask)
        (Untroubled false ⟨"workspace", ["hello"], threeBytes, "t1"⟩) s turns t o' ∧
      Completed smallHost smallJob false ⟨"workspace", ["hello"], threeBytes, "t1"⟩ t := by
  have hrun : (replay (delivering smallHost smallTask) (.start smallJob (smallWorld .queued))
      cutOff).any (fun r => looping r.1.watch.point && !finishing (r.1.stages true) &&
        isWaiting (r.1.stages false) && r.1.system.row.any (fun e => isGranted
          (decideRequest smallHost r.1.world.store.db e (workspaceRequest smallTask)))) = true := by
    decide +kernel
  obtain ⟨s, o, h, hs⟩ := run_of_replay_test hrun
  simp only [Bool.and_eq_true, Bool.not_eq_true', Option.any_eq_true] at hs
  obtain ⟨⟨⟨loop, unfinished⟩, waiting⟩, e, hrow, granted⟩ := hs
  have untaken : s.stages false = .identifying := by
    cases hstage : s.stages false with
    | identifying => rfl
    | _ =>
      rw [hstage] at waiting
      cases waiting
  have all : ∀ j, finishing (s.stages j) = false := by
    intro j
    cases j with
    | true => exact unfinished
    | false =>
      rw [untaken]
      rfl
  have fresh : Fresh smallJob (smallWorld .queued) := fun k => by cases k <;> decide
  have queued : Queued smallJob (smallWorld .queued) := ⟨smallRow .queued, rfl, rfl⟩
  obtain ⟨turns, t, o', hr, completed⟩ := recreated_from_start fresh queued h loop all hrow
    (grants_of_isGranted granted) untaken (by decide) (by decide) rfl
    ⟨"workspace", ["hello"], threeBytes, "t1"⟩
  exact ⟨s, o, t, turns, o', h, hr, completed⟩

end FreshDelivery
