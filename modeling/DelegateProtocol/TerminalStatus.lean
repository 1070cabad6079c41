import DelegateProtocol.ReadingOrder

/-!
# Terminal statuses

What a watcher's steps do to the row of its execution, and when a terminal row
stays as it is. The loop looks at the status only between two batches: a row
that becomes terminal inside a batch is still in the hands of the status and
output handlers until the batch is done.
-/

namespace TerminalStatus

open AppendLog Handlers Models Runtime StepMachine Streams WatchExecution ReadingOrder

/-- The ways a step changes the watched row. -/
inductive Change (host : Host) (watch : Watch) : (Execution → Execution) → Prop
  | keep : Change host watch id
  | status {m : Message} {rest : List Message} {status : Status} :
      watch.point = .handling (m :: rest) → m.kind = .status → m.type = some "STATUS" →
      newStatus m.fields = some status → Change host watch (fun e => { e with status := status })
  | received {m : Message} {rest : List Message} {state : OutputState} :
      watch.point = .handling (m :: rest) → m.kind = .output → watch.outputState = some state →
      Closes m.fields state → state.Valid → host.writable (outPath host watch.execution) = true →
      Change host watch (fun e =>
        { e with status := .succeeded, outputPath := outPath host watch.execution,
                 outputChecksum := state.checksum })
  | failed {m : Message} {rest : List Message} {state : OutputState} :
      watch.point = .handling (m :: rest) → m.kind = .output → watch.outputState = some state →
      Closes m.fields state → ¬ state.Valid →
      Change host watch (fun e => { e with status := .failed })
  | saved {request : Message} {grant : Grant} {transferId : String} {rest : List Message} :
      watch.point = .sending request grant transferId [] rest →
      Change host watch (fun e =>
        { e with status := .transferring, transferId := transferId,
                 transferAttempts := grant.execution.transferAttempts + 1 })

section Moves
variable {host : Host} {world world' : World} {watch watch' : Watch} {input : Input}
variable {seen : List Seen}

theorem effects_row {m : Message} {rest : List Message} {store : Store} {logSeq : Nat}
    {state : Option OutputState} (hp : watch.point = .handling (m :: rest))
    (h : Effects host watch m world.store store logSeq state) :
    ∃ f, Change host watch f ∧ store.db.execution watch.execution.id =
      (world.store.db.execution watch.execution.id).map f := by
  cases h with
  | skip _ _ _ => exact ⟨id, .keep, by simp⟩
  | log _ _ => exact ⟨id, .keep, by simp⟩
  | status hk ht =>
    cases hs : newStatus m.fields with
    | none =>
      refine ⟨id, .keep, ?_⟩
      rw [handleStatus_row, hs]
      rfl
    | some status =>
      refine ⟨_, .status hp hk ht hs, ?_⟩
      rw [handleStatus_row, hs]
      rfl
  | waiting _ _ => exact ⟨id, .keep, by simp⟩
  | received hk hv hw =>
    obtain ⟨s, hs, hc, valid, rfl, rfl⟩ := outputVerdict_received hv
    exact ⟨_, .received hp hk hs hc valid hw, acceptOutput_row _ _ _⟩
  | failed hk hv =>
    obtain ⟨s, hs, hc, invalid⟩ := outputVerdict_failed hv
    exact ⟨_, .failed hp hk hs hc invalid, rejectOutput_row⟩

theorem moves_row (h : Moves host world watch input world' watch' seen) :
    ∃ f, Change host watch f ∧ world'.store.db.execution watch.execution.id =
      (world.store.db.execution watch.execution.id).map f := by
  have keep : ∃ f, Change host watch f ∧ world.store.db.execution watch.execution.id =
      (world.store.db.execution watch.execution.id).map f := ⟨id, .keep, by simp⟩
  cases h with
  | message hp _ he => exact effects_row hp (effect_ok he)
  | saved hp hs => exact ⟨_, .saved hp, (saveTransfer_ok hs).1⟩
  | _ => exact keep

end Moves

def Idle : Point → Prop
  | .top => True
  | .reading => False
  | .handling rest => ∀ m ∈ rest, m.kind ≠ .events
  | .authorizing _ _ _ => False
  | .sending _ _ _ _ _ => False
  | .cleaning _ => True
  | .ended _ => True

structure Calm (s : System) : Prop where
  order : InOrder s
  idle : ∀ e, s.row = some e → e.Terminal → Idle s.watch.point

section Invariant
variable {host : Host} {s t : System} {a : Act} {o : List Seen}

theorem Calm.start (world : World) (execution : Named) (keys : Keys) :
    Calm ⟨world, .start execution keys⟩ :=
  ⟨.start world execution keys, fun _ _ _ => trivial⟩

/-- Behind a status or output message stand no data requests. -/
theorem InOrder.no_events (hi : InOrder s) {m : Message} {rest : List Message}
    (hp : s.watch.point = .handling (m :: rest)) (hk : m.kind ≠ .events) :
    ∀ x ∈ rest, x.kind ≠ .events := by
  intro x hx he
  have hs := hi.sorted
  rw [hp] at hs
  have hle := (List.pairwise_cons.mp hs).1 x hx
  rw [he] at hle
  cases hm : m.kind with
  | events => exact hk hm
  | _ => simp [hm, rank] at hle

theorem Calm.idle_moves (hi : Calm s) {input : Input} {world : World} {watch : Watch}
    (h : Moves host s.world s.watch input world watch o) {e : Execution}
    (hrow : world.store.db.execution s.watch.execution.id = some e) (hterm : e.Terminal) :
    Idle watch.point := by
  have old (hw : world.store.db.execution s.watch.execution.id =
      s.world.store.db.execution s.watch.execution.id) : Idle s.watch.point :=
    hi.idle e (hw.symm.trans hrow) hterm
  cases h with
  | poll hp hr hn =>
    cases hr.symm.trans hrow
    exact False.elim (hn hterm)
  | read hp _ =>
    have := old rfl
    simp [hp, Idle] at this
  | requestRowGone _ _ hr => cases hr.symm.trans hrow
  | request hp hm _ =>
    have := old rfl
    rw [hp] at this
    exact False.elim (this _ (List.mem_cons_self ..) hm.1)
  | @message m rest store logSeq state hp hm he =>
    have keep (hw : store.db.execution s.watch.execution.id =
        s.world.store.db.execution s.watch.execution.id) : ∀ x ∈ rest, x.kind ≠ .events := by
      have := old hw
      rw [hp] at this
      exact fun x hx => this x (List.mem_cons_of_mem _ hx)
    cases effect_ok he with
    | skip _ _ _ => exact keep rfl
    | log _ _ => exact keep rfl
    | status hk _ => exact InOrder.no_events hi.order hp (by simp [hk])
    | waiting _ _ => exact keep rfl
    | received hk _ _ => exact InOrder.no_events hi.order hp (by simp [hk])
    | failed hk _ => exact InOrder.no_events hi.order hp (by simp [hk])
  | rejected hp _ =>
    have := old rfl
    simp [hp, Idle] at this
  | fileNotFound hp _ =>
    have := old rfl
    simp [hp, Idle] at this
  | granted hp _ =>
    have := old rfl
    simp [hp, Idle] at this
  | xadd hp =>
    have := old rfl
    simp [hp, Idle] at this
  | saved _ hs =>
    rw [(saveTransfer_ok hs).1] at hrow
    obtain ⟨r, -, rfl⟩ := Option.map_eq_some_iff.mp hrow
    simp [Execution.Terminal, terminalStatuses] at hterm
  | _ => trivial

theorem Calm.step (hi : Calm s) (h : (watching host).step s a = some (t, o)) : Calm t := by
  have order := hi.order.step h
  cases a with
  | watcher input =>
    have hm := watching_watcher h
    refine ⟨order, fun e hrow hterm => hi.idle_moves hm ?_ hterm⟩
    rw [← (moves_same hm).1]
    exact hrow
  | publish key fields =>
    obtain ⟨rfl, -⟩ := watching_publish h
    exact ⟨order, hi.idle⟩
  | others store =>
    obtain ⟨hl, rfl, -⟩ := watching_others h
    refine ⟨order, fun e hrow hterm => hi.idle e ?_ hterm⟩
    rw [System.row, ← hl.1]
    exact hrow

end Invariant

def Agrees (e e' : Execution) : Prop :=
  e'.status = e.status ∧ e'.outputPath = e.outputPath ∧ e'.outputChecksum = e.outputChecksum

/-- The message makes its handler write something else than the row holds: a
status that is mapped to another one, or the end of an output whose outcome is
not the recorded one. -/
def Rewrites (host : Host) (watch : Watch) (e : Execution) (m : Message) : Prop :=
  (m.kind = .status ∧ m.type = some "STATUS" ∧
    ∃ status, newStatus m.fields = some status ∧ status ≠ e.status) ∨
  (m.kind = .output ∧ ∃ state, watch.outputState = some state ∧ Closes m.fields state ∧
    ((state.Valid ∧ host.writable (outPath host watch.execution) = true ∧
        ¬ (e.status = .succeeded ∧ e.outputPath = outPath host watch.execution ∧
          e.outputChecksum = state.checksum)) ∨
      (¬ state.Valid ∧ e.status ≠ .failed)))

/-- While the row is terminal the next message does not rewrite it. -/
def Respects (host : Host) (s : System) (a : Act) : Prop :=
  ∀ e m rest, s.row = some e → e.Terminal → a = .watcher .handle →
    s.watch.point = .handling (m :: rest) → ¬ Rewrites host s.watch e m

/-- Once the row is terminal, it has the same status and output at every later
point of the run. -/
def Absorbing (host : Host) (s₀ : System) (as : List Act) : Prop :=
  ∀ as₁ as₂ s₁ s₂ o₁ o₂, as₁ ++ as₂ <+: as → Run (watching host) Free s₀ as₁ s₁ o₁ →
    Run (watching host) Free s₁ as₂ s₂ o₂ →
    ∀ e, s₁.row = some e → e.Terminal → ∃ e', s₂.row = some e' ∧ Agrees e e'

section Steps
variable {host : Host} {s t : System} {a : Act} {o : List Seen} {e : Execution}

theorem moves_handling {input : Input} {world : World} {watch : Watch} {ms : List Message}
    (h : Moves host s.world s.watch input world watch o) (hp : s.watch.point = .handling ms) :
    input = .handle := by
  cases h <;> first | rfl | simp_all

/-- A message that rewrites the row is handled without an error, and does. -/
theorem rewrites_changes {m : Message} {rest : List Message}
    (hp : s.watch.point = .handling (m :: rest)) (hr : Rewrites host s.watch e m)
    {world : World} {watch : Watch} (h : Moves host s.world s.watch .handle world watch o)
    (hrow : s.row = some e) :
    ∃ e', world.store.db.execution s.watch.execution.id = some e' ∧ ¬ Agrees e e' := by
  have hkind : m.kind ≠ .events := by
    rcases hr with ⟨hk, _⟩ | ⟨hk, _⟩ <;> simp [hk]
  have hm : ¬ m.IsRequest := fun hm => hkind hm.1
  have row : s.world.store.db.execution s.watch.execution.id = some e := hrow
  have done : ∀ r, effect host s.watch m s.world.store = .ok r →
      r.1.db.execution s.watch.execution.id =
        world.store.db.execution s.watch.execution.id := by
    intro r he
    rw [(moves_effect h hp hm he).1]
  rcases hr with ⟨hk, ht, status, hs, hne⟩ | ⟨hk, state, hstate, hc, hcase⟩
  · have he : effect host s.watch m s.world.store =
        .ok (handleStatus s.watch.execution m.fields s.world.store, s.watch.logSeq,
          s.watch.outputState) := by
      simp [effect, hk, ht]
    refine ⟨{ e with status := status }, ?_, fun ha => hne ha.1⟩
    rw [← done _ he, handleStatus_row, row, hs]
    rfl
  · have hv := outputVerdict_closes hc
    rcases hcase with ⟨valid, hw, hne⟩ | ⟨invalid, hne⟩
    · rw [if_pos valid] at hv
      have he : effect host s.watch m s.world.store =
          .ok (acceptOutput host s.watch.execution state.buf state.checksum s.world.store,
            s.watch.logSeq, none) := by
        simp [effect, hk, handleOutputMessage, hstate, hv, hw]
      refine ⟨_, by rw [← done _ he, acceptOutput_row, row]; rfl, fun ha => hne ?_⟩
      exact ⟨ha.1.symm, ha.2.1.symm, ha.2.2.symm⟩
    · rw [if_neg invalid] at hv
      have he : effect host s.watch m s.world.store =
          .ok (rejectOutput s.watch.execution s.world.store, s.watch.logSeq, none) := by
        simp [effect, hk, handleOutputMessage, hstate, hv]
      refine ⟨_, by rw [← done _ he, rejectOutput_row, row]; rfl, fun ha => hne ha.1.symm⟩

/-- A step leaves a terminal row as it is exactly if it respects it. -/
theorem terminal_step (hi : Calm s) (hrow : s.row = some e) (hterm : e.Terminal)
    (h : (watching host).step s a = some (t, o)) :
    (∃ e', t.row = some e' ∧ Agrees e e') ↔ Respects host s a := by
  have refl : Agrees e e := ⟨rfl, rfl, rfl⟩
  cases a with
  | publish key fields =>
    obtain ⟨rfl, -⟩ := watching_publish h
    constructor
    · intro _ _ _ _ _ _ hact
      cases hact
    · intro _
      exact ⟨e, hrow, refl⟩
  | others store =>
    obtain ⟨hl, rfl, -⟩ := watching_others h
    constructor
    · intro _ _ _ _ _ _ hact
      cases hact
    · intro _
      exact ⟨e, hl.1.trans hrow, refl⟩
  | watcher input =>
    have hm := watching_watcher h
    have hexec := (moves_same hm).1
    constructor
    · rintro ⟨e', hrow', ha⟩ e₁ m rest hrow₁ - hact hp hr
      cases hrow.symm.trans hrow₁
      cases hact
      obtain ⟨e₂, hrow₂, hn⟩ := rewrites_changes hp hr hm hrow
      rw [System.row, hexec, hrow₂] at hrow'
      cases hrow'
      exact hn ha
    · intro hresp
      obtain ⟨f, hf, hw⟩ := moves_row hm
      refine ⟨f e, ?_, ?_⟩
      · rw [System.row, hexec, hw, show s.world.store.db.execution s.watch.execution.id =
          some e from hrow]
        rfl
      have calm {m : Message} {rest : List Message} (hp : s.watch.point = .handling (m :: rest)) :
          ¬ Rewrites host s.watch e m := by
        cases moves_handling hm hp
        exact hresp e m rest hrow hterm rfl hp
      cases hf with
      | keep => exact refl
      | status hp hk ht hs =>
        refine ⟨?_, rfl, rfl⟩
        by_contra hne
        exact calm hp (Or.inl ⟨hk, ht, _, hs, hne⟩)
      | received hp hk hs hc valid writable =>
        by_contra hne
        refine calm hp (Or.inr ⟨hk, _, hs, hc, Or.inl ⟨valid, writable, fun he => hne ?_⟩⟩)
        exact ⟨he.1.symm, he.2.1.symm, he.2.2.symm⟩
      | failed hp hk hs hc invalid =>
        refine ⟨?_, rfl, rfl⟩
        by_contra hne
        exact calm hp (Or.inr ⟨hk, _, hs, hc, Or.inr ⟨invalid, fun he => hne he.symm⟩⟩)
      | saved hp =>
        have hidle := hi.idle e hrow hterm
        rw [hp] at hidle
        exact False.elim hidle

theorem Agrees.terminal {e' : Execution} (h : Agrees e e') (ht : e.Terminal) : e'.Terminal := by
  unfold Execution.Terminal
  rw [h.1]
  exact ht

theorem Agrees.trans {e' e'' : Execution} (h : Agrees e e') (h' : Agrees e' e'') : Agrees e e'' :=
  ⟨h'.1.trans h.1, h'.2.1.trans h.2.1, h'.2.2.trans h.2.2⟩

end Steps

section Runs
variable {host : Host} {world : World} {execution : Named} {keys : Keys}

/-- Along a run that respects terminal rows, a terminal row stays. -/
theorem terminal_run {s t : System} {as : List Act} {o : List Seen} {e : Execution}
    (hi : Calm s) (hrow : s.row = some e) (hterm : e.Terminal)
    (h : Run (watching host) (Respects host) s as t o) :
    ∃ e', t.row = some e' ∧ Agrees e e' := by
  have kept : Calm t ∧ ∃ e', t.row = some e' ∧ Agrees e e' := by
    refine h.state_invariant (fun t => Calm t ∧ ∃ e', t.row = some e' ∧ Agrees e e')
      ⟨hi, e, hrow, rfl, rfl, rfl⟩ ?_
    rintro s a t o ⟨hc, e₁, hrow₁, ha⟩ hok hs
    refine ⟨hc.step hs, ?_⟩
    obtain ⟨e₂, hrow₂, ha₂⟩ := (terminal_step hc hrow₁ (ha.terminal hterm) hs).mpr hok
    exact ⟨e₂, hrow₂, ha.trans ha₂⟩
  exact kept.2

theorem calm_run {as : List Act} {s : System} {o : List Seen}
    (h : Run (watching host) Free ⟨world, .start execution keys⟩ as s o) : Calm s :=
  h.state_invariant Calm (.start world execution keys) (fun hi _ hs => hi.step hs)

/-- A watcher leaves terminal rows alone in exactly those runs in which no
message it handles rewrites one. -/
theorem absorbing_iff_respects {as : List Act} {s : System} {o : List Seen}
    (h : Run (watching host) Free ⟨world, .start execution keys⟩ as s o) :
    Absorbing host ⟨world, .start execution keys⟩ as ↔
      Run (watching host) (Respects host) ⟨world, .start execution keys⟩ as s o := by
  constructor
  · intro habs
    induction h with
    | start => exact .start
    | @snoc as s t o o' a hr _ hs ih =>
      refine .snoc (ih ?_) ?_ hs
      · intro as₁ as₂ s₁ s₂ o₁ o₂ hpre h₁ h₂
        exact habs as₁ as₂ s₁ s₂ o₁ o₂ (hpre.trans (List.prefix_append as [a])) h₁ h₂
      · intro e m rest hrow hterm hact hp
        have kept := habs as [a] s t o o' (List.prefix_refl _) hr (.single trivial hs) e hrow hterm
        exact (terminal_step (calm_run hr) hrow hterm hs).mp kept e m rest hrow hterm hact hp
  · rintro hresp as₁ as₂ s₁ s₂ o₁ o₂ ⟨as₃, rfl⟩ h₁ h₂ e hrow hterm
    obtain ⟨r, _, _, hr, -, -⟩ := hresp.split
    obtain ⟨q, _, _, hq, hqr, -⟩ := hr.split
    obtain ⟨rfl, -⟩ := h₁.deterministic hq
    obtain ⟨rfl, -⟩ := h₂.deterministic hqr
    exact terminal_run (calm_run h₁) hrow hterm hqr

/-- A failure report with another status behind it in the same batch. -/
def failedThenExecuting : List Act :=
  [.publish smallKeys.status (smallMessage "STATUS" [("status", "TASK_FAILED")]),
    .publish smallKeys.status (smallMessage "STATUS" [("status", "EXECUTING")])] ++ pollAll ++
    [.watcher .handle]

theorem failedThenExecuting_absorbing_iff :
    ∃ s o, Run (watching smallHost) Free (smallStart .running) failedThenExecuting s o ∧
      (Absorbing smallHost (smallStart .running) failedThenExecuting ↔
        Run (watching smallHost) (Respects smallHost) (smallStart .running) failedThenExecuting
          s o) := by
  have hrun : (replay (watching smallHost) (smallStart .running) failedThenExecuting).any
      (fun _ => true) = true := by decide +kernel
  obtain ⟨s, o, h, -⟩ := run_of_replay_test hrun
  exact ⟨s, o, h, absorbing_iff_respects h⟩

theorem terminal_row_reopened :
    ∃ s o, Run (watching smallHost) Free (smallStart .running)
        (failedThenExecuting ++ [.watcher .handle]) s o ∧
      ¬ Absorbing smallHost (smallStart .running) (failedThenExecuting ++ [.watcher .handle]) := by
  have hfirst : (replay (watching smallHost) (smallStart .running) failedThenExecuting).any
      (fun r => decide (r.1.row.map (·.status) = some .failed)) = true := by decide +kernel
  have hboth : (replay (watching smallHost) (smallStart .running)
      (failedThenExecuting ++ [.watcher .handle])).any
      (fun r => decide (r.1.row.map (·.status) = some .running)) = true := by decide +kernel
  obtain ⟨s, o, hs, failed⟩ := run_of_replay_test hfirst
  obtain ⟨t, p, ht, running⟩ := run_of_replay_test hboth
  obtain ⟨s', o', p', hs', hst, -⟩ := ht.split
  obtain ⟨rfl, rfl⟩ := hs.deterministic hs'
  refine ⟨t, p, ht, fun habs => ?_⟩
  obtain ⟨e, he, hfailed⟩ := Option.map_eq_some_iff.mp (of_decide_eq_true failed)
  have hterm : e.Terminal := by simp [Execution.Terminal, hfailed, terminalStatuses]
  obtain ⟨e', he', ha⟩ := habs _ _ _ _ _ _ (List.prefix_refl _) hs hst e he hterm
  have hrunning := of_decide_eq_true running
  rw [he'] at hrunning
  simp [ha.1, hfailed] at hrunning

end Runs

end TerminalStatus
