import DelegateProtocol.Confinement
import DelegateProtocol.Lib.Ledgers

/-!
# What a revoked delegate still gets

Once a delegate is marked REVOKED no request of it is authorised any more. What
the dispatcher still sends it are the rests of the answers it was about to send.
-/

namespace RevokedRequests

open Confinement Handlers Ledgers Models Runtime StepMachine StreamDispatcher Streams Uuid Views
open WatchExecution

/-- The delegate is there, and it is REVOKED. -/
def Revoked (a : UUID) (db : DB) : Prop :=
  ∃ row, db.delegate a = some row ∧ row.status = .revoked

/-- The messages a thread is about to send in answer to the delegate. -/
def owes (a : UUID) (watch : Watch) : Multiset Fields :=
  match watch.point with
  | .sending _ grant _ pending _ => if grant.delegate.id = a then ↑pending else 0
  | _ => 0

def owed (a : UUID) (d : Dispatcher) : Multiset Fields := (d.threads.map (owes a)).sum

/-- The message that is sent in answer to the delegate. -/
def sends (a : UUID) : Shown → Option Fields
  | .thread _ (.published _ message _ grant) =>
    if grant.delegate.id = a then some message else none
  | _ => none

/-- The delegate a request says it is from. -/
def requester (fields : Fields) : Option UUID := parse (fields.getD "delegate_id" "")

section Stores
variable {host : Host} {isDir : String → Bool} {db db' : DB} {a : UUID} {world world' : World}
variable {watch watch' : Watch} {input : Input} {seen : List Seen}

theorem Revoked.of_delegates (h : Revoked a db) (same : db'.delegates = db.delegates) :
    Revoked a db' := by
  obtain ⟨row, hrow, hstatus⟩ := h
  refine ⟨row, ?_, hstatus⟩
  rw [DB.delegate, same]
  exact hrow

theorem Revoked.viewWrite (h : Revoked a db) (write : ViewWrite host isDir db db') :
    Revoked a db' := by
  obtain ⟨row, hrow, hstatus⟩ := h
  cases write with
  | register _ hc =>
    refine ⟨row, ?_, hstatus⟩
    have fresh := createDelegate_fresh hc
    rw [createDelegate_delegate hc, if_neg, hrow]
    rintro rfl
    rw [hrow] at fresh
    cases fresh
  | @revoke id =>
    rw [Revoked]
    simp only [saveDelegateStatus_delegate]
    by_cases ha : a = id
    · subst ha
      rw [if_pos rfl, hrow]
      exact ⟨_, rfl, rfl⟩
    · rw [if_neg ha]
      exact ⟨row, hrow, hstatus⟩
  | create _ hc =>
    obtain ⟨executions, -, rfl⟩ := createExecution_some hc
    exact ⟨row, hrow, hstatus⟩
  | audit => exact ⟨row, hrow, hstatus⟩

/-- The delegate whose row a decision has read is ACTIVE, and the requester. -/
theorem requestDelegate_id {fields : Fields} {delegate : Delegate}
    (h : requestDelegate db fields = .ok (some delegate)) :
    requester fields = some delegate.id ∧ db.delegate delegate.id = some delegate := by
  unfold requestDelegate uuidField at h
  cases hp : parse (fields.getD "delegate_id" "") with
  | none => simp [hp] at h
  | some id =>
    simp only [hp, Except.ok.injEq] at h
    have hid : delegate.id = id := KeyedTable.get?_some_key h
    rw [requester, hp, hid]
    exact ⟨rfl, h⟩

/-- What comes of a request that is not rejected. -/
theorem decideRequest_active {read : Execution} {fields : Fields} {decision : Decision}
    (h : decideRequest host db read fields = .ok decision) (hd : decision ≠ .rejected) :
    ∃ delegate, requester fields = some delegate.id ∧ db.delegate delegate.id = some delegate ∧
      delegate.status = .active ∧
      ∀ grant, decision = .granted grant → grant.delegate = delegate := by
  unfold decideRequest at h
  cases hr : requestDelegate db fields with
  | error e => simp [hr] at h
  | ok found =>
    cases found with
    | none =>
      simp only [hr] at h
      cases h
      exact absurd rfl hd
    | some delegate =>
      obtain ⟨hid, hrow⟩ := requestDelegate_id hr
      simp only [hr] at h
      split at h
      · rename_i authorized
        obtain ⟨_, hsome, active, -⟩ := authorized
        cases hsome
        refine ⟨delegate, hid, hrow, active, ?_⟩
        intro grant hgrant
        subst hgrant
        split at h
        · cases h
        · cases h
        · cases h
          rfl
      · cases h
        exact absurd rfl hd

/-- A request of a revoked delegate is not authorised. -/
theorem Revoked.refused (h : Revoked a db) {read : Execution} {fields : Fields}
    {decision : Decision} (hdecide : decideRequest host db read fields = .ok decision)
    (hd : decision ≠ .rejected) :
    requester fields ≠ some a ∧ ∀ grant, decision = .granted grant → grant.delegate.id ≠ a := by
  obtain ⟨row, hrow, hstatus⟩ := h
  obtain ⟨delegate, hid, hdelegate, active, hgrant⟩ := decideRequest_active hdecide hd
  have other : delegate.id ≠ a := by
    rintro rfl
    rw [hrow] at hdelegate
    cases hdelegate
    rw [hstatus] at active
    cases active
  refine ⟨?_, ?_⟩
  · rw [hid]
    exact fun he => other (Option.some.inj he)
  · intro grant he
    rw [hgrant grant he]
    exact other

theorem quiet_pays (quiet : paid (sends a) (seen.map (.thread watch.execution)) = 0)
    (free : owes a watch' = 0) :
    paid (sends a) (seen.map (.thread watch.execution)) + owes a watch' ≤ owes a watch := by
  rw [quiet, free]
  exact Multiset.zero_le _

/-- A watcher authorises no request of a revoked delegate, and sends it only what it
was about to send. -/
theorem Revoked.moves (h : Revoked a world.store.db)
    (hm : Moves host world watch input world' watch' seen) :
    (∀ request, .authorized request ∈ seen → requester request.fields ≠ some a) ∧
      paid (sends a) (seen.map (.thread watch.execution)) + owes a watch' ≤ owes a watch := by
  cases hm with
  | fileNotFound hp hdecide =>
    refine ⟨?_, quiet_pays rfl rfl⟩
    intro request hrequest
    cases List.mem_singleton.mp hrequest
    exact (h.refused hdecide (by simp)).1
  | @granted read request rest grant transferId hp hdecide =>
    obtain ⟨hrequester, hgrant⟩ := h.refused hdecide (by simp)
    refine ⟨?_, quiet_pays rfl (if_neg (hgrant grant rfl))⟩
    intro request' hrequest
    cases List.mem_singleton.mp hrequest
    exact hrequester
  | @xadd request grant transferId m pending rest hp =>
    refine ⟨by simp, ?_⟩
    by_cases ha : grant.delegate.id = a
    · simp [paid, owes, sends, Watch.goto, hp, ha]
    · simp [paid, owes, sends, Watch.goto, hp, ha]
  | @xaddUnanswered request grant transferId m pending rest hp =>
    refine ⟨by simp, ?_⟩
    by_cases ha : grant.delegate.id = a
    · simp [paid, owes, sends, Watch.goto, hp, ha]
    · simp [paid, owes, sends, Watch.goto, hp, ha]
  | _ => exact ⟨by simp, quiet_pays rfl rfl⟩

end Stores

section Process
variable {host : Host} {isDir : String → Bool} {d t : Dispatcher} {act : Action} {o : List Shown}
variable {a : UUID}

/-- What a step keeps, shows and sends. -/
structure Refuses (a : UUID) (d t : Dispatcher) (o : List Shown) : Prop where
  revoked : Revoked a t.world.store.db
  refused : ∀ execution request, Shown.thread execution (.authorized request) ∈ o →
    requester request.fields ≠ some a
  pays : paid (sends a) o + owed a t ≤ owed a d

theorem announced_refuses {fields : Fields} (h : Revoked a d.world.store.db)
    (ha : Announced d fields (.ok t)) : Revoked a t.world.store.db ∧ owed a t = owed a d := by
  cases ha with
  | skip _ => exact ⟨h, rfl⟩
  | @watch execution e delegateId _ _ _ _ =>
    constructor
    · simp only [Dispatcher.watch]
      split
      · exact h
      · exact h.of_delegates rfl
    · have idle : owes a (.start execution (streamKeys execution.text (str delegateId))) = 0 := rfl
      simp only [owed, Dispatcher.watch, List.map_append, List.sum_append, List.map_cons,
        List.map_nil, List.sum_cons, List.sum_nil, idle, add_zero]

theorem Revoked.step (h : Revoked a d.world.store.db) (adm : Administered host isDir d act)
    (hm : Moved host d act t o) : Refuses a d t o := by
  have silent : paid (sends a) ([] : List Shown) + owed a d ≤ owed a d := (zero_add _).le
  cases hm with
  | read _ _ => exact ⟨h, by simp, silent⟩
  | readLost _ => exact ⟨h, by simp, silent⟩
  | batchDone _ => exact ⟨h, by simp, silent⟩
  | @consume id fields rest _ _ ha =>
    obtain ⟨revoked, same⟩ := announced_refuses (d := d.goto id (.handling rest)) h ha
    refine ⟨revoked, by simp, ?_⟩
    rw [same]
    exact silent
  | crash _ _ => exact ⟨h, by simp, silent⟩
  | @thread i watch watch' input world seen hget hmoves =>
    obtain ⟨refused, pays⟩ := h.moves hmoves
    refine ⟨h.of_delegates (moves_delegates hmoves), ?_, ?_⟩
    · intro execution request hx
      obtain ⟨x, hx, he⟩ := List.mem_map.mp hx
      obtain ⟨-, rfl⟩ := Shown.thread.inj he
      exact refused request hx
    · have replaced : owed a { d with world := world, threads := d.threads.set i watch' } +
          owes a watch = owed a d + owes a watch' := owed_set hget
      refine le_of_add_le_add_right (a := owes a watch) ?_
      calc paid (sends a) (seen.map (.thread watch.execution)) +
            owed a { d with world := world, threads := d.threads.set i watch' } + owes a watch
          = owed a d + (paid (sends a) (seen.map (.thread watch.execution)) + owes a watch') := by
            rw [add_assoc, replaced]
            ac_rfl
        _ ≤ owed a d + owes a watch := add_le_add le_rfl pays
  | publish => exact ⟨h, by simp, silent⟩
  | others => exact ⟨h.viewWrite adm.2, by simp, silent⟩
  | restart => exact ⟨h, by simp, Multiset.zero_le _⟩

/-- A delegate has been marked REVOKED. Whatever happens from there, with the views
as the only others that write to the database, it stays so; no request of it is
authorised; and all that is ever sent in answer to it are messages that the
watchers were about to send. -/
theorem revoked_gets_no_more {as : List Action} (revoked : Revoked a d.world.store.db)
    (h : Run (dispatching host) (Administered host isDir) d as t o) :
    Revoked a t.world.store.db ∧
    (∀ execution request, Shown.thread execution (.authorized request) ∈ o →
      requester request.fields ≠ some a) ∧
    paid (sends a) o + owed a t ≤ owed a d := by
  have kept : Revoked a t.world.store.db ∧ ∀ execution request,
      Shown.thread execution (.authorized request) ∈ o → requester request.fields ≠ some a := by
    refine h.invariant (fun t o => Revoked a t.world.store.db ∧ ∀ execution request,
      Shown.thread execution (.authorized request) ∈ o → requester request.fields ≠ some a)
      ⟨revoked, by simp⟩ ?_
    intro t o act u o' hi adm hs
    have refuses := hi.1.step adm (dispatching_moved hs)
    refine ⟨refuses.revoked, ?_⟩
    intro execution request hx
    rcases List.mem_append.mp hx with hx | hx
    · exact hi.2 execution request hx
    · exact refuses.refused execution request hx
  refine ⟨kept.1, kept.2, ?_⟩
  refine paid_run (fun d => Revoked a d.world.store.db) revoked ?_ ?_ h
  · intro s act t o' hi adm hs
    exact (hi.step adm (dispatching_moved hs)).revoked
  · intro s act t o' hi adm hs
    exact (hi.step adm (dispatching_moved hs)).pays

end Process

def answering : List Action :=
  [.publish globalExecutionEventsStream
      [("type", "EXECUTION_STARTED"), ("execution_id", smallExecution.text)],
    .loop (.xread 1), .loop .handle,
    .publish smallKeys.events (smallMessage "DATA_REQUEST" [("requested_file", "*")]),
    .thread 0 (.check false), .thread 0 (.xread (fun _ => maxCount)), .thread 0 .handle,
    .thread 0 (.authorize "transfer-1"), .thread 0 .xadd,
    .others { (smallWorld .queued).store with
      db := (smallDB .queued).saveDelegateStatus smallDelegate.id .revoked }]

/-- The rest of the answer, and another request. -/
def askingAgain : List Action :=
  [.thread 0 .xadd, .thread 0 .xadd, .thread 0 .save,
    .publish smallKeys.events (smallMessage "DATA_REQUEST" [("requested_file", "*")]),
    .thread 0 .handle, .thread 0 (.check false), .thread 0 (.xread (fun _ => maxCount)),
    .thread 0 .handle, .thread 0 .handle, .thread 0 .handle, .thread 0 .handle,
    .thread 0 (.authorize "transfer-2")]

def isRevoked (a : UUID) (d : Dispatcher) : Bool :=
  (d.world.store.db.delegate a).any (fun row => decide (row.status = .revoked))

theorem askingAgain_refused : ∃ d t o,
    Reachable (dispatching smallHost) (.start (smallWorld .queued)) d ∧
    Run (dispatching smallHost) (Administered smallHost (fun _ => true)) d askingAgain t o ∧
    Revoked smallDelegate.id t.world.store.db ∧
    paid (sends smallDelegate.id) o + owed smallDelegate.id t ≤ owed smallDelegate.id d := by
  have hrun : (replay (dispatching smallHost) (.start (smallWorld .queued)) answering).any
      (fun r => isRevoked smallDelegate.id r.1 &&
        (replay (dispatching smallHost) r.1 askingAgain).any (fun _ => true)) = true := by
    decide +kernel
  obtain ⟨d, o₁, hfirst, hd⟩ := run_of_replay_test hrun
  obtain ⟨hrevoked, hagain⟩ := (Bool.and_eq_true _ _).mp hd
  obtain ⟨t, o, hrest, -⟩ := run_of_replay_test hagain
  have revoked : Revoked smallDelegate.id d.world.store.db := by
    obtain ⟨row, hrow, hstatus⟩ := (Option.any_eq_true _ _).mp hrevoked
    exact ⟨row, hrow, of_decide_eq_true hstatus⟩
  have administered : Run (dispatching smallHost) (Administered smallHost (fun _ => true)) d
      askingAgain t o := by
    refine administered_of_quiet hrest ?_
    intro act hact store he
    subst he
    simp [askingAgain] at hact
  obtain ⟨kept, -, pays⟩ := revoked_gets_no_more revoked administered
  exact ⟨d, t, o, ⟨answering, o₁, hfirst⟩, administered, kept, pays⟩

end RevokedRequests
