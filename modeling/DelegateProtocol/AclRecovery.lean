import DelegateProtocol.AclDurability

/-!
# A reconciliation puts Redis right

Whatever users an outage has left, a reconciliation that gets through leaves those of
the active delegates, in memory and in the file. One that was broken off before
takes nothing away from that, so it is enough to try again.
-/

namespace AclRecovery

open AclDurability AclPersistence KeyedTable LoneReconciliation Models RedisAcl SavedCopies
open StepMachine Uuid
open AclReconciliation (Op opStep opStep_moves delegateA)
open PyInt (isDigit)

/-- A step of the only operation in progress that succeeds. -/
def Completes (act : Act) : Prop := ∃ name secret, act = .next 0 name secret .done

section Attempts
variable {s t : Deployment} {as : List Act} {o : List Command} {db db' : DB} {redis : Redis}
variable {acl : Acl} {name secret : String} {op : Op} {next : Option Op}

/-- What an operation has in mind is what Redis makes of its command. -/
theorem issues_live (hs : opStep db redis.live name secret op = some (db', acl, next)) :
    redis.perform ((issues name secret op).map Command.event) = { redis with live := acl } := by
  cases opStep_moves hs with
  | _ => rfl

/-- A reconciliation goes on as one, with the same database, or comes to its ACL
SAVE. -/
theorem reconciles_step (hr : op.Reconciles)
    (hs : opStep db redis.live name secret op = some (db', acl, next)) :
    db' = db ∧ ((∃ n, next = some n ∧ n.Reconciles ∧ following op next = some (.op n)) ∨
      next = none ∧ following op next = some (.save none)) := by
  cases opStep_moves hs with
  | readActive => exact ⟨rfl, Or.inl ⟨_, rfl, trivial, rfl⟩⟩
  | readUsers => exact ⟨rfl, Or.inl ⟨_, rfl, trivial, rfl⟩⟩
  | finish => exact ⟨rfl, Or.inr ⟨rfl, rfl⟩⟩
  | set _ => exact ⟨rfl, Or.inl ⟨_, rfl, trivial, rfl⟩⟩
  | delete _ => exact ⟨rfl, Or.inl ⟨_, rfl, trivial, rfl⟩⟩
  | _ => cases hr

theorem done_step (hs : opStep db redis.live name secret op = some (db', acl, next)) :
    persisting.step ⟨db, redis, [.op op]⟩ (.next 0 name secret .done) =
      some (⟨db', { redis with live := acl }, (following op next).toList⟩,
        issues name secret op) := by
  simp [persisting, stageStep, hs, Deployment.issue, issues_live hs]

theorem save_step : persisting.step ⟨db, redis, [.save none]⟩ (.next 0 name secret .done) =
    some (⟨db, ⟨redis.live, redis.live⟩, []⟩, [.save]) := by
  simp [persisting, stageStep, Deployment.issue, Copies.perform, Copies.apply, Command.event]

/-- Nothing is left to complete. -/
theorem completed (h : Run persisting Free ⟨db, redis, []⟩ as t o)
    (all : ∀ a ∈ as, Completes a) : t = ⟨db, redis, []⟩ := by
  cases as with
  | nil => exact h.nil_inv.1
  | cons a as =>
    obtain ⟨name, secret, rfl⟩ := all a (List.mem_cons_self ..)
    obtain ⟨_, _, _, -, hs, -⟩ := h.cons_inv
    simp [persisting] at hs

/-- A reconciliation that gets through is one with no other command in between. -/
theorem attempt_alone (hr : op.Reconciles) (h : Run persisting Free ⟨db, redis, [.op op]⟩ as t o)
    (all : ∀ a ∈ as, Completes a) (quiet : t.stages = []) :
    ∃ last, Alone db redis.live (some op) last ∧ t = ⟨db, ⟨last, last⟩, []⟩ := by
  induction as generalizing redis op o with
  | nil =>
    obtain ⟨rfl, -⟩ := h.nil_inv
    cases quiet
  | cons a as ih =>
    obtain ⟨name, secret, rfl⟩ := all a (List.mem_cons_self ..)
    have rest : ∀ a ∈ as, Completes a := fun x hx => all x (List.mem_cons_of_mem _ hx)
    obtain ⟨s₁, o₁, o₂, -, hstep, hrun, -⟩ := h.cons_inv
    cases hs : opStep db redis.live name secret op with
    | none => simp [persisting, stageStep, hs] at hstep
    | some r =>
      obtain ⟨db', acl, next⟩ := r
      rw [done_step hs] at hstep
      cases hstep
      obtain ⟨rfl, ⟨n, rfl, hn, hfollow⟩ | ⟨rfl, hfollow⟩⟩ := reconciles_step hr hs
      · rw [hfollow] at hrun
        obtain ⟨last, halone, ht⟩ := ih hn hrun rest
        exact ⟨last, .step hs halone, ht⟩
      · rw [hfollow] at hrun
        -- only the ACL SAVE is left
        cases as with
        | nil =>
          obtain ⟨rfl, -⟩ := hrun.nil_inv
          cases quiet
        | cons b bs =>
          obtain ⟨name', secret', rfl⟩ := rest b (List.mem_cons_self ..)
          obtain ⟨_, _, _, -, hsave, hrun', -⟩ := hrun.cons_inv
          rw [Option.toList_some, save_step] at hsave
          cases hsave
          have ht := completed hrun' (fun x hx => rest x (List.mem_cons_of_mem _ hx))
          exact ⟨acl, .step hs .done, ht⟩

/-- Steps of the operation in progress can bring it to its end. -/
def CanComplete (s : Deployment) : Prop :=
  ∃ as t o, Run persisting Free s as t o ∧ (∀ a ∈ as, Completes a) ∧ t.stages = []

theorem CanComplete.before (h : CanComplete t)
    (hs : persisting.step s (.next 0 name secret .done) = some (t, o)) : CanComplete s := by
  obtain ⟨as, u, o', hrun, all, quiet⟩ := h
  refine ⟨.next 0 name secret .done :: as, u, _, (Run.single trivial hs).append hrun, ?_, quiet⟩
  exact List.forall_mem_cons.mpr ⟨⟨name, secret, rfl⟩, all⟩

theorem canComplete_save : CanComplete ⟨db, redis, [.save none]⟩ := by
  have hs : persisting.step ⟨db, redis, [.save none]⟩ (.next 0 "" "" .done) =
      some (⟨db, ⟨redis.live, redis.live⟩, []⟩, [.save]) := save_step
  exact CanComplete.before ⟨[], _, [], .start, by simp, rfl⟩ hs

/-- The loops can take the names in the order of the lists. -/
theorem canComplete_apply (stale active : List String) :
    CanComplete ⟨db, redis, [.op (.apply stale active)]⟩ := by
  induction stale generalizing redis with
  | cons n stale ih =>
    have hs : opStep db redis.live n "" (.apply (n :: stale) active) =
        some (db, delUser redis.live n, some (.apply stale active)) := by
      simp [opStep]
    exact CanComplete.before ih (done_step hs)
  | nil =>
    induction active generalizing redis with
    | cons n active ih =>
      have hs : opStep db redis.live n "" (.apply [] (n :: active)) =
          some (db, provisionDelegate redis.live n "", some (.apply [] active)) := by
        simp [opStep]
      exact CanComplete.before ih (done_step hs)
    | nil =>
      have hs : opStep db redis.live "" "" (.apply [] []) = some (db, redis.live, none) := rfl
      exact CanComplete.before canComplete_save (done_step hs)

theorem canComplete_reconcile : CanComplete ⟨db, redis, [.op .readActive]⟩ := by
  have active : opStep db redis.live "" "" .readActive =
      some (db, redis.live, some (.readUsers (activeIds db))) := rfl
  have users : opStep db redis.live "" "" (.readUsers (activeIds db)) =
      some (db, redis.live, some (.apply (staleUsers redis.live ((activeIds db).map str))
        ((activeIds db).map str))) := rfl
  exact ((canComplete_apply _ _).before (done_step users)).before (done_step active)

end Attempts

section Names
variable {db : DB} {acl : Acl} {hash name : String} {id : UUID}

theorem canonical_admissible {c : Char} (h : Canonical c) : isSpace c = false ∧ c ≠ '\x00' := by
  have other (d : Char) (hd : isDigit 16 d = false ∧ d ≠ '-') : c ≠ d := by
    rintro rfl
    rcases h with h | h
    · rw [hd.1] at h
      cases h
    · exact hd.2 h
  simp only [isSpace, Bool.or_eq_false_iff, decide_eq_false_iff_not]
  refine ⟨⟨⟨⟨⟨⟨other _ ?_, other _ ?_⟩, other _ ?_⟩, other _ ?_⟩, other _ ?_⟩, other _ ?_⟩,
    other _ ?_⟩
  all_goals decide

theorem admissible_str (u : UUID) : Admissible (str u) := by
  intro c hc
  rw [str, String.toList_ofList] at hc
  exact canonical_admissible (hyphenate_canonical (fun _ h => hex_digit h) c hc)

theorem admissible_of_all (h : name.toList.all (fun c => !isSpace c && c != '\x00') = true) :
    Admissible name := by
  intro c hc
  simpa using List.all_eq_true.mp h c hc

theorem admissible_users (h : AclDurability.Hardened hash acl) (hname : HasUser acl name) :
    Admissible name := by
  by_cases hdefault : name = "default"
  · subst hdefault
    exact admissible_of_all (by decide +kernel)
  by_cases hadmin : name = "cp-admin"
  · subst hadmin
    exact admissible_of_all (by decide +kernel)
  obtain ⟨user, hget⟩ := Option.isSome_iff_exists.mp hname
  obtain ⟨u, -, rfl, -⟩ := h.delegates name user hget hdefault hadmin
  exact admissible_str u

theorem mem_activeIds : id ∈ activeIds db ↔
    ∃ d, db.delegate id = some d ∧ d.status = .active := by
  refine ⟨activeIds_active, ?_⟩
  rintro ⟨d, hd, hactive⟩
  rw [← get?_some_key hd]
  refine List.mem_map_of_mem (List.mem_filter.mpr ⟨List.mem_of_find?_eq_some hd, ?_⟩)
  exact decide_eq_true hactive

end Names

/-- However the operations up to here have interleaved, failed and been cut off by
restarts of Redis: a reconciliation can get through now, and one that does, with
nothing else in between, leaves the users of the active delegates, whatever order
it takes its sets in, and nothing that a restart could take away. -/
theorem reconciliation_heals {db : DB} {hash : String} {as : List Act} {s : Deployment}
    {o : List Command} (h : Run persisting Free (.start db hash) as s o) (quiet : s.stages = []) :
    (∃ bs t o', Run persisting Free s (.reconcile :: bs) t o' ∧ (∀ b ∈ bs, Completes b) ∧
      t.stages = []) ∧
    ∀ bs t o', Run persisting Free s (.reconcile :: bs) t o' → (∀ b ∈ bs, Completes b) →
      t.stages = [] →
      (∀ id, HasUser t.redis.live (str id) ↔
        ∃ d, s.db.delegate id = some d ∧ d.status = .active) ∧
      (∀ name, (∀ id, name ≠ str id) → t.redis.live.get? name = s.redis.live.get? name) ∧
      t.redis.saved = t.redis.live ∧ t.db = s.db := by
  obtain ⟨sdb, redis, stages⟩ := s
  obtain rfl : stages = [] := quiet
  have names (name : String) (hname : HasUser redis.live name) : Admissible name :=
    admissible_users (hardened hash h).1 hname
  constructor
  · have canComplete : CanComplete ⟨sdb, redis, [.op .readActive]⟩ := canComplete_reconcile
    obtain ⟨bs, t, o', hrun, all, hdone⟩ := canComplete
    have hstep : persisting.step ⟨sdb, redis, []⟩ .reconcile =
        some (⟨sdb, redis, [.op .readActive]⟩, []) := rfl
    exact ⟨bs, t, _, (Run.single trivial hstep).append hrun, all, hdone⟩
  · intro bs t o' hrun all hdone
    obtain ⟨s₁, o₁, o₂, -, hstep, hrest, -⟩ := hrun.cons_inv
    cases hstep
    have reconciles : Op.Reconciles .readActive := trivial
    obtain ⟨last, halone, rfl⟩ := attempt_alone reconciles hrest all hdone
    obtain ⟨stale, active, orders, rfl⟩ := alone_reconciles halone
    refine ⟨fun id => ?_, fun name => get?_other orders names, rfl, rfl⟩
    rw [← mem_activeIds]
    exact hasUser_reconcile orders names id

/-- The user a restart has cost comes back, for good. -/
theorem unsaved_heals : ∃ s o, Run persisting Free (.start DB.empty "hash") unsaved s o ∧
    ¬ HasUser s.redis.live (str delegateA.id) ∧
    ∃ bs t o', Run persisting Free s (.reconcile :: bs) t o' ∧
      HasUser t.redis.live (str delegateA.id) ∧ t.redis.saved = t.redis.live := by
  have hrun : (replay persisting (.start DB.empty "hash") unsaved).any (fun r =>
      r.1.stages.isEmpty && decide (¬ HasUser r.1.redis.live (str delegateA.id)) &&
        decide ((r.1.db.delegate delegateA.id).map (·.status) = some .active)) = true := by
    decide +kernel
  obtain ⟨s, o, h, ht⟩ := run_of_replay_test hrun
  simp only [Bool.and_eq_true, decide_eq_true_eq, List.isEmpty_iff] at ht
  obtain ⟨⟨quiet, lost⟩, hactive⟩ := ht
  obtain ⟨⟨bs, t, o', hrun', all, hdone⟩, heals⟩ := reconciliation_heals h quiet
  obtain ⟨husers, -, hsaved, -⟩ := heals bs t o' hrun' all hdone
  exact ⟨s, o, h, lost, bs, t, o', hrun',
    (husers delegateA.id).mpr (Option.map_eq_some_iff.mp hactive), hsaved⟩

end AclRecovery
