import DelegateProtocol.AclScope
import DelegateProtocol.LoneReconciliation
import DelegateProtocol.Lib.SavedCopies

/-!
# ACL users over restarts of Redis

Redis keeps its users in memory, and in the ACL file as of the last ACL SAVE; a
restart of Redis loads the file. Registrations, revocations and reconciliations
go on side by side, and every command of theirs can fail, or take effect without
an answer.
-/

namespace AclPersistence

open AclReconciliation KeyedTable LoneReconciliation Models RedisAcl SavedCopies StepMachine
open Uuid

/-- What becomes of a command; `lost` is one that took effect without an answer. -/
inductive Outcome where
  | done
  | failed
  | lost
  deriving DecidableEq

/-- Where an operation stands: before a step of its own, or before the ACL SAVE that
follows it. -/
inductive Stage where
  | op (op : Op)
  | save (next : Option Op)

/-- A command that took effect, and a restart of Redis. -/
inductive Command where
  | setUser (name secret : String)
  | delUser (name : String)
  | save
  | restart
  deriving DecidableEq

def Command.event : Command → Event Acl
  | .setUser name secret => .change (fun acl => provisionDelegate acl name secret)
  | .delUser name => .change (fun acl => RedisAcl.delUser acl name)
  | .save => .save
  | .restart => .reload

/-- The users of Redis, with the file that Redis is started from. -/
abbrev Redis := Copies Acl

structure Deployment where
  db : DB
  redis : Redis
  stages : List Stage

/-- The command an operation issues with its next step. -/
def issues (name secret : String) : Op → List Command
  | .provision delegate => [.setUser (str delegate.id) secret]
  | .removeUser id => [.delUser (str id)]
  | .apply [] (_ :: _) => [.setUser name secret]
  | .apply (_ :: _) _ => [.delUser name]
  | _ => []

/-- What an operation does after a step that succeeds. -/
def following (op : Op) (next : Option Op) : Option Stage :=
  match op with
  | .provision _ => some (.save next)
  | .removeUser _ => some (.save next)
  | .apply [] [] => some (.save next)
  | _ => next.map .op

/-- A step that raises ends its operation, except for ACL SAVE, whose errors are only
logged. -/
def stageStep (db : DB) (redis : Redis) (name secret : String) (outcome : Outcome) :
    Stage → Option (DB × List Command × Option Stage)
  | .op op =>
    match outcome with
    | .failed => some (db, [], none)
    | .done =>
      (opStep db redis.live name secret op).map
        (fun r => (r.1, issues name secret op, following op r.2.2))
    | .lost =>
      (opStep db redis.live name secret op).map (fun r => (r.1, issues name secret op, none))
  | .save next =>
    match outcome with
    | .failed => some (db, [], next.map .op)
    | _ => some (db, [.save], next.map .op)

inductive Act where
  | register (delegate : Delegate)
  | revoke (id : UUID)
  | reconcile
  | next (i : Nat) (name secret : String) (outcome : Outcome)
  | restart

def Stage.draws : Stage → Option UUID
  | .op o => o.draws
  | .save next => next.bind Op.draws

/-- An id that `uuid.uuid4()` can return. -/
def Fresh (s : Deployment) (id : UUID) : Prop :=
  s.db.delegate id = none ∧ ∀ stage ∈ s.stages, stage.draws ≠ some id

instance (s : Deployment) (id : UUID) : Decidable (Fresh s id) :=
  inferInstanceAs (Decidable (_ ∧ _))

def Deployment.begin (s : Deployment) (op : Op) : Deployment :=
  { s with stages := .op op :: s.stages }

/-- Redis carries the commands out. -/
def Deployment.issue (s : Deployment) (commands : List Command) : Redis :=
  s.redis.perform (commands.map Command.event)

def persisting : Machine Deployment Act Command where
  step s act :=
    match act with
    | .register delegate =>
      if Fresh s delegate.id then
        some (s.begin (.provision { delegate with status := .active }), [])
      else none
    | .revoke id =>
      match s.db.delegate id with
      | none => some (s, [])
      | some _ => some (s.begin (.saveRevoked id), [])
    | .reconcile => some (s.begin .readActive, [])
    | .next i name secret outcome =>
      match s.stages[i]? with
      | none => none
      | some stage =>
        (stageStep s.db s.redis name secret outcome stage).map (fun r =>
          (⟨r.1, s.issue r.2.1, r.2.2.toList ++ s.stages.eraseIdx i⟩, r.2.1))
    | .restart => some ({ s with redis := s.issue [.restart] }, [.restart])

/-- The users `entrypoint.sh` seeds: `default` is off, and `cp-admin` has a password
of which only the hash is kept. -/
def seeded (hash : String) : Acl where
  rows := [.new "default", ⟨"cp-admin", true, [hash], [⟨"*", true, true⟩], ["*"], ["@all"]⟩]
  unique := by
    change ["default", "cp-admin"].Nodup
    decide

def Deployment.start (db : DB) (hash : String) : Deployment :=
  ⟨db, ⟨seeded hash, seeded hash⟩, []⟩

inductive Moves (s : Deployment) : Act → Deployment → List Command → Prop
  | unknown {act : Act} : Moves s act s []
  | register {delegate : Delegate} : Fresh s delegate.id →
      Moves s (.register delegate) (s.begin (.provision { delegate with status := .active })) []
  | revoke {id : UUID} {d : Delegate} : s.db.delegate id = some d →
      Moves s (.revoke id) (s.begin (.saveRevoked id)) []
  | reconcile : Moves s .reconcile (s.begin .readActive) []
  | next {i : Nat} {name secret : String} {outcome : Outcome} {stage : Stage} {db : DB}
      {commands : List Command} {next : Option Stage} : s.stages[i]? = some stage →
      stageStep s.db s.redis name secret outcome stage = some (db, commands, next) →
      Moves s (.next i name secret outcome)
        ⟨db, s.issue commands, next.toList ++ s.stages.eraseIdx i⟩ commands
  | restart : Moves s .restart { s with redis := s.issue [.restart] } [.restart]

section Steps
variable {s t : Deployment} {act : Act} {o : List Command}

theorem persisting_moves (h : persisting.step s act = some (t, o)) : Moves s act t o := by
  cases act with
  | register delegate =>
    simp only [persisting] at h
    split at h
    · rename_i hf
      cases h
      exact .register hf
    · cases h
  | revoke id =>
    simp only [persisting] at h
    cases hd : s.db.delegate id with
    | none =>
      simp only [hd] at h
      cases h
      exact .unknown
    | some d =>
      simp only [hd] at h
      cases h
      exact .revoke hd
  | reconcile =>
    cases h
    exact .reconcile
  | next i name secret outcome =>
    simp only [persisting] at h
    cases hi : s.stages[i]? with
    | none => simp [hi] at h
    | some stage =>
      simp only [hi] at h
      obtain ⟨⟨db, commands, next⟩, hs, he⟩ := Option.map_eq_some_iff.mp h
      cases he
      exact .next hi hs
  | restart =>
    cases h
    exact .restart

/-- Redis is what the commands have made of it. -/
theorem Moves.redis (h : Moves s act t o) :
    t.redis = s.redis.perform (o.map Command.event) := by
  cases h with
  | _ => rfl

theorem redis_run {ok : Deployment → Act → Prop} {as : List Act}
    (h : Run persisting ok s as t o) : t.redis = s.redis.perform (o.map Command.event) := by
  refine h.invariant (fun t o => t.redis = s.redis.perform (o.map Command.event)) rfl ?_
  intro t o act u o' hi _ hs
  rw [(persisting_moves hs).redis, hi, List.map_append, Copies.perform_append]

/-- What a step leaves of the operations that were in progress. -/
theorem mem_stages {i : Nat} {next : Option Stage} {stages : List Stage} {x : Stage}
    (h : x ∈ next.toList ++ stages.eraseIdx i) : next = some x ∨ x ∈ stages := by
  rcases List.mem_append.mp h with hx | hx
  · exact Or.inl (Option.mem_toList.mp hx)
  · exact Or.inr (List.mem_of_mem_eraseIdx hx)

/-- A step of an operation in progress, done or not. -/
theorem stageStep_cases {stage : Stage} {db : DB} {redis : Redis} {name secret : String}
    {outcome : Outcome} {db' : DB} {commands : List Command} {next : Option Stage}
    (h : stageStep db redis name secret outcome stage = some (db', commands, next)) :
    (∃ n, stage = .save n ∧ db' = db ∧ next = n.map .op ∧
      (outcome = .failed ∧ commands = [] ∨ outcome ≠ .failed ∧ commands = [.save])) ∨
    (∃ op, stage = .op op ∧ outcome = .failed ∧ db' = db ∧ commands = [] ∧ next = none) ∨
    ∃ op acl n, stage = .op op ∧ outcome ≠ .failed ∧
      opStep db redis.live name secret op = some (db', acl, n) ∧
      commands = issues name secret op ∧
      (outcome = .done ∧ next = following op n ∨ outcome = .lost ∧ next = none) := by
  cases stage with
  | save n =>
    left
    cases outcome with
    | failed =>
      cases h
      exact ⟨n, rfl, rfl, rfl, Or.inl ⟨rfl, rfl⟩⟩
    | done =>
      cases h
      exact ⟨n, rfl, rfl, rfl, Or.inr ⟨by simp, rfl⟩⟩
    | lost =>
      cases h
      exact ⟨n, rfl, rfl, rfl, Or.inr ⟨by simp, rfl⟩⟩
  | op op =>
    right
    cases outcome with
    | failed =>
      cases h
      exact Or.inl ⟨op, rfl, rfl, rfl, rfl, rfl⟩
    | done =>
      obtain ⟨⟨db₁, acl, n⟩, hs, he⟩ := Option.map_eq_some_iff.mp h
      cases he
      exact Or.inr ⟨op, acl, n, rfl, by simp, hs, rfl, Or.inl ⟨rfl, rfl⟩⟩
    | lost =>
      obtain ⟨⟨db₁, acl, n⟩, hs, he⟩ := Option.map_eq_some_iff.mp h
      cases he
      exact Or.inr ⟨op, acl, n, rfl, by simp, hs, rfl, Or.inr ⟨rfl, rfl⟩⟩

end Steps

end AclPersistence
