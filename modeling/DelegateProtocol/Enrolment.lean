import DelegateProtocol.DelegateRegistration
import DelegateProtocol.WorkerRegistration

/-!
# Machines that speak for a delegate

On every machine a worker registers when it starts, and an agent manager waits
for the files of its directory and reads them. Both are killed at any time, a
worker also between two of its writes, and answers get lost. Anybody else may
ask for tokens, register, and have delegates revoked meanwhile.
-/

namespace Enrolment

open Certificates FileWrites Models StepMachine Uuid WorkerRegistration
open DelegateRegistration (Answer Outside Stores registerDelegate)
open JsonBodies (Body)
open RestartGateway (certified peerCertDelegateId)

/-- The environment a worker is started in. -/
structure Environment where
  tenantId : String
  name : String
  queue : String
  concurrency : Int

inductive WorkerStage where
  | down
  | asking (env : Environment)
  | submitting (env : Environment) (token : String)
  | writing (ops : List (Op FileName Content)) (identity : Identity)
  | running (identity : Identity)

/-- The entrypoint waits; `run` reads the identity and makes its SSL context. -/
inductive AgentStage where
  | waiting
  | starting
  | identified (identity : Identity)
  | trusting (identity : Identity) (root : Certificate)
  | chaining (identity : Identity) (root crt : Certificate)
  | ready (identity : Identity) (root crt : Certificate) (key : PrivateKey)

/-- The control plane, the number of keys generated, and the machines. -/
structure Fleet (ι : Type) where
  stores : Stores
  generated : Nat
  dirs : ι → CertDir
  workers : ι → WorkerStage
  agents : ι → AgentStage

def Fleet.start (ι : Type) (stores : Stores) : Fleet ι :=
  ⟨stores, 0, fun _ => .start, fun _ => .down, fun _ => .waiting⟩

/-- What becomes of a worker next. Where it waits for an answer, the answer may be
lost. -/
inductive WorkerEvent where
  | start (env : Environment)
  | token (token : String) (now : ℚ) (answered : Bool)
  | submit (o : Outside) (certExpiresAt : String) (answered : Bool)
  | write
  | run
  | kill

inductive AgentEvent where
  | exists
  | read
  | kill

inductive Act (ι : Type) where
  | issue (body : Runtime.Fields) (token : String) (now : ℚ)
  | register (o : Outside) (body : Body)
  | revoke (id : UUID) (removed : Bool)
  | worker (i : ι) (event : WorkerEvent)
  | agent (i : ι) (event : AgentEvent)

/-- A registration of a machine that the control plane has completed. -/
structure Granted (ι : Type) where
  machine : ι
  env : Environment
  delegateId : UUID
  key : PrivateKey

section Machine
variable {ι : Type} (accepts : String → Bool) (pem : Csr → String) (ca : Authority) (ttl : ℚ)

def registrationBody (env : Environment) (token : String) (csr : Csr) : Body :=
  [("token", .str token), ("tenant_id", .str env.tenantId), ("name", .str env.name),
    ("queue", .str env.queue), ("concurrency", .int env.concurrency), ("csr_pem", .str (pem csr))]

/-- The call of `register` that has come to the POST of its CSR. -/
def submitting (env : Environment) (key : PrivateKey) : Call :=
  ⟨env.tenantId, env.name, env.queue, key, true, true, none, none⟩

/-- What the worker makes of the answer to its registration. -/
def takeUp (call : Call) : Option Response → WorkerStage
  | none => .down
  | some body => .writing (call.writes body) (call.identity body)

def submit (i : ι) (env : Environment) (token : String) (o : Outside) (certExpiresAt : String)
    (answered : Bool) (key : PrivateKey) (stores : Stores) :
    Stores × WorkerStage × List (Granted ι) :=
  let call := submitting env key
  match buildCsr accepts key call.commonName with
  | none => (stores, .down, [])
  | some csr =>
    match registerDelegate o (registrationBody pem env token csr) stores with
    | (.registered id, stores') =>
      let response := if answered then respond csr ⟨id, ca, certExpiresAt⟩ else none
      (stores', takeUp call response, [⟨i, env, id, key⟩])
    | (_, stores') => (stores', .down, [])

/-- `register` looks for an identity first. -/
def begin (d : CertDir) (env : Environment) : WorkerStage :=
  if Registered d then
    match loadIdentity d with
    | .ok identity => .running identity
    | .error _ => .down
  else .asking env

def askToken (env : Environment) (token : String) (now : ℚ) (answered : Bool) (stores : Stores) :
    Stores × WorkerStage :=
  let issued := RegistrationTokens.issue ttl stores.tokens [("tenant_id", env.tenantId)] token now
  let given := env.tenantId ≠ "" ∧ stores.tokens.get? token = none
  ({ stores with tokens := issued },
    if given ∧ answered = true then .submitting env token else .down)

variable [DecidableEq ι]

def Fleet.setWorker (s : Fleet ι) (i : ι) (stage : WorkerStage) : Fleet ι :=
  { s with workers := Function.update s.workers i stage }

def Fleet.setAgent (s : Fleet ι) (i : ι) (stage : AgentStage) : Fleet ι :=
  { s with agents := Function.update s.agents i stage }

def workerStep (s : Fleet ι) (i : ι) : WorkerStage → WorkerEvent →
    Option (Fleet ι × List (Granted ι))
  | _, .kill => some (s.setWorker i .down, [])
  | .down, .start env => some (s.setWorker i (begin (s.dirs i) env), [])
  | .asking env, .token token now answered =>
    let (stores, stage) := askToken ttl env token now answered s.stores
    some ({ s.setWorker i stage with stores := stores }, [])
  | .submitting env token, .submit o certExpiresAt answered =>
    let (stores, stage, granted) :=
      submit accepts pem ca i env token o certExpiresAt answered ⟨s.generated⟩ s.stores
    some ({ s.setWorker i stage with stores := stores, generated := s.generated + 1 }, granted)
  | .writing (op :: ops) identity, .write =>
    some ({ s.setWorker i (.writing ops identity) with
      dirs := Function.update s.dirs i (op.apply (s.dirs i)) }, [])
  | .writing [] identity, .run => some (s.setWorker i (.running identity), [])
  | _, _ => none

/-- A step that raises ends the agent manager, whose container is started again. -/
def agentStep (d : CertDir) : AgentStage → AgentEvent → Option AgentStage
  | _, .kill => some .waiting
  | .waiting, .exists =>
    if ∀ name ∈ [FileName.identityJson, .delegateCrt, .delegateKey, .caCrt], d name ≠ none then
      some .starting
    else none
  | .starting, .read =>
    match loadIdentity d with
    | .ok identity => some (.identified identity)
    | .error _ => some .waiting
  | .identified identity, .read =>
    match d .caCrt with
    | some (.full (.cert root)) => some (.trusting identity root)
    | _ => some .waiting
  | .trusting identity root, .read =>
    match d .delegateCrt with
    | some (.full (.cert crt)) => some (.chaining identity root crt)
    | _ => some .waiting
  | .chaining identity root crt, .read =>
    match d .delegateKey with
    | some (.full (.key key)) =>
      if Matches key crt then some (.ready identity root crt key) else some .waiting
    | _ => some .waiting
  | _, _ => none

def enrolling : Machine (Fleet ι) (Act ι) (Granted ι) where
  step s act :=
    match act with
    | .issue body token now =>
      some ({ s with stores := { s.stores with
        tokens := RegistrationTokens.issue ttl s.stores.tokens body token now } }, [])
    | .register o body => some ({ s with stores := (registerDelegate o body s.stores).2 }, [])
    | .revoke id removed =>
      some ({ s with stores := { s.stores with
        acl := if removed then RedisAcl.delUser s.stores.acl (str id) else s.stores.acl
        db := s.stores.db.saveDelegateStatus id .revoked } }, [])
    | .worker i event => workerStep accepts pem ca ttl s i (s.workers i) event
    | .agent i event =>
      (agentStep (s.dirs i) (s.agents i) event).map (fun stage => (s.setAgent i stage, []))

end Machine

section Rows
variable {o : Outside} {body : Body} {s : Stores}

/-- The tenant, the name and the queue of a row are what they were. -/
def Kept (db db' : DB) : Prop :=
  ∀ id d, db.delegate id = some d → ∃ d', db'.delegate id = some d' ∧
    d'.tenantId = d.tenantId ∧ d'.name = d.name ∧ d'.queue = d.queue

theorem Kept.of_delegates {db db' : DB} (same : db'.delegates = db.delegates) : Kept db db' := by
  intro id d hd
  refine ⟨d, ?_, rfl, rfl, rfl⟩
  rw [DB.delegate, same]
  exact hd

theorem createDelegate_kept {db db' : DB} {row : Delegate}
    (h : db.createDelegate row = some db') : Kept db db' := by
  intro id d hd
  have fresh := createDelegate_fresh h
  refine ⟨d, ?_, rfl, rfl, rfl⟩
  rw [createDelegate_delegate h, if_neg, hd]
  rintro rfl
  rw [hd] at fresh
  cases fresh

theorem saveDelegateStatus_kept (db : DB) (id : UUID) (status : DelegateStatus) :
    Kept db (db.saveDelegateStatus id status) := by
  intro k d hd
  rw [saveDelegateStatus_delegate]
  by_cases hk : k = id
  · subst hk
    rw [if_pos rfl, hd]
    exact ⟨_, rfl, rfl, rfl, rfl⟩
  · rw [if_neg hk]
    exact ⟨d, hd, rfl, rfl, rfl⟩

/-- A row with the texts of the request. -/
structure RowOf (o : Outside) (body : Body) (d : Delegate) : Prop where
  id : d.id = o.delegateId
  tenantId : d.tenantId = DelegateRegistration.tenantText o body
  name : d.name = (body.getD "name" .null).text o.repr
  queue : d.queue = (body.getD "queue" (.str "default")).text o.repr

theorem insertRow_rowOf {db db' : DB}
    (h : DelegateRegistration.insertRow o body db = some db') :
    ∃ row, db.createDelegate row = some db' ∧ RowOf o body row := by
  unfold DelegateRegistration.insertRow at h
  split at h
  · cases h
  · cases h
  · split at h
    · exact ⟨_, h, rfl, rfl, rfl, rfl⟩
    · cases h

/-- Either the table is left alone, or one row is inserted; without it there is no
success. -/
def OneRow (o : Outside) (body : Body) (db : DB) (r : Answer × Stores) : Prop :=
  (r.2.db.delegates = db.delegates ∧ ∀ id, r.1 ≠ .registered id) ∨
    ∃ row db', db.createDelegate row = some db' ∧ RowOf o body row ∧
      r.2.db.delegates = db'.delegates ∧ ∀ id, r.1 = .registered id → id = row.id

theorem reject_oneRow (o : Outside) (body : Body) (s : Stores)
    (why : RegistrationTokens.Rejection) :
    OneRow o body s.db (DelegateRegistration.reject o body s why) := by
  obtain ⟨answer, db, he, hanswer, hdb⟩ := DelegateRegistration.reject_cases o body s why
  rw [he]
  exact Or.inl ⟨hdb, hanswer⟩

theorem insert_oneRow (o : Outside) (body : Body) (s : Stores) :
    OneRow o body s.db (DelegateRegistration.insert o body s) := by
  unfold DelegateRegistration.insert
  cases hrow : DelegateRegistration.insertRow o body s.db with
  | none => exact Or.inl ⟨rfl, fun id h => Answer.noConfusion h⟩
  | some db =>
    obtain ⟨row, hcreate, hof⟩ := insertRow_rowOf hrow
    right
    by_cases hsaves : o.saves = true
    · simp only [if_pos hsaves]
      obtain ⟨db', hdb, he⟩ := DelegateRegistration.finish_cases o body
        { s with
          db := db
          tokens := RegistrationTokens.markUsed s.tokens
            (DelegateRegistration.tokenText o body) o.usedAt }
      rw [he]
      refine ⟨row, db, hcreate, hof, hdb, ?_⟩
      intro id hid
      split at hid
      · cases hid
        exact hof.id.symm
      · cases hid
    · simp only [if_neg hsaves]
      exact ⟨row, db, hcreate, hof, rfl, fun id h => Answer.noConfusion h⟩

theorem registerDelegate_oneRow (o : Outside) (body : Body) (s : Stores) :
    OneRow o body s.db (registerDelegate o body s) := by
  have raised : OneRow o body s.db (.raised, s) :=
    Or.inl ⟨rfl, fun id h => Answer.noConfusion h⟩
  unfold registerDelegate
  split
  · exact Or.inl ⟨rfl, fun id h => Answer.noConfusion h⟩
  · split
    · exact raised
    · split
      · exact reject_oneRow o body s _
      · split
        · unfold DelegateRegistration.provision
          split
          · exact insert_oneRow o body _
          · split
            · exact reject_oneRow o body _ _
            · exact reject_oneRow o body _ _
        · exact reject_oneRow o body s _
        · exact raised

theorem registerDelegate_kept (o : Outside) (body : Body) (s : Stores) :
    Kept s.db (registerDelegate o body s).2.db := by
  rcases registerDelegate_oneRow o body s with ⟨same, -⟩ | ⟨row, db, hcreate, -, same, -⟩
  · exact .of_delegates same
  · intro id d hd
    obtain ⟨d', hd', hfields⟩ := createDelegate_kept hcreate id d hd
    refine ⟨d', ?_, hfields⟩
    rw [DB.delegate, same]
    exact hd'

end Rows

section Files
variable {ι : Type} (ca : Authority)

def Granted.cert (g : Granted ι) : Certificate :=
  leafCert ca (str g.delegateId) g.key.publicKey .clientAuth []

def Granted.response (g : Granted ι) (certExpiresAt : String) : Response :=
  ⟨str g.delegateId, g.cert ca, ca.caCert, certExpiresAt⟩

def Granted.identity (g : Granted ι) (certExpiresAt : String) : Identity :=
  ⟨str g.delegateId, g.env.tenantId, g.env.name, g.env.queue, certExpiresAt⟩

/-- The operations that write a registration down. -/
def Granted.writes (g : Granted ι) (certExpiresAt : String) : List (Op FileName Content) :=
  (submitting g.env g.key).writes (g.response ca certExpiresAt)

/-- All files are those of one registration. -/
structure Holds (g : Granted ι) (d : CertDir) (identity : Identity) : Prop where
  identityJson : d .identityJson = some (.full (.identity identity))
  delegateCrt : d .delegateCrt = some (.full (.cert (g.cert ca)))
  delegateKey : d .delegateKey = some (.full (.key g.key))
  caCrt : d .caCrt = some (.full (.cert ca.caCert))
  fits : ∃ certExpiresAt, identity = g.identity certExpiresAt

/-- One of the registrations of a machine. -/
def Own (o : List (Granted ι)) (i : ι) (P : Granted ι → Prop) : Prop :=
  ∃ g ∈ o, g.machine = i ∧ P g

/-- What a worker that has ended leaves behind. -/
def Left (o : List (Granted ι)) (i : ι) (d : CertDir) : Prop :=
  d .identityJson = none ∨ Torn d ∨ ∃ identity, Own o i (fun g => Holds ca g d identity)

def WorkerSound (o : List (Granted ι)) (i : ι) (d : CertDir) : WorkerStage → Prop
  | .down => Left ca o i d
  | .asking _ | .submitting _ _ => d .identityJson = none
  | .writing ops identity => Own o i (fun g => ∃ certExpiresAt before d₀,
      d₀ .identityJson = none ∧ before ++ ops = g.writes ca certExpiresAt ∧ perform before d₀ = d ∧
        identity = g.identity certExpiresAt)
  | .running identity => Own o i (fun g => Holds ca g d identity)

def AgentSound (o : List (Granted ι)) (i : ι) (d : CertDir) : AgentStage → Prop
  | .waiting | .starting => True
  | .identified identity => Own o i (fun g => Holds ca g d identity)
  | .trusting identity root => Own o i (fun g => Holds ca g d identity ∧ root = ca.caCert)
  | .chaining identity root crt =>
    Own o i (fun g => Holds ca g d identity ∧ root = ca.caCert ∧ crt = g.cert ca)
  | .ready identity root crt key =>
    Own o i (fun g => Holds ca g d identity ∧ root = ca.caCert ∧ crt = g.cert ca ∧ key = g.key)

variable {ca} {g : Granted ι} {d d₀ : CertDir} {identity : Identity} {certExpiresAt : String}
variable {before ops : List (Op FileName Content)} {o o' : List (Granted ι)} {i : ι}

theorem writes_holds (g : Granted ι) (d : CertDir) (certExpiresAt : String) :
    Holds ca g (perform (g.writes ca certExpiresAt) d) (g.identity certExpiresAt) := by
  obtain ⟨identityJson, delegateCrt, delegateKey⟩ :=
    written d (submitting g.env g.key) (g.response ca certExpiresAt)
  refine ⟨identityJson, delegateCrt, delegateKey, ?_, certExpiresAt, rfl⟩
  simp [Granted.writes, Call.writes, Call.certWrites, replaceFile, perform, Op.apply,
    Granted.response]

/-- Up to its last operation a registration has not written the identity. -/
theorem unfinished (absent : d₀ .identityJson = none)
    (h : before ++ ops = g.writes ca certExpiresAt) :
    perform before d₀ .identityJson = none ∨ Torn (perform before d₀) ∨
      ops = [] ∧ Holds ca g (perform before d₀) (g.identity certExpiresAt) := by
  let c := submitting g.env g.key
  let body := g.response ca certExpiresAt
  have hbefore : (g.writes ca certExpiresAt).take before.length = before := by
    rw [← h, List.take_left]
  rcases take_cases (c.certWrites body) .identityJson (.identity (g.identity certExpiresAt))
    before.length with ht | ht | ht
  · left
    have others : ∀ op ∈ before, op.name ≠ some .identityJson := by
      intro op hop
      have hmem : op ∈ (c.certWrites body).take before.length := by
        rw [← ht]
        exact hbefore.symm ▸ hop
      exact certWrites_other c body op (List.mem_of_mem_take hmem)
    rw [perform_other others]
    exact absent
  · right
    left
    have hopened : before = c.certWrites body ++ [.truncate .identityJson] := hbefore.symm.trans ht
    rw [hopened]
    exact opened d₀ c body
  · right
    right
    have hall : before = g.writes ca certExpiresAt := hbefore.symm.trans ht
    constructor
    · rw [← hall] at h
      exact List.append_right_eq_self.mp h
    · rw [hall]
      exact writes_holds g d₀ certExpiresAt

/-- Nothing that has been registered goes. -/
theorem Own.grow {P : Granted ι → Prop} (h : Own o i P) : Own (o ++ o') i P := by
  obtain ⟨g, hg, hi, hp⟩ := h
  exact ⟨g, List.mem_append_left _ hg, hi, hp⟩

theorem Own.imp {P Q : Granted ι → Prop} (h : Own o i P) (imp : ∀ g, P g → Q g) : Own o i Q := by
  obtain ⟨g, hg, hi, hp⟩ := h
  exact ⟨g, hg, hi, imp g hp⟩

theorem WorkerSound.grow {stage : WorkerStage} (h : WorkerSound ca o i d stage) :
    WorkerSound ca (o ++ o') i d stage := by
  cases stage with
  | down =>
    rcases h with h | h | ⟨identity, h⟩
    · exact Or.inl h
    · exact Or.inr (Or.inl h)
    · exact Or.inr (Or.inr ⟨identity, h.grow⟩)
  | asking env => exact h
  | submitting env token => exact h
  | writing ops identity => exact Own.grow h
  | running identity => exact Own.grow h

theorem AgentSound.grow {stage : AgentStage} (h : AgentSound ca o i d stage) :
    AgentSound ca (o ++ o') i d stage := by
  cases stage with
  | waiting => trivial
  | starting => trivial
  | identified identity => exact Own.grow h
  | trusting identity root => exact Own.grow h
  | chaining identity root crt => exact Own.grow h
  | ready identity root crt key => exact Own.grow h

/-- Wherever a worker is killed. -/
theorem WorkerSound.left {stage : WorkerStage} (h : WorkerSound ca o i d stage) :
    Left ca o i d := by
  cases stage with
  | down => exact h
  | asking env => exact Or.inl h
  | submitting env token => exact Or.inl h
  | writing ops identity =>
    obtain ⟨g, hg, hi, certExpiresAt, before, d₀, absent, hops, rfl, -⟩ := h
    rcases unfinished absent hops with hnone | torn | ⟨-, holds⟩
    · exact Or.inl hnone
    · exact Or.inr (Or.inl torn)
    · exact Or.inr (Or.inr ⟨_, g, hg, hi, holds⟩)
  | running identity => exact Or.inr (Or.inr ⟨identity, h⟩)

/-- An identity that can be loaded is one of the machine's own. -/
theorem Left.loaded (h : Left ca o i d) (hload : loadIdentity d = .ok identity) :
    Own o i (fun g => Holds ca g d identity) := by
  rcases h with hnone | ⟨hempty, -⟩ | ⟨identity', h⟩
  · simp [loadIdentity, hnone] at hload
  · simp [loadIdentity, hempty] at hload
  · refine h.imp fun g holds => ?_
    rw [loadIdentity, holds.identityJson] at hload
    cases hload
    exact holds

/-- Without a reusable identity there is none at all. -/
theorem Left.absent (h : Left ca o i d) (fresh : ¬ Registered d) : d .identityJson = none := by
  rcases h with hnone | ⟨hempty, hcrt⟩ | ⟨identity, g, -, -, holds⟩
  · exact hnone
  · refine absurd ⟨?_, Option.isSome_iff_ne_none.mpr hcrt⟩ fresh
    rw [hempty]
    rfl
  · refine absurd ⟨?_, ?_⟩ fresh
    · rw [holds.identityJson]
      rfl
    · rw [holds.delegateCrt]
      rfl

/-- An agent manager that has found no identity has nothing to lose. -/
theorem AgentSound.idle {stage : AgentStage} (h : AgentSound ca o i d stage)
    (no : ∀ identity, d .identityJson ≠ some (.full (.identity identity))) (d' : CertDir) :
    AgentSound ca o i d' stage := by
  cases stage with
  | waiting => trivial
  | starting => trivial
  | identified identity =>
    obtain ⟨g, -, -, holds⟩ := h
    exact absurd holds.identityJson (no identity)
  | trusting identity root =>
    obtain ⟨g, -, -, holds, -⟩ := h
    exact absurd holds.identityJson (no identity)
  | chaining identity root crt =>
    obtain ⟨g, -, -, holds, -⟩ := h
    exact absurd holds.identityJson (no identity)
  | ready identity root crt key =>
    obtain ⟨g, -, -, holds, -⟩ := h
    exact absurd holds.identityJson (no identity)

end Files

structure Inv {ι : Type} (ca : Authority) (s : Fleet ι) (o : List (Granted ι)) : Prop where
  rows : ∀ g ∈ o, ∃ d, s.stores.db.delegate g.delegateId = some d ∧
    d.tenantId = g.env.tenantId ∧ d.name = g.env.name ∧ d.queue = g.env.queue
  keys : ∀ g ∈ o, g.key.serial < s.generated
  apart : ∀ g ∈ o, ∀ g' ∈ o, g'.machine ≠ g.machine →
    g'.delegateId ≠ g.delegateId ∧ g'.key ≠ g.key
  worker : ∀ i, WorkerSound ca o i (s.dirs i) (s.workers i)
  agent : ∀ i, AgentSound ca o i (s.dirs i) (s.agents i)

section Steps
variable {ι : Type} {accepts : String → Bool} {pem : Csr → String} {ca : Authority} {ttl : ℚ}
variable {s s' : Fleet ι} {o o' : List (Granted ι)} {i : ι} {env : Environment} {token : String}

theorem Inv.start (stores : Stores) : Inv ca (.start ι stores) [] where
  rows g hg := by cases hg
  keys g hg := by cases hg
  apart g hg := by cases hg
  worker _ := Or.inl rfl
  agent _ := trivial

theorem Inv.setStores (h : Inv ca s o) {stores : Stores} (kept : Kept s.stores.db stores.db) :
    Inv ca { s with stores := stores } o := by
  refine ⟨?_, h.keys, h.apart, h.worker, h.agent⟩
  intro g hg
  obtain ⟨d, hd, htenant, hname, hqueue⟩ := h.rows g hg
  obtain ⟨d', hd', htenant', hname', hqueue'⟩ := kept _ d hd
  exact ⟨d', hd', htenant'.trans htenant, hname'.trans hname, hqueue'.trans hqueue⟩

theorem registrationBody_rowOf {csr : Csr} {outside : Outside} {d : Delegate}
    (h : RowOf outside (registrationBody pem env token csr) d) :
    d.tenantId = env.tenantId ∧ d.name = env.name ∧ d.queue = env.queue :=
  ⟨h.tenantId, h.name, h.queue⟩

theorem begin_sound {d : CertDir} (h : Left ca o i d) : WorkerSound ca o i d (begin d env) := by
  unfold begin
  split
  · split
    · rename_i identity hload
      exact h.loaded hload
    · exact h
  · rename_i fresh
    exact h.absent fresh

theorem askToken_spec {now : ℚ} {answered : Bool} {stores : Stores} {d : CertDir}
    (absent : d .identityJson = none) :
    (askToken ttl env token now answered stores).1.db = stores.db ∧
      WorkerSound ca o i d (askToken ttl env token now answered stores).2 := by
  refine ⟨rfl, ?_⟩
  simp only [askToken]
  split
  · exact absent
  · exact Or.inl absent

theorem respond_response {csr : Csr} {key : PrivateKey} {id : UUID} {certExpiresAt : String}
    {body : Response} (i : ι) (env : Environment) (ofKey : csr.publicKey = key.publicKey)
    (h : respond csr ⟨id, ca, certExpiresAt⟩ = some body) :
    body = (⟨i, env, id, key⟩ : Granted ι).response ca certExpiresAt := by
  unfold respond at h
  cases hs : signCsr ca csr (str id) with
  | none => simp [hs] at h
  | some cert =>
    simp only [hs, Option.some.injEq] at h
    subst h
    unfold signCsr at hs
    split at hs
    · cases hs
      rw [ofKey]
      rfl
    · cases hs

theorem takeUp_cases {csr : Csr} {key : PrivateKey} {id : UUID} {certExpiresAt : String}
    (i : ι) (env : Environment) (answered : Bool) (ofKey : csr.publicKey = key.publicKey) :
    let stage := takeUp (submitting env key)
      (if answered then respond csr ⟨id, ca, certExpiresAt⟩ else none)
    let g : Granted ι := ⟨i, env, id, key⟩
    stage = .down ∨ stage = .writing (g.writes ca certExpiresAt) (g.identity certExpiresAt) := by
  cases answered with
  | false => exact Or.inl rfl
  | true =>
    simp only [if_true]
    cases hresponse : respond csr ⟨id, ca, certExpiresAt⟩ with
    | none => exact Or.inl rfl
    | some body =>
      rw [respond_response i env ofKey hresponse]
      exact Or.inr rfl

/-- A worker that submits its CSR is granted nothing, or what a new row says. -/
theorem submit_cases (outside : Outside) (certExpiresAt : String) (answered : Bool)
    (key : PrivateKey) (stores : Stores) {r : Stores × WorkerStage × List (Granted ι)}
    (hr : submit accepts pem ca i env token outside certExpiresAt answered key stores = r) :
    (r.2.2 = [] ∧ r.2.1 = .down ∧ Kept stores.db r.1.db) ∨
      ∃ row db, stores.db.createDelegate row = some db ∧ r.1.db.delegates = db.delegates ∧
        r.2.2 = [⟨i, env, row.id, key⟩] ∧
        (row.tenantId = env.tenantId ∧ row.name = env.name ∧ row.queue = env.queue) ∧
        (r.2.1 = .down ∨ ∃ g ∈ r.2.2, r.2.1 =
          .writing (g.writes ca certExpiresAt) (g.identity certExpiresAt)) := by
  subst hr
  cases hcsr : buildCsr accepts key (submitting env key).commonName with
  | none =>
    simp only [submit, hcsr]
    exact Or.inl ⟨trivial, trivial, fun id d hd => ⟨d, hd, rfl, rfl, rfl⟩⟩
  | some csr =>
    have ofKey : csr.publicKey = key.publicKey := by
      have hbuilt := @buildCsr_some accepts (submitting env key) csr hcsr
      rw [hbuilt]
      rfl
    have one := registerDelegate_oneRow outside (registrationBody pem env token csr) stores
    have kept := registerDelegate_kept outside (registrationBody pem env token csr) stores
    simp only [submit, hcsr]
    generalize registerDelegate outside (registrationBody pem env token csr) stores = registered
      at one kept ⊢
    obtain ⟨answer, stores'⟩ := registered
    cases answer with
    | rejected why => exact Or.inl ⟨rfl, rfl, kept⟩
    | raised => exact Or.inl ⟨rfl, rfl, kept⟩
    | registered id =>
      rcases one with ⟨-, hno⟩ | ⟨row, db, hcreate, hof, hdb, hid⟩
      · exact absurd rfl (hno id)
      · obtain rfl := hid id rfl
        refine Or.inr ⟨row, db, hcreate, hdb, rfl, registrationBody_rowOf hof, ?_⟩
        rcases takeUp_cases i env answered ofKey with lost | taken
        · exact Or.inl lost
        · exact Or.inr ⟨_, List.mem_singleton_self _, taken⟩

/-- A key that is generated is a new one. -/
theorem Inv.generate (h : Inv ca s o) : Inv ca { s with generated := s.generated + 1 } o :=
  ⟨h.rows, fun g hg => Nat.lt_succ_of_lt (h.keys g hg), h.apart, h.worker, h.agent⟩

theorem Inv.granted (h : Inv ca s o) {row : Delegate} {db : DB} {stores : Stores}
    (hcreate : s.stores.db.createDelegate row = some db)
    (hdb : stores.db.delegates = db.delegates)
    (texts : row.tenantId = env.tenantId ∧ row.name = env.name ∧ row.queue = env.queue) :
    Inv ca { s with stores := stores, generated := s.generated + 1 }
      (o ++ [⟨i, env, row.id, ⟨s.generated⟩⟩]) := by
  have found (k : UUID) : stores.db.delegate k =
      if row.id = k then some row else s.stores.db.delegate k := by
    rw [DB.delegate, hdb]
    exact createDelegate_delegate hcreate k
  have older : ∀ g ∈ o, row.id ≠ g.delegateId := by
    intro g hg he
    obtain ⟨d, hd, -⟩ := h.rows g hg
    have fresh := createDelegate_fresh hcreate
    rw [he, hd] at fresh
    cases fresh
  have unused : ∀ g ∈ o, g.key ≠ ⟨s.generated⟩ := by
    intro g hg hkey
    have hlt := h.keys g hg
    rw [hkey] at hlt
    exact Nat.lt_irrefl _ hlt
  refine ⟨?_, ?_, ?_, fun j => (h.worker j).grow, fun j => (h.agent j).grow⟩
  · intro g hg
    rcases List.mem_append.mp hg with hg | hg
    · obtain ⟨d, hd, hfields⟩ := h.rows g hg
      exact ⟨d, by rw [found, if_neg (older g hg), hd], hfields⟩
    · obtain rfl := List.mem_singleton.mp hg
      exact ⟨row, by rw [found, if_pos rfl], texts⟩
  · intro g hg
    rcases List.mem_append.mp hg with hg | hg
    · exact Nat.lt_succ_of_lt (h.keys g hg)
    · obtain rfl := List.mem_singleton.mp hg
      exact Nat.lt_succ_self _
  · intro g hg g' hg' hne
    rcases List.mem_append.mp hg with hold | hnew
    · rcases List.mem_append.mp hg' with hold' | hnew'
      · exact h.apart g hold g' hold' hne
      · obtain rfl := List.mem_singleton.mp hnew'
        exact ⟨older g hold, fun he => unused g hold he.symm⟩
    · obtain rfl := List.mem_singleton.mp hnew
      rcases List.mem_append.mp hg' with hold' | hnew'
      · exact ⟨(older g' hold').symm, unused g' hold'⟩
      · obtain rfl := List.mem_singleton.mp hnew'
        exact absurd rfl hne

variable [DecidableEq ι]

theorem Inv.setWorker (h : Inv ca s o) {stage : WorkerStage}
    (sound : WorkerSound ca o i (s.dirs i) stage) : Inv ca (s.setWorker i stage) o := by
  refine ⟨h.rows, h.keys, h.apart, ?_, h.agent⟩
  intro j
  by_cases hj : j = i
  · subst hj
    simpa only [Fleet.setWorker, Function.update_self] using sound
  · simpa only [Fleet.setWorker, Function.update_of_ne hj] using h.worker j

theorem Inv.setAgent (h : Inv ca s o) {stage : AgentStage}
    (sound : AgentSound ca o i (s.dirs i) stage) : Inv ca (s.setAgent i stage) o := by
  refine ⟨h.rows, h.keys, h.apart, h.worker, ?_⟩
  intro j
  by_cases hj : j = i
  · subst hj
    simpa only [Fleet.setAgent, Function.update_self] using sound
  · simpa only [Fleet.setAgent, Function.update_of_ne hj] using h.agent j

theorem Inv.submitted (h : Inv ca s o) (hi : s.workers i = .submitting env token)
    {outside : Outside} {certExpiresAt : String} {answered : Bool}
    {r : Stores × WorkerStage × List (Granted ι)}
    (hr : submit accepts pem ca i env token outside certExpiresAt answered ⟨s.generated⟩ s.stores =
      r) :
    Inv ca { s.setWorker i r.2.1 with stores := r.1, generated := s.generated + 1 }
      (o ++ r.2.2) := by
  have absent : s.dirs i .identityJson = none := by
    have hsound := h.worker i
    rw [hi] at hsound
    exact hsound
  rcases submit_cases outside certExpiresAt answered ⟨s.generated⟩ s.stores hr with
    ⟨hno, hdown, kept⟩ | ⟨row, db, hcreate, hdb, hgranted, texts, hstage⟩
  · rw [hno, List.append_nil, hdown]
    have down : WorkerSound ca o i (s.dirs i) .down := Or.inl absent
    exact ((h.setWorker down).setStores kept).generate
  · have hinv : Inv ca { s with stores := r.1, generated := s.generated + 1 }
        (o ++ [⟨i, env, row.id, ⟨s.generated⟩⟩]) := h.granted hcreate hdb texts
    rw [hgranted] at hstage ⊢
    refine hinv.setWorker ?_
    rcases hstage with hdown | ⟨g, hg, hwriting⟩
    · rw [hdown]
      exact Or.inl absent
    · obtain rfl := List.mem_singleton.mp hg
      rw [hwriting]
      exact ⟨_, List.mem_append_right _ hg, rfl, certExpiresAt, [], s.dirs i, absent, rfl, rfl, rfl⟩

theorem Inv.write (h : Inv ca s o) {op : Op FileName Content} {ops : List (Op FileName Content)}
    {identity : Identity} (hi : s.workers i = .writing (op :: ops) identity) :
    Inv ca { s.setWorker i (.writing ops identity) with
      dirs := Function.update s.dirs i (op.apply (s.dirs i)) } o := by
  have hsound := h.worker i
  rw [hi] at hsound
  obtain ⟨g, hg, hmachine, certExpiresAt, before, d₀, absent, hops, hd, hidentity⟩ := hsound
  have no : ∀ identity, s.dirs i .identityJson ≠ some (.full (.identity identity)) := by
    intro identity' hfull
    rw [← hd] at hfull
    rcases unfinished absent hops with hnone | ⟨hempty, -⟩ | ⟨hnil, -⟩
    · rw [hnone] at hfull
      cases hfull
    · rw [hempty] at hfull
      cases hfull
    · cases hnil
  refine ⟨h.rows, h.keys, h.apart, ?_, ?_⟩
  · intro j
    by_cases hj : j = i
    · subst hj
      simp only [Fleet.setWorker, Function.update_self]
      refine ⟨g, hg, hmachine, certExpiresAt, before ++ [op], d₀, absent, ?_, ?_, hidentity⟩
      · rw [List.append_assoc]
        exact hops
      · rw [perform_append, hd]
        rfl
    · simpa only [Fleet.setWorker, Function.update_of_ne hj] using h.worker j
  · intro j
    by_cases hj : j = i
    · subst hj
      exact (h.agent j).idle no _
    · simpa only [Fleet.setWorker, Function.update_of_ne hj] using h.agent j

theorem Inv.workerStep (h : Inv ca s o) {event : WorkerEvent}
    (hs : workerStep accepts pem ca ttl s i (s.workers i) event = some (s', o')) :
    Inv ca s' (o ++ o') := by
  have hsound := h.worker i
  unfold Enrolment.workerStep at hs
  split at hs
  · cases hs
    rw [List.append_nil]
    exact h.setWorker hsound.left
  · rename_i hdown
    cases hs
    rw [hdown] at hsound
    rw [List.append_nil]
    exact h.setWorker (begin_sound hsound)
  · rename_i env token now answered hasking
    cases hs
    rw [hasking] at hsound
    rw [List.append_nil]
    obtain ⟨hdb, hstage⟩ := @askToken_spec _ ca ttl o i env token now answered s.stores _ hsound
    refine (h.setWorker hstage).setStores ?_
    exact .of_delegates (congrArg DB.delegates hdb)
  · rename_i env token outside certExpiresAt answered hsubmitting
    cases hs
    exact h.submitted hsubmitting rfl
  · rename_i op ops identity hwriting
    cases hs
    rw [List.append_nil]
    exact h.write hwriting
  · rename_i identity hwriting
    cases hs
    rw [hwriting] at hsound
    obtain ⟨g, hg, hmachine, certExpiresAt, before, d₀, absent, hops, hd, rfl⟩ := hsound
    rw [List.append_nil]
    refine h.setWorker ⟨g, hg, hmachine, ?_⟩
    rw [List.append_nil] at hops
    rw [← hd, hops]
    exact writes_holds g d₀ certExpiresAt
  · cases hs

omit [DecidableEq ι] in
theorem agentStep_sound {d : CertDir} {stage stage' : AgentStage} {event : AgentEvent}
    (left : Left ca o i d) (h : AgentSound ca o i d stage)
    (hs : agentStep d stage event = some stage') : AgentSound ca o i d stage' := by
  unfold agentStep at hs
  split at hs
  · cases hs
    trivial
  · split at hs
    · cases hs
      trivial
    · cases hs
  · split at hs
    · rename_i identity hload
      cases hs
      exact left.loaded hload
    · cases hs
      trivial
  · split at hs
    · rename_i root hroot
      cases hs
      refine Own.imp h fun g holds => ⟨holds, ?_⟩
      rw [holds.caCrt] at hroot
      cases hroot
      rfl
    · cases hs
      trivial
  · split at hs
    · rename_i crt hcrt
      cases hs
      refine Own.imp h fun g holds => ⟨holds.1, holds.2, ?_⟩
      rw [holds.1.delegateCrt] at hcrt
      cases hcrt
      rfl
    · cases hs
      trivial
  · split at hs
    · rename_i key hkey
      split at hs
      · cases hs
        refine Own.imp h fun g holds => ⟨holds.1, holds.2.1, holds.2.2, ?_⟩
        rw [holds.1.delegateKey] at hkey
        cases hkey
        rfl
      · cases hs
        trivial
    · cases hs
      trivial
  · cases hs

theorem Inv.step (h : Inv ca s o) {act : Act ι}
    (hs : (enrolling accepts pem ca ttl).step s act = some (s', o')) : Inv ca s' (o ++ o') := by
  cases act with
  | issue body token now =>
    cases hs
    rw [List.append_nil]
    exact h.setStores (.of_delegates rfl)
  | register outside body =>
    cases hs
    rw [List.append_nil]
    exact h.setStores (registerDelegate_kept outside body s.stores)
  | revoke id removed =>
    cases hs
    rw [List.append_nil]
    exact h.setStores (saveDelegateStatus_kept s.stores.db id .revoked)
  | worker i event => exact h.workerStep hs
  | agent i event =>
    simp only [enrolling, Option.map_eq_some_iff] at hs
    obtain ⟨stage, hstage, he⟩ := hs
    cases he
    rw [List.append_nil]
    exact h.setAgent (agentStep_sound (h.worker i).left (h.agent i) hstage)

theorem Inv.run {acts : List (Act ι)} {stores : Stores}
    (h : Run (enrolling accepts pem ca ttl) Free (.start ι stores) acts s o) : Inv ca s o := by
  refine h.invariant (fun s o => Inv ca s o) (.start stores) ?_
  intro s o act t o' hi _ hs
  exact hi.step hs

end Steps

/-- The identity, the certificate and the key are the files of the machine, stand for
one row, and are what Redis and the restart gateway ask for. -/
structure Speaks {ι : Type} (root : Certificate) (s : Fleet ι) (i : ι) (identity : Identity)
    (crt : Certificate) (key : PrivateKey) : Prop where
  identityJson : s.dirs i .identityJson = some (.full (.identity identity))
  delegateCrt : s.dirs i .delegateCrt = some (.full (.cert crt))
  delegateKey : s.dirs i .delegateKey = some (.full (.key key))
  row : ∃ id d, identity.delegateId = str id ∧ s.stores.db.delegate id = some d ∧
    d.tenantId = identity.tenantId ∧ d.name = identity.name ∧ d.queue = identity.queue
  proven : Matches key crt ∧ Verifies crt root ∧ crt.usage = some .clientAuth
  greeted : certified (peerCertDelegateId (some crt.subject))
    (some (.str identity.delegateId)) = some identity.delegateId

section Speaking
variable {ι : Type} {ca : Authority} {s : Fleet ι} {o : List (Granted ι)} {i : ι}
variable {identity : Identity}

theorem publicKey_injective {key key' : PrivateKey} (h : key.publicKey = key'.publicKey) :
    key = key' := by
  cases key
  cases key'
  cases h
  rfl

theorem str_nonempty (id : UUID) : str id ≠ "" := by
  intro h
  have hlength := str_length id
  rw [h] at hlength
  cases hlength

theorem Inv.speaks (h : Inv ca s o) (own : Matches ca.caKey ca.caCert)
    (authority : ca.caCert.ca = true) {g : Granted ι} (hg : g ∈ o)
    (holds : Holds ca g (s.dirs i) identity) : Speaks ca.caCert s i identity (g.cert ca) g.key := by
  obtain ⟨certExpiresAt, rfl⟩ := holds.fits
  obtain ⟨d, hd, texts⟩ := h.rows g hg
  refine ⟨holds.identityJson, holds.delegateCrt, holds.delegateKey, ⟨_, d, rfl, hd, texts⟩,
    ⟨rfl, leafCert_verifies own authority _ _ _ _, rfl⟩, ?_⟩
  have named : peerCertDelegateId (some (g.cert ca).subject) = some (str g.delegateId) :=
    commonName_leafCert ca (str g.delegateId) g.key.publicKey .clientAuth []
  simp [certified, named, Granted.identity, str_nonempty]

/-- The files of a machine that speaks are those of one of its registrations. -/
theorem Inv.holds (h : Inv ca s o) {root crt : Certificate} {key : PrivateKey}
    (speaks : Speaks root s i identity crt key) :
    Own o i (fun g => Holds ca g (s.dirs i) identity ∧ crt = g.cert ca ∧ key = g.key) := by
  have hload : loadIdentity (s.dirs i) = .ok identity := by
    rw [loadIdentity, speaks.identityJson]
  refine ((h.worker i).left.loaded hload).imp fun g holds => ⟨holds, ?_, ?_⟩
  · have hcrt := holds.delegateCrt.symm.trans speaks.delegateCrt
    cases hcrt
    rfl
  · have hkey := holds.delegateKey.symm.trans speaks.delegateKey
    cases hkey
    rfl

theorem Inv.distinct (h : Inv ca s o) {root crt crt' : Certificate} {key key' : PrivateKey}
    {j : ι} {identity' : Identity} (hne : j ≠ i) (hi : Speaks root s i identity crt key)
    (hj : Speaks root s j identity' crt' key') :
    identity'.delegateId ≠ identity.delegateId ∧ ¬ Matches key' crt := by
  obtain ⟨g, hg, rfl, holds, rfl, rfl⟩ := h.holds hi
  obtain ⟨g', hg', rfl, holds', rfl, rfl⟩ := h.holds hj
  obtain ⟨_, rfl⟩ := holds.fits
  obtain ⟨_, rfl⟩ := holds'.fits
  obtain ⟨ids, keys⟩ := h.apart g hg g' hg' hne
  refine ⟨fun he => ids (str_injective he), fun hmatch => ?_⟩
  exact keys (publicKey_injective hmatch).symm

end Speaking

/-- Workers and agent managers are started and killed, answers are lost, and anybody
registers or is revoked, in any order: a worker that runs and an agent manager that
has made its SSL context have an identity, a certificate and a key that belong
together and to one row of the table; the gateway takes their HELLO for the id of
that row; and no two machines have the same identity or a key of each other's
certificate. -/
theorem machines_speak_for_themselves {ι : Type} [DecidableEq ι] {accepts : String → Bool}
    {pem : Csr → String} {caKey : PrivateKey} {ttl : ℚ} {stores : Stores} {acts : List (Act ι)}
    {s : Fleet ι} {o : List (Granted ι)}
    (h : Run (enrolling accepts pem ⟨caKey, rootCert caKey⟩ ttl) Free (.start ι stores) acts s o) :
    (∀ i identity, s.workers i = .running identity →
      ∃ crt key, Speaks (rootCert caKey) s i identity crt key) ∧
    (∀ i identity root crt key, s.agents i = .ready identity root crt key →
      root = rootCert caKey ∧ Speaks root s i identity crt key) ∧
    ∀ i j identity identity' crt crt' key key', j ≠ i →
      Speaks (rootCert caKey) s i identity crt key →
      Speaks (rootCert caKey) s j identity' crt' key' →
      identity'.delegateId ≠ identity.delegateId ∧ ¬ Matches key' crt := by
  have inv := Inv.run h
  have own : Matches caKey (rootCert caKey) := rootCert_matches caKey
  refine ⟨?_, ?_, ?_⟩
  · intro i identity hrunning
    have sound := inv.worker i
    rw [hrunning] at sound
    obtain ⟨g, hg, rfl, holds⟩ := sound
    exact ⟨_, _, inv.speaks own rfl hg holds⟩
  · intro i identity root crt key hready
    have sound := inv.agent i
    rw [hready] at sound
    obtain ⟨g, hg, rfl, holds, rfl, rfl, rfl⟩ := sound
    exact ⟨rfl, inv.speaks own rfl hg holds⟩
  · intro i j identity identity' crt crt' key key' hne hi hj
    exact inv.distinct hne hi hj

def smallEnv : Environment := ⟨"tenant-demo", "vm-delegate-1", "queue-vm-delegate-1", 1⟩

def drawn (id : UUID) : Outside := { DelegateRegistration.willing with delegateId := id }

def registers (token : String) (id : UUID) (answered : Bool) : List WorkerEvent :=
  [.start smallEnv, .token token 0 true, .submit (drawn id) "2030" answered]

def writesDown : List WorkerEvent := List.replicate 10 .write ++ [.run]

def readsFiles : List AgentEvent := [.exists, .read, .read, .read, .read]

/-- The first answer is lost, the second registration is cut short. -/
def threeTimes : List (Act Bool) :=
  (registers "t1" 1 false ++ registers "t2" 2 true).map (.worker true) ++
    [.worker true .write, .worker true .write, .worker true .write, .worker true .kill] ++
    (registers "t3" 3 true ++ writesDown).map (.worker true) ++
    readsFiles.map (.agent true) ++ [.revoke 3 true]

/-- The other machine registers before. -/
def once : List (Act Bool) := (registers "t4" 4 true ++ writesDown).map (.worker false)

def isReady : AgentStage → Bool
  | .ready _ _ _ _ => true
  | _ => false

def isRunning : WorkerStage → Bool
  | .running _ => true
  | _ => false

theorem threeTimes_speak : ∃ s o identity identity' crt crt' key key',
    Run (enrolling fits (fun _ => "csr") rootOnly 900) Free
      (.start Bool ⟨KeyedTable.empty _, KeyedTable.empty _, DB.empty⟩) (once ++ threeTimes) s o ∧
    s.agents true = .ready identity (rootCert ⟨0⟩) crt key ∧
    s.workers false = .running identity' ∧ Speaks (rootCert ⟨0⟩) s false identity' crt' key' ∧
    identity'.delegateId ≠ identity.delegateId ∧ ¬ Matches key' crt := by
  have hrun : (replay (enrolling fits (fun _ => "csr") rootOnly 900)
      (.start Bool ⟨KeyedTable.empty _, KeyedTable.empty _, DB.empty⟩) (once ++ threeTimes)).any
      (fun r => isReady (r.1.agents true) && isRunning (r.1.workers false)) = true := by
    decide +kernel
  obtain ⟨s, o, h, hs⟩ := run_of_replay_test hrun
  simp only [Bool.and_eq_true] at hs
  obtain ⟨hready, hrunning⟩ := hs
  obtain ⟨running, ready, distinct⟩ := machines_speak_for_themselves h
  cases hagent : s.agents true with
  | ready identity root crt key =>
    cases hworker : s.workers false with
    | running identity' =>
      obtain ⟨rfl, speaks⟩ := ready true identity root crt key hagent
      obtain ⟨crt', key', speaks'⟩ := running false identity' hworker
      exact ⟨s, o, identity, identity', crt, crt', key, key', h, hagent, hworker, speaks',
        distinct true false _ _ _ _ _ _ (by decide) speaks speaks'⟩
    | _ => simp [hworker, isRunning] at hrunning
  | _ => simp [hagent, isReady] at hready

end Enrolment
