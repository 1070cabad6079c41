import DelegateProtocol.Certificates
import DelegateProtocol.Lib.FileWrites

/-!
# Processes that ensure certificates in one directory

Every service calls the `ensure_*` functions of `delegates/ca.py` when it
starts, on the `CA_DIR` they share. A call looks for the two files of a pair one
after the other, and generates and writes both where one is missing. Calls take
these steps in any order and are killed between any two of them. A leaf is named
by its two paths without their extensions. Each key generated is a new one.
-/

namespace CertificateFiles

open Certificates FileWrites StepMachine

inductive Pair where
  | ca
  | leaf (name : String)
  deriving DecidableEq

/-- The arguments of `_issue_leaf_cert`. -/
structure Leaf where
  name : String
  commonName : String
  eku : Usage
  sanNames : List String

inductive Job where
  | ensureRootCa
  | issueLeafCert (leaf : Leaf)

/-- `ensure_control_plane_server_cert()`. -/
def ensureControlPlaneServerCert (extraSanNames : List String) : Job :=
  .issueLeafCert ⟨"control_plane_server", "control_plane", .serverAuth,
    ["restart_gateway", "control_plane", "localhost"] ++ extraSanNames⟩

/-- `ensure_redis_server_cert()`. -/
def ensureRedisServerCert (extraSanNames : List String) : Job :=
  .issueLeafCert ⟨"redis_server", "redis", .serverAuth, ["redis", "localhost"] ++ extraSanNames⟩

/-- `ensure_redis_admin_client_cert()`. -/
def ensureRedisAdminClientCert : Job :=
  .issueLeafCert ⟨"redis_admin", "cp-admin", .clientAuth, []⟩

def Job.pair : Job → Pair
  | .ensureRootCa => .ca
  | .issueLeafCert leaf => .leaf leaf.name

/-- `init_ca`, which runs before the other services. -/
def initCa (controlPlaneExtraSanNames redisExtraSanNames : List String) : List Job :=
  [.ensureRootCa, ensureControlPlaneServerCert controlPlaneExtraSanNames,
    ensureRedisServerCert redisExtraSanNames, ensureRedisAdminClientCert]

/-- Each of its calls has a pair of its own. -/
theorem initCa_pairs (controlPlaneExtraSanNames redisExtraSanNames : List String) :
    ((initCa controlPlaneExtraSanNames redisExtraSanNames).map Job.pair).Nodup := by
  have pairs : (initCa controlPlaneExtraSanNames redisExtraSanNames).map Job.pair =
      [.ca, .leaf "control_plane_server", .leaf "redis_server", .leaf "redis_admin"] := rfl
  rw [pairs]
  decide

/-- A new key and its certificate, on their way into the files of a pair. -/
structure Writing where
  pair : Pair
  key : PrivateKey
  cert : Certificate

inductive Ending where
  | completed
  | raised
  | killed
  deriving DecidableEq

/-- What a call does next: look for a file, read one of the CA's, or open or
write one. -/
inductive Stage where
  | keyCheck (pair : Pair)
  | certCheck (pair : Pair)
  | loadKey
  | loadCert (caKey : PrivateKey)
  | openKey (w : Writing)
  | writeKey (w : Writing)
  | openCert (w : Writing)
  | writeCert (w : Writing)
  | ended (ending : Ending)

structure Call where
  job : Job
  stage : Stage

structure CaDir where
  keys : Directory Pair PrivateKey
  certs : Directory Pair Certificate
  generated : Nat
  calls : List Call

def CaDir.start : CaDir := ⟨fun _ => none, fun _ => none, 0, []⟩

inductive Action where
  | starts (job : Job)
  | does (i : Nat)
  | kills (i : Nat)

/-- A call that has ensured a pair returns, or goes on to its leaf. -/
def Job.next (job : Job) (pair : Pair) : Stage :=
  if pair = job.pair then .ended .completed else .keyCheck job.pair

/-- A call that has missed a file of a pair. -/
def CaDir.missing (s : CaDir) : Pair → CaDir × Stage
  | .ca =>
    let key : PrivateKey := ⟨s.generated⟩
    ({ s with generated := s.generated + 1 }, .openKey ⟨.ca, key, rootCert key⟩)
  | .leaf _ => (s, .loadKey)

/-- The rest of `_issue_leaf_cert` once the CA is loaded, up to the files. -/
def CaDir.issue (s : CaDir) (ca : Authority) (leaf : Leaf) : CaDir × Stage :=
  let key : PrivateKey := ⟨s.generated⟩
  let cert := leafCert ca leaf.commonName key.publicKey leaf.eku leaf.sanNames
  ({ s with generated := s.generated + 1 }, .openKey ⟨.leaf leaf.name, key, cert⟩)

def advance (s : CaDir) (call : Call) : Option (CaDir × Stage) :=
  match call.stage with
  | .keyCheck pair =>
    if (s.keys pair).isSome = true then some (s, .certCheck pair) else some (s.missing pair)
  | .certCheck pair =>
    if (s.certs pair).isSome = true then some (s, call.job.next pair) else some (s.missing pair)
  | .loadKey =>
    match s.keys .ca with
    | some (.full caKey) => some (s, .loadCert caKey)
    | _ => some (s, .ended .raised)
  | .loadCert caKey =>
    match call.job, s.certs .ca with
    | .issueLeafCert leaf, some (.full caCert) => some (s.issue ⟨caKey, caCert⟩ leaf)
    | _, _ => some (s, .ended .raised)
  | .openKey w => some ({ s with keys := s.keys.truncate w.pair }, .writeKey w)
  | .writeKey w => some ({ s with keys := s.keys.write w.pair w.key }, .openCert w)
  | .openCert w => some ({ s with certs := s.certs.truncate w.pair }, .writeCert w)
  | .writeCert w => some ({ s with certs := s.certs.write w.pair w.cert }, call.job.next w.pair)
  | .ended _ => none

def CaDir.put (s : CaDir) (i : Nat) (call : Call) : CaDir := { s with calls := s.calls.set i call }

def step (s : CaDir) : Action → Option (CaDir × List Unit)
  | .starts job => some ({ s with calls := s.calls ++ [⟨job, .keyCheck .ca⟩] }, [])
  | .does i =>
    match s.calls[i]? with
    | none => none
    | some call =>
      match advance s call with
      | none => none
      | some (t, stage) => some (t.put i { call with stage := stage }, [])
  | .kills i =>
    match s.calls[i]? with
    | none => none
    | some call =>
      match call.stage with
      | .ended _ => none
      | _ => some (s.put i { call with stage := .ended .killed }, [])

def processes : Machine CaDir Action Unit := ⟨step⟩

/-- The root certificate verifies under itself, the others under the root. -/
def Trusted (s : CaDir) : Pair → Certificate → Prop
  | .ca, cert => Verifies cert cert
  | .leaf _, cert => ∃ root, s.certs .ca = some (.full root) ∧ Verifies cert root

/-- Both files of a pair are complete, and they match. -/
def Holds (s : CaDir) (pair : Pair) (key : PrivateKey) (cert : Certificate) : Prop :=
  s.keys pair = some (.full key) ∧ s.certs pair = some (.full cert) ∧ Matches key cert

def Paired (s : CaDir) (pair : Pair) : Prop :=
  ∃ key cert, Holds s pair key cert ∧ Trusted s pair cert

def Stage.isEnded : Stage → Bool
  | .ended _ => true
  | _ => false

def AllEnded (s : CaDir) : Prop := ∀ call ∈ s.calls, call.stage.isEnded = true

instance (s : CaDir) : Decidable (AllEnded s) := inferInstanceAs (Decidable (∀ call ∈ _, _))

def Stage.isCompleted : Stage → Bool
  | .ended .completed => true
  | _ => false

/-- Every pair with a certificate file holds together, and so does every pair
that a call has ensured. -/
structure Settled (s : CaDir) : Prop where
  pairs : ∀ pair, s.certs pair ≠ none → Paired s pair
  ensured : ∀ call ∈ s.calls, call.stage.isCompleted = true → Paired s call.job.pair

/-- A directory no call is at work in and whose pairs hold together. -/
def Sound (s : CaDir) : Prop := s.calls = [] ∧ ∀ pair, s.certs pair ≠ none → Paired s pair

/-- The pair whose key file a call has opened and whose certificate it has not
written yet. -/
def Stage.halfway : Stage → Option Pair
  | .writeKey w | .openCert w | .writeCert w => some w.pair
  | _ => none

def Alone (s : CaDir) (pair : Pair) : Prop := ∀ call ∈ s.calls, call.stage.halfway ≠ some pair

instance (s : CaDir) (pair : Pair) : Decidable (Alone s pair) :=
  inferInstanceAs (Decidable (∀ call ∈ _, _))

/-- A key file is opened only while no other call is halfway through the pair,
and that of the root only while there is no root certificate. -/
def InTurn (s : CaDir) : Stage → Prop
  | .openKey w => Alone s w.pair ∧ (w.pair = .ca → s.certs .ca = none)
  | _ => True

instance (s : CaDir) : ∀ stage, Decidable (InTurn s stage)
  | .openKey _ => inferInstanceAs (Decidable (_ ∧ _))
  | .keyCheck _ | .certCheck _ | .loadKey | .loadCert _ | .writeKey _ | .openCert _
  | .writeCert _ | .ended _ => .isTrue trivial

/-- A call is killed halfway through a pair only while the pair has no
certificate file. -/
def Spared (s : CaDir) (stage : Stage) : Prop := ∀ pair ∈ stage.halfway, s.certs pair = none

instance (s : CaDir) (stage : Stage) : Decidable (Spared s stage) :=
  inferInstanceAs (Decidable (∀ pair ∈ _, _))

def Orderly (s : CaDir) : Action → Prop
  | .starts _ => True
  | .does i => ∀ call ∈ s.calls[i]?, InTurn s call.stage
  | .kills i => ∀ call ∈ s.calls[i]?, Spared s call.stage

instance (s : CaDir) : ∀ a, Decidable (Orderly s a)
  | .starts _ => inferInstanceAs (Decidable True)
  | .does i => inferInstanceAs (Decidable (∀ call ∈ s.calls[i]?, InTurn s call.stage))
  | .kills i => inferInstanceAs (Decidable (∀ call ∈ s.calls[i]?, Spared s call.stage))

/-- The root certificate is there, complete or not. -/
def Based (s : CaDir) : Prop := s.certs .ca ≠ none

/-- What a call has in hand when it comes to the files of a pair. -/
structure Issued (s : CaDir) (job : Job) (w : Writing) : Prop where
  own : w.pair = .ca ∨ w.pair = job.pair
  ofKey : Matches w.key w.cert
  trusted : Trusted s w.pair w.cert

/-- What a call relies on where it stands. -/
def Backed (s : CaDir) (job : Job) : Stage → Prop
  | .keyCheck pair | .certCheck pair => pair = .ca ∨ pair = job.pair ∧ Based s
  | .loadKey => Based s
  | .loadCert caKey => Based s ∧ s.keys .ca = some (.full caKey)
  | .openKey w => Issued s job w
  | .writeKey w => Issued s job w ∧ (w.pair = .ca → s.certs .ca = none)
  | .openCert w => Issued s job w ∧ (w.pair = .ca → s.certs .ca = none) ∧
      s.keys w.pair = some (.full w.key)
  | .writeCert w => Issued s job w ∧ s.keys w.pair = some (.full w.key) ∧
      s.certs w.pair = some .empty
  | .ended .completed => s.certs job.pair ≠ none
  | .ended _ => True

structure Inv (s : CaDir) : Prop where
  one : ∀ (i j : Nat) (c d : Call) (pair : Pair), s.calls[i]? = some c →
    s.calls[j]? = some d → c.stage.halfway = some pair →
    d.stage.halfway = some pair → i = j
  backed : ∀ call ∈ s.calls, Backed s call.job call.stage
  idle : ∀ pair, Alone s pair → s.certs pair ≠ none → Paired s pair

/-- What no step undoes: a certificate file stays, and once there is a root
certificate so do its content and the key of the root. -/
structure Keeps (s t : CaDir) : Prop where
  certs : ∀ pair, s.certs pair ≠ none → t.certs pair ≠ none
  root : ∀ cert, s.certs .ca = some (.full cert) → t.certs .ca = some (.full cert)
  key : Based s → t.keys .ca = s.keys .ca

/-- Nothing has changed in the files of a pair. -/
def Same (s t : CaDir) (pair : Pair) : Prop :=
  t.keys pair = s.keys pair ∧ t.certs pair = s.certs pair

/-- The key and certificate a call is about to open or write the files of. -/
def Stage.target : Stage → Option Writing
  | .openKey w | .writeKey w | .openCert w | .writeCert w => some w
  | _ => none

section Steps
variable {s t u : CaDir} {call : Call} {job : Job} {stage stage' : Stage} {pair : Pair}
variable {w : Writing} {i j : Nat} {a : Action} {o : List Unit}

theorem Keeps.of_same (h : ∀ pair, Same s t pair) : Keeps s t where
  certs pair hp := by rwa [(h pair).2]
  root cert hc := by rwa [(h .ca).2]
  key _ := (h .ca).1

theorem Keeps.trans (h : Keeps s t) (h' : Keeps t u) : Keeps s u where
  certs pair hp := h'.certs pair (h.certs pair hp)
  root cert hc := h'.root cert (h.root cert hc)
  key hb := (h'.key (h.certs .ca hb)).trans (h.key hb)

theorem Keeps.based (h : Keeps s t) (hb : Based s) : Based t := h.certs .ca hb

theorem Keeps.trusted (h : Keeps s t) {cert : Certificate} (ht : Trusted s pair cert) :
    Trusted t pair cert := by
  cases pair with
  | ca => exact ht
  | leaf name =>
    obtain ⟨root, hroot, verifies⟩ := ht
    exact ⟨root, h.root root hroot, verifies⟩

theorem Keeps.issued (h : Keeps s t) (hi : Issued s job w) : Issued t job w :=
  ⟨hi.own, hi.ofKey, h.trusted hi.trusted⟩

theorem Paired.keeps (h : Paired s pair) (keeps : Keeps s t) (same : Same s t pair) :
    Paired t pair := by
  obtain ⟨key, cert, ⟨hkey, hcert, own⟩, trusted⟩ := h
  exact ⟨key, cert, ⟨same.1.trans hkey, same.2.trans hcert, own⟩, keeps.trusted trusted⟩

/-- What a call relies on holds as long as nobody touches the pair it is halfway
through. -/
theorem Backed.keeps (h : Backed s job stage) (keeps : Keeps s t)
    (same : ∀ pair, stage.halfway = some pair → Same s t pair) : Backed t job stage := by
  have fresh {w : Writing} (hw : stage.halfway = some w.pair) (absent : w.pair = .ca → s.certs .ca = none)
      (hp : w.pair = .ca) : t.certs .ca = none := by
    have hsame := same w.pair hw
    rw [hp] at hsame
    exact hsame.2.trans (absent hp)
  cases stage with
  | keyCheck pair => exact h.imp_right (And.imp_right keeps.based)
  | certCheck pair => exact h.imp_right (And.imp_right keeps.based)
  | loadKey => exact keeps.based h
  | loadCert caKey => exact ⟨keeps.based h.1, (keeps.key h.1).trans h.2⟩
  | openKey w => exact keeps.issued h
  | writeKey w => exact ⟨keeps.issued h.1, fresh rfl h.2⟩
  | openCert w =>
    obtain ⟨issued, absent, hkey⟩ := h
    exact ⟨keeps.issued issued, fresh rfl absent, (same w.pair rfl).1.trans hkey⟩
  | writeCert w =>
    obtain ⟨issued, hkey, hcert⟩ := h
    have hsame := same w.pair rfl
    exact ⟨keeps.issued issued, hsame.1.trans hkey, hsame.2.trans hcert⟩
  | ended ending =>
    cases ending with
    | completed => exact keeps.certs _ h
    | raised => trivial
    | killed => trivial

/-- While a call is halfway through the root, there is no root certificate or an
empty one beside a complete key. -/
theorem Backed.root (h : Backed s job stage) (half : stage.halfway = some .ca) :
    s.certs .ca = none ∨ s.certs .ca = some .empty ∧ ∃ key, s.keys .ca = some (.full key) := by
  cases stage with
  | writeKey w => exact Or.inl (h.2 (Option.some.inj half))
  | openCert w => exact Or.inl (h.2.1 (Option.some.inj half))
  | writeCert w =>
    obtain ⟨-, hkey, hcert⟩ := h
    rw [Option.some.inj half] at hkey hcert
    exact Or.inr ⟨hcert, w.key, hkey⟩
  | _ => simp [Stage.halfway] at half

/-- A root certificate that can be read is that of the key beside it. -/
theorem Inv.root (h : Inv s) {cert : Certificate} (full : s.certs .ca = some (.full cert)) :
    ∃ key, Holds s .ca key cert ∧ Verifies cert cert := by
  have alone : Alone s .ca := by
    intro call hmem half
    rcases (h.backed call hmem).root half with absent | ⟨empty, -⟩
    · simp [absent] at full
    · simp [empty] at full
  have there : s.certs .ca ≠ none := by simp [full]
  obtain ⟨key, cert', ⟨hkey, hcert, own⟩, trusted⟩ := h.idle .ca alone there
  obtain rfl : cert' = cert := by simpa [full] using hcert.symm
  exact ⟨key, ⟨hkey, hcert, own⟩, trusted⟩

/-- Beside a root certificate of any kind there is a complete key. -/
theorem Inv.based (h : Inv s) (based : Based s) : ∃ key, s.keys .ca = some (.full key) := by
  by_cases alone : Alone s .ca
  · obtain ⟨key, cert, ⟨hkey, -⟩, -⟩ := h.idle .ca alone based
    exact ⟨key, hkey⟩
  · simp only [Alone, not_forall, not_not] at alone
    obtain ⟨call, hmem, half⟩ := alone
    rcases (h.backed call hmem).root half with absent | ⟨-, key⟩
    · exact absurd absent based
    · exact key

inductive Does (s : CaDir) (call : Call) : CaDir → Stage → Prop
  | finds {pair : Pair} : call.stage = .keyCheck pair → Does s call s (.certCheck pair)
  | ensured {pair : Pair} : call.stage = .certCheck pair → s.certs pair ≠ none →
      Does s call s (call.job.next pair)
  | generates : call.stage = .keyCheck .ca ∨ call.stage = .certCheck .ca →
      Does s call (s.missing .ca).1 (s.missing .ca).2
  | loads {name : String} :
      call.stage = .keyCheck (.leaf name) ∨ call.stage = .certCheck (.leaf name) →
      Does s call s .loadKey
  | reads {caKey : PrivateKey} : call.stage = .loadKey → s.keys .ca = some (.full caKey) →
      Does s call s (.loadCert caKey)
  | issues {caKey : PrivateKey} {caCert : Certificate} {leaf : Leaf} :
      call.stage = .loadCert caKey → call.job = .issueLeafCert leaf →
      s.certs .ca = some (.full caCert) →
      Does s call (s.issue ⟨caKey, caCert⟩ leaf).1 (s.issue ⟨caKey, caCert⟩ leaf).2
  | raises : call.stage.target = none → call.stage.halfway = none →
      Does s call s (.ended .raised)
  | opensKey {w : Writing} : call.stage = .openKey w →
      Does s call { s with keys := s.keys.truncate w.pair } (.writeKey w)
  | writesKey {w : Writing} : call.stage = .writeKey w →
      Does s call { s with keys := s.keys.write w.pair w.key } (.openCert w)
  | opensCert {w : Writing} : call.stage = .openCert w →
      Does s call { s with certs := s.certs.truncate w.pair } (.writeCert w)
  | writesCert {w : Writing} : call.stage = .writeCert w →
      Does s call { s with certs := s.certs.write w.pair w.cert } (call.job.next w.pair)

theorem does_missing (h : call.stage = .keyCheck pair ∨ call.stage = .certCheck pair) :
    Does s call (s.missing pair).1 (s.missing pair).2 := by
  cases pair with
  | ca => exact .generates h
  | leaf name => exact .loads h

theorem advance_does (h : advance s call = some (t, stage)) : Does s call t stage := by
  obtain ⟨job, before⟩ := call
  cases before with
  | keyCheck pair =>
    simp only [advance] at h
    split at h
    · obtain ⟨rfl, rfl⟩ := Prod.mk.inj (Option.some.inj h)
      exact .finds rfl
    · have hmiss := Option.some.inj h
      have hdoes : Does s ⟨job, .keyCheck pair⟩ _ _ := does_missing (Or.inl rfl)
      rwa [hmiss] at hdoes
  | certCheck pair =>
    simp only [advance] at h
    split at h
    · obtain ⟨rfl, rfl⟩ := Prod.mk.inj (Option.some.inj h)
      exact .ensured rfl (Option.isSome_iff_ne_none.mp ‹_›)
    · have hmiss := Option.some.inj h
      have hdoes : Does s ⟨job, .certCheck pair⟩ _ _ := does_missing (Or.inr rfl)
      rwa [hmiss] at hdoes
  | loadKey =>
    simp only [advance] at h
    split at h
    · obtain ⟨rfl, rfl⟩ := Prod.mk.inj (Option.some.inj h)
      exact .reads rfl ‹_›
    · obtain ⟨rfl, rfl⟩ := Prod.mk.inj (Option.some.inj h)
      exact .raises rfl rfl
  | loadCert caKey =>
    simp only [advance] at h
    split at h
    · rename_i leaf caCert hcert
      have hissue := Option.some.inj h
      have hdoes : Does s ⟨.issueLeafCert leaf, .loadCert caKey⟩ _ _ := .issues rfl rfl hcert
      rwa [hissue] at hdoes
    · obtain ⟨rfl, rfl⟩ := Prod.mk.inj (Option.some.inj h)
      exact .raises rfl rfl
  | openKey w =>
    obtain ⟨rfl, rfl⟩ := Prod.mk.inj (Option.some.inj h)
    exact .opensKey rfl
  | writeKey w =>
    obtain ⟨rfl, rfl⟩ := Prod.mk.inj (Option.some.inj h)
    exact .writesKey rfl
  | openCert w =>
    obtain ⟨rfl, rfl⟩ := Prod.mk.inj (Option.some.inj h)
    exact .opensCert rfl
  | writeCert w =>
    obtain ⟨rfl, rfl⟩ := Prod.mk.inj (Option.some.inj h)
    exact .writesCert rfl
  | ended ending => cases h

/-- A step touches no files but those of its target. -/
theorem Does.same (h : Does s call t stage)
    (other : ∀ w, call.stage.target = some w → w.pair ≠ pair) : Same s t pair := by
  cases h with
  | opensKey hst =>
    have hne := other _ (by rw [hst]; rfl)
    exact ⟨Directory.truncate_ne hne.symm, rfl⟩
  | writesKey hst =>
    have hne := other _ (by rw [hst]; rfl)
    exact ⟨Directory.write_ne hne.symm, rfl⟩
  | opensCert hst =>
    have hne := other _ (by rw [hst]; rfl)
    exact ⟨rfl, Directory.truncate_ne hne.symm⟩
  | writesCert hst =>
    have hne := other _ (by rw [hst]; rfl)
    exact ⟨rfl, Directory.write_ne hne.symm⟩
  | _ => exact ⟨rfl, rfl⟩

@[simp] theorem Job.next_halfway (job : Job) (pair : Pair) : (job.next pair).halfway = none := by
  unfold Job.next
  split <;> rfl

theorem Stage.target_cases (h : stage.target = some w) :
    stage = .openKey w ∨ stage.halfway = some w.pair := by
  cases stage <;> simp_all [Stage.target, Stage.halfway]

theorem Stage.target_of_halfway (h : stage.halfway = some pair) :
    ∃ w, stage.target = some w ∧ w.pair = pair := by
  cases stage <;> simp_all [Stage.target, Stage.halfway]

theorem Does.calls (h : Does s call t stage) : t.calls = s.calls := by
  cases h <;> rfl

/-- A call that is halfway through a pair after a step had its files as target. -/
theorem Does.target (h : Does s call t stage) (half : stage.halfway = some pair) :
    ∃ w, call.stage.target = some w ∧ w.pair = pair := by
  cases h with
  | opensKey hst => exact ⟨_, by rw [hst]; rfl, Option.some.inj half⟩
  | writesKey hst => exact ⟨_, by rw [hst]; rfl, Option.some.inj half⟩
  | opensCert hst => exact ⟨_, by rw [hst]; rfl, Option.some.inj half⟩
  | ensured => simp at half
  | writesCert => simp at half
  | _ => cases half

/-- No step in turn undoes what others rely on. -/
theorem Does.keeps (h : Does s call t stage) (backed : Backed s call.job call.stage)
    (turn : InTurn s call.stage) : Keeps s t := by
  cases h with
  | @opensKey w hst =>
    rw [hst] at turn
    refine ⟨fun _ hp => hp, fun _ hc => hc, fun based => Directory.truncate_ne ?_⟩
    exact fun hp => based (turn.2 hp.symm)
  | @writesKey w hst =>
    rw [hst] at backed
    refine ⟨fun _ hp => hp, fun _ hc => hc, fun based => Directory.write_ne ?_⟩
    exact fun hp => based (backed.2 hp.symm)
  | @opensCert w hst =>
    rw [hst] at backed
    refine ⟨fun _ => Directory.truncate_exists, fun cert full => ?_, fun _ => rfl⟩
    have other : Pair.ca ≠ w.pair := by
      intro hp
      simp [backed.2.1 hp.symm] at full
    exact (Directory.truncate_ne other).trans full
  | @writesCert w hst =>
    rw [hst] at backed
    refine ⟨fun _ => Directory.write_exists, fun cert full => ?_, fun _ => rfl⟩
    have other : Pair.ca ≠ w.pair := by
      intro hp
      simp [hp, backed.2.2] at full
    exact (Directory.write_ne other).trans full
  | _ => exact Keeps.of_same fun _ => ⟨rfl, rfl⟩

/-- A call that has ensured a pair of its own is done, or has its root. -/
theorem backed_next (own : pair = .ca ∨ pair = job.pair) (there : s.certs pair ≠ none) :
    Backed s job (job.next pair) := by
  unfold Job.next
  split
  · rename_i hp
    rwa [hp] at there
  · rename_i hp
    obtain rfl := own.resolve_right hp
    exact Or.inr ⟨rfl, there⟩

/-- Every call finds what it relies on at its next step. -/
theorem Does.backed (h : Does s call t stage) (inv : Inv s)
    (backed : Backed s call.job call.stage) (turn : InTurn s call.stage) :
    Backed t call.job stage := by
  have keeps := h.keeps backed turn
  cases h with
  | finds hst =>
    rw [hst] at backed
    exact backed
  | ensured hst there =>
    rw [hst] at backed
    exact backed_next (backed.imp_right And.left) there
  | generates =>
    exact ⟨Or.inl rfl, rootCert_matches _, rootCert_verifies _⟩
  | loads hst =>
    rcases hst with hst | hst
    all_goals
      rw [hst] at backed
      exact (backed.resolve_left nofun).2
  | reads hst hkey =>
    rw [hst] at backed
    exact ⟨backed, hkey⟩
  | @issues caKey caCert leaf hst hjob hcert =>
    rw [hst] at backed
    obtain ⟨key, ⟨hkey, -, own⟩, verifies⟩ := inv.root hcert
    obtain rfl : key = caKey := by simpa [hkey] using backed.2
    refine ⟨Or.inr (by rw [hjob]; rfl), leafCert_matches _ _ _ _ _, caCert, hcert, ?_⟩
    exact leafCert_verifies own verifies.authority _ _ _ _
  | raises => trivial
  | opensKey hst =>
    rw [hst] at backed turn
    exact ⟨keeps.issued backed, turn.2⟩
  | writesKey hst =>
    rw [hst] at backed
    exact ⟨keeps.issued backed.1, backed.2, Directory.write_self⟩
  | opensCert hst =>
    rw [hst] at backed
    exact ⟨keeps.issued backed.1, backed.2.2, Directory.truncate_self⟩
  | writesCert hst =>
    rw [hst] at backed
    exact backed_next backed.1.own (by simp)

/-- Nobody touches the pair another call is halfway through. -/
theorem Inv.untouched (h : Inv s) (hi : s.calls[i]? = some call) (turn : InTurn s call.stage)
    {c : Call} (hj : s.calls[j]? = some c) (ne : j ≠ i) (half : c.stage.halfway = some pair) :
    ∀ w, call.stage.target = some w → w.pair ≠ pair := by
  rintro w target rfl
  rcases Stage.target_cases target with opens | halfway
  · rw [opens] at turn
    exact turn.1 c (List.mem_of_getElem? hj) half
  · exact ne (h.one j i c call _ hj hi half halfway)

/-- A call that stops being halfway through a pair leaves it complete. -/
theorem Does.paired (h : Does s call t stage) (backed : Backed s call.job call.stage)
    (target : call.stage.target = some w) (through : stage.halfway ≠ some w.pair)
    (keeps : Keeps s t) : Paired t w.pair := by
  cases h with
  | @writesCert w' hst =>
    rw [hst] at backed target
    obtain rfl := Option.some.inj target
    obtain ⟨issued, hkey, -⟩ := backed
    have complete : Holds { s with certs := s.certs.write w'.pair w'.cert } w'.pair w'.key w'.cert :=
      ⟨hkey, Directory.write_self, issued.ofKey⟩
    exact ⟨w'.key, w'.cert, complete, keeps.trusted issued.trusted⟩
  | opensKey hst | writesKey hst | opensCert hst =>
    rw [hst] at target
    obtain rfl := Option.some.inj target
    exact absurd rfl through
  | finds hst | ensured hst | reads hst | issues hst =>
    rw [hst] at target
    cases target
  | generates hst | loads hst =>
    rcases hst with hst | hst <;> (rw [hst] at target; cases target)
  | raises idle =>
    rw [idle] at target
    cases target

theorem alone_of_set (hi : s.calls[i]? = some call) {call' : Call}
    (hcalls : t.calls = s.calls.set i call') (alone : Alone t pair)
    (idle : call.stage.halfway ≠ some pair) : Alone s pair := by
  intro c hc
  rcases mem_set_of_mem (z := call') hi hc with hmem | rfl
  · exact alone c (hcalls ▸ hmem)
  · exact idle

theorem Inv.does (h : Inv s) (hi : s.calls[i]? = some call) (turn : InTurn s call.stage)
    (does : Does s call t stage) : Inv (t.put i { call with stage := stage }) := by
  have backed := h.backed call (List.mem_of_getElem? hi)
  have keeps := does.keeps backed turn
  have put : Keeps t (t.put i { call with stage := stage }) := .of_same fun _ => ⟨rfl, rfl⟩
  have hcalls : (t.put i { call with stage := stage }).calls =
      s.calls.set i { call with stage := stage } := by rw [← does.calls]; rfl
  refine ⟨?_, ?_, ?_⟩
  · -- a call that comes to be halfway through a pair is the only one
    have apart {j : Nat} {c : Call} {pair : Pair} (hj : s.calls[j]? = some c) (ne : j ≠ i)
        (halfc : c.stage.halfway = some pair) (half : stage.halfway = some pair) : False := by
      obtain ⟨w, target, hw⟩ := does.target half
      exact h.untouched hi turn hj ne halfc w target hw
    intro j k c d pair hj hk halfc halfd
    rw [hcalls] at hj hk
    rcases getElem?_set_cases hi hj with ⟨hji, rfl⟩ | ⟨hji, hj⟩
    · rcases getElem?_set_cases hi hk with ⟨hki, rfl⟩ | ⟨hki, hk⟩
      · exact hji.trans hki.symm
      · exact (apart hk hki halfd halfc).elim
    · rcases getElem?_set_cases hi hk with ⟨hki, rfl⟩ | ⟨hki, hk⟩
      · exact (apart hj hji halfc halfd).elim
      · exact h.one j k c d pair hj hk halfc halfd
  · intro c hc
    obtain ⟨j, hj⟩ := List.mem_iff_getElem?.mp (hcalls ▸ hc)
    refine Backed.keeps ?_ put fun _ _ => ⟨rfl, rfl⟩
    rcases getElem?_set_cases hi hj with ⟨-, rfl⟩ | ⟨hji, hj⟩
    · exact does.backed h backed turn
    · have before := h.backed c (List.mem_of_getElem? hj)
      exact before.keeps keeps fun pair half => does.same (h.untouched hi turn hj hji half)
  · intro pair alone there
    refine Paired.keeps ?_ put ⟨rfl, rfl⟩
    by_cases target : ∃ w, call.stage.target = some w ∧ w.pair = pair
    · obtain ⟨w, target, rfl⟩ := target
      have through := alone _ (hcalls ▸ mem_set_self hi)
      exact does.paired backed target through keeps
    · have other : ∀ w, call.stage.target = some w → w.pair ≠ pair :=
        fun w hw hp => target ⟨w, hw, hp⟩
      have same := does.same other
      have idle : call.stage.halfway ≠ some pair := fun half => target (Stage.target_of_halfway half)
      have before : Alone s pair := alone_of_set hi hcalls alone idle
      have existed : s.certs pair ≠ none := fun hp => there (same.2.trans hp)
      exact (h.idle pair before existed).keeps keeps same

theorem Inv.kills (h : Inv s) (hi : s.calls[i]? = some call) (spared : Spared s call.stage) :
    Inv (s.put i { call with stage := .ended .killed }) := by
  have put : Keeps s (s.put i { call with stage := .ended .killed }) :=
    .of_same fun _ => ⟨rfl, rfl⟩
  refine ⟨?_, ?_, ?_⟩
  · intro j k c d pair hj hk halfc halfd
    rcases getElem?_set_cases hi hj with ⟨-, rfl⟩ | ⟨-, hj⟩
    · cases halfc
    · rcases getElem?_set_cases hi hk with ⟨-, rfl⟩ | ⟨-, hk⟩
      · cases halfd
      · exact h.one j k c d pair hj hk halfc halfd
  · refine forall_mem_set (fun c hc => ?_) trivial
    exact (h.backed c hc).keeps put fun _ _ => ⟨rfl, rfl⟩
  · intro pair alone there
    refine Paired.keeps (h.idle pair (alone_of_set hi rfl alone ?_) there) put ⟨rfl, rfl⟩
    exact fun half => there (spared pair half)

theorem Inv.starts (h : Inv s) (job : Job) :
    Inv { s with calls := s.calls ++ [⟨job, .keyCheck .ca⟩] } := by
  have put : Keeps s { s with calls := s.calls ++ [⟨job, .keyCheck .ca⟩] } :=
    .of_same fun _ => ⟨rfl, rfl⟩
  have before {j : Nat} {c : Call} {pair : Pair}
      (hj : (s.calls ++ [⟨job, .keyCheck .ca⟩])[j]? = some c)
      (half : c.stage.halfway = some pair) : s.calls[j]? = some c := by
    rcases getElem?_concat_cases hj with hj | ⟨-, rfl⟩
    · exact hj
    · cases half
  refine ⟨?_, ?_, ?_⟩
  · intro j k c d pair hj hk halfc halfd
    exact h.one j k c d pair (before hj halfc) (before hk halfd) halfc halfd
  · refine forall_mem_concat (fun c hc => ?_) (Or.inl rfl)
    exact (h.backed c hc).keeps put fun _ _ => ⟨rfl, rfl⟩
  · intro pair alone there
    have all : Alone s pair := fun c hc => alone c (List.mem_append_left _ hc)
    exact (h.idle pair all there).keeps put ⟨rfl, rfl⟩

theorem step_cases (h : processes.step s a = some (t, o)) :
    (∃ job, a = .starts job ∧ t = { s with calls := s.calls ++ [⟨job, .keyCheck .ca⟩] }) ∨
      (∃ i call u stage, a = .does i ∧ s.calls[i]? = some call ∧ Does s call u stage ∧
        t = u.put i { call with stage := stage }) ∨
      ∃ i call, a = .kills i ∧ s.calls[i]? = some call ∧
        t = s.put i { call with stage := .ended .killed } := by
  cases a with
  | starts job =>
    obtain ⟨rfl, -⟩ := Prod.mk.inj (Option.some.inj h)
    exact Or.inl ⟨job, rfl, rfl⟩
  | does i =>
    simp only [processes, step] at h
    split at h
    · cases h
    · rename_i call hi
      split at h
      · cases h
      · rename_i u stage hadv
        obtain ⟨rfl, -⟩ := Prod.mk.inj (Option.some.inj h)
        exact Or.inr (Or.inl ⟨i, call, u, stage, rfl, hi, advance_does hadv, rfl⟩)
  | kills i =>
    simp only [processes, step] at h
    split at h
    · cases h
    · rename_i call hi
      split at h
      · cases h
      · obtain ⟨rfl, -⟩ := Prod.mk.inj (Option.some.inj h)
        exact Or.inr (Or.inr ⟨i, call, rfl, hi, rfl⟩)

theorem Inv.step (h : Inv s) (ok : Orderly s a) (hs : processes.step s a = some (t, o)) :
    Inv t ∧ Keeps s t := by
  rcases step_cases hs with ⟨job, rfl, rfl⟩ | ⟨i, call, u, stage, rfl, hi, does, rfl⟩ |
    ⟨i, call, rfl, hi, rfl⟩
  · exact ⟨h.starts job, .of_same fun _ => ⟨rfl, rfl⟩⟩
  · have turn := ok call hi
    have keeps := does.keeps (h.backed call (List.mem_of_getElem? hi)) turn
    exact ⟨h.does hi turn does, keeps.trans (.of_same fun _ => ⟨rfl, rfl⟩)⟩
  · exact ⟨h.kills hi (ok call hi), .of_same fun _ => ⟨rfl, rfl⟩⟩

theorem Inv.run (h : Inv s) {actions : List Action} (run : Run processes Orderly s actions t o) :
    Inv t ∧ Keeps s t := by
  refine run.state_invariant (fun t => Inv t ∧ Keeps s t) ⟨h, .of_same fun _ => ⟨rfl, rfl⟩⟩ ?_
  rintro t a u o' ⟨inv, before⟩ ok hs
  obtain ⟨after, keeps⟩ := inv.step ok hs
  exact ⟨after, before.trans keeps⟩

theorem Sound.inv (h : Sound s) : Inv s where
  one i j c d pair hi := by simp [h.1] at hi
  backed c hc := by simp [h.1] at hc
  idle pair _ := h.2 pair

theorem Inv.settled (h : Inv s) (ended : AllEnded s) : Settled s := by
  have pairs : ∀ pair, s.certs pair ≠ none → Paired s pair := by
    refine fun pair => h.idle pair fun call hmem half => ?_
    have hend := ended call hmem
    cases hst : call.stage with
    | ended ending => simp [hst, Stage.halfway] at half
    | _ => simp [hst, Stage.isEnded] at hend
  refine ⟨pairs, fun call hmem completed => pairs _ ?_⟩
  have backed := h.backed call hmem
  cases hst : call.stage with
  | ended ending =>
    cases ending with
    | completed =>
      rw [hst] at backed
      exact backed
    | _ => simp [hst, Stage.isCompleted] at completed
  | _ => simp [hst, Stage.isCompleted] at completed

/-- In a run whose steps are all in order, pairs hold together once all calls
have ended, and a root pair that is complete and matches is never replaced. -/
theorem files_settle {s₀ : CaDir} {actions : List Action} (sound : Sound s₀)
    (run : Run processes Orderly s₀ actions s o) :
    (AllEnded s → Settled s) ∧
      ∀ key cert, Holds s .ca key cert → ∀ later t o', Run processes Orderly s later t o' →
        Holds t .ca key cert := by
  have inv := (sound.inv.run run).1
  refine ⟨inv.settled, ?_⟩
  rintro key cert ⟨hkey, hcert, own⟩ later t o' after
  have keeps := (inv.run after).2
  have based : Based s := by simp [Based, hcert]
  exact ⟨(keeps.key based).trans hkey, keeps.root cert hcert, own⟩

end Steps

/-- The first process has written its key when the second writes both files. -/
def overlapping : List Action :=
  [.starts .ensureRootCa, .starts .ensureRootCa, .does 0, .does 1, .does 0, .does 0,
    .does 1, .does 1, .does 1, .does 1, .does 0, .does 0,
    .starts .ensureRootCa, .does 2, .does 2]

/-- The key is that of the second and the certificate that of the first, which a
later call leaves alone. -/
theorem overlapping_mismatch : ∃ s o, Run processes Free .start overlapping s o ∧
    (∀ call ∈ s.calls, call.stage.isCompleted = true) ∧ ¬ Paired s .ca := by
  have hrun : (replay processes .start overlapping).any (fun p =>
      p.1.calls.all (fun call => call.stage.isCompleted) && p.1.keys .ca = some (.full ⟨1⟩) &&
        p.1.certs .ca = some (.full (rootCert ⟨0⟩))) = true := by
    decide +kernel
  obtain ⟨s, o, run, hend⟩ := run_of_replay_test hrun
  simp only [Bool.and_eq_true, List.all_eq_true, decide_eq_true_eq] at hend
  obtain ⟨⟨completed, hkey⟩, hcert⟩ := hend
  refine ⟨s, o, run, completed, ?_⟩
  rintro ⟨key, cert, ⟨hkey', hcert', own⟩, -⟩
  obtain rfl : key = ⟨1⟩ := by simpa [hkey] using hkey'.symm
  obtain rfl : cert = rootCert ⟨0⟩ := by simpa [hcert] using hcert'.symm
  simp [Matches, rootCert, PrivateKey.publicKey] at own

/-- The second call is killed with its key written, and a third makes it good. -/
def resumed : List Action :=
  [.starts .ensureRootCa, .does 0, .does 0, .does 0, .does 0, .does 0,
    .starts ensureRedisAdminClientCert, .does 1, .does 1, .does 1, .does 1, .does 1, .does 1,
    .does 1, .kills 1,
    .starts ensureRedisAdminClientCert, .does 2, .does 2, .does 2, .does 2, .does 2, .does 2,
    .does 2, .does 2, .does 2, .does 2]

theorem Sound.start : Sound .start := ⟨rfl, fun _ there => absurd rfl there⟩

theorem resumed_settles : ∃ s o, Run processes Orderly .start resumed s o ∧
    s.certs (.leaf "redis_admin") ≠ none ∧ Settled s := by
  have hrun : (replay (processes.guarded Orderly) .start resumed).any (fun p =>
      AllEnded p.1 && (p.1.certs (.leaf "redis_admin")).isSome) = true := by
    decide +kernel
  obtain ⟨s, o, run, hend⟩ := guarded_run_of_replay_test hrun
  simp only [Bool.and_eq_true, decide_eq_true_eq] at hend
  exact ⟨s, o, run, Option.isSome_iff_ne_none.mp hend.2, (files_settle .start run).1 hend.1⟩

end CertificateFiles
