import DelegateProtocol.Certificates
import DelegateProtocol.Lib.FileWrites

/-!
# Registering over what earlier calls left

A worker registers when it starts. `register` reuses the identity it finds in
`CERT_DIR`, or else asks the control plane for a certificate and writes four
files, one after another and in place. A call can be killed after any number of
its file operations, and what it leaves is what the next one finds. Whether
`x509.NameAttribute` takes a common name is a parameter.
-/

namespace WorkerRegistration

open Certificates FileWrites StepMachine Uuid

inductive FileName where
  | identityJson
  | delegateKey
  | delegateCrt
  | caCrt
  deriving DecidableEq

structure Identity where
  delegateId : String
  tenantId : String
  name : String
  queue : String
  certExpiresAt : String
  deriving DecidableEq

inductive Content where
  | key (key : PrivateKey)
  | cert (cert : Certificate)
  | identity (identity : Identity)
  deriving DecidableEq

abbrev CertDir := Directory FileName Content

def CertDir.start : CertDir := fun _ => none

inductive Raised where
  | jsonDecodeError
  | runtimeError
  | requestException
  | valueError
  deriving DecidableEq

/-- What `register_delegate` signs with, and the id it has minted. -/
structure Registration where
  delegateId : UUID
  ca : Authority
  certExpiresAt : String

/-- The body of its response. -/
structure Response where
  delegateId : String
  certPem : Certificate
  caCertPem : Certificate
  certExpiresAt : String

/-- The arguments of a call that it writes down, the key it generates, and what
becomes of its requests: `waited` is whether the control plane became reachable
in time, and `registration` is `none` when the second POST fails. -/
structure Call where
  tenantId : String
  name : String
  queue : String
  key : PrivateKey
  waited : Bool
  token : Bool
  registration : Option Registration
  killedAfter : Option Nat

section Registering
variable (accepts : String → Bool)

/-- `_build_csr_pem`; `none` is a ValueError. -/
def buildCsr (key : PrivateKey) (commonName : String) : Option Csr :=
  if accepts commonName = true then some ⟨commonNameOnly commonName, key.publicKey, key⟩ else none

def respond (csr : Csr) (r : Registration) : Option Response :=
  match signCsr r.ca csr (str r.delegateId) with
  | none => none
  | some cert => some ⟨str r.delegateId, cert, r.ca.caCert, r.certExpiresAt⟩

def Call.commonName (c : Call) : String := c.tenantId ++ ":" ++ c.name

def Call.identity (c : Call) (body : Response) : Identity where
  delegateId := body.delegateId
  tenantId := c.tenantId
  name := c.name
  queue := c.queue
  certExpiresAt := body.certExpiresAt

/-- The operations before those on `identity.json`: the other ones are
`os.makedirs` and `os.chmod`. -/
def Call.certWrites (c : Call) (body : Response) : List (Op FileName Content) :=
  .other :: (replaceFile .delegateKey (.key c.key) ++
    .other :: (replaceFile .delegateCrt (.cert body.certPem) ++
      replaceFile .caCrt (.cert body.caCertPem)))

def Call.writes (c : Call) (body : Response) : List (Op FileName Content) :=
  c.certWrites body ++ replaceFile .identityJson (.identity (c.identity body))

/-- The test for an identity to reuse. -/
def Registered (d : CertDir) : Prop :=
  (d .identityJson).isSome = true ∧ (d .delegateCrt).isSome = true

instance (d : CertDir) : Decidable (Registered d) := inferInstanceAs (Decidable (_ ∧ _))

/-- `json.load(f)`. -/
def loadIdentity (d : CertDir) : Except Raised Identity :=
  match d .identityJson with
  | some (.full (.identity identity)) => .ok identity
  | _ => .error .jsonDecodeError

def register (d : CertDir) (c : Call) : List (Op FileName Content) × Except Raised Identity :=
  if Registered d then ([.other], loadIdentity d)
  else if c.waited = false then ([.other], .error .runtimeError)
  else if c.token = false then ([.other], .error .requestException)
  else
    match buildCsr accepts c.key c.commonName with
    | none => ([.other], .error .valueError)
    | some csr =>
      match c.registration.bind (respond csr) with
      | none => ([.other], .error .requestException)
      | some body => (c.writes body, .ok (c.identity body))

/-- The operations a call came to. -/
def Call.done (c : Call) (d : CertDir) : List (Op FileName Content) :=
  match c.killedAfter with
  | none => (register accepts d c).1
  | some n => (register accepts d c).1.take n

def Call.leaves (c : Call) (d : CertDir) : CertDir := perform (c.done accepts d) d

/-- Calls on one directory, one at a time. -/
def worker : Machine CertDir Call Unit := ⟨fun d c => some (c.leaves accepts d, [])⟩

/-- A call that ran to its end returned an identity, and the directory it left
has the certificate of that identity and its key. -/
def Consistent (d : CertDir) (c : Call) : Prop :=
  ∃ identity crt key, (register accepts d c).2 = .ok identity ∧
    c.leaves accepts d .delegateCrt = some (.full (.cert crt)) ∧
    c.leaves accepts d .delegateKey = some (.full (.key key)) ∧
    crt.commonName = some identity.delegateId ∧ Matches key crt

/-- The call was killed with `identity.json` opened and not yet written. -/
def CutShort (d : CertDir) (c : Call) : Prop :=
  (c.done accepts d).getLast? = some (.truncate .identityJson)

instance (d : CertDir) (c : Call) : Decidable (CutShort accepts d c) :=
  inferInstanceAs (Decidable (_ = _))

/-- The control plane is reachable and grants what it is asked for. -/
def Call.Reaches (c : Call) : Prop :=
  c.waited = true ∧ c.token = true ∧ c.registration.isSome = true

instance (c : Call) : Decidable c.Reaches := inferInstanceAs (Decidable (_ ∧ _))

/-- No identity is there, or one with its certificate and its key. -/
def Whole (d : CertDir) : Prop :=
  d .identityJson = none ∨
    ∃ identity crt key, d .identityJson = some (.full (.identity identity)) ∧
      d .delegateCrt = some (.full (.cert crt)) ∧ d .delegateKey = some (.full (.key key)) ∧
      crt.commonName = some identity.delegateId ∧ Matches key crt

/-- An empty identity beside a certificate. -/
def Torn (d : CertDir) : Prop := d .identityJson = some .empty ∧ d .delegateCrt ≠ none

variable {accepts} {d : CertDir} {c : Call} {body : Response} {csr : Csr}

theorem buildCsr_some (h : buildCsr accepts c.key c.commonName = some csr) :
    csr = ⟨commonNameOnly c.commonName, c.key.publicKey, c.key⟩ := by
  unfold buildCsr at h
  split at h
  · exact (Option.some.inj h).symm
  · cases h

/-- The control plane answers with a certificate of the key for the id. -/
theorem respond_some {r : Registration} (h : respond csr r = some body) :
    body.certPem.publicKey = csr.publicKey ∧ body.certPem.commonName = some body.delegateId := by
  unfold respond at h
  cases hs : signCsr r.ca csr (str r.delegateId) with
  | none => simp [hs] at h
  | some cert =>
    simp only [hs, Option.some.injEq] at h
    subst h
    exact signCsr_some hs

/-- The control plane accepts the signature of the requests a worker builds. -/
theorem respond_isSome (key : PrivateKey) (commonName : String) (r : Registration) :
    ∃ body, respond ⟨commonNameOnly commonName, key.publicKey, key⟩ r = some body := by
  simp [respond, signCsr, Csr.isSignatureValid]

/-- What a call does: it writes nothing, or it registers afresh. -/
theorem register_cases (accepts : String → Bool) (d : CertDir) (c : Call) :
    (Registered d ∧ register accepts d c = ([.other], loadIdentity d)) ∨
      (¬ Registered d ∧ ∃ why, register accepts d c = ([.other], .error why)) ∨
      (¬ Registered d ∧ accepts c.commonName = true ∧ ∃ body,
        register accepts d c = (c.writes body, .ok (c.identity body)) ∧
        Matches c.key body.certPem ∧ body.certPem.commonName = some body.delegateId) := by
  unfold register
  split
  · exact Or.inl ⟨‹_›, rfl⟩
  · rename_i fresh
    right
    split
    · exact Or.inl ⟨fresh, _, rfl⟩
    · split
      · exact Or.inl ⟨fresh, _, rfl⟩
      · cases hb : buildCsr accepts c.key c.commonName with
        | none => exact Or.inl ⟨fresh, _, rfl⟩
        | some csr =>
          cases hr : c.registration.bind (respond csr) with
          | none => exact Or.inl ⟨fresh, .requestException, by simp [hr]⟩
          | some body =>
            obtain ⟨r, -, answer⟩ := Option.bind_eq_some_iff.mp hr
            obtain ⟨ofKey, ofId⟩ := respond_some answer
            have taken : accepts c.commonName = true := by
              by_contra hn
              simp [buildCsr, hn] at hb
            rw [buildCsr_some hb] at ofKey
            exact Or.inr ⟨fresh, taken, body, by simp [hr], ofKey, ofId⟩

/-- A call that reaches the control plane registers, if its name is accepted. -/
theorem register_fresh (fresh : ¬ Registered d) (reaches : c.Reaches)
    (taken : accepts c.commonName = true) : ∃ identity, (register accepts d c).2 = .ok identity := by
  obtain ⟨hw, ht, hr⟩ := reaches
  obtain ⟨r, hr⟩ := Option.isSome_iff_exists.mp hr
  obtain ⟨body, hbody⟩ := respond_isSome c.key c.commonName r
  exact ⟨c.identity body, by simp [register, fresh, hw, ht, buildCsr, taken, hr, hbody]⟩

theorem register_refused (fresh : ¬ Registered d) (refused : accepts c.commonName ≠ true) :
    ∀ identity, (register accepts d c).2 ≠ .ok identity := by
  intro identity h
  rcases register_cases accepts d c with ⟨reg, -⟩ | ⟨-, why, hreg⟩ | ⟨-, taken, -⟩
  · exact fresh reg
  · simp [hreg] at h
  · exact refused taken

theorem certWrites_other (c : Call) (body : Response) :
    ∀ op ∈ c.certWrites body, op.name ≠ some .identityJson := by
  simp [Call.certWrites, replaceFile, Op.name]

theorem certsWritten (d : CertDir) (c : Call) (body : Response) :
    perform (c.certWrites body) d .delegateCrt = some (.full (.cert body.certPem)) ∧
      perform (c.certWrites body) d .delegateKey = some (.full (.key c.key)) := by
  simp [Call.certWrites, replaceFile, perform, Op.apply]

/-- The directory after a fresh registration that was not killed. -/
theorem written (d : CertDir) (c : Call) (body : Response) :
    perform (c.writes body) d .identityJson = some (.full (.identity (c.identity body))) ∧
      perform (c.writes body) d .delegateCrt = some (.full (.cert body.certPem)) ∧
      perform (c.writes body) d .delegateKey = some (.full (.key c.key)) := by
  obtain ⟨hcrt, hkey⟩ := certsWritten d c body
  refine ⟨perform_replaceFile _ _ _ _, ?_, ?_⟩
  · exact (perform_replaceFile_ne _ _ _ (by decide)).trans hcrt
  · exact (perform_replaceFile_ne _ _ _ (by decide)).trans hkey

/-- And after one that was killed with `identity.json` open. -/
theorem opened (d : CertDir) (c : Call) (body : Response) :
    Torn (perform (c.certWrites body ++ [.truncate .identityJson]) d) := by
  obtain ⟨hcrt, -⟩ := certsWritten d c body
  rw [perform_truncate]
  exact ⟨Directory.truncate_self, Directory.truncate_exists (by simp [hcrt])⟩

theorem leaves_idle {out : Except Raised Identity}
    (h : register accepts d c = ([.other], out)) : c.leaves accepts d = d := by
  unfold Call.leaves Call.done
  rw [h]
  cases c.killedAfter with
  | none => rfl
  | some n => cases n <;> simp [perform, Op.apply]

theorem uncut_idle {out : Except Raised Identity}
    (h : register accepts d c = ([.other], out)) : ¬ CutShort accepts d c := by
  unfold CutShort Call.done
  rw [h]
  cases c.killedAfter with
  | none => simp
  | some n => cases n <;> simp

/-- A fresh registration that was killed before it came to the identity, with it
open, or not at all. -/
theorem done_cases {out : Except Raised Identity}
    (h : register accepts d c = (c.writes body, out)) :
    (∃ n, c.done accepts d = (c.certWrites body).take n) ∨
      c.done accepts d = c.certWrites body ++ [.truncate .identityJson] ∨
      c.done accepts d = c.writes body := by
  unfold Call.done
  rw [h]
  cases c.killedAfter with
  | none => exact Or.inr (Or.inr rfl)
  | some n =>
    rcases take_cases (c.certWrites body) .identityJson (.identity (c.identity body)) n with
      before | at_it | after
    · exact Or.inl ⟨n, before⟩
    · exact Or.inr (Or.inl at_it)
    · exact Or.inr (Or.inr after)

/-- A call that finds no identity leaves none, or a torn one, or its own. -/
theorem leaves_fresh {out : Except Raised Identity} (absent : d .identityJson = none)
    (h : register accepts d c = (c.writes body, out)) (ofKey : Matches c.key body.certPem)
    (ofId : body.certPem.commonName = some body.delegateId) :
    (CutShort accepts d c ∧ Torn (c.leaves accepts d)) ∨
      (¬ CutShort accepts d c ∧ Whole (c.leaves accepts d)) := by
  unfold CutShort Call.leaves
  rcases done_cases h with ⟨n, hd⟩ | hd | hd
  · right
    rw [hd]
    have others : ∀ op ∈ (c.certWrites body).take n, op.name ≠ some .identityJson :=
      fun op hop => certWrites_other c body op (List.mem_of_mem_take hop)
    refine ⟨fun hlast => ?_, Or.inl ((perform_other others).trans absent)⟩
    exact others _ (List.mem_of_getLast? hlast) rfl
  · left
    rw [hd]
    exact ⟨List.getLast?_concat, opened d c body⟩
  · right
    rw [hd]
    obtain ⟨hi, hc, hk⟩ := written d c body
    refine ⟨by simp [Call.writes, replaceFile], Or.inr ⟨_, _, _, hi, hc, hk, ?_, ofKey⟩⟩
    exact ofId

theorem Whole.not_torn (h : Whole d) : ¬ Torn d := by
  rintro ⟨empty, -⟩
  rcases h with absent | ⟨identity, crt, key, full, -⟩
  · simp [empty] at absent
  · simp [empty] at full

/-- A whole directory has no identity, or one that is reused. -/
theorem Whole.absent (h : Whole d) (fresh : ¬ Registered d) : d .identityJson = none := by
  rcases h with absent | ⟨identity, crt, key, hi, hc, -⟩
  · exact absent
  · exact absurd ⟨by simp [hi], by simp [hc]⟩ fresh

/-- A call on a whole directory leaves it whole or torn: torn exactly when it is
cut short. -/
theorem Whole.leaves (h : Whole d) (c : Call) :
    (CutShort accepts d c ∧ Torn (c.leaves accepts d)) ∨
      (¬ CutShort accepts d c ∧ Whole (c.leaves accepts d)) := by
  rcases register_cases accepts d c with ⟨-, idle⟩ | ⟨-, why, idle⟩ |
    ⟨fresh, -, body, hreg, ofKey, ofId⟩
  · exact Or.inr ⟨uncut_idle idle, by rwa [leaves_idle idle]⟩
  · exact Or.inr ⟨uncut_idle idle, by rwa [leaves_idle idle]⟩
  · exact leaves_fresh (h.absent fresh) hreg ofKey ofId

theorem Torn.registered (h : Torn d) : Registered d :=
  ⟨by simp [h.1], Option.isSome_iff_ne_none.mpr h.2⟩

theorem Torn.register (h : Torn d) (c : Call) :
    register accepts d c = ([.other], .error .jsonDecodeError) := by
  simp [WorkerRegistration.register, h.registered, loadIdentity, h.1]

/-- Nothing a later call does repairs a torn identity. -/
theorem Torn.leaves (h : Torn d) (c : Call) : Torn (c.leaves accepts d) := by
  rwa [leaves_idle (h.register c)]

theorem leaves_done (alive : c.killedAfter = none) :
    c.leaves accepts d = perform (register accepts d c).1 d := by
  simp [Call.leaves, Call.done, alive]

/-- On a whole directory a call that reaches the control plane is consistent if
it finds an identity or its name is accepted. -/
theorem Whole.consistent_iff (h : Whole d) (alive : c.killedAfter = none)
    (reaches : c.Reaches) :
    Consistent accepts d c ↔ Registered d ∨ accepts c.commonName = true := by
  constructor
  · rintro ⟨identity, -, -, ok, -⟩
    by_contra hn
    obtain ⟨fresh, refused⟩ := not_or.mp hn
    exact register_refused fresh refused identity ok
  · intro hor
    unfold Consistent
    rw [leaves_done alive]
    rcases register_cases accepts d c with ⟨reg, hreg⟩ | ⟨fresh, why, hreg⟩ |
      ⟨-, -, body, hreg, ofKey, ofId⟩
    · rw [hreg]
      rcases h with absent | ⟨identity, crt, key, hi, hc, hk, ofId, ofKey⟩
      · exact absurd reg.1 (by simp [absent])
      · exact ⟨identity, crt, key, by simp [loadIdentity, hi], hc, hk, ofId, ofKey⟩
    · obtain ⟨identity, ok⟩ := register_fresh fresh reaches (hor.resolve_left fresh)
      simp [hreg] at ok
    · rw [hreg]
      obtain ⟨-, hc, hk⟩ := written d c body
      exact ⟨c.identity body, body.certPem, c.key, rfl, hc, hk, ofId, ofKey⟩

theorem Torn.not_consistent (h : Torn d) (c : Call) : ¬ Consistent accepts d c := by
  rintro ⟨identity, -, -, ok, -⟩
  simp [h.register c] at ok

variable {calls : List Call} {o : List Unit}

theorem worker_step {d' : CertDir} {o' : List Unit}
    (h : (worker accepts).step d c = some (d', o')) : d' = c.leaves accepts d := by
  simp only [worker, Option.some.injEq, Prod.mk.injEq] at h
  exact h.1.symm

theorem whole_or_torn_leaves (h : Whole d ∨ Torn d) (c : Call) :
    Whole (c.leaves accepts d) ∨ Torn (c.leaves accepts d) := by
  rcases h with whole | torn
  · exact (whole.leaves c).symm.imp And.right And.right
  · exact Or.inr (torn.leaves c)

theorem whole_or_torn (run : Run (worker accepts) Free .start calls d o) : Whole d ∨ Torn d := by
  refine run.state_invariant (fun d => Whole d ∨ Torn d) (Or.inl (Or.inl rfl)) ?_
  intro d c d' o' h _ hs
  rw [worker_step hs]
  exact whole_or_torn_leaves h c

/-- A directory is whole if and only if no call on it was cut short. -/
theorem whole_iff (run : Run (worker accepts) Free .start calls d o) :
    Whole d ↔ Run (worker accepts) (fun d c => ¬ CutShort accepts d c) .start calls d o := by
  rw [← run_free_and_iff]
  refine run.good_iff (fun d => Whole d ∨ Torn d) Whole ⟨Or.inl (Or.inl rfl), Or.inl rfl⟩
    ?_ ?_ ?_ ?_
  · intro d c d' o' h _ hs
    rw [worker_step hs]
    exact whole_or_torn_leaves h c
  · intro d c d' o' _ whole _ uncut hs
    rw [worker_step hs]
    rcases whole.leaves c with ⟨cut, -⟩ | ⟨-, after⟩
    · exact absurd cut uncut
    · exact after
  · intro d c d' o' _ whole _ cut hs
    rw [worker_step hs]
    rcases whole.leaves c with ⟨-, torn⟩ | ⟨uncut, -⟩
    · exact fun after => after.not_torn torn
    · exact absurd uncut cut
  · intro d c d' o' h broken hs
    rw [worker_step hs]
    exact fun after => after.not_torn ((h.resolve_left broken).leaves c)

/-- After any sequence of calls, one that reaches the control plane and is left
to end returns an identity with its certificate and its key if and only if no
call before it was cut short, and it finds an identity or its name is accepted. -/
theorem register_consistent_iff (run : Run (worker accepts) Free .start calls d o)
    (alive : c.killedAfter = none) (reaches : c.Reaches) :
    Consistent accepts d c ↔
      Run (worker accepts) (fun d c => ¬ CutShort accepts d c) .start calls d o ∧
        (Registered d ∨ accepts c.commonName = true) := by
  rw [← whole_iff run]
  rcases whole_or_torn run with whole | torn
  · rw [whole.consistent_iff alive reaches, and_iff_right whole]
  · have broken : ¬ Whole d := fun whole => whole.not_torn torn
    exact iff_of_false (torn.not_consistent c) (fun h => broken h.1)

end Registering

/-- The common names of up to 64 bytes. -/
def fits (commonName : String) : Bool :=
  1 ≤ commonName.utf8ByteSize ∧ commonName.utf8ByteSize ≤ 64

def rootOnly : Authority := ⟨⟨0⟩, rootCert ⟨0⟩⟩

def granted (serial delegateId : Nat) (killedAfter : Option Nat) : Call where
  tenantId := "tenant-demo"
  name := "vm-delegate-1"
  queue := "queue-vm-delegate-1"
  key := ⟨serial⟩
  waited := true
  token := true
  registration := some ⟨BitVec.ofNat 128 delegateId, rootOnly, "2030-01-01T00:00:00+00:00"⟩
  killedAfter := killedAfter

/-- A call killed with the certificate opened is made good by the next one. -/
theorem killed_before_identity :
    Consistent fits ((granted 1 1 (some 5)).leaves fits .start) (granted 2 2 none) := by
  have run : Run (worker fits) Free .start [granted 1 1 (some 5)]
      ((granted 1 1 (some 5)).leaves fits .start) [] := Run.single trivial rfl
  refine (register_consistent_iff run rfl (by decide)).mpr ⟨?_, Or.inr (by decide +kernel)⟩
  exact Run.single (by decide +kernel) rfl

/-- One killed with the identity opened is not. -/
theorem killed_within_identity : ¬ ∀ (calls : List Call) (c : Call) (d : CertDir) (o : List Unit),
    Run (worker fits) Free .start calls d o → c.killedAfter = none → c.Reaches →
      fits c.commonName = true → Consistent fits d c := by
  intro all
  have run : Run (worker fits) Free .start [granted 1 1 (some 9)]
      ((granted 1 1 (some 9)).leaves fits .start) [] := Run.single trivial rfl
  have torn : Torn ((granted 1 1 (some 9)).leaves fits .start) := by
    unfold Torn
    decide +kernel
  exact torn.not_consistent _ (all _ (granted 2 2 none) _ _ run rfl (by decide) (by decide +kernel))

end WorkerRegistration
