import DelegateProtocol.RestartGateway

/-!
# The certificates of the local CA

`delegates/ca.py` without its files: what it puts in a certificate and with
which key it signs. Two keys are the same key if they have the same serial
number; a public key is told by the private key it belongs to. The dates of
validity are left out.
-/

namespace Certificates

open RestartGateway

structure PrivateKey where
  serial : Nat
  deriving DecidableEq

structure PublicKey where
  owner : Nat
  deriving DecidableEq

def PrivateKey.publicKey (key : PrivateKey) : PublicKey := ⟨key.serial⟩

inductive Usage where
  | clientAuth
  | serverAuth
  deriving DecidableEq

structure Certificate where
  subject : Subject
  issuer : Subject
  publicKey : PublicKey
  ca : Bool
  usage : Option Usage
  subjectAltNames : List String
  signedBy : PrivateKey
  deriving DecidableEq

structure Csr where
  subject : Subject
  publicKey : PublicKey
  signedBy : PrivateKey

def Csr.isSignatureValid (csr : Csr) : Bool := csr.signedBy.publicKey = csr.publicKey

/-- What `_load_ca` returns. -/
structure Authority where
  caKey : PrivateKey
  caCert : Certificate

def commonNameOnly (commonName : String) : Subject := [[("commonName", commonName)]]

def Certificate.commonName (cert : Certificate) : Option String :=
  peerCertDelegateId (some cert.subject)

def rootSubject : Subject :=
  [[("commonName", "BuildPiper Delegate POC Root CA")], [("organizationName", "BuildPiper POC")]]

/-- The certificate `ensure_root_ca` makes for a key. -/
def rootCert (key : PrivateKey) : Certificate where
  subject := rootSubject
  issuer := rootSubject
  publicKey := key.publicKey
  ca := true
  usage := none
  subjectAltNames := []
  signedBy := key

def leafCert (ca : Authority) (commonName : String) (publicKey : PublicKey) (eku : Usage)
    (sanNames : List String) : Certificate where
  subject := commonNameOnly commonName
  issuer := ca.caCert.subject
  publicKey := publicKey
  ca := false
  usage := some eku
  subjectAltNames := sanNames
  signedBy := ca.caKey

/-- `sign_csr`, once the CA is loaded; `none` is a ValueError. -/
def signCsr (ca : Authority) (csr : Csr) (commonName : String) : Option Certificate :=
  if csr.isSignatureValid = true then some (leafCert ca commonName csr.publicKey .clientAuth [])
  else none

def Matches (key : PrivateKey) (cert : Certificate) : Prop := cert.publicKey = key.publicKey

instance (key : PrivateKey) (cert : Certificate) : Decidable (Matches key cert) :=
  inferInstanceAs (Decidable (_ = _))

structure Verifies (cert root : Certificate) : Prop where
  issued : cert.issuer = root.subject
  authority : root.ca = true
  signed : cert.signedBy.publicKey = root.publicKey

instance (cert root : Certificate) : Decidable (Verifies cert root) :=
  decidable_of_iff (cert.issuer = root.subject ∧ root.ca = true ∧
    cert.signedBy.publicKey = root.publicKey) ⟨fun ⟨a, b, c⟩ => ⟨a, b, c⟩, fun ⟨a, b, c⟩ => ⟨a, b, c⟩⟩

@[simp] theorem commonName_leafCert (ca : Authority) (commonName : String)
    (publicKey : PublicKey) (eku : Usage) (sanNames : List String) :
    (leafCert ca commonName publicKey eku sanNames).commonName = some commonName := rfl

theorem rootCert_matches (key : PrivateKey) : Matches key (rootCert key) := rfl

theorem rootCert_verifies (key : PrivateKey) : Verifies (rootCert key) (rootCert key) :=
  ⟨rfl, rfl, rfl⟩

theorem leafCert_matches (ca : Authority) (commonName : String) (key : PrivateKey) (eku : Usage)
    (sanNames : List String) : Matches key (leafCert ca commonName key.publicKey eku sanNames) := rfl

/-- A leaf verifies under the certificate it was issued from, if the key the CA
signs with is the key of that certificate. -/
theorem leafCert_verifies {ca : Authority} (own : Matches ca.caKey ca.caCert)
    (authority : ca.caCert.ca = true) (commonName : String) (publicKey : PublicKey) (eku : Usage)
    (sanNames : List String) :
    Verifies (leafCert ca commonName publicKey eku sanNames) ca.caCert :=
  ⟨rfl, authority, own.symm⟩

/-- The certificate of a request has the requested key and the given name. -/
theorem signCsr_some {ca : Authority} {csr : Csr} {commonName : String} {cert : Certificate}
    (h : signCsr ca csr commonName = some cert) :
    cert.publicKey = csr.publicKey ∧ cert.commonName = some commonName := by
  unfold signCsr at h
  split at h
  · obtain rfl := Option.some.inj h
    exact ⟨rfl, rfl⟩
  · cases h

end Certificates
