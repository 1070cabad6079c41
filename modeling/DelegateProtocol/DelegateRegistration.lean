import DelegateProtocol.JsonBodies
import DelegateProtocol.RedisAcl
import DelegateProtocol.RegistrationTokens

/-!
# One registration and its three stores

`register_delegate` from the first check to the response, for any JSON object.
It changes Redis, then the table of delegates, then the token, and converts
`concurrency` in between. Every call that can fail does so as the outside says.
For a body of texts it is the request of `RegistrationTokens`, served alone.
-/

namespace DelegateRegistration

open JsonBodies KeyedTable Models RedisAcl RegistrationTokens Runtime StepMachine Uuid Views

structure Stores where
  tokens : Table RegistrationToken.token
  acl : Acl
  db : DB

/-- What `ca.sign_csr` comes to. -/
inductive Signing where
  | signed
  | valueError (text : String)
  | raised
  deriving DecidableEq

/-- What ACL SETUSER comes to: a call that fails may have set the user. -/
inductive Provisioning where
  | done
  | failed (applied : Bool)

/-- What is not decided by the request and the stores. -/
structure Outside where
  repr : Json → String
  selects : Bool
  now : ℚ
  delegateId : UUID
  signing : Signing
  secret : String
  provisioning : Provisioning
  inserts : Bool
  usedAt : ℚ
  saves : Bool
  audits : Bool
  /-- The number of audit rows written before one of them, or reading the CA
  certificate, fails. -/
  stops : Option Nat

inductive Answer where
  | registered (delegateId : UUID)
  | rejected (why : Rejection)
  | raised

/-- The checks on the token that has been read. -/
def checkToken (tenantId : Json) (found : Option RegistrationToken) (now : ℚ) :
    Except Rejection RegistrationToken :=
  match found with
  | none => .error .unknownToken
  | some regToken =>
    if regToken.usedAt ≠ none then .error .alreadyUsed
    else if regToken.expiresAt < now then .error .expired
    else if tenantId.isText regToken.tenantId = true then .ok regToken
    else .error .tenantMismatch

/-- `ca.sign_csr(csr_pem, ...)`, which encodes a text. -/
def signCsr (o : Outside) (csrPem : Json) : Signing :=
  match csrPem, o.signing with
  | .str _, signing => signing
  | _, .signed => .raised
  | _, signing => signing

section Registering
variable (o : Outside) (body : Body)

def tokenText : String := (body.getD "token" .null).text o.repr

def tenantText : String := (body.getD "tenant_id" .null).text o.repr

/-- A rejection is written down before it is answered. -/
def reject (s : Stores) (why : Rejection) : Answer × Stores :=
  let event : AuditEvent := { eventType := "REGISTRATION_REJECTED", tenantId := tenantText o body }
  if o.audits = true then (.rejected why, { s with db := s.db.record event }) else (.raised, s)

/-- `Delegate.objects.create(...)`: `queue` may be null, which the column is not. -/
def insertRow (db : DB) : Option DB :=
  match (body.getD "concurrency" (.int 1)).toInt, body.getD "queue" (.str "default") with
  | none, _ => none
  | some _, .null => none
  | some concurrency, queue =>
    if Storable concurrency ∧ o.inserts = true then
      db.createDelegate
        { id := o.delegateId
          tenantId := tenantText o body
          name := (body.getD "name" .null).text o.repr
          queue := queue.text o.repr
          concurrency := concurrency
          status := .active }
    else none

def finish (s : Stores) : Answer × Stores :=
  let event (eventType : String) : AuditEvent :=
    { eventType := eventType, tenantId := tenantText o body, delegateId := str o.delegateId }
  let events := [event "DELEGATE_REGISTERED", event "REDIS_ACL_PROVISIONED"]
  match o.stops with
  | none => (.registered o.delegateId, { s with db := events.foldl DB.record s.db })
  | some n => (.raised, { s with db := (events.take n).foldl DB.record s.db })

/-- From the insertion of the row on. -/
def insert (s : Stores) : Answer × Stores :=
  match insertRow o body s.db with
  | none => (.raised, s)
  | some db =>
    if o.saves = true then
      finish o body { s with db := db, tokens := markUsed s.tokens (tokenText o body) o.usedAt }
    else (.raised, { s with db := db })

def provision (s : Stores) : Answer × Stores :=
  let acl := provisionDelegate s.acl (str o.delegateId) o.secret
  match o.provisioning with
  | .done => insert o body { s with acl := acl }
  | .failed applied =>
    reject o body (if applied = true then { s with acl := acl } else s) .noRedis

def registerDelegate (s : Stores) : Answer × Stores :=
  if missing required body ≠ [] then (.rejected (.missingFields (missing required body)), s)
  else if o.selects = false then (.raised, s)
  else
    match checkToken (body.getD "tenant_id" .null) (s.tokens.get? (tokenText o body)) o.now with
    | .error why => reject o body s why
    | .ok _ =>
      match signCsr o (body.getD "csr_pem" .null) with
      | .signed => provision o body s
      | .valueError text => reject o body s (.badCsr text)
      | .raised => (.raised, s)

end Registering

/-- The users, the rows and the tokens are what they were. -/
structure Unchanged (s t : Stores) : Prop where
  users : ∀ name, HasUser t.acl name ↔ HasUser s.acl name
  delegates : t.db.delegates = s.db.delegates
  tokens : t.tokens = s.tokens

/-- What a success has done. -/
structure Complete (token : String) (id : UUID) (t : Stores) : Prop where
  user : HasUser t.acl (str id)
  row : ∃ d, t.db.delegate id = some d ∧ d.status = .active
  used : ∃ regToken, t.tokens.get? token = some regToken ∧ regToken.usedAt ≠ none

def AllOrNothing (o : Outside) (body : Body) (s : Stores) : Answer × Stores → Prop
  | (.registered id, t) => Complete (tokenText o body) id t
  | (_, t) => Unchanged s t

/-- The request passes the checks and is signed. -/
def Admitted (o : Outside) (body : Body) (s : Stores) : Prop :=
  missing required body = [] ∧ o.selects = true ∧ (∃ regToken,
    checkToken (body.getD "tenant_id" .null) (s.tokens.get? (tokenText o body)) o.now =
      .ok regToken) ∧
    signCsr o (body.getD "csr_pem" .null) = .signed

/-- The row can be inserted. -/
def Insertable (o : Outside) (body : Body) (s : Stores) : Prop :=
  (∃ n, (body.getD "concurrency" (.int 1)).toInt = some n ∧ Storable n) ∧
    body.getD "queue" (.str "default") ≠ .null ∧ o.inserts = true ∧
    s.db.delegate o.delegateId = none

/-- Once the user is set, nothing that follows fails, unless there was such a
user already and no row is inserted. -/
def GoesThrough (o : Outside) (body : Body) (s : Stores) : Prop :=
  match o.provisioning with
  | .failed applied => applied = true → HasUser s.acl (str o.delegateId)
  | .done => (Insertable o body s → o.saves = true ∧ o.stops = none) ∧
    (¬ Insertable o body s → HasUser s.acl (str o.delegateId))

section Steps
variable {o : Outside} {body : Body} {s t : Stores}

/-- On texts these are the checks of a registration served beside others. -/
theorem checkToken_text {fields : Runtime.Fields} {found : Option RegistrationToken} {now : ℚ} :
    checkToken (.str (fields.getD "tenant_id" "")) found now =
      RegistrationTokens.checkToken fields found now := by
  unfold checkToken RegistrationTokens.checkToken
  cases found with
  | none => rfl
  | some regToken =>
    by_cases h : fields.getD "tenant_id" "" = regToken.tenantId
    · simp [Json.isText, h]
    · simp [Json.isText, h, Ne.symm h]

theorem checkToken_found {tenantId : Json} {found : Option RegistrationToken} {now : ℚ}
    {regToken : RegistrationToken} (h : checkToken tenantId found now = .ok regToken) :
    found = some regToken := by
  unfold checkToken at h
  cases found with
  | none => cases h
  | some r =>
    simp only at h
    repeat' split at h
    all_goals cases h
    rfl

theorem Unchanged.refl (s : Stores) : Unchanged s s := ⟨fun _ => Iff.rfl, rfl, rfl⟩

theorem reject_cases (o : Outside) (body : Body) (s : Stores) (why : Rejection) :
    ∃ answer db, reject o body s why = (answer, { s with db := db }) ∧
      (∀ id, answer ≠ .registered id) ∧ db.delegates = s.db.delegates := by
  unfold reject
  by_cases h : o.audits = true
  · exact ⟨_, _, if_pos h, by simp, rfl⟩
  · exact ⟨_, s.db, if_neg h, by simp, rfl⟩

theorem reject_iff (before : Stores) (why : Rejection) :
    AllOrNothing o body before (reject o body s why) ↔ Unchanged before s := by
  obtain ⟨answer, db, he, hanswer, hdb⟩ := reject_cases o body s why
  rw [he]
  have hsame : Unchanged before { s with db := db } ↔ Unchanged before s :=
    ⟨fun h => ⟨h.users, hdb ▸ h.delegates, h.tokens⟩, fun h => ⟨h.users, hdb.trans h.delegates, h.tokens⟩⟩
  cases answer with
  | registered id => exact False.elim (hanswer id rfl)
  | rejected why => exact hsame
  | raised => exact hsame

/-- A request that is turned away changes nothing. -/
theorem refused (h : ¬ Admitted o body s) : AllOrNothing o body s (registerDelegate o body s) := by
  unfold registerDelegate
  by_cases hm : missing required body = []
  · rw [if_neg (not_not.mpr hm)]
    by_cases hs : o.selects = false
    · rw [if_pos hs]
      exact .refl s
    · rw [if_neg hs]
      cases hc : checkToken (body.getD "tenant_id" .null) (s.tokens.get? (tokenText o body)) o.now with
      | error why => exact (reject_iff s why).mpr (.refl s)
      | ok regToken =>
        cases hsign : signCsr o (body.getD "csr_pem" .null) with
        | signed => exact False.elim (h ⟨hm, by simpa using hs, ⟨regToken, hc⟩, hsign⟩)
        | valueError text => exact (reject_iff s _).mpr (.refl s)
        | raised => exact .refl s
  · rw [if_pos hm]
    exact .refl s

theorem admitted (h : Admitted o body s) : registerDelegate o body s = provision o body s := by
  obtain ⟨hm, hs, ⟨regToken, hc⟩, hsign⟩ := h
  simp [registerDelegate, hm, hs, hc, hsign]

theorem createDelegate_isSome_iff {db : DB} {row : Delegate} :
    (db.createDelegate row).isSome ↔ db.delegate row.id = none := by
  constructor
  · intro h
    obtain ⟨db', hdb⟩ := Option.isSome_iff_exists.mp h
    exact createDelegate_fresh hdb
  · intro h
    have hfree : row.id ∉ db.delegates.rows.map Delegate.id := by
      intro hmem
      obtain ⟨r, hr, hid⟩ := List.mem_map.mp hmem
      exact get?_eq_none_iff.mp h r hr hid
    simp [DB.createDelegate, Table.create, hfree]

theorem insertRow_isSome_iff : (insertRow o body s.db).isSome ↔ Insertable o body s := by
  unfold insertRow Insertable
  cases hn : (body.getD "concurrency" (.int 1)).toInt with
  | none => simp
  | some n =>
    cases hq : body.getD "queue" (.str "default") with
    | null => simp
    | _ =>
      simp only [Option.some.injEq, exists_eq_left', ne_eq, reduceCtorEq, not_false_eq_true,
        true_and]
      by_cases hok : Storable n ∧ o.inserts = true
      · rw [if_pos hok, createDelegate_isSome_iff]
        simp [hok.1, hok.2]
      · rw [if_neg hok]
        simpa using fun hs hi => absurd ⟨hs, hi⟩ hok

theorem insertRow_some {db db' : DB} (h : insertRow o body db = some db') : ∃ row,
    db.createDelegate row = some db' ∧ row.id = o.delegateId ∧ row.status = .active := by
  unfold insertRow at h
  split at h
  · cases h
  · cases h
  · split at h
    · exact ⟨_, h, rfl, rfl⟩
    · cases h

/-- The row is new, so inserting it changes the table. -/
theorem insertRow_changes {db db' : DB} (h : insertRow o body db = some db') :
    db'.delegates ≠ db.delegates := by
  obtain ⟨row, hrow, -, -⟩ := insertRow_some h
  intro he
  have new := createDelegate_delegate hrow row.id
  have fresh := createDelegate_fresh hrow
  rw [if_pos rfl, DB.delegate, he] at new
  rw [DB.delegate, new] at fresh
  cases fresh

theorem foldl_record (db : DB) (events : List AuditEvent) :
    (events.foldl DB.record db).delegates = db.delegates := by
  induction events generalizing db with
  | nil => rfl
  | cons event events ih => exact ih (db.record event)

theorem finish_cases (o : Outside) (body : Body) (s : Stores) :
    ∃ db, db.delegates = s.db.delegates ∧ finish o body s =
      (if o.stops = none then .registered o.delegateId else .raised, { s with db := db }) := by
  unfold finish
  cases h : o.stops with
  | none => exact ⟨_, foldl_record _ _, rfl⟩
  | some n => exact ⟨_, foldl_record _ _, rfl⟩

theorem unchanged_provisioned_iff : Unchanged s
    { s with acl := provisionDelegate s.acl (str o.delegateId) o.secret } ↔
      HasUser s.acl (str o.delegateId) := by
  constructor
  · intro h
    exact (h.users _).mp (by simp)
  · intro h
    refine ⟨fun name => ?_, rfl, rfl⟩
    rw [hasUser_provisionDelegate]
    exact ⟨fun hn => hn.elim (fun he => he ▸ h) id, Or.inr⟩

theorem complete_inserted {db db' : DB} {acl : Acl} {regToken : RegistrationToken}
    (found : s.tokens.get? (tokenText o body) = some regToken)
    (hrow : insertRow o body s.db = some db) (hdb : db'.delegates = db.delegates)
    (user : HasUser acl (str o.delegateId)) :
    Complete (tokenText o body) o.delegateId
      ⟨markUsed s.tokens (tokenText o body) o.usedAt, acl, db'⟩ where
  user := user
  row := by
    obtain ⟨row, hcreate, hid, hactive⟩ := insertRow_some hrow
    refine ⟨row, ?_, hactive⟩
    rw [DB.delegate, hdb]
    exact (createDelegate_delegate hcreate _).trans (if_pos hid)
  used := by
    refine ⟨{ regToken with usedAt := some o.usedAt }, ?_, by simp⟩
    simp only [markUsed]
    rw [get?_update_self, found]
    rfl

theorem provision_iff {regToken : RegistrationToken}
    (found : s.tokens.get? (tokenText o body) = some regToken) :
    AllOrNothing o body s (provision o body s) ↔ GoesThrough o body s := by
  unfold provision GoesThrough
  cases o.provisioning with
  | failed applied =>
    simp only
    rw [reject_iff]
    cases applied with
    | false => simpa using Unchanged.refl s
    | true => simpa using unchanged_provisioned_iff
  | done =>
    simp only
    unfold insert
    cases hrow : insertRow o body s.db with
    | none =>
      have hnot : ¬ Insertable o body s := by
        rw [← insertRow_isSome_iff, hrow]
        simp
      simp only [hnot, false_implies, not_false_eq_true, true_implies, true_and]
      exact unchanged_provisioned_iff
    | some db =>
      have hrow' : Insertable o body s := insertRow_isSome_iff.mp (by rw [hrow]; rfl)
      have hchanged := insertRow_changes hrow
      simp only [hrow', true_implies, not_true_eq_false, false_implies, and_true]
      cases hsaves : o.saves with
      | false =>
        simp only [Bool.false_eq_true, if_false, false_and, iff_false]
        exact fun h => hchanged h.delegates
      | true =>
        simp only [if_true, true_and]
        obtain ⟨db', hdb, he⟩ := finish_cases o body
          ⟨markUsed s.tokens (tokenText o body) o.usedAt,
            provisionDelegate s.acl (str o.delegateId) o.secret, db⟩
        rw [he]
        cases hstops : o.stops with
        | none =>
          rw [if_pos rfl]
          exact iff_of_true (complete_inserted found hrow hdb (by simp)) rfl
        | some n =>
          rw [if_neg (by simp)]
          exact iff_of_false (fun h => hchanged (hdb.symm.trans h.delegates)) (by simp)

/-- A registration is all or nothing exactly if it goes through once its request
has been admitted. -/
theorem registerDelegate_iff (o : Outside) (body : Body) (s : Stores) :
    AllOrNothing o body s (registerDelegate o body s) ↔
      (Admitted o body s → GoesThrough o body s) := by
  by_cases h : Admitted o body s
  · obtain ⟨regToken, hc⟩ := h.2.2.1
    rw [admitted h, provision_iff (checkToken_found hc)]
    exact ⟨fun hg _ => hg, fun hg => hg h⟩
  · exact iff_of_true (refused h) (fun ha => absurd ha h)

end Steps

/-- What a request that has come to this stage is answered. -/
def Answered : Answer → Stage → Prop
  | .registered id, stage => stage = .registered id
  | .rejected why, stage => stage = .rejected why
  | .raised, _ => True

/-- Served alone from here, the request is answered so and leaves these rows. -/
def ServedAlone (ttl : ℚ) (r : Registry) (i : Nat) (result : Answer × Stores) : Prop :=
  ∃ (inputs : List Input) (t : Registry) (request : Request),
    Run (registering ttl) Free r (inputs.map (.request i)) t [] ∧
    t.requests[i]? = some request ∧ Answered result.1 request.stage ∧
    t.tokens = result.2.tokens ∧ t.db.delegates = result.2.db.delegates

section Alone
variable {ttl : ℚ} {o : Outside} {fields : Runtime.Fields} {r : Registry} {i : Nat}
variable {s : Stores} {request : Request}

theorem insertRow_texts {db : DB} (named : ¬ Missing required fields) (inserts : o.inserts = true) :
    insertRow o (texts fields) db = (insertDelegate db fields o.delegateId).toOption := by
  have htenant := getD_texts (not_missing named (f := "tenant_id") (by simp [required]))
  have hname := getD_texts (not_missing named (f := "name") (by simp [required]))
  have hconcurrency : ((texts fields).getD "concurrency" (.int 1)).toInt =
      PyInt.int (fields.getD "concurrency" "1") := by
    unfold Body.getD Fields.getD
    rw [get?_texts]
    cases fields.get? "concurrency" with
    | none => decide +kernel
    | some text => rfl
  have hqueue : (texts fields).getD "queue" (.str "default") =
      .str (fields.getD "queue" "default") := by
    unfold Body.getD Fields.getD
    rw [get?_texts]
    cases fields.get? "queue" with
    | none => rfl
    | some text => rfl
  unfold insertRow insertDelegate intOf
  rw [hconcurrency, hqueue]
  cases PyInt.int (fields.getD "concurrency" "1") with
  | none => rfl
  | some concurrency =>
    by_cases hstorable : Storable concurrency
    · have hrow : newDelegate fields concurrency o.delegateId =
          { id := o.delegateId, tenantId := tenantText o (texts fields),
            name := ((texts fields).getD "name" .null).text o.repr,
            queue := (Json.str (fields.getD "queue" "default")).text o.repr,
            concurrency := concurrency, status := .active } := by
        simp only [newDelegate, tenantText, htenant, hname, Json.text]
      simp only [hstorable, inserts, and_self, if_true, ← hrow]
      cases db.createDelegate (newDelegate fields concurrency o.delegateId) with
      | none => rfl
      | some db' => rfl
    · simp only [hstorable, false_and, if_false]
      rfl

theorem ServedAlone.here {result : Answer × Stores} (hi : r.requests[i]? = some request)
    (answered : Answered result.1 request.stage) (tokens : r.tokens = result.2.tokens)
    (delegates : r.db.delegates = result.2.db.delegates) : ServedAlone ttl r i result :=
  ⟨[], r, request, .start, hi, answered, tokens, delegates⟩

theorem ServedAlone.step {result : Answer × Stores} {stage : Stage}
    {tokens : Table RegistrationToken.token} {db : DB} (input : Input)
    (hi : r.requests[i]? = some request)
    (hstep : registerStep r request input = some (tokens, db, stage))
    (h : ServedAlone ttl ⟨tokens, db, r.requests.set i (request.goto stage)⟩ i result) :
    ServedAlone ttl r i result := by
  obtain ⟨inputs, t, last, hrun, rest⟩ := h
  have first : (registering ttl).step r (.request i input) =
      some (⟨tokens, db, r.requests.set i (request.goto stage)⟩, []) := by
    simp [registering, hi, hstep]
  exact ⟨input :: inputs, t, last, (Run.single trivial first).append hrun, rest⟩

theorem getElem?_goto (hi : r.requests[i]? = some request) (stage : Stage) :
    (r.requests.set i (request.goto stage))[i]? = some (request.goto stage) :=
  List.getElem?_set_self (List.getElem?_eq_some_iff.mp hi).1

/-- A rejected request comes to an end, and what is written down is no row. -/
theorem servedAlone_reject {body : Body} {why : Rejection} (input : Input)
    (hi : r.requests[i]? = some request)
    (hstep : registerStep r request input = some (r.tokens, r.db, .rejected why))
    (tokens : r.tokens = s.tokens) (delegates : r.db.delegates = s.db.delegates) :
    ServedAlone ttl r i (reject o body s why) := by
  refine .step input hi hstep ?_
  unfold reject
  by_cases haudits : o.audits = true
  · rw [if_pos haudits]
    exact .here (getElem?_goto hi _) rfl tokens delegates
  · rw [if_neg haudits]
    exact .here (getElem?_goto hi _) trivial tokens delegates

/-- From the insertion on, which may fail for a reason that lies outside. -/
theorem servedAlone_insert {regToken : RegistrationToken} (hi : r.requests[i]? = some request)
    (hstage : request.stage = .inserting regToken o.delegateId) (hbody : request.body = fields)
    (hkey : regToken.token = tokenText o (texts fields)) (named : ¬ Missing required fields)
    (tokens : r.tokens = s.tokens) (db : r.db = s.db) :
    ServedAlone ttl r i (insert o (texts fields) s) := by
  unfold insert
  cases hrow : insertRow o (texts fields) s.db with
  | none => exact .here hi trivial tokens (by rw [db])
  | some inserted =>
    have inserts : o.inserts = true := by
      obtain ⟨-, -, inserts, -⟩ := insertRow_isSome_iff.mp (by rw [hrow]; rfl)
      exact inserts
    have hok : insertDelegate r.db request.body o.delegateId = .ok inserted := by
      rw [insertRow_texts named inserts, ← db, ← hbody] at hrow
      cases he : insertDelegate r.db request.body o.delegateId with
      | error e => simp [he, Except.toOption] at hrow
      | ok db' => simpa [he, Except.toOption] using hrow
    have hinsert : registerStep r request .insert =
        some (r.tokens, inserted, .saving regToken o.delegateId) := by
      simp [registerStep, hstage, hok]
    refine .step .insert hi hinsert ?_
    dsimp only
    by_cases hsaves : o.saves = true
    · rw [if_pos hsaves]
      obtain ⟨db', hdb', hfinish⟩ := finish_cases o (texts fields)
        { s with db := inserted, tokens := markUsed s.tokens (tokenText o (texts fields)) o.usedAt }
      rw [hfinish]
      refine .step (.save o.usedAt) (getElem?_goto hi _) rfl
        (.here (getElem?_goto (getElem?_goto hi _) _) ?_ ?_ hdb'.symm)
      · split
        · rfl
        · trivial
      · rw [hkey, tokens]
    · rw [if_neg hsaves]
      exact .here (getElem?_goto hi _) trivial tokens rfl

theorem servedAlone_provision {regToken : RegistrationToken}
    (hi : r.requests[i]? = some request)
    (hstage : request.stage = .provisioning regToken o.delegateId) (hbody : request.body = fields)
    (hkey : regToken.token = tokenText o (texts fields)) (named : ¬ Missing required fields)
    (tokens : r.tokens = s.tokens) (db : r.db = s.db) :
    ServedAlone ttl r i (provision o (texts fields) s) := by
  unfold provision
  cases o.provisioning with
  | done =>
    have hstep : registerStep r request (.provision true) =
        some (r.tokens, r.db, .inserting regToken o.delegateId) := by
      simp [registerStep, hstage]
    exact .step (.provision true) hi hstep
      (servedAlone_insert (getElem?_goto hi _) rfl hbody hkey named tokens db)
  | failed applied =>
    have hstep : registerStep r request (.provision false) =
        some (r.tokens, r.db, .rejected .noRedis) := by
      simp [registerStep, hstage]
    refine servedAlone_reject (.provision false) hi hstep ?_ ?_
    · split
      · exact tokens
      · exact tokens
    · split
      · rw [db]
      · rw [db]

/-- A request whose body is an object of texts is served so by the control plane
that serves requests side by side, when it does nothing else meanwhile. -/
theorem registerDelegate_servedAlone (o : Outside) (acl : Acl)
    (hi : r.requests[i]? = some (receive fields)) :
    ServedAlone ttl r i (registerDelegate o (texts fields) ⟨r.tokens, acl, r.db⟩) := by
  unfold registerDelegate
  by_cases named : Missing required fields
  · have hmissing : missing required (texts fields) =
        required.filter (fun f => decide (fields.getD f "" = "")) := by
      simp [missing, truthy_texts]
    have hne : missing required (texts fields) ≠ [] := fun h => missing_texts.mp h named
    rw [if_pos hne]
    refine .here hi ?_ rfl rfl
    rw [receive, if_pos named, hmissing]
    rfl
  · have hstage : (receive fields).stage = .selecting := by simp [receive, named]
    have hbody : (receive fields).body = fields := rfl
    have htoken : tokenText o (texts fields) = (receive fields).token := by
      rw [tokenText, getD_texts (not_missing named (by simp [required]))]
      rfl
    have htenant := getD_texts (not_missing named (f := "tenant_id") (by simp [required]))
    have hcsr := getD_texts (not_missing named (f := "csr_pem") (by simp [required]))
    rw [if_neg (not_not.mpr (missing_texts.mpr named)), htenant, checkToken_text, htoken]
    by_cases hselects : o.selects = false
    · rw [if_pos hselects]
      exact .here hi trivial rfl rfl
    · rw [if_neg hselects]
      cases hcheck : RegistrationTokens.checkToken fields
        (r.tokens.get? (receive fields).token) o.now with
      | error why =>
        have hstep : registerStep r (receive fields) (.select o.now o.delegateId) =
            some (r.tokens, r.db, .rejected why) := by
          simp only [registerStep, hstage, hbody, hcheck]
        exact servedAlone_reject _ hi hstep rfl rfl
      | ok regToken =>
        have hkey : regToken.token = tokenText o (texts fields) :=
          htoken.symm ▸ get?_some_key (checkToken_ok hcheck).1
        have hstep : registerStep r (receive fields) (.select o.now o.delegateId) =
            some (r.tokens, r.db, .signing regToken o.delegateId) := by
          simp only [registerStep, hstage, hbody, hcheck]
        refine .step _ hi hstep ?_
        rw [hcsr]
        simp only [signCsr]
        cases o.signing with
        | signed =>
          refine .step (.sign none) (getElem?_goto hi _) rfl ?_
          exact servedAlone_provision (getElem?_goto (getElem?_goto hi _) _) rfl rfl hkey named
            rfl rfl
        | valueError text =>
          exact servedAlone_reject (.sign (some text)) (getElem?_goto hi _) rfl rfl rfl
        | raised => exact .here (getElem?_goto hi _) trivial rfl rfl

end Alone

def wordBody : Body :=
  [("token", .str "k"), ("tenant_id", .str "t"), ("name", .str "d"), ("csr_pem", .str "csr"),
    ("concurrency", .str "x")]

def wordStores : Stores where
  tokens := KeyedTable.Table.put (KeyedTable.empty _) ⟨"k", "t", 10, none⟩
  acl := KeyedTable.empty _
  db := DB.empty

/-- Everything outside succeeds. -/
def willing : Outside where
  repr _ := ""
  selects := true
  now := 0
  delegateId := 1
  signing := .signed
  secret := "s"
  provisioning := .done
  inserts := true
  usedAt := 0
  saves := true
  audits := true
  stops := none

/-- The request fails, and the user stays. -/
theorem wordBody_leaves_user :
    ¬ AllOrNothing willing wordBody wordStores (registerDelegate willing wordBody wordStores) := by
  intro h
  have users := Unchanged.users h (str willing.delegateId)
  revert users
  decide +kernel

end DelegateRegistration
