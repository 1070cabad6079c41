import DelegateProtocol.Views
import DelegateProtocol.Lib.StepMachine
import Mathlib.Data.Rat.Init

/-!
# Registration tokens

A registration reads its token, looks at what it has read, and marks the token
only after it has inserted the delegate. Requests, whose bodies are objects of texts,
are served side by side, with no transaction around the steps of one.
-/

namespace RegistrationTokens

open Handlers KeyedTable Models Runtime StepMachine Uuid Views

structure RegistrationToken where
  token : String
  tenantId : String
  expiresAt : ℚ
  usedAt : Option ℚ
  deriving DecidableEq

/-- Why a registration is refused. -/
inductive Rejection where
  | missingFields (missing : List String)
  | unknownToken
  | alreadyUsed
  | expired
  | tenantMismatch
  | badCsr (text : String)
  | noRedis
  deriving DecidableEq

def Rejection.status : Rejection → Nat
  | .missingFields _ => 400
  | .badCsr _ => 400
  | .noRedis => 503
  | _ => 403

def Rejection.error : Rejection → String
  | .missingFields missing =>
    "missing fields: [" ++ ", ".intercalate (missing.map (fun f => "'" ++ f ++ "'")) ++ "]"
  | .unknownToken => "invalid registration token"
  | .alreadyUsed => "registration token already used"
  | .expired => "registration token expired"
  | .tenantMismatch => "tenant_id does not match token"
  | .badCsr text => text
  | .noRedis => "could not provision Redis access"

/-- Where a request stands, with the token row it holds and the id it has drawn. -/
inductive Stage where
  | selecting
  | signing (regToken : RegistrationToken) (delegateId : UUID)
  | provisioning (regToken : RegistrationToken) (delegateId : UUID)
  | inserting (regToken : RegistrationToken) (delegateId : UUID)
  | saving (regToken : RegistrationToken) (delegateId : UUID)
  | registered (delegateId : UUID)
  | rejected (why : Rejection)
  | raised (e : PyError)

structure Request where
  body : Fields
  stage : Stage

def Request.token (request : Request) : String := request.body.getD "token" ""

def Request.goto (request : Request) (stage : Stage) : Request := { request with stage := stage }

structure Registry where
  tokens : Table RegistrationToken.token
  db : DB
  requests : List Request

def Registry.empty : Registry := ⟨KeyedTable.empty _, DB.empty, []⟩

def required : List String := ["token", "tenant_id", "name", "csr_pem"]

/-- The checks of `register_delegate` on the row it has read. -/
def checkToken (body : Fields) (found : Option RegistrationToken) (now : ℚ) :
    Except Rejection RegistrationToken :=
  match found with
  | none => .error .unknownToken
  | some regToken =>
    if regToken.usedAt ≠ none then .error .alreadyUsed
    else if regToken.expiresAt < now then .error .expired
    else if regToken.tenantId ≠ body.getD "tenant_id" "" then .error .tenantMismatch
    else .ok regToken

/-- SQLite keeps integers of 64 bits. -/
def Storable (n : Int) : Prop := -2 ^ 63 ≤ n ∧ n < 2 ^ 63

instance (n : Int) : Decidable (Storable n) := inferInstanceAs (Decidable (_ ∧ _))

/-- `Delegate.objects.create(...)`, after `int(body.get("concurrency", 1))`. -/
def insertDelegate (db : DB) (body : Fields) (delegateId : UUID) : Except PyError DB :=
  match intOf (body.getD "concurrency" "1") with
  | .error e => .error e
  | .ok concurrency =>
    if Storable concurrency then
      match db.createDelegate (newDelegate body concurrency delegateId) with
      | none => .error .integrityError
      | some db => .ok db
    else .error .overflowError

/-- `reg_token.used_at = now; reg_token.save(update_fields=["used_at"])`. -/
def markUsed (tokens : Table RegistrationToken.token) (token : String) (now : ℚ) :
    Table RegistrationToken.token :=
  tokens.update token (fun t => { t with usedAt := some now })

/-- What the outside decides: the clock, the id that is drawn, and whether the
request can be signed and provisioned. -/
inductive Input where
  | select (now : ℚ) (delegateId : UUID)
  | sign (failure : Option String)
  | provision (ok : Bool)
  | insert
  | save (now : ℚ)

/-- The next step of a registration. -/
def registerStep (s : Registry) (request : Request) (input : Input) :
    Option (Table RegistrationToken.token × DB × Stage) :=
  match request.stage, input with
  | .selecting, .select now delegateId =>
    match checkToken request.body (s.tokens.get? request.token) now with
    | .error why => some (s.tokens, s.db, .rejected why)
    | .ok regToken => some (s.tokens, s.db, .signing regToken delegateId)
  | .signing _ _, .sign (some text) => some (s.tokens, s.db, .rejected (.badCsr text))
  | .signing regToken delegateId, .sign none =>
    some (s.tokens, s.db, .provisioning regToken delegateId)
  | .provisioning _ _, .provision false => some (s.tokens, s.db, .rejected .noRedis)
  | .provisioning regToken delegateId, .provision true =>
    some (s.tokens, s.db, .inserting regToken delegateId)
  | .inserting regToken delegateId, .insert =>
    match insertDelegate s.db request.body delegateId with
    | .error e => some (s.tokens, s.db, .raised e)
    | .ok db => some (s.tokens, db, .saving regToken delegateId)
  | .saving regToken delegateId, .save now =>
    some (markUsed s.tokens regToken.token now, s.db, .registered delegateId)
  | _, _ => none

inductive Action where
  | issue (body : Fields) (token : String) (now : ℚ)
  | receive (body : Fields)
  | request (i : Nat) (input : Input)
  | revoke (id : UUID)

/-- `issue_registration_token`; a token that exists already is refused. -/
def issue (ttl : ℚ) (tokens : Table RegistrationToken.token) (body : Fields) (token : String)
    (now : ℚ) : Table RegistrationToken.token :=
  if body.getD "tenant_id" "" = "" then tokens
  else (tokens.create ⟨token, body.getD "tenant_id" "", now + ttl, none⟩).getD tokens

/-- A request that has come in, past the check for missing fields. -/
def receive (body : Fields) : Request :=
  ⟨body, if Missing required body then
      .rejected (.missingFields (required.filter (fun f => decide (body.getD f "" = ""))))
    else .selecting⟩

/-- The requests of a control plane, step by step in any order. -/
def registering (ttl : ℚ) : Machine Registry Action Unit where
  step s act :=
    match act with
    | .issue body token now => some ({ s with tokens := issue ttl s.tokens body token now }, [])
    | .receive body => some ({ s with requests := s.requests ++ [receive body] }, [])
    | .request i input =>
      match s.requests[i]? with
      | none => none
      | some request =>
        match registerStep s request input with
        | none => none
        | some (tokens, db, stage) =>
          some (⟨tokens, db, s.requests.set i (request.goto stage)⟩, [])
    | .revoke id => some ({ s with db := s.db.saveDelegateStatus id .revoked }, [])

/-- The row a request has inserted. -/
def Stage.inserted : Stage → Option UUID
  | .saving _ delegateId => some delegateId
  | .registered delegateId => some delegateId
  | _ => none

def Stage.holds : Stage → Option RegistrationToken
  | .signing regToken _ => some regToken
  | .provisioning regToken _ => some regToken
  | .inserting regToken _ => some regToken
  | .saving regToken _ => some regToken
  | _ => none

/-- The delegate was registered with the token. -/
def RegisteredWith (s : Registry) (token : String) (id : UUID) : Prop :=
  ∃ request ∈ s.requests, request.token = token ∧ request.stage.inserted = some id

/-- No token gives rise to two rows. -/
def SingleUse (s : Registry) : Prop :=
  ∀ token id id', RegisteredWith s token id → RegisteredWith s token id' → id = id'

/-- Every row was registered with a token, and is of its tenant. -/
structure OfTokens (s : Registry) : Prop where
  registered : ∀ id d, s.db.delegate id = some d → ∃ token, RegisteredWith s token id
  tenant : ∀ token id, RegisteredWith s token id → ∃ t d, s.tokens.get? token = some t ∧
    s.db.delegate id = some d ∧ d.tenantId = t.tenantId

/-- A request that inserts its row finds the token still unused, and no other
request between its INSERT and its save. -/
def StillUnused (s : Registry) (a : Action) : Prop :=
  ∀ i request regToken delegateId db, a = .request i .insert → s.requests[i]? = some request →
    request.stage = .inserting regToken delegateId →
    insertDelegate s.db request.body delegateId = .ok db →
    (∀ t, s.tokens.get? request.token = some t → t.usedAt = none) ∧
    ∀ other ∈ s.requests, other.token = request.token → ∀ regToken' delegateId',
      other.stage ≠ .saving regToken' delegateId'

/-- The rows of tokens, delegates and requests fit together. -/
structure Consistent (s : Registry) : Prop extends OfTokens s where
  held : ∀ request ∈ s.requests, ∀ regToken, request.stage.holds = some regToken →
    regToken.token = request.token ∧ ∃ t, s.tokens.get? request.token = some t ∧
      t.tenantId = request.body.getD "tenant_id" ""
  marked : ∀ request ∈ s.requests, ∀ id, request.stage = .registered id →
    ∃ t, s.tokens.get? request.token = some t ∧ t.usedAt ≠ none
  used : ∀ token t, s.tokens.get? token = some t → t.usedAt ≠ none →
    ∃ id, RegisteredWith s token id

inductive Steps (s : Registry) : Action → Registry → Prop
  | issue {body : Fields} {token : String} {now : ℚ}
      {tokens : Table RegistrationToken.token} :
      (∀ k t, tokens.get? k = some t → s.tokens.get? k = some t ∨ t.usedAt = none) →
      (∀ k t, s.tokens.get? k = some t → tokens.get? k = some t) →
      Steps s (.issue body token now) { s with tokens := tokens }
  | receive {body : Fields} {request : Request} :
      request.stage.inserted = none → request.stage.holds = none →
      Steps s (.receive body) { s with requests := s.requests ++ [request] }
  | select {i : Nat} {now : ℚ} {delegateId : UUID} {request : Request}
      {regToken : RegistrationToken} : s.requests[i]? = some request → request.stage = .selecting →
      s.tokens.get? request.token = some regToken →
      regToken.tenantId = request.body.getD "tenant_id" "" →
      Steps s (.request i (.select now delegateId))
        { s with requests := s.requests.set i (request.goto (.signing regToken delegateId)) }
  | advance {i : Nat} {input : Input} {request : Request} {stage : Stage} :
      s.requests[i]? = some request → request.stage.inserted = none → stage.inserted = none →
      (∀ regToken, stage.holds = some regToken → request.stage.holds = some regToken) →
      (input = .insert → ∀ regToken delegateId, request.stage = .inserting regToken delegateId →
        ∃ e, insertDelegate s.db request.body delegateId = .error e) →
      Steps s (.request i input) { s with requests := s.requests.set i (request.goto stage) }
  | insert {i : Nat} {request : Request} {regToken : RegistrationToken} {delegateId : UUID}
      {db : DB} : s.requests[i]? = some request → request.stage = .inserting regToken delegateId →
      insertDelegate s.db request.body delegateId = .ok db →
      Steps s (.request i .insert)
        { s with db := db,
                 requests := s.requests.set i (request.goto (.saving regToken delegateId)) }
  | save {i : Nat} {now : ℚ} {request : Request} {regToken : RegistrationToken}
      {delegateId : UUID} : s.requests[i]? = some request →
      request.stage = .saving regToken delegateId →
      Steps s (.request i (.save now))
        { s with tokens := markUsed s.tokens regToken.token now,
                 requests := s.requests.set i (request.goto (.registered delegateId)) }
  | revoke {id : UUID} :
      Steps s (.revoke id) { s with db := s.db.saveDelegateStatus id .revoked }

section Moves
variable {ttl : ℚ} {s t : Registry} {a : Action} {o : List Unit}

theorem checkToken_ok {body : Fields} {found : Option RegistrationToken} {now : ℚ}
    {regToken : RegistrationToken} (h : checkToken body found now = .ok regToken) :
    found = some regToken ∧ regToken.tenantId = body.getD "tenant_id" "" := by
  unfold checkToken at h
  cases found with
  | none => cases h
  | some r =>
    dsimp only at h
    by_cases hused : r.usedAt ≠ none
    · rw [if_pos hused] at h
      cases h
    · rw [if_neg hused] at h
      by_cases hexp : r.expiresAt < now
      · rw [if_pos hexp] at h
        cases h
      · rw [if_neg hexp] at h
        by_cases htenant : r.tenantId ≠ body.getD "tenant_id" ""
        · rw [if_pos htenant] at h
          cases h
        · rw [if_neg htenant] at h
          cases h
          exact ⟨rfl, not_not.mp htenant⟩

theorem insertDelegate_ok {db db' : DB} {body : Fields} {delegateId : UUID}
    (h : insertDelegate db body delegateId = .ok db') : ∃ concurrency,
      db.createDelegate (newDelegate body concurrency delegateId) = some db' := by
  unfold insertDelegate at h
  cases hc : intOf (body.getD "concurrency" "1") with
  | error e => simp [hc] at h
  | ok concurrency =>
    simp only [hc] at h
    refine ⟨concurrency, ?_⟩
    split at h
    · cases hd : db.createDelegate (newDelegate body concurrency delegateId) with
      | none => simp [hd] at h
      | some created =>
        simp only [hd, Except.ok.injEq] at h
        exact congrArg some h
    · cases h

theorem registerStep_steps {i : Nat} {request : Request} {input : Input}
    {tokens : Table RegistrationToken.token} {db : DB} {stage : Stage}
    (hi : s.requests[i]? = some request)
    (h : registerStep s request input = some (tokens, db, stage)) :
    Steps s (.request i input) ⟨tokens, db, s.requests.set i (request.goto stage)⟩ := by
  unfold registerStep at h
  split at h
  case h_1 now delegateId hp =>
    cases hc : checkToken request.body (s.tokens.get? request.token) now with
    | error why =>
      simp only [hc] at h
      cases h
      exact .advance hi (by rw [hp]; rfl) rfl (by simp [Stage.holds]) (by simp)
    | ok regToken =>
      simp only [hc] at h
      cases h
      obtain ⟨hfound, htenant⟩ := checkToken_ok hc
      exact .select hi hp hfound htenant
  case h_2 hp =>
    cases h
    exact .advance hi (by rw [hp]; rfl) rfl (by simp [Stage.holds]) (by simp)
  case h_3 hp =>
    cases h
    exact .advance hi (by rw [hp]; rfl) rfl (by simp [Stage.holds, hp]) (by simp)
  case h_4 hp =>
    cases h
    exact .advance hi (by rw [hp]; rfl) rfl (by simp [Stage.holds]) (by simp)
  case h_5 hp =>
    cases h
    exact .advance hi (by rw [hp]; rfl) rfl (by simp [Stage.holds, hp]) (by simp)
  case h_6 regToken delegateId hp =>
    cases hc : insertDelegate s.db request.body delegateId with
    | error e =>
      simp only [hc] at h
      cases h
      refine .advance hi (by rw [hp]; rfl) rfl (by simp [Stage.holds]) ?_
      intro _ regToken' delegateId' hp'
      rw [hp] at hp'
      cases hp'
      exact ⟨e, hc⟩
    | ok db =>
      simp only [hc] at h
      cases h
      exact .insert hi hp hc
  case h_7 now hp =>
    cases h
    exact .save hi hp
  case h_8 => cases h

theorem issue_tokens (tokens : Table RegistrationToken.token) (body : Fields) (token : String)
    (now : ℚ) :
    (∀ k t, (issue ttl tokens body token now).get? k = some t →
      tokens.get? k = some t ∨ t.usedAt = none) ∧
    ∀ k t, tokens.get? k = some t → (issue ttl tokens body token now).get? k = some t := by
  unfold issue
  split
  · exact ⟨fun _ _ h => Or.inl h, fun _ _ h => h⟩
  · cases hc : tokens.create ⟨token, body.getD "tenant_id" "", now + ttl, none⟩ with
    | none => exact ⟨fun _ _ h => Or.inl h, fun _ _ h => h⟩
    | some created =>
      simp only [Option.getD_some]
      have hfresh := create_fresh hc
      constructor
      · intro k t ht
        rw [get?_create hc] at ht
        split at ht
        · cases ht
          exact Or.inr rfl
        · exact Or.inl ht
      · intro k t ht
        rw [get?_create hc, if_neg, ht]
        rintro rfl
        rw [ht] at hfresh
        cases hfresh

theorem receive_stage (body : Fields) :
    (receive body).stage.inserted = none ∧ (receive body).stage.holds = none := by
  unfold receive
  split
  · exact ⟨rfl, rfl⟩
  · exact ⟨rfl, rfl⟩

theorem registering_steps (h : (registering ttl).step s a = some (t, o)) : Steps s a t := by
  cases a with
  | issue body token now =>
    cases h
    exact .issue (issue_tokens s.tokens body token now).1 (issue_tokens s.tokens body token now).2
  | receive body =>
    cases h
    exact .receive (receive_stage body).1 (receive_stage body).2
  | request i input =>
    simp only [registering] at h
    cases hi : s.requests[i]? with
    | none => simp [hi] at h
    | some request =>
      simp only [hi] at h
      cases hs : registerStep s request input with
      | none => simp [hs] at h
      | some r =>
        obtain ⟨tokens, db, stage⟩ := r
        simp only [hs] at h
        cases h
        exact registerStep_steps hi hs
  | revoke id =>
    cases h
    exact .revoke

end Moves

/-- The step inserts the row of a request with the token. -/
def Inserts (s : Registry) (a : Action) (token : String) (id : UUID) : Prop :=
  ∃ i request regToken db, a = .request i .insert ∧ s.requests[i]? = some request ∧
    request.stage = .inserting regToken id ∧ insertDelegate s.db request.body id = .ok db ∧
    request.token = token

section Steps
variable {s t : Registry} {a : Action}

/-- A request that goes on without inserting a row. -/
theorem registeredWith_goto {i : Nat} {request : Request} {stage : Stage} {token : String}
    {id : UUID} {tokens : Table RegistrationToken.token} {db : DB}
    (hi : s.requests[i]? = some request) (same : stage.inserted = request.stage.inserted) :
    RegisteredWith ⟨tokens, db, s.requests.set i (request.goto stage)⟩ token id ↔
      RegisteredWith s token id := by
  constructor
  · rintro ⟨other, hmem, htoken, hid⟩
    rcases List.mem_or_eq_of_mem_set hmem with hmem | rfl
    · exact ⟨other, hmem, htoken, hid⟩
    · exact ⟨request, List.mem_of_getElem? hi, htoken, same ▸ hid⟩
  · rintro ⟨other, hmem, htoken, hid⟩
    rcases mem_set_of_mem hi hmem with hmem | rfl
    · exact ⟨other, hmem, htoken, hid⟩
    · exact ⟨other.goto stage, mem_set_self hi, htoken, same.trans hid⟩

/-- A request that has just come in has no row yet. -/
theorem registeredWith_receive {request : Request} {token : String} {id : UUID}
    (fresh : request.stage.inserted = none) :
    RegisteredWith { s with requests := s.requests ++ [request] } token id ↔
      RegisteredWith s token id := by
  constructor
  · rintro ⟨other, hmem, htoken, hid⟩
    rcases List.mem_append.mp hmem with hmem | hmem
    · exact ⟨other, hmem, htoken, hid⟩
    · obtain rfl := List.mem_singleton.mp hmem
      rw [fresh] at hid
      cases hid
  · rintro ⟨other, hmem, htoken, hid⟩
    exact ⟨other, List.mem_append_left _ hmem, htoken, hid⟩

theorem registeredWith_insert {i : Nat} {request : Request} {regToken : RegistrationToken}
    {delegateId : UUID} {db : DB} {token : String} {id : UUID}
    (hi : s.requests[i]? = some request) (hp : request.stage = .inserting regToken delegateId)
    (hdb : insertDelegate s.db request.body delegateId = .ok db) :
    RegisteredWith { s with db := db,
                            requests := s.requests.set i (request.goto (.saving regToken delegateId)) }
        token id ↔
      RegisteredWith s token id ∨ Inserts s (.request i .insert) token id := by
  constructor
  · rintro ⟨other, hmem, htoken, hid⟩
    rcases List.mem_or_eq_of_mem_set hmem with hmem | rfl
    · exact Or.inl ⟨other, hmem, htoken, hid⟩
    · obtain rfl : delegateId = id := Option.some.inj hid
      exact Or.inr ⟨i, request, regToken, db, rfl, hi, hp, hdb, htoken⟩
  · rintro (⟨other, hmem, htoken, hid⟩ | ⟨j, request', regToken', db', ha, hj, hp', -, htoken⟩)
    · rcases mem_set_of_mem hi hmem with hmem | rfl
      · exact ⟨other, hmem, htoken, hid⟩
      · rw [hp] at hid
        cases hid
    · cases ha
      obtain rfl := Option.some.inj (hi.symm.trans hj)
      rw [hp] at hp'
      cases hp'
      exact ⟨_, mem_set_self hi, htoken, rfl⟩

/-- The rows registered with a token are those from before and the one the step
inserts. -/
theorem registered_steps (h : Steps s a t) (token : String) (id : UUID) :
    RegisteredWith t token id ↔ RegisteredWith s token id ∨ Inserts s a token id := by
  have quiet {i : Nat} {request : Request} {input : Input} (hi : s.requests[i]? = some request)
      (hother : ∀ regToken, request.stage = .inserting regToken id → input = .insert →
        ∃ e, insertDelegate s.db request.body id = .error e) :
      ¬ Inserts s (.request i input) token id := by
    rintro ⟨j, request', regToken, db, ha, hj, hstage, hdb, -⟩
    cases ha
    obtain rfl := Option.some.inj (hi.symm.trans hj)
    obtain ⟨e, he⟩ := hother regToken hstage rfl
    rw [he] at hdb
    cases hdb
  have none_of (hn : ¬ Inserts s a token id) : RegisteredWith s token id ↔
      RegisteredWith s token id ∨ Inserts s a token id := by
    constructor
    · exact Or.inl
    · rintro (hold | hnew)
      · exact hold
      · exact False.elim (hn hnew)
  cases h with
  | issue _ _ =>
    apply none_of
    rintro ⟨_, _, _, _, ha, -⟩
    cases ha
  | receive fresh _ =>
    rw [registeredWith_receive fresh]
    apply none_of
    rintro ⟨_, _, _, _, ha, -⟩
    cases ha
  | select hi hp _ _ =>
    rw [registeredWith_goto hi (by rw [hp]; rfl)]
    apply none_of
    apply quiet hi
    intro regToken hp'
    rw [hp] at hp'
    cases hp'
  | advance hi hbefore hafter _ hfails =>
    rw [registeredWith_goto hi (by rw [hbefore, hafter])]
    apply none_of
    apply quiet hi
    intro regToken hp hinput
    exact hfails hinput regToken id hp
  | insert hi hp hdb => exact registeredWith_insert hi hp hdb
  | save hi hp =>
    rw [registeredWith_goto hi (by rw [hp]; rfl)]
    apply none_of
    apply quiet hi
    intro regToken hp'
    rw [hp] at hp'
    cases hp'
  | revoke =>
    apply none_of
    rintro ⟨_, _, _, _, ha, -⟩
    cases ha

/-- Tokens stay, with their tenants and their marks. -/
theorem tokens_steps (h : Steps s a t) {k : String} {x : RegistrationToken}
    (hx : s.tokens.get? k = some x) :
    ∃ y, t.tokens.get? k = some y ∧ y.tenantId = x.tenantId ∧
      (x.usedAt ≠ none → y.usedAt ≠ none) := by
  cases h with
  | issue _ hkept => exact ⟨x, hkept k x hx, rfl, id⟩
  | @save i now request regToken delegateId _ _ =>
    simp only [markUsed]
    rw [get?_update]
    split
    · rename_i hk
      subst hk
      rw [hx]
      exact ⟨_, rfl, rfl, fun _ => by simp⟩
    · exact ⟨x, hx, rfl, id⟩
  | _ => exact ⟨x, hx, rfl, id⟩

/-- Rows stay, with their tenants. -/
theorem delegates_steps (h : Steps s a t) {id : UUID} {d : Delegate}
    (hd : s.db.delegate id = some d) :
    ∃ d', t.db.delegate id = some d' ∧ d'.tenantId = d.tenantId := by
  cases h with
  | insert _ _ hdb =>
    obtain ⟨concurrency, hc⟩ := insertDelegate_ok hdb
    refine ⟨d, ?_, rfl⟩
    rw [createDelegate_delegate hc, if_neg, hd]
    rintro rfl
    have hfresh := createDelegate_fresh hc
    rw [hd] at hfresh
    cases hfresh
  | revoke =>
    simp only [saveDelegateStatus_delegate]
    split
    · rename_i hk
      subst hk
      rw [hd]
      exact ⟨_, rfl, rfl⟩
    · exact ⟨d, hd, rfl⟩
  | _ => exact ⟨d, hd, rfl⟩

/-- A row is from before or is one the step inserts. -/
theorem delegates_of_steps (h : Steps s a t) {id : UUID} {d : Delegate}
    (hd : t.db.delegate id = some d) :
    (∃ d', s.db.delegate id = some d') ∨ ∃ token, Inserts s a token id := by
  cases h with
  | @insert i request regToken delegateId db hi hp hdb =>
    obtain ⟨concurrency, hc⟩ := insertDelegate_ok hdb
    rw [createDelegate_delegate hc] at hd
    split at hd
    · rename_i hid
      obtain rfl : delegateId = id := hid
      exact Or.inr ⟨request.token, i, request, regToken, db, rfl, hi, hp, hdb, rfl⟩
    · exact Or.inl ⟨d, hd⟩
  | @revoke k =>
    left
    rw [saveDelegateStatus_delegate] at hd
    split at hd
    · rename_i hk
      subst hk
      obtain ⟨d', hd', -⟩ := Option.map_eq_some_iff.mp hd
      exact ⟨d', hd'⟩
    · exact ⟨d, hd⟩
  | _ => exact Or.inl ⟨d, hd⟩

/-- The row a step inserts is new and has the tenant its request has named. -/
theorem inserts_delegate (h : Steps s a t) {token : String} {id : UUID}
    (hin : Inserts s a token id) :
    s.db.delegate id = none ∧ ∃ request ∈ s.requests, ∃ regToken d, request.token = token ∧
      request.stage.holds = some regToken ∧ t.tokens = s.tokens ∧ t.db.delegate id = some d ∧
      d.tenantId = request.body.getD "tenant_id" "" := by
  obtain ⟨i, request, regToken, db, rfl, hi, hp, hdb, htoken⟩ := hin
  cases h with
  | advance hj _ _ _ hfails =>
    obtain rfl := Option.some.inj (hi.symm.trans hj)
    obtain ⟨e, he⟩ := hfails rfl regToken id hp
    rw [he] at hdb
    cases hdb
  | insert hj hp' hdb' =>
    obtain rfl := Option.some.inj (hi.symm.trans hj)
    rw [hp] at hp'
    cases hp'
    rw [hdb] at hdb'
    cases hdb'
    obtain ⟨concurrency, hc⟩ := insertDelegate_ok hdb
    refine ⟨createDelegate_fresh hc, request, List.mem_of_getElem? hi, regToken,
      newDelegate request.body concurrency id, htoken, by rw [hp]; rfl, rfl, ?_, rfl⟩
    rw [createDelegate_delegate hc]
    exact if_pos rfl

/-- A mark is from before or is set by the request that saves it. -/
theorem marks_steps (h : Steps s a t) {k : String} {y : RegistrationToken}
    (hy : t.tokens.get? k = some y) (hused : y.usedAt ≠ none) :
    (∃ x, s.tokens.get? k = some x ∧ x.usedAt ≠ none) ∨
      ∃ request ∈ s.requests, ∃ regToken id, request.stage = .saving regToken id ∧
        regToken.token = k := by
  cases h with
  | issue hnew _ =>
    rcases hnew k y hy with hold | hunused
    · exact Or.inl ⟨y, hold, hused⟩
    · exact False.elim (hused hunused)
  | @save i now request regToken delegateId hi hp =>
    by_cases hk : regToken.token = k
    · exact Or.inr ⟨request, List.mem_of_getElem? hi, regToken, delegateId, hp, hk⟩
    · left
      simp only [markUsed] at hy
      rw [get?_update_of_ne _ _ _ (Ne.symm hk)] at hy
      exact ⟨y, hy, hused⟩
  | _ => exact Or.inl ⟨y, hy, hused⟩

end Steps

section Runs
variable {ttl : ℚ} {s t : Registry} {a : Action} {as : List Action} {o : List Unit}

theorem held_step (h : Steps s a t) (hc : Consistent s) :
    ∀ request ∈ t.requests, ∀ regToken, request.stage.holds = some regToken →
      regToken.token = request.token ∧ ∃ x, t.tokens.get? request.token = some x ∧
        x.tenantId = request.body.getD "tenant_id" "" := by
  have old : ∀ request ∈ s.requests, ∀ regToken, request.stage.holds = some regToken →
      regToken.token = request.token ∧ ∃ x, t.tokens.get? request.token = some x ∧
        x.tenantId = request.body.getD "tenant_id" "" := by
    intro request hmem regToken hr
    obtain ⟨hkey, x, hx, htenant⟩ := hc.held request hmem regToken hr
    obtain ⟨y, hy, hsame, -⟩ := tokens_steps h hx
    exact ⟨hkey, y, hy, hsame.trans htenant⟩
  cases h with
  | issue _ _ => exact old
  | receive _ hholds =>
    refine forall_mem_concat old fun regToken hr => ?_
    rw [hholds] at hr
    cases hr
  | select hi hp hfound htenant =>
    refine forall_mem_set old fun regToken hr => ?_
    cases hr
    exact ⟨get?_some_key hfound, _, hfound, htenant⟩
  | advance hi _ _ hholds _ =>
    refine forall_mem_set old fun regToken hr => ?_
    exact old _ (List.mem_of_getElem? hi) regToken (hholds regToken hr)
  | insert hi hp _ =>
    refine forall_mem_set old fun regToken hr => ?_
    cases hr
    exact old _ (List.mem_of_getElem? hi) _ (by rw [hp]; rfl)
  | save hi hp =>
    refine forall_mem_set old fun regToken hr => ?_
    cases hr
  | revoke => exact old

theorem marked_step (h : Steps s a t) (hc : Consistent s) :
    ∀ request ∈ t.requests, ∀ id, request.stage = .registered id →
      ∃ x, t.tokens.get? request.token = some x ∧ x.usedAt ≠ none := by
  have old : ∀ request ∈ s.requests, ∀ id, request.stage = .registered id →
      ∃ x, t.tokens.get? request.token = some x ∧ x.usedAt ≠ none := by
    intro request hmem id hr
    obtain ⟨x, hx, hused⟩ := hc.marked request hmem id hr
    obtain ⟨y, hy, -, hkept⟩ := tokens_steps h hx
    exact ⟨y, hy, hkept hused⟩
  cases h with
  | issue _ _ => exact old
  | receive hinserted _ =>
    refine forall_mem_concat old fun id hr => ?_
    rw [hr] at hinserted
    cases hinserted
  | select _ _ _ _ =>
    refine forall_mem_set old fun id hr => ?_
    cases hr
  | advance _ _ hafter _ _ =>
    refine forall_mem_set old fun id hr => ?_
    obtain rfl : _ = Stage.registered id := hr
    cases hafter
  | insert _ _ _ =>
    refine forall_mem_set old fun id hr => ?_
    cases hr
  | @save i now request regToken delegateId hi hp =>
    intro other hmem id hr
    rcases List.mem_or_eq_of_mem_set hmem with hmem | rfl
    · exact old other hmem id hr
    · have hreq := List.mem_of_getElem? hi
      obtain ⟨hkey, x, hx, -⟩ := hc.held request hreq regToken (by rw [hp]; rfl)
      refine ⟨{ x with usedAt := some now }, ?_, by simp⟩
      change (markUsed s.tokens regToken.token now).get? request.token = _
      rw [hkey, markUsed, get?_update_self, hx]
      rfl
  | revoke => exact old

theorem Consistent.step (hc : Consistent s) (h : Steps s a t) : Consistent t where
  registered id d hd := by
    rcases delegates_of_steps h hd with ⟨d', hd'⟩ | ⟨token, hin⟩
    · obtain ⟨token, hreg⟩ := hc.registered id d' hd'
      exact ⟨token, (registered_steps h token id).mpr (Or.inl hreg)⟩
    · exact ⟨token, (registered_steps h token id).mpr (Or.inr hin)⟩
  tenant token id hreg := by
    rcases (registered_steps h token id).mp hreg with hreg | hin
    · obtain ⟨x, d, hx, hd, htenant⟩ := hc.tenant token id hreg
      obtain ⟨y, hy, hsame, -⟩ := tokens_steps h hx
      obtain ⟨d', hd', hsame'⟩ := delegates_steps h hd
      exact ⟨y, d', hy, hd', (hsame'.trans htenant).trans hsame.symm⟩
    · obtain ⟨-, request, hmem, regToken, d, rfl, hholds, htokens, hd, htenant⟩ :=
        inserts_delegate h hin
      obtain ⟨-, x, hx, htenant'⟩ := hc.held request hmem regToken hholds
      exact ⟨x, d, by rw [htokens, hx], hd, htenant.trans htenant'.symm⟩
  held := held_step h hc
  marked := marked_step h hc
  used token y hy hused := by
    rcases marks_steps h hy hused with ⟨x, hx, hused'⟩ | ⟨request, hmem, regToken, id, hp, hkey⟩
    · obtain ⟨id, hreg⟩ := hc.used token x hx hused'
      exact ⟨id, (registered_steps h token id).mpr (Or.inl hreg)⟩
    · have hholds : request.stage.holds = some regToken := by rw [hp]; rfl
      have htoken : request.token = token := (hc.held request hmem regToken hholds).1 ▸ hkey
      have hreg : RegisteredWith s token id := ⟨request, hmem, htoken, by rw [hp]; rfl⟩
      exact ⟨id, (registered_steps h token id).mpr (Or.inl hreg)⟩

theorem Consistent.empty : Consistent Registry.empty where
  registered _ _ hd := by cases hd
  tenant _ _ hreg := by
    obtain ⟨_, hmem, -⟩ := hreg
    cases hmem
  held _ hmem := by cases hmem
  marked _ hmem := by cases hmem
  used _ _ ht := by cases ht

theorem SingleUse.empty : SingleUse Registry.empty := by
  rintro token id id' ⟨_, hmem, -⟩ -
  cases hmem

theorem SingleUse.stays (h : Steps s a t) (hs : SingleUse t) : SingleUse s := by
  intro token id id' hid hid'
  exact hs token id id' ((registered_steps h token id).mpr (Or.inl hid))
    ((registered_steps h token id').mpr (Or.inl hid'))

/-- Under the guard nobody has registered with the token a row is inserted for. -/
theorem StillUnused.first (hg : StillUnused s a) (hc : Consistent s) {token : String}
    {id id' : UUID} (hin : Inserts s a token id) : ¬ RegisteredWith s token id' := by
  obtain ⟨i, request, regToken, db, ha, hi, hp, hdb, rfl⟩ := hin
  obtain ⟨unused, alone⟩ := hg i request regToken id db ha hi hp hdb
  rintro ⟨other, hmem, htoken, hinserted⟩
  cases hstage : other.stage with
  | saving r d => exact alone other hmem htoken r d hstage
  | registered d =>
    obtain ⟨x, hx, hused⟩ := hc.marked other hmem d hstage
    rw [htoken] at hx
    exact hused (unused x hx)
  | _ => simp [hstage, Stage.inserted] at hinserted

theorem SingleUse.step (hs : SingleUse s) (hg : StillUnused s a) (hc : Consistent s)
    (h : Steps s a t) : SingleUse t := by
  intro token id id' hid hid'
  rcases (registered_steps h token id).mp hid with hold | hnew
  · rcases (registered_steps h token id').mp hid' with hold' | hnew'
    · exact hs token id id' hold hold'
    · exact False.elim (hg.first hc hnew' hold)
  · rcases (registered_steps h token id').mp hid' with hold' | hnew'
    · exact False.elim (hg.first hc hnew hold')
    · obtain ⟨i, request, regToken, -, ha, hi, hp, -⟩ := hnew
      obtain ⟨i', request', regToken', -, ha', hi', hp', -⟩ := hnew'
      rw [ha] at ha'
      cases ha'
      obtain rfl := Option.some.inj (hi.symm.trans hi')
      rw [hp] at hp'
      cases hp'
      rfl

/-- A row that is inserted against the guard is the token's second. -/
theorem SingleUse.breaks (hg : ¬ StillUnused s a) (hc : Consistent s) (h : Steps s a t) :
    ¬ SingleUse t := by
  intro hs
  apply hg
  intro i request regToken delegateId db ha hi hp hdb
  have hin : Inserts s a request.token delegateId := ⟨i, request, regToken, db, ha, hi, hp, hdb, rfl⟩
  have alone : ∀ id, ¬ RegisteredWith s request.token id := by
    intro id hreg
    obtain ⟨x, d, -, hd, -⟩ := hc.tenant _ _ hreg
    obtain rfl : id = delegateId := hs request.token id delegateId
      ((registered_steps h _ _).mpr (Or.inl hreg)) ((registered_steps h _ _).mpr (Or.inr hin))
    have hfresh := (inserts_delegate h hin).1
    rw [hd] at hfresh
    cases hfresh
  constructor
  · intro x hx
    by_contra hused
    obtain ⟨id, hreg⟩ := hc.used request.token x hx hused
    exact alone id hreg
  · intro other hmem htoken regToken' delegateId' hstage
    exact alone delegateId' ⟨other, hmem, htoken, by rw [hstage]; rfl⟩

/-- In every run no token has given rise to two rows, exactly if each row was
inserted while its token was still unused; rows and tokens agree on the tenant
in any case. -/
theorem single_use_iff (h : Run (registering ttl) Free Registry.empty as s o) :
    (SingleUse s ∧ OfTokens s) ↔ Run (registering ttl) StillUnused Registry.empty as s o := by
  have hc : Consistent s := h.state_invariant Consistent .empty
    (fun hc _ hs => hc.step (registering_steps hs))
  have hiff := h.good_iff Consistent SingleUse ⟨.empty, .empty⟩
    (fun hc _ hs => hc.step (registering_steps hs))
    (fun hc hg _ hguard hs => hg.step hguard hc (registering_steps hs))
    (fun hc _ _ hguard hs => SingleUse.breaks hguard hc (registering_steps hs))
    (fun _ hbad hs hg => hbad (hg.stays (registering_steps hs)))
  constructor
  · rintro ⟨hs, -⟩
    exact run_free_and_iff.mp (hiff.mp hs)
  · intro hr
    exact ⟨hiff.mpr (run_free_and_iff.mpr hr), hc.toOfTokens⟩

def smallBody : Fields :=
  [("token", "t"), ("tenant_id", "acme"), ("name", "delegate"), ("csr_pem", "csr")]

/-- Two requests read the token before either has marked it. -/
def together : List Action :=
  [.issue [("tenant_id", "acme")] "t" 0, .receive smallBody, .receive smallBody,
    .request 0 (.select 1 1), .request 1 (.select 1 2), .request 0 (.sign none),
    .request 0 (.provision true), .request 0 .insert, .request 0 (.save 2),
    .request 1 (.sign none), .request 1 (.provision true), .request 1 .insert,
    .request 1 (.save 3)]

/-- Two requests have registered delegates with one token. -/
def doubled (s : Registry) : Bool :=
  match s.requests with
  | [request, request'] =>
    decide (request.token = request'.token) && decide (request.stage.inserted = some 1) &&
      decide (request'.stage.inserted = some 2)
  | _ => false

theorem together_doubled :
    (replay (registering 900) Registry.empty together).any (fun r => doubled r.1) = true := by
  decide +kernel

theorem not_singleUse_of_doubled (h : doubled s = true) : ¬ SingleUse s := by
  intro hs
  unfold doubled at h
  split at h
  · rename_i request request' hrequests
    simp only [Bool.and_eq_true, decide_eq_true_eq] at h
    obtain ⟨⟨hsame, hstage⟩, hstage'⟩ := h
    have first : RegisteredWith s request.token 1 :=
      ⟨request, by simp [hrequests], rfl, hstage⟩
    have second : RegisteredWith s request.token 2 :=
      ⟨request', by simp [hrequests], hsame.symm, hstage'⟩
    exact absurd (hs _ _ _ first second) (by decide)
  · cases h

theorem together_single_use_iff :
    ∃ s o, Run (registering 900) Free Registry.empty together s o ∧
      ((SingleUse s ∧ OfTokens s) ↔
        Run (registering 900) StillUnused Registry.empty together s o) := by
  obtain ⟨s, o, h, -⟩ := run_of_replay_test together_doubled
  exact ⟨s, o, h, single_use_iff h⟩

theorem two_delegates_one_token :
    ∃ s o, Run (registering 900) Free Registry.empty together s o ∧ ¬ SingleUse s := by
  obtain ⟨s, o, h, hd⟩ := run_of_replay_test together_doubled
  exact ⟨s, o, h, not_singleUse_of_doubled hd⟩

end Runs

end RegistrationTokens
