import DelegateProtocol.RedisAcl
import DelegateProtocol.Lib.StepMachine

/-!
# Registration, revocation and reconciliation side by side

Each of them is a few commands to two stores, with no lock around them. A
reconciliation works from what it read before its commands, so it can undo what
a registration or a revocation did in the meantime.
-/

namespace AclReconciliation

open Models RedisAcl StepMachine Uuid

/-- What an operation in progress does next. -/
inductive Op where
  | provision (delegate : Delegate)
  | insert (delegate : Delegate)
  | saveRevoked (id : UUID)
  | removeUser (id : UUID)
  | readActive
  | readUsers (active : List UUID)
  | apply (stale active : List String)

structure Administration where
  db : DB
  acl : Acl
  ops : List Op

/-- The id a registration has drawn. -/
def Op.draws : Op → Option UUID
  | .provision delegate => some delegate.id
  | .insert delegate => some delegate.id
  | _ => none

/-- The operation is still to issue SETUSER for the name. -/
def Op.Sets (name : String) : Op → Prop
  | .provision delegate => str delegate.id = name
  | .readUsers active => name ∈ active.map str
  | .apply _ active => name ∈ active
  | _ => False

/-- The operation is still to issue DELUSER for the name. -/
def Op.Deletes (name : String) : Op → Prop
  | .saveRevoked id => str id = name
  | .removeUser id => str id = name
  | .apply stale _ => name ∈ stale
  | _ => False

theorem sets_apply {name : String} {stale active : List String} :
    (Op.apply stale active).Sets name ↔ name ∈ active := Iff.rfl

theorem deletes_apply {name : String} {stale active : List String} :
    (Op.apply stale active).Deletes name ↔ name ∈ stale := Iff.rfl

/-- The operation is a reconciliation. -/
def Op.Reconciles : Op → Prop
  | .readActive => True
  | .readUsers _ => True
  | .apply _ _ => True
  | _ => False

inductive Act where
  | register (delegate : Delegate)
  | revoke (id : UUID)
  | reconcile
  | next (i : Nat) (name secret : String)

/-- The next command of an operation; the elements of a set come in any order. -/
def opStep (db : DB) (acl : Acl) (name secret : String) : Op → Option (DB × Acl × Option Op)
  | .provision delegate =>
    some (db, provisionDelegate acl (str delegate.id) secret, some (.insert delegate))
  | .insert delegate =>
    match db.createDelegate delegate with
    | none => none
    | some db => some (db, acl, none)
  | .saveRevoked id => some (db.saveDelegateStatus id .revoked, acl, some (.removeUser id))
  | .removeUser id => some (db, delUser acl (str id), none)
  | .readActive => some (db, acl, some (.readUsers (activeIds db)))
  | .readUsers active =>
    some (db, acl, some (.apply (staleUsers acl (active.map str)) (active.map str)))
  | .apply [] [] => some (db, acl, none)
  | .apply [] (n :: active) =>
    if name ∈ n :: active then
      some (db, provisionDelegate acl name secret, some (.apply [] ((n :: active).erase name)))
    else none
  | .apply (n :: stale) active =>
    if name ∈ n :: stale then
      some (db, delUser acl name, some (.apply ((n :: stale).erase name) active))
    else none

inductive OpMoves (db : DB) (acl : Acl) (name secret : String) :
    Op → DB → Acl → Option Op → Prop
  | provision {delegate : Delegate} : OpMoves db acl name secret (.provision delegate) db
      (provisionDelegate acl (str delegate.id) secret) (some (.insert delegate))
  | insert {delegate : Delegate} {db' : DB} : db.createDelegate delegate = some db' →
      OpMoves db acl name secret (.insert delegate) db' acl none
  | saveRevoked {id : UUID} : OpMoves db acl name secret (.saveRevoked id)
      (db.saveDelegateStatus id .revoked) acl (some (.removeUser id))
  | removeUser {id : UUID} :
      OpMoves db acl name secret (.removeUser id) db (delUser acl (str id)) none
  | readActive : OpMoves db acl name secret .readActive db acl (some (.readUsers (activeIds db)))
  | readUsers {active : List UUID} : OpMoves db acl name secret (.readUsers active) db acl
      (some (.apply (staleUsers acl (active.map str)) (active.map str)))
  | finish : OpMoves db acl name secret (.apply [] []) db acl none
  | set {n : String} {active : List String} : name ∈ n :: active →
      OpMoves db acl name secret (.apply [] (n :: active)) db (provisionDelegate acl name secret)
        (some (.apply [] ((n :: active).erase name)))
  | delete {n : String} {stale active : List String} : name ∈ n :: stale →
      OpMoves db acl name secret (.apply (n :: stale) active) db (delUser acl name)
        (some (.apply ((n :: stale).erase name) active))

theorem opStep_moves {db db' : DB} {acl acl' : Acl} {name secret : String} {op : Op}
    {op' : Option Op} (h : opStep db acl name secret op = some (db', acl', op')) :
    OpMoves db acl name secret op db' acl' op' := by
  cases op with
  | provision delegate =>
    cases h
    exact .provision
  | insert delegate =>
    cases hd : db.createDelegate delegate with
    | none => simp [opStep, hd] at h
    | some db₁ =>
      simp only [opStep, hd] at h
      cases h
      exact .insert hd
  | saveRevoked id =>
    cases h
    exact .saveRevoked
  | removeUser id =>
    cases h
    exact .removeUser
  | readActive =>
    cases h
    exact .readActive
  | readUsers active =>
    cases h
    exact .readUsers
  | apply stale active =>
    cases stale with
    | nil =>
      cases active with
      | nil =>
        cases h
        exact .finish
      | cons n active =>
        simp only [opStep] at h
        split at h
        · rename_i hn
          cases h
          exact .set hn
        · cases h
    | cons n stale =>
      simp only [opStep] at h
      split at h
      · rename_i hn
        cases h
        exact .delete hn
      · cases h

/-- An id that `uuid.uuid4()` can return: no row and no registration has it. -/
def Fresh (s : Administration) (id : UUID) : Prop :=
  s.db.delegate id = none ∧ ∀ op ∈ s.ops, op.draws ≠ some id

instance (s : Administration) (id : UUID) : Decidable (Fresh s id) :=
  inferInstanceAs (Decidable (_ ∧ _))

def Administration.begin (s : Administration) (op : Op) : Administration :=
  { s with ops := op :: s.ops }

def administering : Machine Administration Act Unit where
  step s act :=
    match act with
    | .register delegate =>
      if Fresh s delegate.id then
        some (s.begin (.provision { delegate with status := .active }), [])
      else none
    | .revoke id =>
      match s.db.delegate id with
      | none => some (s, [])
      | some _ => some (s.begin (.saveRevoked id), [])
    | .reconcile => some (s.begin .readActive, [])
    | .next i name secret =>
      match s.ops[i]? with
      | none => none
      | some op =>
        match opStep s.db s.acl name secret op with
        | none => none
        | some (db, acl, op') => some (⟨db, acl, op'.toList ++ s.ops.eraseIdx i⟩, [])

/-- Every ACTIVE delegate has a user and no REVOKED one has. -/
def Agrees (db : DB) (acl : Acl) : Prop :=
  ∀ id d, db.delegate id = some d → (d.status = .active ↔ HasUser acl (str id))

/-- A command of a reconciliation undoes nothing that no other operation in
progress is still to put right: DELUSER meets no registration between its two
commands, and no ACTIVE delegate unless a SETUSER for it is pending; SETUSER
meets no REVOKED delegate unless a DELUSER for it is pending. -/
def Careful (s : Administration) : Act → Prop
  | .next i name _ =>
    match s.ops[i]? with
    | some (.apply [] (_ :: _)) =>
      ∀ id d, s.db.delegate id = some d → str id = name → d.status = .revoked →
        ∃ op ∈ s.ops.eraseIdx i, op.Deletes name
    | some (.apply (_ :: _) _) =>
      (∀ delegate, Op.insert delegate ∈ s.ops → str delegate.id ≠ name) ∧
        ∀ id d, s.db.delegate id = some d → str id = name → d.status = .active →
          ∃ op ∈ s.ops.eraseIdx i, op.Sets name
    | _ => True
  | _ => True

/-- Where a row and its user disagree, an operation in progress will set or
delete the user. -/
structure Covered (db : DB) (acl : Acl) (ops : List Op) : Prop where
  active : ∀ id d, db.delegate id = some d → d.status = .active →
    HasUser acl (str id) ∨ ∃ op ∈ ops, op.Sets (str id)
  revoked : ∀ id d, db.delegate id = some d → d.status = .revoked →
    ¬ HasUser acl (str id) ∨ ∃ op ∈ ops, op.Deletes (str id)
  drawn : ∀ op ∈ ops, ∀ id, op.draws = some id → db.delegate id = none
  distinct : (ops.filterMap Op.draws).Nodup
  provided : ∀ delegate, Op.insert delegate ∈ ops → delegate.status = .active ∧
    HasUser acl (str delegate.id)
  provisioned : ∀ delegate, Op.provision delegate ∈ ops → delegate.status = .active
  saving : ∀ id, Op.saveRevoked id ∈ ops → ∃ d, db.delegate id = some d
  removing : ∀ id, Op.removeUser id ∈ ops → ∃ d, db.delegate id = some d ∧ d.status = .revoked

section Steps
variable {s t : Administration} {a : Act} {o : List Unit}

/-- An operation that draws no id and has nothing to issue yet may begin. -/
theorem Covered.begin (hc : Covered s.db s.acl s.ops) {op : Op}
    (drawn : ∀ id, op.draws = some id → Fresh s id)
    (insert : ∀ delegate, op ≠ .insert delegate)
    (provision : ∀ delegate, op = .provision delegate → delegate.status = .active)
    (saving : ∀ id, op = .saveRevoked id → ∃ d, s.db.delegate id = some d)
    (removing : ∀ id, op ≠ .removeUser id) : Covered s.db s.acl (op :: s.ops) where
  active id d hd hs := by
    rcases hc.active id d hd hs with h | ⟨x, hx, h⟩
    · exact Or.inl h
    · exact Or.inr ⟨x, List.mem_cons_of_mem _ hx, h⟩
  revoked id d hd hs := by
    rcases hc.revoked id d hd hs with h | ⟨x, hx, h⟩
    · exact Or.inl h
    · exact Or.inr ⟨x, List.mem_cons_of_mem _ hx, h⟩
  drawn x hx id hid := by
    rcases List.mem_cons.mp hx with rfl | hx
    · exact (drawn id hid).1
    · exact hc.drawn x hx id hid
  distinct := by
    cases hid : op.draws with
    | none =>
      rw [List.filterMap_cons_none hid]
      exact hc.distinct
    | some id =>
      rw [List.filterMap_cons_some hid, List.nodup_cons]
      refine ⟨fun hm => ?_, hc.distinct⟩
      obtain ⟨x, hx, hx'⟩ := List.mem_filterMap.mp hm
      exact (drawn id hid).2 x hx hx'
  provided delegate hm := by
    rcases List.mem_cons.mp hm with h | hm
    · exact False.elim (insert delegate h.symm)
    · exact hc.provided delegate hm
  provisioned delegate hm := by
    rcases List.mem_cons.mp hm with h | hm
    · exact provision delegate h.symm
    · exact hc.provisioned delegate hm
  saving id hm := by
    rcases List.mem_cons.mp hm with h | hm
    · exact saving id h.symm
    · exact hc.saving id hm
  removing id hm := by
    rcases List.mem_cons.mp hm with h | hm
    · exact False.elim (removing id h.symm)
    · exact hc.removing id hm

theorem Covered.perm {db : DB} {acl : Acl} {ops ops' : List Op} (hc : Covered db acl ops)
    (hp : ops.Perm ops') : Covered db acl ops' where
  active id d hd hs := by
    rcases hc.active id d hd hs with h | ⟨x, hx, h⟩
    · exact Or.inl h
    · exact Or.inr ⟨x, hp.mem_iff.mp hx, h⟩
  revoked id d hd hs := by
    rcases hc.revoked id d hd hs with h | ⟨x, hx, h⟩
    · exact Or.inl h
    · exact Or.inr ⟨x, hp.mem_iff.mp hx, h⟩
  drawn x hx := hc.drawn x (hp.mem_iff.mpr hx)
  distinct := (hp.filterMap Op.draws).nodup_iff.mp hc.distinct
  provided delegate hm := hc.provided delegate (hp.mem_iff.mpr hm)
  provisioned delegate hm := hc.provisioned delegate (hp.mem_iff.mpr hm)
  saving id hm := hc.saving id (hp.mem_iff.mpr hm)
  removing id hm := hc.removing id (hp.mem_iff.mpr hm)

section Commands
variable {db : DB} {acl : Acl} {rest : List Op}

theorem exists_cons {P : Op → Prop} {op : Op} :
    (∃ x ∈ op :: rest, P x) ↔ P op ∨ ∃ x ∈ rest, P x := by
  simp

/-- The registration has set its user and goes on to its row. -/
theorem Covered.provision {delegate : Delegate} (secret : String)
    (hc : Covered db acl (.provision delegate :: rest)) :
    Covered db (provisionDelegate acl (str delegate.id) secret) (.insert delegate :: rest) where
  active id d hd hs := by
    have h := hc.active id d hd hs
    simp only [exists_cons, Op.Sets, hasUser_provisionDelegate] at h ⊢
    grind
  revoked id d hd hs := by
    have h := hc.revoked id d hd hs
    have fresh := hc.drawn _ (List.mem_cons_self ..) delegate.id rfl
    simp only [exists_cons, Op.Deletes, hasUser_provisionDelegate] at h fresh ⊢
    grind [str_injective]
  drawn x hx id hid := by
    rcases List.mem_cons.mp hx with rfl | hx
    · exact hc.drawn _ (List.mem_cons_self ..) id hid
    · exact hc.drawn x (List.mem_cons_of_mem _ hx) id hid
  distinct := hc.distinct
  provided d hm := by
    rcases List.mem_cons.mp hm with h | hm
    · cases h
      exact ⟨hc.provisioned delegate (List.mem_cons_self ..), by simp⟩
    · obtain ⟨hs, hu⟩ := hc.provided d (List.mem_cons_of_mem _ hm)
      exact ⟨hs, by simp [hu]⟩
  provisioned x hm := hc.provisioned x (List.mem_cons_of_mem _ (by simpa using hm))
  saving id hm := hc.saving id (List.mem_cons_of_mem _ (by simpa using hm))
  removing id hm := hc.removing id (List.mem_cons_of_mem _ (by simpa using hm))

theorem Covered.insert {db' : DB} {delegate : Delegate}
    (hc : Covered db acl (.insert delegate :: rest)) (hdb : db.createDelegate delegate = some db') :
    Covered db' acl rest := by
  have row := createDelegate_delegate hdb
  obtain ⟨hstatus, huser⟩ := hc.provided delegate (List.mem_cons_self ..)
  have fresh := hc.drawn _ (List.mem_cons_self ..) delegate.id rfl
  have hdrawn : delegate.id ∉ rest.filterMap Op.draws := (List.nodup_cons.mp hc.distinct).1
  have later (x : Op) (hx : x ∈ rest) (id : UUID) (hid : x.draws = some id) :
      delegate.id ≠ id := by
    rintro rfl
    exact hdrawn (List.mem_filterMap.mpr ⟨x, hx, hid⟩)
  obtain ⟨active, revoked, drawn, distinct, provided, provisioned, saving, removing⟩ := hc
  refine ⟨?_, ?_, ?_, ?_, ?_, ?_, ?_, ?_⟩
  · simp only [exists_cons, Op.Sets] at active ⊢
    grind
  · simp only [exists_cons, Op.Deletes] at revoked ⊢
    grind
  · grind
  · exact (List.nodup_cons.mp distinct).2
  · grind
  · grind
  · grind
  · grind

theorem Covered.saveRevoked {id : UUID} (hc : Covered db acl (.saveRevoked id :: rest)) :
    Covered (db.saveDelegateStatus id .revoked) acl (.removeUser id :: rest) := by
  have row := saveDelegateStatus_delegate db id .revoked
  obtain ⟨active, revoked, drawn, distinct, provided, provisioned, saving, removing⟩ := hc
  refine ⟨?_, ?_, ?_, ?_, ?_, ?_, ?_, ?_⟩
  · simp only [exists_cons, Op.Sets] at active ⊢
    grind
  · simp only [exists_cons, Op.Deletes] at revoked ⊢
    grind
  · simp only [List.mem_cons, forall_eq_or_imp, Op.draws] at drawn ⊢
    grind
  · exact distinct
  · grind
  · grind
  · grind
  · grind

theorem Covered.removeUser {id : UUID} (hc : Covered db acl (.removeUser id :: rest)) :
    Covered db (delUser acl (str id)) rest := by
  obtain ⟨r, hrow, hrevoked⟩ := hc.removing id (List.mem_cons_self ..)
  obtain ⟨active, revoked, drawn, distinct, provided, provisioned, saving, removing⟩ := hc
  refine ⟨?_, ?_, ?_, ?_, ?_, ?_, ?_, ?_⟩
  · simp only [exists_cons, Op.Sets, hasUser_delUser] at active ⊢
    grind [str_injective]
  · simp only [exists_cons, Op.Deletes, hasUser_delUser] at revoked ⊢
    grind [str_injective]
  · grind
  · exact distinct
  · simp only [hasUser_delUser]
    grind [str_injective, Op.draws]
  · grind
  · grind
  · grind

/-- A reconciliation that issues a command or reads. -/
theorem Covered.proceed {acl' : Acl} {op : Op} {next : List Op}
    (hc : Covered db acl (op :: rest)) (reconciles : ∀ x ∈ next, x.Reconciles)
    (active : ∀ id d, db.delegate id = some d → d.status = .active →
      HasUser acl' (str id) ∨ ∃ x ∈ next ++ rest, x.Sets (str id))
    (revoked : ∀ id d, db.delegate id = some d → d.status = .revoked →
      ¬ HasUser acl' (str id) ∨ ∃ x ∈ next ++ rest, x.Deletes (str id))
    (kept : ∀ delegate, Op.insert delegate ∈ rest → HasUser acl (str delegate.id) →
      HasUser acl' (str delegate.id)) : Covered db acl' (next ++ rest) := by
  have old {x : Op} (hx : x ∈ next ++ rest) (other : ¬ x.Reconciles) : x ∈ rest := by
    rcases List.mem_append.mp hx with hx | hx
    · exact False.elim (other (reconciles x hx))
    · exact hx
  have quiet : next.filterMap Op.draws = [] := by
    rw [List.filterMap_eq_nil_iff]
    intro x hx
    have h := reconciles x hx
    cases x with
    | provision _ => exact False.elim h
    | insert _ => exact False.elim h
    | _ => rfl
  have distinct := hc.distinct.sublist ((List.sublist_cons_self op rest).filterMap Op.draws)
  refine ⟨active, revoked, ?_, ?_, ?_, ?_, ?_, ?_⟩
  · intro x hx id hid
    refine hc.drawn x (List.mem_cons_of_mem _ (old hx ?_)) id hid
    cases x with
    | provision _ => exact not_false
    | insert _ => exact not_false
    | _ => cases hid
  · rw [List.filterMap_append, quiet, List.nil_append]
    exact distinct
  · intro delegate hm
    have hrest := old hm not_false
    obtain ⟨hs, hu⟩ := hc.provided delegate (List.mem_cons_of_mem _ hrest)
    exact ⟨hs, kept delegate hrest hu⟩
  · intro delegate hm
    exact hc.provisioned delegate (List.mem_cons_of_mem _ (old hm not_false))
  · intro id hm
    exact hc.saving id (List.mem_cons_of_mem _ (old hm not_false))
  · intro id hm
    exact hc.removing id (List.mem_cons_of_mem _ (old hm not_false))

/-- A reconciliation that changes no user and forgets no command. -/
theorem Covered.quiet {op : Op} {next : List Op} (hc : Covered db acl (op :: rest))
    (reconciles : ∀ x ∈ next, x.Reconciles)
    (sets : ∀ name, op.Sets name → ∃ x ∈ next, x.Sets name)
    (deletes : ∀ name, op.Deletes name → ∃ x ∈ next, x.Deletes name) :
    Covered db acl (next ++ rest) := by
  refine hc.proceed reconciles ?_ ?_ (fun _ _ h => h)
  · intro id d hd hs
    rcases hc.active id d hd hs with h | ⟨x, hx, h⟩
    · exact Or.inl h
    · rcases List.mem_cons.mp hx with rfl | hx
      · obtain ⟨y, hy, h⟩ := sets _ h
        exact Or.inr ⟨y, List.mem_append_left _ hy, h⟩
      · exact Or.inr ⟨x, List.mem_append_right _ hx, h⟩
  · intro id d hd hs
    rcases hc.revoked id d hd hs with h | ⟨x, hx, h⟩
    · exact Or.inl h
    · rcases List.mem_cons.mp hx with rfl | hx
      · obtain ⟨y, hy, h⟩ := deletes _ h
        exact Or.inr ⟨y, List.mem_append_left _ hy, h⟩
      · exact Or.inr ⟨x, List.mem_append_right _ hx, h⟩

/-- DELUSER of a stale user that no row and no registration needs. -/
theorem Covered.deleteStale {stale active : List String} {name : String}
    (hc : Covered db acl (.apply stale active :: rest))
    (registering : ∀ delegate, Op.insert delegate ∈ rest → str delegate.id ≠ name)
    (unneeded : ∀ id d, db.delegate id = some d → str id = name → d.status = .active →
      ∃ op ∈ rest, op.Sets name) :
    Covered db (delUser acl name) (.apply (stale.erase name) active :: rest) := by
  change Covered db _ ([.apply (stale.erase name) active] ++ rest)
  refine hc.proceed (by simp [Op.Reconciles]) ?_ ?_ ?_
  · intro id d hd hs
    have h := hc.active id d hd hs
    have hn := unneeded id d hd
    simp only [List.singleton_append, exists_cons, sets_apply, hasUser_delUser] at h ⊢
    grind
  · intro id d hd hs
    have h := hc.revoked id d hd hs
    simp only [List.singleton_append, exists_cons, deletes_apply, hasUser_delUser] at h ⊢
    grind
  · intro delegate hm hu
    exact (hasUser_delUser acl name).mpr ⟨registering delegate hm, hu⟩

/-- SETUSER of a delegate that is not revoked for good. -/
theorem Covered.setActive {active : List String} {name : String} (secret : String)
    (hc : Covered db acl (.apply [] active :: rest))
    (wanted : ∀ id d, db.delegate id = some d → str id = name → d.status = .revoked →
      ∃ op ∈ rest, op.Deletes name) :
    Covered db (provisionDelegate acl name secret) (.apply [] (active.erase name) :: rest) := by
  change Covered db _ ([.apply [] (active.erase name)] ++ rest)
  refine hc.proceed (by simp [Op.Reconciles]) ?_ ?_ ?_
  · intro id d hd hs
    have h := hc.active id d hd hs
    simp only [List.singleton_append, exists_cons, sets_apply, hasUser_provisionDelegate] at h ⊢
    grind
  · intro id d hd hs
    have h := hc.revoked id d hd hs
    have hn := wanted id d hd
    simp only [List.singleton_append, exists_cons, deletes_apply, hasUser_provisionDelegate] at h ⊢
    grind
  · intro delegate _ hu
    exact (hasUser_provisionDelegate acl name).mpr (Or.inr hu)

end Commands

theorem Covered.command {op : Op} {rest : List Op} {db db' : DB} {acl acl' : Acl} {op' : Option Op}
    {name secret : String} (hc : Covered db acl (op :: rest))
    (h : opStep db acl name secret op = some (db', acl', op'))
    (setting : ∀ active, op = .apply [] active → active ≠ [] → ∀ id d, db.delegate id = some d →
      str id = name → d.status = .revoked → ∃ x ∈ rest, x.Deletes name)
    (deleting : ∀ stale active, op = .apply stale active → stale ≠ [] →
      (∀ delegate, Op.insert delegate ∈ rest → str delegate.id ≠ name) ∧
      ∀ id d, db.delegate id = some d → str id = name → d.status = .active →
        ∃ x ∈ rest, x.Sets name) : Covered db' acl' (op'.toList ++ rest) := by
  cases opStep_moves h with
  | provision => exact hc.provision secret
  | insert hd => exact hc.insert hd
  | saveRevoked => exact hc.saveRevoked
  | removeUser => exact hc.removeUser
  | readActive =>
    exact hc.quiet (by simp [Op.Reconciles]) (fun _ h => False.elim h) (fun _ h => False.elim h)
  | readUsers =>
    refine hc.quiet (by simp [Op.Reconciles]) (fun n hn => ?_) (fun _ h => False.elim h)
    exact ⟨_, List.mem_singleton_self _, hn⟩
  | finish => exact hc.quiet (by simp) (fun _ h => by cases h) (fun _ h => by cases h)
  | set _ => exact hc.setActive secret (setting _ rfl (List.cons_ne_nil _ _))
  | delete _ =>
    obtain ⟨registering, unneeded⟩ := deleting _ _ rfl (List.cons_ne_nil _ _)
    exact hc.deleteStale registering unneeded

theorem Covered.step (hc : Covered s.db s.acl s.ops) (careful : Careful s a)
    (h : administering.step s a = some (t, o)) : Covered t.db t.acl t.ops := by
  cases a with
  | register delegate =>
    simp only [administering] at h
    by_cases hf : Fresh s delegate.id
    · rw [if_pos hf] at h
      cases h
      refine hc.begin ?_ (by simp) ?_ (by simp) (by simp)
      · rintro id hid
        cases hid
        exact hf
      · rintro d hd
        cases hd
        rfl
    · rw [if_neg hf] at h
      cases h
  | revoke id =>
    simp only [administering] at h
    cases hd : s.db.delegate id with
    | none =>
      simp only [hd] at h
      cases h
      exact hc
    | some d =>
      simp only [hd] at h
      cases h
      refine hc.begin (fun _ hid => by cases hid) (by simp) (by simp) ?_ (by simp)
      rintro id' hid
      cases hid
      exact ⟨d, hd⟩
  | reconcile =>
    cases h
    exact hc.begin (fun _ hid => by cases hid) (by simp) (by simp) (by simp) (by simp)
  | next i name secret =>
    simp only [administering] at h
    cases hop : s.ops[i]? with
    | none => simp [hop] at h
    | some op =>
      simp only [hop] at h
      cases hs : opStep s.db s.acl name secret op with
      | none => simp [hs] at h
      | some r =>
        obtain ⟨db, acl, op'⟩ := r
        simp only [hs] at h
        cases h
        have hperm : s.ops.Perm (op :: s.ops.eraseIdx i) := by
          obtain ⟨hi, rfl⟩ := List.getElem?_eq_some_iff.mp hop
          exact (List.getElem_cons_eraseIdx_perm hi).symm
        refine (hc.perm hperm).command hs ?_ ?_
        · rintro active rfl hne
          simp only [Careful, hop] at careful
          cases active with
          | nil => exact False.elim (hne rfl)
          | cons n active => exact careful
        · rintro stale active rfl hne
          simp only [Careful, hop] at careful
          cases stale with
          | nil => exact False.elim (hne rfl)
          | cons n stale =>
            refine ⟨fun delegate hm => careful.1 delegate ?_, careful.2⟩
            exact List.mem_of_mem_eraseIdx hm

end Steps

/-- In a run whose reconciliations are careful, the users and the rows agree
whenever no operation is in progress. -/
theorem quiet_agrees {s t : Administration} {as : List Act} {o : List Unit}
    (quiet : s.ops = []) (agrees : Agrees s.db s.acl) (h : Run administering Careful s as t o)
    (quiet' : t.ops = []) : Agrees t.db t.acl := by
  have start : Covered s.db s.acl s.ops := by
    rw [quiet]
    refine ⟨fun id d hd hs => Or.inl ((agrees id d hd).mp hs), fun id d hd hs => Or.inl ?_,
      by simp, List.nodup_nil, by simp, by simp, by simp, by simp⟩
    intro hu
    have := (agrees id d hd).mpr hu
    simp [hs] at this
  have hc : Covered t.db t.acl t.ops :=
    h.state_invariant (fun s => Covered s.db s.acl s.ops) start
      (fun hc careful hs => hc.step careful hs)
  rw [quiet'] at hc
  intro id d hd
  constructor
  · intro hs
    rcases hc.active id d hd hs with hu | ⟨x, hx, -⟩
    · exact hu
    · cases hx
  · intro hu
    cases hs : d.status with
    | active => rfl
    | revoked =>
      rcases hc.revoked id d hd hs with hn | ⟨x, hx, -⟩
      · exact False.elim (hn hu)
      · cases hx

def delegateA : Delegate where
  id := 10
  tenantId := "tenant-a"
  name := "delegate-a"
  queue := "default"
  concurrency := 1
  status := .active

def nothing : Administration := ⟨DB.empty, KeyedTable.empty _, []⟩

/-- Register a delegate and let a reconciliation read it. -/
def registerAndRead : List Act :=
  [.register delegateA, .next 0 "" "secret-1", .next 0 "" "", .reconcile, .next 0 "" "",
    .next 0 "" ""]

/-- The reconciliation sets the users it has read. -/
def setRead : List Act := [.next 0 (str delegateA.id) "secret-2", .next 0 "" ""]

/-- A revocation from its beginning to its end. -/
def revokeA : List Act := [.revoke delegateA.id, .next 0 "" "", .next 0 "" ""]

/-- A test for careful steps: a reconciliation sets ACTIVE delegates only and
deletes nobody. -/
def setsActive (s : Administration) : Act → Bool
  | .next i name _ =>
    match s.ops[i]? with
    | some (.apply [] (_ :: _)) =>
      ((parse name).bind s.db.delegate).all (fun d => decide (d.status = .active))
    | some (.apply (_ :: _) _) => false
    | _ => true
  | _ => true

theorem setsActive_careful {s : Administration} {a : Act} (h : setsActive s a = true) :
    Careful s a := by
  unfold setsActive at h
  unfold Careful
  split at h
  · split at h
    · rintro id d hd rfl hs
      simp [parse_str, hd, hs] at h
    · cases h
    · trivial
  · trivial

theorem registered_quiet_agrees :
    ∃ s o, Run administering Careful nothing (registerAndRead ++ setRead) s o ∧
      s.ops = [] ∧ Agrees s.db s.acl := by
  have hrun : (replay (administering.guarded (fun s a => setsActive s a)) nothing
      (registerAndRead ++ setRead)).any (fun r => r.1.ops.isEmpty) = true := by decide +kernel
  obtain ⟨s, o, hr, quiet⟩ := guarded_run_of_replay_test hrun
  have h := hr.mono (fun _ _ => setsActive_careful)
  have hs : s.ops = [] := List.isEmpty_iff.mp quiet
  exact ⟨s, o, h, hs, quiet_agrees rfl (fun id d hd => by cases hd) h hs⟩

theorem revoked_delegate_set_again :
    ∃ s o, Run administering Free nothing (registerAndRead ++ revokeA ++ setRead) s o ∧
      s.ops = [] ∧ ¬ Agrees s.db s.acl := by
  have hrun : (replay administering nothing (registerAndRead ++ revokeA ++ setRead)).any
      (fun r => r.1.ops.isEmpty && decide ((r.1.db.delegate 10).map (·.status) = some .revoked) &&
        decide (HasUser r.1.acl (str 10))) = true := by decide +kernel
  obtain ⟨s, o, h, ht⟩ := run_of_replay_test hrun
  simp only [Bool.and_eq_true, decide_eq_true_eq, List.isEmpty_iff] at ht
  obtain ⟨⟨quiet, revoked⟩, user⟩ := ht
  refine ⟨s, o, h, quiet, fun agrees => ?_⟩
  obtain ⟨d, hd, hs⟩ := Option.map_eq_some_iff.mp revoked
  have active := (agrees 10 d hd).mpr user
  rw [hs] at active
  cases active

end AclReconciliation
