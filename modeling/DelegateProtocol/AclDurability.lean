import DelegateProtocol.AclPersistence

/-!
# What restarts of Redis cannot undo

No run opens the users that the first start has seeded or gives a delegate more
than its rules, and a revocation whose ACL SAVE got through is final.
-/

namespace AclDurability

open AclPersistence KeyedTable Models RedisAcl SavedCopies StepMachine Uuid
open AclReconciliation (Op opStep opStep_moves delegateA)

/-- `default` is off, `cp-admin` is as it was seeded, and every other user is that of
a delegate, with a password. -/
structure Hardened (hash : String) (acl : Acl) : Prop where
  default : acl.get? "default" = some (.new "default")
  admin : acl.get? "cp-admin" =
    some ⟨"cp-admin", true, [hash], [⟨"*", true, true⟩], ["*"], ["@all"]⟩
  delegates : ∀ name user, acl.get? name = some user → name ≠ "default" → name ≠ "cp-admin" →
    ∃ u secret, name = str u ∧ user = delegateUser (str u) secret

/-- The command is about the user of a delegate. -/
def OfDelegate : Command → Prop
  | .setUser name _ => ∃ u, name = str u
  | .delUser name => isDelegateUser name = true
  | _ => True

/-- The names an operation has taken are those of delegates. -/
def Op.Proper : Op → Prop
  | .apply stale active => (∀ name ∈ stale, isDelegateUser name = true) ∧
      ∀ name ∈ active, ∃ u, name = str u
  | _ => True

def Stage.Proper : Stage → Prop
  | .op o => Op.Proper o
  | .save next => ∀ o, next = some o → Op.Proper o

section Steps
variable {s t : Deployment} {act : Act} {o : List Command} {db db' : DB} {acl acl' : Acl}
variable {name secret hash : String} {op : Op} {next : Option Op} {c : Command}

theorem isDelegateUser_str (u : UUID) : isDelegateUser (str u) = true := by
  rw [isDelegateUser, Bool.or_eq_true]
  exact Or.inl (matchGroups_str.mpr ⟨u, rfl⟩)

theorem seeded_hardened (hash : String) : Hardened hash (seeded hash) where
  default := rfl
  admin := rfl
  delegates name user h hdefault hadmin := by
    have hnone : (seeded hash).get? name = none := by
      rw [get?_eq_none_iff]
      intro r hr
      simp only [seeded, List.mem_cons, List.not_mem_nil, or_false] at hr
      rcases hr with rfl | rfl
      · exact Ne.symm hdefault
      · exact Ne.symm hadmin
    rw [hnone] at h
    cases h

theorem Hardened.setUser (h : Hardened hash acl) (u : UUID) (secret : String) :
    Hardened hash (provisionDelegate acl (str u) secret) := by
  have other {k : String} (hk : isDelegateUser k = false) : k ≠ str u := by
    rintro rfl
    rw [isDelegateUser_str] at hk
    cases hk
  refine ⟨?_, ?_, ?_⟩
  · rw [get?_provisionDelegate, if_neg (other (by decide +kernel))]
    exact h.default
  · rw [get?_provisionDelegate, if_neg (other (by decide +kernel))]
    exact h.admin
  · intro name user hget hdefault hadmin
    rw [get?_provisionDelegate] at hget
    split at hget
    · rename_i hname
      exact ⟨u, secret, hname, (Option.some.inj hget).symm⟩
    · exact h.delegates name user hget hdefault hadmin

theorem Hardened.delUser (h : Hardened hash acl) (hname : isDelegateUser name = true) :
    Hardened hash (delUser acl name) := by
  have other {k : String} (hk : isDelegateUser k = false) : k ≠ name := by
    rintro rfl
    rw [hname] at hk
    cases hk
  refine ⟨?_, ?_, ?_⟩
  · rw [RedisAcl.delUser, get?_erase, if_neg (other (by decide +kernel))]
    exact h.default
  · rw [RedisAcl.delUser, get?_erase, if_neg (other (by decide +kernel))]
    exact h.admin
  · intro k user hget hdefault hadmin
    rw [RedisAcl.delUser, get?_erase] at hget
    split at hget
    · cases hget
    · exact h.delegates k user hget hdefault hadmin

theorem OfDelegate.keeps (h : OfDelegate c) : Keeps (Hardened hash) c.event := by
  cases c with
  | setUser name secret =>
    obtain ⟨u, rfl⟩ := h
    exact fun _ ha => ha.setUser u secret
  | delUser name => exact fun _ ha => ha.delUser h
  | save => trivial
  | restart => trivial

/-- The commands of a proper operation are about delegates, and it stays proper. -/
theorem Op.Proper.step (h : Op.Proper op)
    (hs : opStep db acl name secret op = some (db', acl', next)) :
    (∀ c ∈ issues name secret op, OfDelegate c) ∧ ∀ o, next = some o → Op.Proper o := by
  cases opStep_moves hs with
  | provision => exact ⟨by simp [issues, OfDelegate], by simp [Op.Proper]⟩
  | insert _ => exact ⟨by simp [issues], by simp⟩
  | saveRevoked => exact ⟨by simp [issues], by simp [Op.Proper]⟩
  | removeUser => exact ⟨by simp [issues, OfDelegate, isDelegateUser_str], by simp⟩
  | readActive => exact ⟨by simp [issues], by simp [Op.Proper]⟩
  | readUsers =>
    refine ⟨by simp [issues], ?_⟩
    rintro o ho
    cases ho
    refine ⟨fun name hname => ?_, fun name hname => ?_⟩
    · rw [staleUsers, List.mem_filter, Bool.and_eq_true] at hname
      exact hname.2.1
    · obtain ⟨u, -, rfl⟩ := List.mem_map.mp hname
      exact ⟨u, rfl⟩
  | finish => exact ⟨by simp [issues], by simp⟩
  | set hmem =>
    refine ⟨by simpa [issues, OfDelegate] using h.2 name hmem, ?_⟩
    rintro o ho
    cases ho
    exact ⟨h.1, fun k hk => h.2 k (List.mem_of_mem_erase hk)⟩
  | delete hmem =>
    refine ⟨by simpa [issues, OfDelegate] using h.1 name hmem, ?_⟩
    rintro o ho
    cases ho
    exact ⟨fun k hk => h.1 k (List.mem_of_mem_erase hk), h.2⟩

theorem following_proper (h : ∀ o, next = some o → Op.Proper o) {x : Stage}
    (hx : following op next = some x) : Stage.Proper x := by
  unfold following at hx
  split at hx
  · cases hx
    exact h
  · cases hx
    exact h
  · cases hx
    exact h
  · obtain ⟨o, ho, rfl⟩ := Option.map_eq_some_iff.mp hx
    exact h o ho

theorem proper_step (h : ∀ x ∈ s.stages, Stage.Proper x) (hm : Moves s act t o) :
    (∀ x ∈ t.stages, Stage.Proper x) ∧ ∀ c ∈ o, OfDelegate c := by
  have begun (op : Op) (hop : Op.Proper op) : ∀ x ∈ (s.begin op).stages, Stage.Proper x := by
    intro x hx
    rcases List.mem_cons.mp hx with rfl | hx
    · exact hop
    · exact h x hx
  cases hm with
  | unknown => exact ⟨h, by simp⟩
  | register _ => exact ⟨begun _ trivial, by simp⟩
  | revoke _ => exact ⟨begun _ trivial, by simp⟩
  | reconcile => exact ⟨begun _ trivial, by simp⟩
  | restart => exact ⟨h, by simp [OfDelegate]⟩
  | @next i name secret outcome stage db commands next hi hs =>
    have hstage := h stage (List.mem_of_getElem? hi)
    have rest (hnext : ∀ x, next = some x → Stage.Proper x) :
        ∀ x ∈ next.toList ++ s.stages.eraseIdx i, Stage.Proper x := by
      intro x hx
      rcases mem_stages hx with hx | hx
      · exact hnext x hx
      · exact h x hx
    rcases stageStep_cases hs with ⟨n, rfl, -, rfl, hc⟩ | ⟨op, rfl, -, -, rfl, rfl⟩ |
      ⟨op, acl, n, rfl, -, hop, rfl, hn⟩
    · refine ⟨rest ?_, ?_⟩
      · intro x hx
        obtain ⟨o, rfl, rfl⟩ := Option.map_eq_some_iff.mp hx
        exact hstage o rfl
      · rcases hc with ⟨-, rfl⟩ | ⟨-, rfl⟩
        · simp
        · simp [OfDelegate]
    · exact ⟨rest (by simp), by simp⟩
    · obtain ⟨hissues, hkept⟩ := Op.Proper.step hstage hop
      refine ⟨rest ?_, hissues⟩
      rcases hn with ⟨-, rfl⟩ | ⟨-, rfl⟩
      · exact fun x hx => following_proper hkept hx
      · simp

end Steps

theorem hardened {db : DB} {as : List Act} {s : Deployment} {o : List Command} (hash : String)
    (h : Run persisting Free (.start db hash) as s o) : Lasting (Hardened hash) s.redis := by
  have proper : (∀ x ∈ s.stages, Stage.Proper x) ∧ ∀ c ∈ o, OfDelegate c := by
    refine h.invariant (fun s o => (∀ x ∈ s.stages, Stage.Proper x) ∧ ∀ c ∈ o, OfDelegate c)
      (by simp [Deployment.start]) ?_
    intro s o act t o' hi _ hs
    obtain ⟨hstages, hcommands⟩ := proper_step hi.1 (persisting_moves hs)
    exact ⟨hstages, List.forall_mem_append.mpr ⟨hi.2, hcommands⟩⟩
  rw [redis_run h]
  have start : Lasting (Hardened hash) (Deployment.start db hash).redis :=
    ⟨seeded_hardened hash, seeded_hardened hash⟩
  refine start.perform ?_
  intro e he
  obtain ⟨c, hc, rfl⟩ := List.mem_map.mp he
  exact (proper.2 c hc).keeps

/-- However registrations, revocations and reconciliations interleave and fail, and
whenever Redis is restarted: in memory and in the file `default` stays off,
`cp-admin` stays as it was seeded, and every other user is that of a delegate. -/
theorem hardened_run {db : DB} {hash : String} {as : List Act} {s : Deployment}
    {o : List Command} (h : Run persisting Free (.start db hash) as s o) :
    Hardened hash s.redis.live ∧ Hardened hash s.redis.saved :=
  hardened hash h

/-- A delegate is registered while ACL SAVE fails, and Redis is restarted. -/
def unsaved : List Act :=
  [.register delegateA, .next 0 "" "secret-1" .done, .next 0 "" "" .failed, .next 0 "" "" .done,
    .restart]

theorem unsaved_hardened : ∃ s o, Run persisting Free (.start DB.empty "hash") unsaved s o ∧
    Hardened "hash" s.redis.live ∧ Hardened "hash" s.redis.saved := by
  have hrun : (replay persisting (.start DB.empty "hash") unsaved).any (fun _ => true) = true := by
    decide +kernel
  obtain ⟨s, o, h, -⟩ := run_of_replay_test hrun
  exact ⟨s, o, h, hardened_run h⟩

/-- The operation is still to issue SETUSER for the name. -/
def Stage.Sets (name : String) : Stage → Prop
  | .op o => o.Sets name
  | .save next => ∃ o, next = some o ∧ o.Sets name

/-- The row is marked, and no operation in progress is to set the user. -/
structure Marked (s : Deployment) (id : UUID) : Prop where
  row : ∃ d, s.db.delegate id = some d ∧ d.status = .revoked
  unset : ∀ x ∈ s.stages, ¬ Stage.Sets (str id) x

def Spares (name : String) : Command → Prop
  | .setUser n _ => n ≠ name
  | _ => True

section Revocation
variable {s t : Deployment} {act : Act} {o : List Command} {db db' : DB} {acl acl' : Acl}
variable {name secret : String} {op : Op} {next : Option Op} {id : UUID}

theorem activeIds_active (h : id ∈ activeIds db) :
    ∃ d, db.delegate id = some d ∧ d.status = .active := by
  obtain ⟨d, hd, rfl⟩ := List.mem_map.mp h
  obtain ⟨hmem, hactive⟩ := List.mem_filter.mp hd
  refine ⟨d, ?_, of_decide_eq_true hactive⟩
  cases hget : db.delegate d.id with
  | none => exact absurd rfl (get?_eq_none_iff.mp hget d hmem)
  | some d' =>
    have hkey := get?_some_key hget
    have hmem' : d' ∈ db.delegates.rows := List.mem_of_find?_eq_some hget
    exact congrArg some (List.inj_on_of_nodup_map db.delegates.unique hmem' hmem hkey)

/-- The row stays marked. -/
theorem row_step (row : ∃ d, db.delegate id = some d ∧ d.status = .revoked)
    (hs : opStep db acl name secret op = some (db', acl', next)) :
    ∃ d, db'.delegate id = some d ∧ d.status = .revoked := by
  obtain ⟨d, hd, hrevoked⟩ := row
  cases opStep_moves hs with
  | insert hc =>
    refine ⟨d, ?_, hrevoked⟩
    rw [createDelegate_delegate hc, if_neg, hd]
    rintro rfl
    rw [createDelegate_fresh hc] at hd
    cases hd
  | @saveRevoked k =>
    rw [saveDelegateStatus_delegate]
    by_cases hk : id = k
    · subst hk
      rw [if_pos rfl, hd]
      exact ⟨_, rfl, rfl⟩
    · rw [if_neg hk]
      exact ⟨d, hd, hrevoked⟩
  | _ => exact ⟨d, hd, hrevoked⟩

/-- An operation that is not to set the user does not come to set it, as a
reconciliation only reads active ids. -/
theorem unset_step (row : ∃ d, db.delegate id = some d ∧ d.status = .revoked)
    (unset : ¬ op.Sets (str id)) (hs : opStep db acl name secret op = some (db', acl', next)) :
    (∀ c ∈ issues name secret op, Spares (str id) c) ∧
      ∀ o, next = some o → ¬ o.Sets (str id) := by
  cases opStep_moves hs with
  | provision =>
    refine ⟨by simpa [issues, Spares, Op.Sets] using unset, ?_⟩
    rintro o ho
    cases ho
    exact not_false
  | insert _ => exact ⟨by simp [issues], by simp⟩
  | saveRevoked =>
    refine ⟨by simp [issues], ?_⟩
    rintro o ho
    cases ho
    exact not_false
  | removeUser => exact ⟨by simp [issues, Spares], by simp⟩
  | readActive =>
    refine ⟨by simp [issues], ?_⟩
    rintro o ho
    cases ho
    intro hmem
    obtain ⟨u, hu, he⟩ := List.mem_map.mp hmem
    obtain rfl := str_injective he
    obtain ⟨d, hd, hactive⟩ := activeIds_active hu
    obtain ⟨d', hd', hrevoked⟩ := row
    obtain rfl := Option.some.inj (hd.symm.trans hd')
    rw [hactive] at hrevoked
    cases hrevoked
  | readUsers =>
    refine ⟨by simp [issues], ?_⟩
    rintro o ho
    cases ho
    exact unset
  | finish => exact ⟨by simp [issues], by simp⟩
  | set hmem =>
    refine ⟨?_, ?_⟩
    · simp only [issues, List.mem_singleton, forall_eq, Spares]
      rintro rfl
      exact unset hmem
    · rintro o ho
      cases ho
      exact fun hmem => unset (List.mem_of_mem_erase hmem)
  | delete _ =>
    refine ⟨by simp [issues, Spares], ?_⟩
    rintro o ho
    cases ho
    exact unset

theorem following_unset (h : ∀ o, next = some o → ¬ o.Sets (str id)) {x : Stage}
    (hx : following op next = some x) : ¬ Stage.Sets (str id) x := by
  unfold following at hx
  split at hx
  case h_4 =>
    obtain ⟨o, ho, rfl⟩ := Option.map_eq_some_iff.mp hx
    exact h o ho
  all_goals
    cases hx
    rintro ⟨o, ho, hsets⟩
    exact h o ho hsets

theorem Marked.step (h : Marked s id) (hm : Moves s act t o) :
    Marked t id ∧ ∀ c ∈ o, Spares (str id) c := by
  obtain ⟨row, unset⟩ := h
  have begun (op : Op) (hop : ¬ op.Sets (str id)) : Marked (s.begin op) id := by
    refine ⟨row, fun x hx => ?_⟩
    rcases List.mem_cons.mp hx with rfl | hx
    · exact hop
    · exact unset x hx
  cases hm with
  | unknown => exact ⟨⟨row, unset⟩, by simp⟩
  | @register delegate hf =>
    refine ⟨begun _ ?_, by simp⟩
    intro he
    obtain ⟨d, hd, -⟩ := row
    have hfresh := hf.1
    rw [str_injective he, hd] at hfresh
    cases hfresh
  | revoke _ => exact ⟨begun _ not_false, by simp⟩
  | reconcile => exact ⟨begun _ not_false, by simp⟩
  | restart => exact ⟨⟨row, unset⟩, by simp [Spares]⟩
  | @next i name secret outcome stage db commands next hi hs =>
    have hstage := unset stage (List.mem_of_getElem? hi)
    have rest (hnext : ∀ x, next = some x → ¬ Stage.Sets (str id) x) :
        ∀ x ∈ next.toList ++ s.stages.eraseIdx i, ¬ Stage.Sets (str id) x := by
      intro x hx
      rcases mem_stages hx with hx | hx
      · exact hnext x hx
      · exact unset x hx
    rcases stageStep_cases hs with ⟨n, rfl, rfl, rfl, hc⟩ | ⟨op, rfl, -, rfl, rfl, rfl⟩ |
      ⟨op, acl, n, rfl, -, hop, rfl, hn⟩
    · refine ⟨⟨row, rest ?_⟩, ?_⟩
      · intro x hx
        obtain ⟨o, rfl, rfl⟩ := Option.map_eq_some_iff.mp hx
        exact fun hsets => hstage ⟨o, rfl, hsets⟩
      · rcases hc with ⟨-, rfl⟩ | ⟨-, rfl⟩
        · simp
        · simp [Spares]
    · exact ⟨⟨row, rest (by simp)⟩, by simp⟩
    · obtain ⟨hissues, hkept⟩ := unset_step row hstage hop
      refine ⟨⟨row_step row hop, rest ?_⟩, hissues⟩
      rcases hn with ⟨-, rfl⟩ | ⟨-, rfl⟩
      · exact fun x hx => following_unset hkept hx
      · simp

theorem Spares.keeps {c : Command} (h : Spares name c) :
    Keeps (fun acl => ¬ HasUser acl name) c.event := by
  cases c with
  | setUser n secret =>
    intro acl ha hset
    rcases (hasUser_provisionDelegate acl n).mp hset with he | hold
    · exact h he.symm
    · exact ha hold
  | delUser n => exact fun acl ha hdel => ha ((hasUser_delUser acl n).mp hdel).2
  | save => trivial
  | restart => trivial

/-- Nothing sets the user of a delegate once it is marked. -/
theorem marked_run (marked : Marked s id) {as : List Act} (h : Run persisting Free s as t o) :
    ∀ c ∈ o, Spares (str id) c := by
  have spares : Marked t id ∧ ∀ c ∈ o, Spares (str id) c := by
    refine h.invariant (fun s o => Marked s id ∧ ∀ c ∈ o, Spares (str id) c)
      ⟨marked, by simp⟩ ?_
    intro s o act t o' hi _ hs
    obtain ⟨hmarked, hspares⟩ := hi.1.step (persisting_moves hs)
    exact ⟨hmarked, List.forall_mem_append.mpr ⟨hi.2, hspares⟩⟩
  exact spares.2

theorem reload_notMem {commands : List Command} (h : .restart ∉ commands) :
    .reload ∉ commands.map Command.event := by
  intro hmem
  obtain ⟨c, hc, he⟩ := List.mem_map.mp hmem
  cases c with
  | restart => exact h hc
  | _ => cases he

end Revocation

/-- A delegate is marked REVOKED while no operation is on its way to set its user.
Whatever goes on from there, its user is gone from the DELUSER on until Redis is
restarted, and once an ACL SAVE has got through before that, it is gone for good,
from memory and from the file. -/
theorem revoked_stays_out {s t : Deployment} {id : UUID} {as : List Act} {o : List Command}
    (marked : Marked s id) (h : Run persisting Free s as t o) :
    (∀ before later, o = before ++ .delUser (str id) :: later → .restart ∉ later →
      ¬ HasUser t.redis.live (str id)) ∧
    ∀ before between later, o = before ++ .delUser (str id) :: (between ++ .save :: later) →
      .restart ∉ between → ¬ HasUser t.redis.live (str id) ∧ ¬ HasUser t.redis.saved (str id) := by
  have keeps (e : Event Acl) (he : e ∈ o.map Command.event) :
      Keeps (fun acl => ¬ HasUser acl (str id)) e := by
    obtain ⟨c, hc, rfl⟩ := List.mem_map.mp he
    exact (marked_run marked h c hc).keeps
  have brings (acl : Acl) : ¬ HasUser (delUser acl (str id)) (str id) := by simp
  rw [redis_run h]
  constructor
  · rintro before later rfl hno
    rw [List.map_append, List.map_cons, Copies.perform_append, Copies.perform_cons]
    refine live_perform (brings _) (fun e he => keeps e ?_) (reload_notMem hno)
    simp only [List.map_append, List.map_cons]
    exact List.mem_append_right _ (List.mem_cons_of_mem _ he)
  · rintro before between later rfl hno
    simp only [List.map_append, List.map_cons] at keeps ⊢
    refine lasting_of_saved brings (reload_notMem hno) (fun e he => keeps e ?_)
    simp only [List.mem_append, List.mem_cons] at he ⊢
    tauto

/-- The row is marked, and DELUSER is next. -/
def revoking : Deployment :=
  let acl := provisionDelegate (seeded "hash") (str delegateA.id) "secret-1"
  let db := (DB.empty.createDelegate delegateA).getD DB.empty
  ⟨db.saveDelegateStatus delegateA.id .revoked, ⟨acl, acl⟩, [.op (.removeUser delegateA.id)]⟩

theorem revoking_stays_out : ∃ t, Run persisting Free revoking
      [.next 0 "" "" .done, .next 0 "" "" .done, .restart] t
      [.delUser (str delegateA.id), .save, .restart] ∧
    ¬ HasUser t.redis.live (str delegateA.id) ∧ ¬ HasUser t.redis.saved (str delegateA.id) := by
  have hrun : (replay persisting revoking
      [.next 0 "" "" .done, .next 0 "" "" .done, .restart]).any
      (fun r => decide (r.2 = [.delUser (str delegateA.id), .save, .restart])) = true := by
    decide +kernel
  obtain ⟨t, o, h, ho⟩ := run_of_replay_test hrun
  obtain rfl := of_decide_eq_true ho
  have marked : Marked revoking delegateA.id := by
    refine ⟨⟨{ delegateA with status := .revoked }, by rfl, rfl⟩, ?_⟩
    intro x hx
    obtain rfl := List.mem_singleton.mp hx
    exact not_false
  exact ⟨t, h, (revoked_stays_out marked h).2 [] [] [.restart] rfl (by simp)⟩

/-- The operation will issue ACL SAVE. -/
def Stage.WillSave : Stage → Prop
  | .op (.apply _ _) => True
  | .op _ => False
  | .save _ => True

/-- What changes users gets through to its ACL SAVE. -/
def GetsThrough (s : Deployment) : Act → Prop
  | .next i _ _ outcome =>
    match s.stages[i]? with
    | some (.op (.apply _ _)) => outcome = .done
    | some (.op _) => outcome ≠ .lost
    | some (.save _) => outcome ≠ .failed
    | none => True
  | _ => True

/-- Memory and file are the same, or an operation is still to make them so. -/
def Saving (s : Deployment) : Prop :=
  s.redis.live = s.redis.saved ∨ ∃ x ∈ s.stages, Stage.WillSave x

section Saves
variable {s t : Deployment} {act : Act} {o : List Command} {db db' : DB} {acl acl' : Acl}
variable {name secret : String} {op : Op} {next : Option Op}

/-- An operation that has issued a command goes on to ACL SAVE. -/
theorem following_saves (hs : opStep db acl name secret op = some (db', acl', next)) :
    (∃ x, following op next = some x ∧ Stage.WillSave x) ∨
      issues name secret op = [] ∧ ¬ Stage.WillSave (.op op) := by
  cases opStep_moves hs with
  | provision => exact Or.inl ⟨_, rfl, trivial⟩
  | removeUser => exact Or.inl ⟨_, rfl, trivial⟩
  | finish => exact Or.inl ⟨_, rfl, trivial⟩
  | set _ => exact Or.inl ⟨_, rfl, trivial⟩
  | delete _ => exact Or.inl ⟨_, rfl, trivial⟩
  | _ => exact Or.inr ⟨rfl, not_false⟩

theorem Saving.step (h : Saving s) (through : GetsThrough s act) (hm : Moves s act t o) :
    Saving t := by
  have begun (op : Op) : Saving (s.begin op) := by
    rcases h with h | ⟨x, hx, hsave⟩
    · exact Or.inl h
    · exact Or.inr ⟨x, List.mem_cons_of_mem _ hx, hsave⟩
  cases hm with
  | unknown => exact h
  | register _ => exact begun _
  | revoke _ => exact begun _
  | reconcile => exact begun _
  | restart => exact Or.inl rfl
  | @next i name secret outcome stage db commands next hi hs =>
    -- a stage that issues nothing leaves the others, and itself was not to save
    have idle (hno : ¬ Stage.WillSave stage) (ho : o = []) :
        Saving ⟨db, s.issue o, next.toList ++ s.stages.eraseIdx i⟩ := by
      subst ho
      rcases h with h | ⟨x, hx, hsave⟩
      · exact Or.inl h
      · right
        have hne : x ≠ stage := by
          rintro rfl
          exact hno hsave
        obtain ⟨hlt, hget⟩ := List.getElem?_eq_some_iff.mp hi
        have hperm := (List.getElem_cons_eraseIdx_perm hlt).mem_iff.mpr hx
        rw [hget] at hperm
        refine ⟨x, List.mem_append_right _ ?_, hsave⟩
        exact (List.mem_cons.mp hperm).resolve_left hne
    simp only [GetsThrough, hi] at through
    rcases stageStep_cases hs with ⟨n, rfl, -, -, hc⟩ | ⟨op, rfl, rfl, -, rfl, -⟩ |
      ⟨op, acl, n, rfl, -, hop, rfl, hn⟩
    · rcases hc with ⟨hfailed, -⟩ | ⟨-, rfl⟩
      · exact False.elim (through hfailed)
      · exact Or.inl rfl
    · refine idle ?_ rfl
      cases op with
      | apply stale active => cases through
      | _ => exact not_false
    · rcases following_saves hop with ⟨x, hx, hsave⟩ | ⟨hissues, hno⟩
      · have hdone : next = following op n := by
          rcases hn with ⟨-, hn⟩ | ⟨hlost, -⟩
          · exact hn
          · subst hlost
            cases op with
            | apply stale active => cases through
            | _ => exact False.elim (through rfl)
        refine Or.inr ⟨x, List.mem_append_left _ ?_, hsave⟩
        rw [hdone, hx]
        exact List.mem_singleton_self x
      · exact idle hno hissues

end Saves

/-- Where every operation that changes users gets through to its ACL SAVE, a restart
of Redis changes nothing whenever no operation is in progress. -/
theorem quiet_restart_changes_nothing {db : DB} {hash : String} {as : List Act}
    {s t : Deployment} {o o' : List Command}
    (h : Run persisting GetsThrough (.start db hash) as s o)
    (quiet : s.stages = []) (hs : persisting.step s .restart = some (t, o')) : t = s := by
  have saving : Saving s := by
    refine h.state_invariant Saving (Or.inl rfl) ?_
    intro s act t o' hi through hs
    exact hi.step through (persisting_moves hs)
  have same : s.redis.live = s.redis.saved := by
    rcases saving with same | ⟨x, hx, -⟩
    · exact same
    · rw [quiet] at hx
      cases hx
  obtain ⟨db, ⟨live, saved⟩, stages⟩ := s
  simp only at same
  subst same
  cases hs
  rfl

/-- No command fails. -/
def AllDone : Act → Prop
  | .next _ _ _ outcome => outcome = .done
  | _ => True

theorem AllDone.getsThrough {act : Act} (h : AllDone act) (s : Deployment) : GetsThrough s act := by
  cases act with
  | next i name secret outcome =>
    obtain rfl : outcome = .done := h
    simp only [GetsThrough]
    split <;> simp
  | _ => trivial

/-- A delegate is registered. -/
def registered : List Act :=
  [.register delegateA, .next 0 "" "secret-1" .done, .next 0 "" "" .done, .next 0 "" "" .done]

theorem registered_restart : ∃ s o,
    Run persisting GetsThrough (.start DB.empty "hash") registered s o ∧
      HasUser s.redis.live (str delegateA.id) ∧
      persisting.step s .restart = some (s, [.restart]) := by
  have hrun : (replay persisting (.start DB.empty "hash") registered).any
      (fun r => r.1.stages.isEmpty && decide (HasUser r.1.redis.live (str delegateA.id))) =
        true := by
    decide +kernel
  obtain ⟨s, o, hr, ht⟩ := run_of_replay_test hrun
  simp only [Bool.and_eq_true, decide_eq_true_eq, List.isEmpty_iff] at ht
  obtain ⟨quiet, user⟩ := ht
  have h : Run persisting GetsThrough (.start DB.empty "hash") registered s o :=
    (hr.restrict (P := AllDone) (by simp [registered, AllDone])).mono
      (fun s _ hdone => hdone.getsThrough s)
  have hs : persisting.step s .restart =
      some ({ s with redis := s.issue [.restart] }, [.restart]) := rfl
  rw [quiet_restart_changes_nothing h quiet hs] at hs
  exact ⟨s, o, h, user, hs⟩

end AclDurability
