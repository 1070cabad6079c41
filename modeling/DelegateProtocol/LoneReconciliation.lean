import DelegateProtocol.AclReconciliation

/-!
# A reconciliation alone

When nothing else changes the ACL, a reconciliation leaves the users of the
active delegates and no other delegate-shaped one, in whatever order its two
loops take their sets; users of other names stay as they are, and a second one
finds nothing to remove.
-/

namespace LoneReconciliation

open AclReconciliation KeyedTable Models RedisAcl Uuid

/-- What `reconcile` returns. -/
structure Reconciled where
  provisioned : List String
  removed : List String

def sorted (names : List String) : List String := names.mergeSort (fun a b => decide (a ≤ b))

/-- `reconcile`, with the orders its loops take the two sets in; an active id
comes with the secret that is drawn for it. -/
def reconcile (acl : Acl) (stale : List String) (active : List (String × String)) :
    Acl × Reconciled :=
  let acl := stale.foldl delUser acl
  let acl := active.foldl (fun acl p => provisionDelegate acl p.1 p.2) acl
  (acl, { provisioned := sorted (active.map Prod.fst), removed := sorted stale })

/-- The elements of a set, each once, in some order. -/
def Iterates (order set : List String) : Prop :=
  order.Nodup ∧ ∀ name, name ∈ order ↔ name ∈ set

/-- Orders a reconciliation of these ids can take its sets in. -/
structure Orders (acl : Acl) (ids : List UUID) (stale : List String)
    (active : List (String × String)) : Prop where
  stale : Iterates stale (staleUsers acl (ids.map str))
  active : Iterates (active.map Prod.fst) (ids.map str)

def isSpace (c : Char) : Bool :=
  c = ' ' || c = '\t' || c = '\n' || c = '\x0b' || c = '\x0c' || c = '\r'

/-- A name ACL SETUSER takes: no blanks and no NUL. -/
def Admissible (name : String) : Prop := ∀ c ∈ name.toList, isSpace c = false ∧ c ≠ '\x00'

/-- The names with a property, each once and in order. -/
def Lists (names : List String) (P : String → Prop) : Prop :=
  names.Pairwise (· ≤ ·) ∧ names.Nodup ∧ ∀ name, name ∈ names ↔ P name

/-- A user up to its passwords. -/
def permissions (user : User) : User := { user with passwords := [] }

section Loops
variable {acl : Acl} {stale : List String} {active : List (String × String)} {k : String}

theorem get?_removed :
    (stale.foldl delUser acl).get? k = if k ∈ stale then none else acl.get? k := by
  induction stale generalizing acl with
  | nil => simp
  | cons name stale ih =>
    rw [List.foldl_cons, ih, delUser, get?_erase]
    by_cases hk : k = name
    · simp [hk]
    · simp [hk]

theorem get?_provisioned_of_notMem (h : k ∉ active.map Prod.fst) :
    (active.foldl (fun acl p => provisionDelegate acl p.1 p.2) acl).get? k = acl.get? k := by
  induction active generalizing acl with
  | nil => rfl
  | cons p active ih =>
    rw [List.map_cons, List.mem_cons, not_or] at h
    rw [List.foldl_cons, ih h.2, get?_provisionDelegate, if_neg h.1]

theorem get?_provisioned (nodup : (active.map Prod.fst).Nodup) {secret : String}
    (h : (k, secret) ∈ active) :
    (active.foldl (fun acl p => provisionDelegate acl p.1 p.2) acl).get? k =
      some (delegateUser k secret) := by
  induction active generalizing acl with
  | nil => cases h
  | cons p active ih =>
    rw [List.map_cons, List.nodup_cons] at nodup
    rw [List.foldl_cons]
    rcases List.mem_cons.mp h with rfl | h
    · rw [get?_provisioned_of_notMem nodup.1, get?_provisionDelegate, if_pos rfl]
    · exact ih nodup.2 h

theorem sorted_perm (names : List String) : (sorted names).Perm names := List.mergeSort_perm _ _

theorem sorted_pairwise (names : List String) : (sorted names).Pairwise (· ≤ ·) := by
  have h := @List.pairwise_mergeSort String (fun a b => decide (a ≤ b)) ?_ ?_ names
  · rw [sorted]
    simpa only [decide_eq_true_eq] using h
  · intro a b c hab hbc
    simp only [decide_eq_true_eq] at hab hbc ⊢
    exact String.le_trans hab hbc
  · intro a b
    simp only [Bool.or_eq_true, decide_eq_true_eq]
    exact String.le_total a b

end Loops

section Converging
variable {acl : Acl} {ids : List UUID} {stale : List String} {active : List (String × String)}
variable {name secret : String}

theorem mem_users : name ∈ users acl ↔ HasUser acl name := by
  unfold HasUser
  rw [users, Option.isSome_iff_ne_none, ne_eq, get?_eq_none_iff, List.mem_map]
  simp

theorem mem_staleUsers : name ∈ staleUsers acl (ids.map str) ↔
    HasUser acl name ∧ isDelegateUser name = true ∧ ∀ u ∈ ids, name ≠ str u := by
  have hids : name ∉ ids.map str ↔ ∀ u ∈ ids, name ≠ str u := by
    simp [List.mem_map, eq_comm]
  rw [staleUsers, List.mem_filter, Bool.and_eq_true, decide_eq_true_eq, mem_users, hids]

/-- Among the names Redis takes, the delegate-shaped ones are the canonical UUIDs. -/
theorem admissible_delegate (h : Admissible name) :
    isDelegateUser name = true ↔ ∃ u, name = str u := by
  apply isDelegateUser_iff
  intro hmem
  have hspace := (h '\n' hmem).1
  simp [isSpace] at hspace

/-- The users after a reconciliation. -/
theorem get?_reconcile (orders : Orders acl ids stale active) :
    (∀ p ∈ active, (reconcile acl stale active).1.get? p.1 = some (delegateUser p.1 p.2)) ∧
      ∀ name, (∀ u ∈ ids, name ≠ str u) → (reconcile acl stale active).1.get? name =
        if name ∈ stale then none else acl.get? name := by
  constructor
  · intro p hp
    exact get?_provisioned orders.active.1 hp
  · intro name hname
    have hnot : name ∉ active.map Prod.fst := by
      intro hmem
      obtain ⟨u, hu, he⟩ := List.mem_map.mp ((orders.active.2 name).mp hmem)
      exact hname u hu he.symm
    rw [reconcile, get?_provisioned_of_notMem hnot, get?_removed]

theorem lists_sorted {order set : List String} {P : String → Prop} (h : Iterates order set)
    (hset : ∀ name, name ∈ set ↔ P name) : Lists (sorted order) P := by
  refine ⟨sorted_pairwise order, (sorted_perm order).nodup_iff.mpr h.1, fun name => ?_⟩
  rw [(sorted_perm order).mem_iff, h.2, hset]

theorem mem_ids : name ∈ ids.map str ↔ ∃ u ∈ ids, name = str u := by
  simp [List.mem_map, eq_comm]

theorem str_notMem {u : UUID} (h : u ∉ ids) : ∀ v ∈ ids, str u ≠ str v := by
  intro v hv he
  exact h (str_injective he ▸ hv)

/-- Every id is provisioned, with the secret drawn for it. -/
theorem get?_active (orders : Orders acl ids stale active) {u : UUID} (hu : u ∈ ids) :
    ∃ secret, (str u, secret) ∈ active ∧
      (reconcile acl stale active).1.get? (str u) = some (delegateUser (str u) secret) := by
  obtain ⟨p, hp, he⟩ := List.mem_map.mp
    ((orders.active.2 (str u)).mpr (mem_ids.mpr ⟨u, hu, rfl⟩))
  have hget := (get?_reconcile orders).1 p hp
  rw [he] at hget
  exact ⟨p.2, he ▸ hp, hget⟩

/-- A delegate-shaped user that is not active is deleted. -/
theorem get?_inactive (orders : Orders acl ids stale active)
    (names : ∀ name, HasUser acl name → Admissible name) {u : UUID} (hu : u ∉ ids) :
    (reconcile acl stale active).1.get? (str u) = none := by
  rw [(get?_reconcile orders).2 (str u) (str_notMem hu)]
  split
  · rfl
  · rename_i hstale
    by_contra hsome
    have huser : HasUser acl (str u) := Option.isSome_iff_ne_none.mpr hsome
    apply hstale
    rw [orders.stale.2, mem_staleUsers]
    exact ⟨huser, (admissible_delegate (names _ huser)).mpr ⟨u, rfl⟩, str_notMem hu⟩

theorem get?_other (orders : Orders acl ids stale active)
    (names : ∀ name, HasUser acl name → Admissible name) (hname : ∀ u, name ≠ str u) :
    (reconcile acl stale active).1.get? name = acl.get? name := by
  rw [(get?_reconcile orders).2 name (fun u _ => hname u), if_neg]
  rw [orders.stale.2, mem_staleUsers]
  rintro ⟨huser, hshape, -⟩
  obtain ⟨u, hu⟩ := (admissible_delegate (names name huser)).mp hshape
  exact hname u hu

theorem hasUser_reconcile (orders : Orders acl ids stale active)
    (names : ∀ name, HasUser acl name → Admissible name) (u : UUID) :
    HasUser (reconcile acl stale active).1 (str u) ↔ u ∈ ids := by
  unfold HasUser
  constructor
  · intro h
    by_contra hu
    rw [get?_inactive orders names hu] at h
    cases h
  · intro hu
    obtain ⟨secret, -, hget⟩ := get?_active orders hu
    rw [hget]
    rfl

/-- What a reconciliation has left is stale for no other one of the same ids. -/
theorem stale_again (orders : Orders acl ids stale active)
    (names : ∀ name, HasUser acl name → Admissible name) :
    staleUsers (reconcile acl stale active).1 (ids.map str) = [] := by
  rw [List.eq_nil_iff_forall_not_mem]
  intro name hmem
  obtain ⟨huser, hshape, hids⟩ := mem_staleUsers.mp hmem
  by_cases hname : ∃ u, name = str u
  · obtain ⟨u, rfl⟩ := hname
    exact hids u ((hasUser_reconcile orders names u).mp huser) rfl
  · rw [not_exists] at hname
    unfold HasUser at huser
    rw [get?_other orders names hname] at huser
    exact absurd ((admissible_delegate (names name huser)).mp hshape) (not_exists.mpr hname)

/-- A reconciliation leaves the active ids as the only delegate-shaped users,
each as the rules make it, and every other user as it was; it returns what it
did; and another one changes nothing but passwords. -/
theorem reconcile_converges (acl : Acl) (ids : List UUID) (stale : List String)
    (active : List (String × String)) (names : ∀ name, HasUser acl name → Admissible name)
    (orders : Orders acl ids stale active) :
    (∀ u, HasUser (reconcile acl stale active).1 (str u) ↔ u ∈ ids) ∧
    (∀ u ∈ ids, ∃ secret, (str u, secret) ∈ active ∧
      (reconcile acl stale active).1.get? (str u) =
        some ((delegateRules (str u) secret).foldl User.apply (.new (str u)))) ∧
    (∀ name, (∀ u, name ≠ str u) → (reconcile acl stale active).1.get? name = acl.get? name) ∧
    Lists (reconcile acl stale active).2.provisioned (fun name => ∃ u ∈ ids, name = str u) ∧
    Lists (reconcile acl stale active).2.removed
      (fun name => HasUser acl name ∧ ∃ u, name = str u ∧ u ∉ ids) ∧
    ∀ stale' active', Orders (reconcile acl stale active).1 ids stale' active' →
      (reconcile (reconcile acl stale active).1 stale' active').2.removed = [] ∧
      ∀ name, ((reconcile (reconcile acl stale active).1 stale' active').1.get? name).map permissions =
        ((reconcile acl stale active).1.get? name).map permissions := by
  refine ⟨hasUser_reconcile orders names, ?_, fun name => get?_other orders names,
    lists_sorted orders.active (fun name => mem_ids), lists_sorted orders.stale ?_, ?_⟩
  · intro u hu
    obtain ⟨secret, hmem, hget⟩ := get?_active orders hu
    exact ⟨secret, hmem, by rw [hget, applyAll_delegateRules (.new (str u)) (str u) secret rfl]⟩
  · intro name
    rw [mem_staleUsers]
    constructor
    · rintro ⟨huser, hshape, hids⟩
      obtain ⟨u, rfl⟩ := (admissible_delegate (names name huser)).mp hshape
      exact ⟨huser, u, rfl, fun hu => hids u hu rfl⟩
    · rintro ⟨huser, u, rfl, hu⟩
      exact ⟨huser, (admissible_delegate (names _ huser)).mpr ⟨u, rfl⟩, str_notMem hu⟩
  · intro stale' active' again
    obtain rfl : stale' = [] := by
      rw [List.eq_nil_iff_forall_not_mem]
      intro name hmem
      have h := (again.stale.2 name).mp hmem
      rw [stale_again orders names] at h
      cases h
    refine ⟨by simp [reconcile, sorted], fun name => ?_⟩
    by_cases hname : ∃ u ∈ ids, name = str u
    · obtain ⟨u, hu, rfl⟩ := hname
      obtain ⟨secret, -, hget⟩ := get?_active orders hu
      obtain ⟨secret', -, hget'⟩ := get?_active again hu
      rw [hget, hget']
      rfl
    · have hother : ∀ u ∈ ids, name ≠ str u := fun u hu he => hname ⟨u, hu, he⟩
      rw [(get?_reconcile again).2 name hother, if_neg (by simp)]

/-- The admin, a delegate that is not active any more, and a look-alike. -/
def mixedAcl : Acl where
  rows := [⟨"cp-admin", true, ["p"], [⟨"*", true, true⟩], ["*"], ["@all"]⟩,
    ⟨str 2, true, [], [⟨"*", true, true⟩], [], []⟩, ⟨"agent", true, [], [], [], []⟩]
  unique := by decide +kernel

theorem mixedAcl_admissible : ∀ name, HasUser mixedAcl name → Admissible name := by
  intro name h
  have hmem : name ∈ ["cp-admin", str 2, "agent"] := mem_users.mpr h
  have all : ["cp-admin", str 2, "agent"].all (fun name =>
      name.toList.all (fun c => !isSpace c && c != '\x00')) = true := by decide +kernel
  intro c hc
  have hall := List.all_eq_true.mp (List.all_eq_true.mp all name hmem) c hc
  simpa using hall

theorem mixedAcl_orders : Orders mixedAcl [1] [str 2] [(str 1, "t")] where
  stale := by
    have hstale : staleUsers mixedAcl ([(1 : UUID)].map str) = [str 2] := by decide +kernel
    rw [hstale]
    exact ⟨List.nodup_singleton _, fun _ => Iff.rfl⟩
  active := ⟨List.nodup_singleton _, fun _ => Iff.rfl⟩

theorem mixedAcl_converges :
    (∀ u, HasUser (reconcile mixedAcl [str 2] [(str 1, "t")]).1 (str u) ↔ u ∈ [(1 : UUID)]) ∧
    (∀ u ∈ [(1 : UUID)], ∃ secret, (str u, secret) ∈ [(str 1, "t")] ∧
      (reconcile mixedAcl [str 2] [(str 1, "t")]).1.get? (str u) =
        some ((delegateRules (str u) secret).foldl User.apply (.new (str u)))) ∧
    (∀ name, (∀ u, name ≠ str u) →
      (reconcile mixedAcl [str 2] [(str 1, "t")]).1.get? name = mixedAcl.get? name) ∧
    Lists (reconcile mixedAcl [str 2] [(str 1, "t")]).2.provisioned
      (fun name => ∃ u ∈ [(1 : UUID)], name = str u) ∧
    Lists (reconcile mixedAcl [str 2] [(str 1, "t")]).2.removed
      (fun name => HasUser mixedAcl name ∧ ∃ u, name = str u ∧ u ∉ [(1 : UUID)]) ∧
    ∀ stale' active', Orders (reconcile mixedAcl [str 2] [(str 1, "t")]).1 [1] stale' active' →
      (reconcile (reconcile mixedAcl [str 2] [(str 1, "t")]).1 stale' active').2.removed = [] ∧
      ∀ name, ((reconcile (reconcile mixedAcl [str 2] [(str 1, "t")]).1 stale' active').1.get?
          name).map permissions =
        ((reconcile mixedAcl [str 2] [(str 1, "t")]).1.get? name).map permissions :=
  reconcile_converges mixedAcl [1] [str 2] [(str 1, "t")] mixedAcl_admissible mixedAcl_orders

end Converging

/-- An operation runs to its end with no other command in between. -/
inductive Alone (db : DB) : Acl → Option Op → Acl → Prop
  | done {acl : Acl} : Alone db acl none acl
  | step {acl acl' last : Acl} {op : Op} {op' : Option Op} {name secret : String} :
      opStep db acl name secret op = some (db, acl', op') → Alone db acl' op' last →
      Alone db acl (some op) last

section Runs
variable {db : DB} {acl last : Acl} {stale active : List String}

theorem iterates_cons {name : String} {order set : List String} (hmem : name ∈ set)
    (nodup : set.Nodup) (h : Iterates order (set.erase name)) : Iterates (name :: order) set := by
  refine ⟨List.nodup_cons.mpr ⟨?_, h.1⟩, fun k => ?_⟩
  · intro hname
    exact (List.Nodup.mem_erase_iff nodup).mp ((h.2 name).mp hname) |>.1 rfl
  · rw [List.mem_cons, h.2, List.Nodup.mem_erase_iff nodup]
    by_cases hk : k = name
    · simp [hk, hmem]
    · simp [hk]

/-- The second loop takes the active ids in some order, each with its secret. -/
theorem alone_active (h : Alone db acl (some (.apply [] active)) last) (nodup : active.Nodup) :
    ∃ provisions : List (String × String), Iterates (provisions.map Prod.fst) active ∧
      provisions.foldl (fun acl p => provisionDelegate acl p.1 p.2) acl = last := by
  generalize hn : active.length = n at h
  induction n generalizing acl active with
  | zero =>
    obtain rfl := List.eq_nil_of_length_eq_zero hn
    cases h with
    | step hstep hrest =>
      cases hstep
      cases hrest
      exact ⟨[], ⟨List.nodup_nil, fun _ => Iff.rfl⟩, rfl⟩
  | succ n ih =>
    cases active with
    | nil => cases hn
    | cons first active =>
      cases h with
      | @step _ acl' _ _ op' name secret hstep hrest =>
        cases opStep_moves hstep with
        | set hmem =>
          have hlen : ((first :: active).erase name).length = n := by
            rw [List.length_erase_of_mem hmem, hn]
            rfl
          obtain ⟨provisions, hiter, hlast⟩ := ih hrest (nodup.erase name) hlen
          exact ⟨(name, secret) :: provisions, iterates_cons hmem nodup hiter, hlast⟩

/-- The first loop takes the stale ones in some order before. -/
theorem alone_apply (h : Alone db acl (some (.apply stale active)) last) (nodup : stale.Nodup)
    (nodup' : active.Nodup) :
    ∃ order provisions, Iterates order stale ∧ Iterates (provisions.map Prod.fst) active ∧
      (reconcile acl order provisions).1 = last := by
  generalize hn : stale.length = n at h
  induction n generalizing acl stale with
  | zero =>
    obtain rfl := List.eq_nil_of_length_eq_zero hn
    obtain ⟨provisions, hiter, hlast⟩ := alone_active h nodup'
    exact ⟨[], provisions, ⟨List.nodup_nil, fun _ => Iff.rfl⟩, hiter, hlast⟩
  | succ n ih =>
    cases stale with
    | nil => cases hn
    | cons first stale =>
      cases h with
      | @step _ acl' _ _ op' name secret hstep hrest =>
        cases opStep_moves hstep with
        | delete hmem =>
          have hlen : ((first :: stale).erase name).length = n := by
            rw [List.length_erase_of_mem hmem, hn]
            rfl
          obtain ⟨order, provisions, horder, hiter, hlast⟩ := ih hrest (nodup.erase name) hlen
          exact ⟨name :: order, provisions, iterates_cons hmem nodup horder, hiter, hlast⟩

theorem nodup_staleUsers (acl : Acl) (active : List String) : (staleUsers acl active).Nodup :=
  acl.unique.filter _

theorem nodup_activeIds (db : DB) : ((activeIds db).map str).Nodup := by
  have hids : (activeIds db).Nodup :=
    db.delegates.unique.sublist (List.filter_sublist.map Delegate.id)
  exact hids.map (fun _ _ h => str_injective h)

/-- A reconciliation with no other command in between is `reconcile`, in the
orders its loops have taken. -/
theorem alone_reconciles (h : Alone db acl (some .readActive) last) :
    ∃ stale active, Orders acl (activeIds db) stale active ∧
      (reconcile acl stale active).1 = last := by
  cases h with
  | step hstep hrest =>
    cases hstep
    cases hrest with
    | step hstep hrest =>
      cases hstep
      obtain ⟨order, provisions, horder, hiter, hlast⟩ :=
        alone_apply hrest (nodup_staleUsers acl _) (nodup_activeIds db)
      exact ⟨order, provisions, ⟨horder, hiter⟩, hlast⟩

end Runs

end LoneReconciliation
