import DelegateProtocol.Models
import DelegateProtocol.Streams

/-!
# Redis ACL users

Every delegate has an ACL user named after its id. A user is what the rules it
was set with made of it; the ACL file, which only keeps users over a restart of
Redis, has a module of its own.
-/

namespace RedisAcl

open KeyedTable Models Streams Uuid

structure KeyRule where
  pattern : String
  read : Bool
  write : Bool
  deriving DecidableEq

structure User where
  name : String
  enabled : Bool
  passwords : List String
  keys : List KeyRule
  channels : List String
  commands : List String
  deriving DecidableEq

/-- The rules of ACL SETUSER that are used here. -/
inductive Rule where
  | reset
  | on
  | password (secret : String)
  | keys (pattern : String)
  | channels (pattern : String)
  | writeKeys (pattern : String)
  | noCommands
  | command (name : String)

/-- A user that may nothing, as ACL SETUSER creates it. -/
def User.new (name : String) : User := ⟨name, false, [], [], [], []⟩

def User.apply (user : User) : Rule → User
  | .reset => .new user.name
  | .on => { user with enabled := true }
  | .password secret => { user with passwords := user.passwords ++ [secret] }
  | .keys pattern => { user with keys := user.keys ++ [⟨pattern, true, true⟩] }
  | .channels pattern => { user with channels := user.channels ++ [pattern] }
  | .writeKeys pattern => { user with keys := user.keys ++ [⟨pattern, false, true⟩] }
  | .noCommands => { user with commands := [] }
  | .command name => { user with commands := user.commands ++ [name] }

abbrev Acl := Table User.name

def setUser (acl : Acl) (name : String) (rules : List Rule) : Acl :=
  acl.put (rules.foldl User.apply ((acl.get? name).getD (.new name)))

def delUser (acl : Acl) (name : String) : Acl := acl.erase name

/-- `ACL USERS`. -/
def users (acl : Acl) : List String := acl.rows.map User.name

def HasUser (acl : Acl) (name : String) : Prop := (acl.get? name).isSome

instance (acl : Acl) (name : String) : Decidable (HasUser acl name) :=
  inferInstanceAs (Decidable (_ = true))

def delegateCommands : List String :=
  ["xadd", "xread",
    "brpop", "lpush", "rpush", "llen", "lrange", "lpop", "rpop", "lrem",
    "zadd", "zrem", "zrangebyscore", "zrevrangebyscore",
    "hset", "hget", "hdel", "hgetall", "hexists",
    "sadd", "srem", "smembers",
    "set", "get", "evalsha", "script|load", "del", "exists", "expire",
    "multi", "exec", "discard", "watch", "unwatch",
    "publish", "subscribe", "psubscribe", "unsubscribe", "punsubscribe",
    "ping", "client|setinfo", "client|setname"]

def isLowerHex (c : Char) : Bool := ('0' ≤ c && c ≤ '9') || ('a' ≤ c && c ≤ 'f')

/-- Groups of lower-case hexadecimal digits of these lengths, joined by hyphens. -/
def matchGroups : List Nat → List Char → Bool
  | [], cs => cs.isEmpty
  | [n], cs => cs.length == n && cs.all isLowerHex
  | n :: ns, cs =>
    (cs.take n).length == n && (cs.take n).all isLowerHex && (cs.drop n).head? == some '-' &&
      matchGroups ns (cs.drop (n + 1))

/-- `_UUID_RE.match(name)`; the `$` also matches before a last newline. -/
def isDelegateUser (name : String) : Bool :=
  matchGroups [8, 4, 4, 4, 12] name.toList ||
    (name.toList.getLast? == some '\n' && matchGroups [8, 4, 4, 4, 12] name.toList.dropLast)

/-- `_rules(delegate_id)`; the secret is drawn anew each time. -/
def delegateRules (delegateId secret : String) : List Rule :=
  [.reset, .on, .password secret, .keys (delegatePrefix delegateId ++ "*"),
    .channels (delegatePrefix delegateId ++ "*"), .writeKeys globalExecutionEventsStream,
    .noCommands] ++ delegateCommands.map .command

def provisionDelegate (acl : Acl) (delegateId secret : String) : Acl :=
  setUser acl delegateId (delegateRules delegateId secret)

/-- The ids `_reconcile_acls` reads. -/
def activeIds (db : DB) : List UUID :=
  (db.delegates.rows.filter (fun d => decide (d.status = .active))).map Delegate.id

/-- The users `reconcile` takes for stale. -/
def staleUsers (acl : Acl) (active : List String) : List String :=
  (users acl).filter (fun name => isDelegateUser name && decide (name ∉ active))

section Effects
variable (acl : Acl) (name : String) (rules : List Rule)

theorem applyAll_name (user : User) : (rules.foldl User.apply user).name = user.name := by
  induction rules generalizing user with
  | nil => rfl
  | cons rule rules ih =>
    rw [List.foldl_cons, ih]
    cases rule <;> rfl

theorem getD_name : ((acl.get? name).getD (.new name)).name = name := by
  cases h : acl.get? name with
  | none => rfl
  | some user => exact get?_some_key h

@[simp] theorem hasUser_setUser {k : String} :
    HasUser (setUser acl name rules) k ↔ k = name ∨ HasUser acl k := by
  unfold HasUser setUser
  rw [get?_put, applyAll_name, getD_name]
  by_cases h : name = k
  · simp [h]
  · simp [h, Ne.symm h]

@[simp] theorem hasUser_provisionDelegate {k secret : String} :
    HasUser (provisionDelegate acl name secret) k ↔ k = name ∨ HasUser acl k :=
  hasUser_setUser acl name _

@[simp] theorem hasUser_delUser {k : String} :
    HasUser (delUser acl name) k ↔ k ≠ name ∧ HasUser acl k := by
  unfold HasUser delUser
  rw [get?_erase]
  by_cases h : k = name
  · simp [h]
  · simp [h]

/-- The user of a delegate, whatever it was before. -/
def delegateUser (delegateId secret : String) : User where
  name := delegateId
  enabled := true
  passwords := [secret]
  keys := [⟨delegatePrefix delegateId ++ "*", true, true⟩,
    ⟨globalExecutionEventsStream, false, true⟩]
  channels := [delegatePrefix delegateId ++ "*"]
  commands := delegateCommands

theorem applyAll_commands (user : User) (names : List String) :
    (names.map .command).foldl User.apply user =
      { user with commands := user.commands ++ names } := by
  induction names generalizing user with
  | nil => simp
  | cons name names ih =>
    rw [List.map_cons, List.foldl_cons, ih]
    simp [User.apply]

theorem applyAll_delegateRules (user : User) (delegateId secret : String)
    (h : user.name = delegateId) :
    (delegateRules delegateId secret).foldl User.apply user = delegateUser delegateId secret := by
  subst h
  rw [delegateRules, List.foldl_append, applyAll_commands]
  rfl

theorem get?_provisionDelegate {k secret : String} :
    (provisionDelegate acl name secret).get? k =
      if k = name then some (delegateUser name secret) else acl.get? k := by
  rw [provisionDelegate, setUser, applyAll_delegateRules _ name secret (getD_name acl name), get?_put]
  by_cases h : k = name
  · simp [h, delegateUser]
  · simp [h, Ne.symm h, delegateUser]

end Effects

section Names
variable {c : Char} {cs : List Char} {n : Nat} {ns : List Nat} {name : String}

theorem isLowerHex_iff : isLowerHex c = true ↔ ∃ d, d < 16 ∧ hexChar d = c := by
  constructor
  · intro h
    simp only [isLowerHex, Bool.or_eq_true, Bool.and_eq_true, decide_eq_true_eq,
      Char.le_def, UInt32.le_iff_toNat_le] at h
    have hc : Char.ofNat c.toNat = c := Char.ofNat_toNat c
    rcases h with ⟨hlow, hhigh⟩ | ⟨hlow, hhigh⟩
    · change 48 ≤ c.toNat at hlow
      change c.toNat ≤ 57 at hhigh
      refine ⟨c.toNat - 48, by omega, ?_⟩
      rw [hexChar, if_pos (by omega), Nat.add_sub_cancel' hlow, hc]
    · change 97 ≤ c.toNat at hlow
      change c.toNat ≤ 102 at hhigh
      have hsum : 87 + (c.toNat - 87) = c.toNat := by omega
      refine ⟨c.toNat - 87, by omega, ?_⟩
      rw [hexChar, if_neg (by omega), hsum, hc]
  · rintro ⟨d, hd, rfl⟩
    have all : ∀ d : Fin 16, isLowerHex (hexChar d) = true := by decide
    exact all ⟨d, hd⟩

/-- A group is followed by a hyphen and the other groups. -/
theorem matchGroups_cons (hne : ns ≠ []) : matchGroups (n :: ns) cs = true ↔
    ∃ group rest, cs = group ++ '-' :: rest ∧ group.length = n ∧
      group.all isLowerHex = true ∧ matchGroups ns rest = true := by
  cases ns with
  | nil => exact absurd rfl hne
  | cons m ns =>
    simp only [matchGroups, Bool.and_eq_true, beq_iff_eq]
    constructor
    · rintro ⟨⟨⟨hlen, hall⟩, hhead⟩, hrest⟩
      cases hd : cs.drop n with
      | nil => simp [hd] at hhead
      | cons c rest =>
        simp only [hd, List.head?_cons, Option.some.injEq] at hhead
        subst hhead
        have hdrop : cs.drop (n + 1) = rest := by
          rw [← List.drop_drop, hd]
          rfl
        refine ⟨cs.take n, rest, ?_, hlen, hall, hdrop ▸ hrest⟩
        rw [← hd, List.take_append_drop]
    · rintro ⟨group, rest, rfl, rfl, hall, hrest⟩
      simp [hall, hrest]

theorem matchGroups_single : matchGroups [n] cs = true ↔
    cs.length = n ∧ cs.all isLowerHex = true := by
  simp [matchGroups]

theorem matchGroups_str : matchGroups [8, 4, 4, 4, 12] cs = true ↔ ∃ u, cs = (str u).toList := by
  constructor
  · intro h
    rw [matchGroups_cons (by simp)] at h
    obtain ⟨a, rest, rfl, ha, ha', h⟩ := h
    rw [matchGroups_cons (by simp)] at h
    obtain ⟨b, rest, rfl, hb, hb', h⟩ := h
    rw [matchGroups_cons (by simp)] at h
    obtain ⟨c, rest, rfl, hc, hc', h⟩ := h
    rw [matchGroups_cons (by simp)] at h
    obtain ⟨d, e, rfl, hd, hd', h⟩ := h
    obtain ⟨he, he'⟩ := matchGroups_single.mp h
    obtain ⟨u, hu⟩ := @hex_surjective (a ++ (b ++ (c ++ (d ++ e))))
      (by simp only [List.length_append]; omega) (by
        intro x hx
        apply isLowerHex_iff.mp
        simp only [List.mem_append] at hx
        simp only [List.all_eq_true] at ha' hb' hc' hd' he'
        rcases hx with hx | hx | hx | hx | hx
        · exact ha' x hx
        · exact hb' x hx
        · exact hc' x hx
        · exact hd' x hx
        · exact he' x hx)
    exact ⟨u, by rw [str, String.toList_ofList, hu, hyphenate_groups ha hb hc hd]⟩
  · rintro ⟨u, hu⟩
    have hlen := hex_length u
    have hhex : ∀ x ∈ hex u, isLowerHex x = true := by
      intro x hx
      obtain ⟨d, hd, rfl⟩ := List.mem_map.mp hx
      exact isLowerHex_iff.mpr ⟨d, PyInt.padded_lt (by omega) hd, rfl⟩
    have part {l : List Char} (hl : ∀ x ∈ l, x ∈ hex u) : l.all isLowerHex = true :=
      List.all_eq_true.mpr (fun x hx => hhex x (hl x hx))
    rw [hu, str, String.toList_ofList, hyphenate, matchGroups_cons (by simp)]
    refine ⟨_, _, rfl, by simp [hlen], part (fun x hx => List.mem_of_mem_take hx), ?_⟩
    rw [matchGroups_cons (by simp)]
    refine ⟨_, _, rfl, by simp [hlen],
      part (fun x hx => List.mem_of_mem_drop (List.mem_of_mem_take hx)), ?_⟩
    rw [matchGroups_cons (by simp)]
    refine ⟨_, _, rfl, by simp [hlen],
      part (fun x hx => List.mem_of_mem_drop (List.mem_of_mem_take hx)), ?_⟩
    rw [matchGroups_cons (by simp)]
    refine ⟨_, _, rfl, by simp [hlen],
      part (fun x hx => List.mem_of_mem_drop (List.mem_of_mem_take hx)), ?_⟩
    exact matchGroups_single.mpr ⟨by simp [hlen], part (fun x hx => List.mem_of_mem_drop hx)⟩

/-- A name without line ends is that of a delegate if it is a canonical UUID. -/
theorem isDelegateUser_iff (h : '\n' ∉ name.toList) :
    isDelegateUser name = true ↔ ∃ u, name = str u := by
  have hlast : (name.toList.getLast? == some '\n') = false := by
    rw [beq_eq_false_iff_ne]
    intro hl
    exact h (List.mem_of_getLast? hl)
  rw [isDelegateUser, hlast, Bool.false_and, Bool.or_false, matchGroups_str]
  simp only [String.toList_inj]

end Names

end RedisAcl
