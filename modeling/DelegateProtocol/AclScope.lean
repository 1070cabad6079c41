import DelegateProtocol.RedisAcl
import DelegateProtocol.Lib.Glob

/-!
# The keys of a delegate

The rules of a delegate name its keys by a prefix and the global stream by its
name. What Redis makes of them is the whole scope of the delegate: its streams
and its broker keys, no key of another delegate, and the global stream for
writing only.
-/

namespace AclScope

open Glob KeyedTable RedisAcl Streams Uuid

/-- One rule gives everything that is asked for at a key. -/
def permits (user : User) (read write : Bool) (key : String) : Bool :=
  user.keys.any (fun rule => (!read || rule.read) && (!write || rule.write) &&
    isMatch rule.pattern key)

def CanRead (user : User) (key : String) : Prop := permits user true false key = true

def CanWrite (user : User) (key : String) : Prop := permits user false true key = true

def FullAccess (user : User) (key : String) : Prop := permits user true true key = true

/-- A key of the broker under kombu's `global_keyprefix`. -/
def brokerKey (delegateId key : String) : String := delegatePrefix delegateId ++ key

section Scope
variable {a b : UUID} {key secret : String} {read write : Bool}

theorem canonical_plain {c : Char} (h : Canonical c) : Plain c := by
  refine ⟨?_, ?_, ?_, ?_⟩ <;> rintro rfl <;> revert h <;> simp [Canonical] <;> decide

theorem plain_of_all {text : String} (h : text.toList.all (fun c => decide (Plain c)) = true) :
    ∀ c ∈ text.toList, Plain c :=
  fun c hc => of_decide_eq_true (List.all_eq_true.mp h c hc)

theorem delegatePrefix_plain (a : UUID) : ∀ c ∈ (delegatePrefix (str a)).toList, Plain c := by
  have hid : ∀ c ∈ (str a).toList, Plain c := by
    intro c hc
    rw [str, String.toList_ofList] at hc
    exact canonical_plain (hyphenate_canonical (fun c hc => hex_digit hc) c hc)
  have hword : ∀ c ∈ "delegate:".toList, Plain c := plain_of_all (by decide)
  have hcolon : ∀ c ∈ ":".toList, Plain c := plain_of_all (by decide)
  intro c hc
  simp only [delegatePrefix, String.toList_append, List.mem_append] at hc
  rcases hc with (hc | hc) | hc
  · exact hword c hc
  · exact hid c hc
  · exact hcolon c hc

theorem global_plain : ∀ c ∈ globalExecutionEventsStream.toList, Plain c :=
  plain_of_all (by decide)

/-- The keys of a delegate are those below its prefix, and the global stream
where nothing is read. -/
theorem permits_delegateUser : permits (delegateUser (str a) secret) read write key = true ↔
    StartsWith key (delegatePrefix (str a)) ∨ read = false ∧ key = globalExecutionEventsStream := by
  have hbelow := @isMatch_star (delegatePrefix (str a)) key (delegatePrefix_plain a)
  have hglobal := @isMatch_plain globalExecutionEventsStream key global_plain
  simp only [permits, delegateUser, List.any_cons, List.any_nil, Bool.or_false, Bool.or_true,
    Bool.true_and, Bool.or_eq_true, Bool.and_eq_true, Bool.not_eq_true', and_true, hbelow,
    hglobal, StartsWith]

theorem startsWith_delegate {suffix : String}
    (h : StartsWith (delegatePrefix (str b) ++ suffix) (delegatePrefix (str a))) : b = a := by
  obtain ⟨rest, hrest⟩ := h
  have hl := congrArg String.toList hrest
  simp only [delegatePrefix, String.toList_append, List.append_assoc,
    List.append_cancel_left_eq] at hl
  obtain ⟨hid, -⟩ := List.append_inj hl ((str_length b).trans (str_length a).symm)
  exact str_injective (String.toList_inj.mp hid)

theorem global_outside (delegateId : String) :
    ¬ StartsWith globalExecutionEventsStream (delegatePrefix delegateId) := by
  rintro ⟨rest, hrest⟩
  have hc := congrArg (fun s => s.toList.head?) hrest
  simp [delegatePrefix, globalExecutionEventsStream] at hc

theorem startsWith_ne_global {delegateId suffix : String} :
    delegatePrefix delegateId ++ suffix ≠ globalExecutionEventsStream := by
  intro h
  exact global_outside delegateId ⟨suffix, h.symm⟩

/-- What is neither below the prefix of the delegate nor the global stream is
out of its reach. -/
theorem outside_denied (hbelow : ¬ StartsWith key (delegatePrefix (str a)))
    (hglobal : key ≠ globalExecutionEventsStream) :
    ¬ permits (delegateUser (str a) secret) read write key = true := by
  intro h
  rcases permits_delegateUser.mp h with h | ⟨-, h⟩
  · exact hbelow h
  · exact hglobal h

/-- The scope of a delegate, whatever its user could do before, and the names of
its streams. -/
theorem delegate_scope (acl : Acl) (a : UUID) (secret : String) :
    (∃ user, (provisionDelegate acl (str a) secret).get? (str a) = some user ∧
      (∀ executionId kind, FullAccess user ((streamKeys executionId (str a)).key kind)) ∧
      (∀ key, FullAccess user (brokerKey (str a) key)) ∧
      CanWrite user globalExecutionEventsStream ∧ ¬ CanRead user globalExecutionEventsStream ∧
      (∀ b, b ≠ a → ∀ suffix, ¬ CanRead user (delegatePrefix (str b) ++ suffix) ∧
        ¬ CanWrite user (delegatePrefix (str b) ++ suffix)) ∧
      ∀ key, ¬ StartsWith key (delegatePrefix (str a)) → key ≠ globalExecutionEventsStream →
        ¬ CanRead user key ∧ ¬ CanWrite user key) ∧
    ∀ executionId executionId' delegate delegate' kind kind',
      (streamKeys executionId (str delegate)).key kind =
        (streamKeys executionId' (str delegate')).key kind' →
      executionId = executionId' ∧ delegate = delegate' ∧ kind = kind' := by
  constructor
  · refine ⟨delegateUser (str a) secret, ?_, ?_, ?_, ?_, ?_, ?_, ?_⟩
    · rw [get?_provisionDelegate, if_pos rfl]
    · intro executionId kind
      exact permits_delegateUser.mpr (Or.inl (streamKeys_startsWith executionId (str a) kind))
    · intro key
      exact permits_delegateUser.mpr (Or.inl ⟨key, rfl⟩)
    · exact permits_delegateUser.mpr (Or.inr ⟨rfl, rfl⟩)
    · intro h
      rcases permits_delegateUser.mp h with h | ⟨h, -⟩
      · exact global_outside (str a) h
      · cases h
    · intro b hb suffix
      have hbelow : ¬ StartsWith (delegatePrefix (str b) ++ suffix) (delegatePrefix (str a)) :=
        fun h => hb (startsWith_delegate h)
      exact ⟨outside_denied hbelow startsWith_ne_global,
        outside_denied hbelow startsWith_ne_global⟩
    · intro key hbelow hglobal
      exact ⟨outside_denied hbelow hglobal, outside_denied hbelow hglobal⟩
  · intro executionId executionId' delegate delegate' kind kind' h
    obtain rfl := key_execution h
    have hdelegate : delegate = delegate' := by
      have hstart := streamKeys_startsWith executionId (str delegate') kind'
      rw [← h, streamKeys_key] at hstart
      exact startsWith_delegate hstart
    subst hdelegate
    exact ⟨rfl, rfl, key_injective h⟩

end Scope

end AclScope
