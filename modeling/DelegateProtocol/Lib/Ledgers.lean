import Mathlib.Algebra.Order.Group.Multiset
import DelegateProtocol.Lib.StepMachine

/-!
# What is owed and what is paid

A state owes some items, and an observation may pay one. A step that owes nothing
new pays only what was owed before, and what it leaves is still owed; then so does
a whole run.
-/

namespace Ledgers

open StepMachine

universe u v w x

variable {σ : Type u} {α : Type v} {ω : Type w} {μ : Type x}

/-- The items that observations pay. -/
def paid (pays : ω → Option μ) (o : List ω) : Multiset μ := ↑(o.filterMap pays)

variable {M : Machine σ α ω} {ok : σ → α → Prop} {pays : ω → Option μ} {owed : σ → Multiset μ}
variable {s t : σ} {as : List α} {o o' : List ω}

@[simp] theorem paid_nil : paid pays ([] : List ω) = 0 := rfl

theorem mem_paid {m : μ} : m ∈ paid pays o ↔ ∃ x ∈ o, pays x = some m := by
  rw [paid, Multiset.mem_coe, List.mem_filterMap]

theorem paid_append : paid pays (o ++ o') = paid pays o + paid pays o' := by
  rw [paid, List.filterMap_append, ← Multiset.coe_add]
  rfl

theorem paid_run (I : σ → Prop) (start : I s)
    (keeps : ∀ {s a t o'}, I s → ok s a → M.step s a = some (t, o') → I t)
    (steps : ∀ {s a t o'}, I s → ok s a → M.step s a = some (t, o') →
      paid pays o' + owed t ≤ owed s)
    (h : Run M ok s as t o) : paid pays o + owed t ≤ owed s := by
  have both : I t ∧ paid pays o + owed t ≤ owed s := by
    refine h.invariant (fun t o => I t ∧ paid pays o + owed t ≤ owed s)
      ⟨start, (zero_add _).le⟩ ?_
    intro t o a u o' hi hok hs
    refine ⟨keeps hi.1 hok hs, ?_⟩
    calc paid pays (o ++ o') + owed u
        = paid pays o + (paid pays o' + owed u) := by rw [paid_append, add_assoc]
      _ ≤ paid pays o + owed t := add_le_add le_rfl (steps hi.1 hok hs)
      _ ≤ owed s := hi.2
  exact both.2

/-- Where components owe items, replacing one of them replaces what it owes. -/
theorem owed_set {β : Type u} {owes : β → Multiset μ} {l : List β} {i : Nat} {x y : β}
    (hx : l[i]? = some x) :
    ((l.set i y).map owes).sum + owes x = (l.map owes).sum + owes y := by
  induction l generalizing i with
  | nil => simp at hx
  | cons z zs ih =>
    cases i with
    | zero =>
      obtain rfl := Option.some.inj hx
      simp only [List.set_cons_zero, List.map_cons, List.sum_cons]
      ac_rfl
    | succ i =>
      have hrest := ih (List.getElem?_cons_succ ▸ hx)
      simp only [List.set_cons_succ, List.map_cons, List.sum_cons, add_assoc, hrest]

theorem mem_owed {β : Type u} {owes : β → Multiset μ} {l : List β} {m : μ} :
    m ∈ (l.map owes).sum ↔ ∃ x ∈ l, m ∈ owes x := by
  induction l with
  | nil => simp
  | cons x xs ih => simp [ih]

end Ledgers
