import Mathlib.Data.List.Basic

/-!
# A live copy and a saved one

A store keeps a copy in memory that is changed, and one on disk that is only
written as a whole. A restart loads the saved copy. What every change keeps holds
of both copies for good, once it holds of both.
-/

namespace SavedCopies

universe u v

structure Copies (α : Type u) where
  live : α
  saved : α

inductive Event (α : Type u) where
  | change (f : α → α)
  | save
  | reload

variable {α : Type u} {c : Copies α} {P : α → Prop} {f : α → α} {e : Event α}
variable {es es' es'' : List (Event α)}

namespace Copies

def apply (c : Copies α) : Event α → Copies α
  | .change f => { c with live := f c.live }
  | .save => { c with saved := c.live }
  | .reload => { c with live := c.saved }

def perform (c : Copies α) (es : List (Event α)) : Copies α := es.foldl apply c

theorem perform_append : c.perform (es ++ es') = (c.perform es).perform es' := List.foldl_append

theorem perform_cons : c.perform (e :: es) = (c.apply e).perform es := rfl

end Copies

def Keeps (P : α → Prop) : Event α → Prop
  | .change f => ∀ a, P a → P (f a)
  | _ => True

/-- The property has come to stay. -/
def Lasting (P : α → Prop) (c : Copies α) : Prop := P c.live ∧ P c.saved

theorem Lasting.apply (h : Lasting P c) (keeps : Keeps P e) : Lasting P (c.apply e) := by
  cases e with
  | change f => exact ⟨keeps _ h.1, h.2⟩
  | save => exact ⟨h.1, h.1⟩
  | reload => exact ⟨h.2, h.2⟩

theorem Lasting.perform (h : Lasting P c) (keeps : ∀ e ∈ es, Keeps P e) :
    Lasting P (c.perform es) := by
  induction es generalizing c with
  | nil => exact h
  | cons e es ih =>
    rw [Copies.perform_cons]
    exact ih (h.apply (keeps e (List.mem_cons_self ..)))
      (fun x hx => keeps x (List.mem_cons_of_mem _ hx))

/-- Up to a restart the live copy keeps a property by itself. -/
theorem live_perform (h : P c.live) (keeps : ∀ e ∈ es, Keeps P e) (noReload : .reload ∉ es) :
    P (c.perform es).live := by
  induction es generalizing c with
  | nil => exact h
  | cons e es ih =>
    rw [List.mem_cons, not_or] at noReload
    rw [Copies.perform_cons]
    refine ih ?_ (fun x hx => keeps x (List.mem_cons_of_mem _ hx)) noReload.2
    cases e with
    | change f => exact keeps _ (List.mem_cons_self ..) _ h
    | save => exact h
    | reload => exact False.elim (noReload.1 rfl)

/-- A change that brings a property about, and that is saved before a restart. -/
theorem lasting_of_saved (brings : ∀ a, P (f a)) (noReload : .reload ∉ es')
    (keeps : ∀ e ∈ es' ++ es'', Keeps P e) :
    Lasting P (c.perform (es ++ .change f :: (es' ++ .save :: es''))) := by
  rw [Copies.perform_append, Copies.perform_cons, Copies.perform_append, Copies.perform_cons]
  have live : P (((c.perform es).apply (.change f)).perform es').live :=
    live_perform (brings _) (fun e he => keeps e (List.mem_append_left _ he)) noReload
  have saved : Lasting P ((((c.perform es).apply (.change f)).perform es').apply .save) :=
    ⟨live, live⟩
  exact saved.perform (fun e he => keeps e (List.mem_append_right _ he))

end SavedCopies
