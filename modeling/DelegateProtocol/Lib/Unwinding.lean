import DelegateProtocol.Lib.StepMachine

/-!
# Machines that follow one another

One machine follows another along a relation between their states when some
steps of the other, or none at all, show what a view lets through of each step
of the one. Runs are then followed as a whole. What a view keeps out cannot be
told from standing still.
-/

namespace Unwinding

open StepMachine

universe u v w x y z

variable {σ : Type u} {τ : Type v} {α : Type w} {β : Type x} {ω : Type y} {ω' : Type z}
variable {M : Machine σ α ω} {N : Machine τ β ω'} {ok : σ → α → Prop} {related : σ → τ → Prop}
variable {view : ω → Option ω'}

def Follows (M : Machine σ α ω) (ok : σ → α → Prop) (N : Machine τ β ω')
    (related : σ → τ → Prop) (view : ω → Option ω') : Prop :=
  ∀ s t a s' o, related s t → ok s a → M.step s a = some (s', o) →
    ∃ bs t', Run N Free t bs t' (o.filterMap view) ∧ related s' t'

theorem Follows.run (h : Follows M ok N related view) {s s' : σ} {t : τ} {as : List α}
    {o : List ω} (start : related s t) (run : Run M ok s as s' o) :
    ∃ bs t', Run N Free t bs t' (o.filterMap view) ∧ related s' t' := by
  induction run with
  | start => exact ⟨[], t, .start, start⟩
  | @snoc as s₁ s' o o' a _ hok hs ih =>
    obtain ⟨bs, t₁, hr, hrel⟩ := ih
    obtain ⟨bs', t', hr', hrel'⟩ := h s₁ t₁ a s' o' hrel hok hs
    rw [List.filterMap_append]
    exact ⟨bs ++ bs', t', hr.append hr', hrel'⟩

end Unwinding
