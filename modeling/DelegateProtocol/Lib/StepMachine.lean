import Mathlib.Algebra.GroupWithZero.Nat
import Mathlib.Data.List.Induction

/-!
# Machines that act one step at a time

A machine is a partial step function: an action either is not enabled in a
state, or leads to one next state and lets a list of observations be made.
A run keeps its actions and its observations. The guard of a run is a
condition on the state before a step; `Free` asks for nothing.
-/

namespace StepMachine

universe u v w

structure Machine (σ : Type u) (α : Type v) (ω : Type w) where
  step : σ → α → Option (σ × List ω)

variable {σ : Type u} {α : Type v} {ω : Type w} {M : Machine σ α ω}
variable {ok : σ → α → Prop} {s₀ s t : σ} {as bs : List α} {a : α} {o o' : List ω}

def Free (_ : σ) (_ : α) : Prop := True

/-- The runs from `s₀` whose every step meets `ok` in the state before it. -/
inductive Run (M : Machine σ α ω) (ok : σ → α → Prop) (s₀ : σ) :
    List α → σ → List ω → Prop
  | start : Run M ok s₀ [] s₀ []
  | snoc {as : List α} {s t : σ} {o o' : List ω} {a : α} :
      Run M ok s₀ as s o → ok s a → M.step s a = some (t, o') →
      Run M ok s₀ (as ++ [a]) t (o ++ o')

/-- A state some run of free steps ends in. -/
def Reachable (M : Machine σ α ω) (s₀ s : σ) : Prop := ∃ as o, Run M Free s₀ as s o

theorem Run.single (hok : ok s a) (h : M.step s a = some (t, o)) :
    Run M ok s [a] t o := by
  simpa using Run.snoc Run.start hok h

theorem Run.mono {ok' : σ → α → Prop} (weaker : ∀ s a, ok s a → ok' s a)
    (h : Run M ok s₀ as s o) : Run M ok' s₀ as s o := by
  induction h with
  | start => exact .start
  | snoc _ hok hs ih => exact .snoc ih (weaker _ _ hok) hs

theorem Run.free (h : Run M ok s₀ as s o) : Run M Free s₀ as s o :=
  h.mono (fun _ _ _ => trivial)

/-- In a guard of free steps only the rest counts. -/
theorem run_free_and_iff {guard : σ → α → Prop} :
    Run M (fun s a => Free s a ∧ guard s a) s₀ as s o ↔ Run M guard s₀ as s o :=
  ⟨fun h => h.mono (fun _ _ ok => ok.2), fun h => h.mono (fun _ _ ok => ⟨trivial, ok⟩)⟩

/-- A condition on the actions alone can be checked on their list. -/
theorem Run.restrict {P : α → Prop} (h : Run M Free s₀ as s o) (all : ∀ a ∈ as, P a) :
    Run M (fun _ a => P a) s₀ as s o := by
  induction h with
  | start => exact .start
  | snoc _ _ hs ih =>
    have before := ih (fun x hx => all x (List.mem_append_left _ hx))
    exact .snoc before (all _ (List.mem_append_right _ (List.mem_singleton_self _))) hs

theorem Run.all {P : α → Prop} (h : Run M (fun _ a => P a) s₀ as s o) : ∀ a ∈ as, P a := by
  induction h with
  | start => simp
  | snoc _ hok _ ih => exact List.forall_mem_append.mpr ⟨ih, List.forall_mem_singleton.mpr hok⟩

/-- What holds at the start and is kept by every step that meets the guard
holds at the end of every run. -/
theorem Run.invariant (I : σ → List ω → Prop) (start : I s₀ [])
    (keeps : ∀ {s o a t o'}, I s o → ok s a → M.step s a = some (t, o') → I t (o ++ o'))
    (h : Run M ok s₀ as s o) : I s o := by
  induction h with
  | start => exact start
  | snoc _ hok hs ih => exact keeps ih hok hs

/-- The rule for an invariant that refers to the run so far. -/
theorem Run.invariant_along (I : List α → σ → List ω → Prop) (start : I [] s₀ [])
    (keeps : ∀ {as s o a t o'}, Run M ok s₀ as s o → I as s o → ok s a →
      M.step s a = some (t, o') → I (as ++ [a]) t (o ++ o'))
    (h : Run M ok s₀ as s o) : I as s o := by
  induction h with
  | start => exact start
  | snoc hr hok hs ih => exact keeps hr ih hok hs

/-- The rule for an invariant that says nothing of the observations. -/
theorem Run.state_invariant (I : σ → Prop) (start : I s₀)
    (keeps : ∀ {s a t o'}, I s → ok s a → M.step s a = some (t, o') → I t)
    (h : Run M ok s₀ as s o) : I s :=
  h.invariant (fun s _ => I s) start (fun hi hok hs => keeps hi hok hs)

theorem Run.append (h : Run M ok s₀ as s o) (h' : Run M ok s bs t o') :
    Run M ok s₀ (as ++ bs) t (o ++ o') := by
  induction h' with
  | start => simpa using h
  | snoc _ hok hs ih =>
    rw [← List.append_assoc, ← List.append_assoc]
    exact .snoc ih hok hs

/-- Run the actions of a list in order. -/
def replay (M : Machine σ α ω) : σ → List α → Option (σ × List ω)
  | s, [] => some (s, [])
  | s, a :: as =>
    match M.step s a with
    | none => none
    | some (t, o) =>
      match replay M t as with
      | none => none
      | some (u, o') => some (u, o ++ o')

theorem run_of_replay (h : replay M s as = some (t, o)) : Run M Free s as t o := by
  induction as generalizing s t o with
  | nil =>
    simp only [replay, Option.some.injEq, Prod.mk.injEq] at h
    obtain ⟨rfl, rfl⟩ := h
    exact .start
  | cons a as ih =>
    rw [replay] at h
    cases hs : M.step s a with
    | none => simp [hs] at h
    | some p =>
      obtain ⟨s₁, o₁⟩ := p
      cases hr : replay M s₁ as with
      | none => simp [hs, hr] at h
      | some q =>
        obtain ⟨u, o₂⟩ := q
        simp only [hs, hr, Option.some.injEq, Prod.mk.injEq] at h
        obtain ⟨rfl, rfl⟩ := h
        have first : Run M Free s [a] s₁ o₁ := Run.single trivial hs
        exact first.append (ih hr)

/-- A list of actions whose replay passes a test reaches a state that does. -/
theorem run_of_replay_test {p : σ × List ω → Bool} (h : (replay M s₀ as).any p = true) :
    ∃ s o, Run M Free s₀ as s o ∧ p (s, o) = true := by
  cases hr : replay M s₀ as with
  | none => simp [hr] at h
  | some r => exact ⟨r.1, r.2, run_of_replay hr, by simpa [hr] using h⟩

/-- The machine that refuses the steps which do not meet a guard. -/
def Machine.guarded (M : Machine σ α ω) (ok : σ → α → Prop) [∀ s a, Decidable (ok s a)] :
    Machine σ α ω where
  step s a := if ok s a then M.step s a else none

theorem run_of_guarded [∀ s a, Decidable (ok s a)] (h : Run (M.guarded ok) Free s₀ as s o) :
    Run M ok s₀ as s o := by
  induction h with
  | start => exact .start
  | @snoc _ s _ _ _ a _ _ hs ih =>
    by_cases hok : ok s a
    · exact .snoc ih hok (by simpa [Machine.guarded, hok] using hs)
    · simp [Machine.guarded, hok] at hs

/-- A list of actions whose replay meets a guard all along. -/
theorem guarded_run_of_replay_test [∀ s a, Decidable (ok s a)] {p : σ × List ω → Bool}
    (h : (replay (M.guarded ok) s₀ as).any p = true) :
    ∃ s o, Run M ok s₀ as s o ∧ p (s, o) = true := by
  obtain ⟨s, o, hr, hp⟩ := run_of_replay_test h
  exact ⟨s, o, run_of_guarded hr, hp⟩

/-- The steps of a run are those of its last action and of the run before it. -/
theorem Run.snoc_inv (h : Run M ok s₀ (as ++ [a]) t o) :
    ∃ s o₁ o₂, Run M ok s₀ as s o₁ ∧ ok s a ∧ M.step s a = some (t, o₂) ∧ o = o₁ ++ o₂ := by
  generalize hl : as ++ [a] = l at h
  cases h with
  | start => simp at hl
  | snoc hr hok hs =>
    obtain ⟨rfl, hb⟩ := List.append_inj' hl rfl
    obtain rfl := List.head_eq_of_cons_eq hb
    exact ⟨_, _, _, hr, hok, hs, rfl⟩

theorem Run.nil_inv (h : Run M ok s₀ [] t o) : t = s₀ ∧ o = [] := by
  generalize hl : ([] : List α) = l at h
  cases h with
  | start => exact ⟨rfl, rfl⟩
  | snoc => simp at hl

theorem Run.split (h : Run M ok s₀ (as ++ bs) t o) :
    ∃ s o₁ o₂, Run M ok s₀ as s o₁ ∧ Run M ok s bs t o₂ ∧ o = o₁ ++ o₂ := by
  induction bs using List.reverseRecOn generalizing t o with
  | nil => exact ⟨t, o, [], by simpa using h, .start, by simp⟩
  | append_singleton bs b ih =>
    rw [← List.append_assoc] at h
    obtain ⟨r, o₁, o₂, hr, hok, hs, rfl⟩ := h.snoc_inv
    obtain ⟨s, p, q, hp, hq, rfl⟩ := ih hr
    exact ⟨s, p, q ++ o₂, hp, .snoc hq hok hs, List.append_assoc _ _ _⟩

theorem Run.cons_inv (h : Run M ok s₀ (a :: bs) t o) :
    ∃ s o₁ o₂, ok s₀ a ∧ M.step s₀ a = some (s, o₁) ∧ Run M ok s bs t o₂ ∧ o = o₁ ++ o₂ := by
  have hl : a :: bs = [a] ++ bs := rfl
  rw [hl] at h
  obtain ⟨s, o₁, o₂, hfirst, hrest, rfl⟩ := h.split
  rw [← List.nil_append [a]] at hfirst
  obtain ⟨r, p, q, hstart, hok, hs, rfl⟩ := hfirst.snoc_inv
  obtain ⟨rfl, rfl⟩ := hstart.nil_inv
  exact ⟨s, q, o₂, hok, hs, hrest, by simp⟩

theorem Run.deterministic {ok' : σ → α → Prop} (h : Run M ok s₀ as s o)
    (h' : Run M ok' s₀ as t o') : t = s ∧ o' = o := by
  induction h generalizing t o' with
  | start => exact h'.nil_inv
  | snoc _ _ hs ih =>
    obtain ⟨s₁, o₁, o₂, hr, _, hs', rfl⟩ := h'.snoc_inv
    obtain ⟨rfl, rfl⟩ := ih hr
    obtain ⟨rfl, rfl⟩ := Prod.mk.inj (Option.some.inj (hs.symm.trans hs'))
    exact ⟨rfl, rfl⟩

/-- Where, under an invariant, good states go to good states exactly through
guarded steps and a bad state stays bad, a run ends well exactly if it met the
guard all along. -/
theorem Run.good_iff (I good : σ → Prop) (start : I s₀ ∧ good s₀) {guard : σ → α → Prop}
    (invariant : ∀ {s a t o'}, I s → ok s a → M.step s a = some (t, o') → I t)
    (keeps : ∀ {s a t o'}, I s → good s → ok s a → guard s a → M.step s a = some (t, o') → good t)
    (breaks : ∀ {s a t o'}, I s → good s → ok s a → ¬ guard s a → M.step s a = some (t, o') →
      ¬ good t)
    (stays : ∀ {s a t o'}, I s → ¬ good s → M.step s a = some (t, o') → ¬ good t)
    (h : Run M ok s₀ as s o) :
    good s ↔ Run M (fun s a => ok s a ∧ guard s a) s₀ as s o := by
  constructor
  · intro hg
    induction h with
    | start => exact .start
    | snoc hr hok hs ih =>
      have hi := hr.state_invariant I start.1 invariant
      have before := Classical.byContradiction fun hb => stays hi hb hs hg
      have met := Classical.byContradiction fun hn => breaks hi before hok hn hs hg
      exact .snoc (ih before) ⟨hok, met⟩ hs
  · intro hr
    have both : I s ∧ good s := by
      refine hr.state_invariant (fun s => I s ∧ good s) start ?_
      rintro s a t o' ⟨hi, hg⟩ ⟨hok, hmet⟩ hs
      exact ⟨invariant hi hok hs, keeps hi hg hok hmet hs⟩
    exact both.2

/-- Every state along a run is good exactly if the run met a guard that decides
whether a step stays among the good states. -/
theorem Run.always_iff (I good : σ → Prop) (start : I s₀ ∧ good s₀) {guard : σ → α → Prop}
    (invariant : ∀ {s a t o'}, I s → ok s a → M.step s a = some (t, o') → I t)
    (decides : ∀ {s a t o'}, I s → good s → ok s a → M.step s a = some (t, o') →
      (good t ↔ guard s a))
    (h : Run M ok s₀ as s o) :
    (∀ bs t o', bs <+: as → Run M ok s₀ bs t o' → good t) ↔
      Run M (fun s a => ok s a ∧ guard s a) s₀ as s o := by
  constructor
  · intro all
    induction h with
    | start => exact .start
    | @snoc as s t o o' a hr hok hs ih =>
      have before : ∀ bs t o', bs <+: as → Run M ok s₀ bs t o' → good t :=
        fun bs t o' hpre => all bs t o' (hpre.trans (List.prefix_append as [a]))
      have good₁ := before as s o (List.prefix_refl _) hr
      have good₂ := all _ t _ (List.prefix_refl _) (.snoc hr hok hs)
      have hi := hr.state_invariant I start.1 invariant
      exact .snoc (ih before) ⟨hok, (decides hi good₁ hok hs).mp good₂⟩ hs
  · rintro hr bs t o' ⟨cs, rfl⟩ hbs
    obtain ⟨r, _, _, hpre, -, -⟩ := hr.split
    obtain ⟨rfl, -⟩ := hbs.deterministic hpre
    have both : I r ∧ good r := by
      refine hpre.state_invariant (fun s => I s ∧ good s) start ?_
      rintro s a t o' ⟨hi, hg⟩ ⟨hok, hmet⟩ hs
      exact ⟨invariant hi hok hs, (decides hi hg hok hs).mpr hmet⟩
    exact both.2

/-- What every step of a run has done well is what a guard asks for, where the
two agree under an invariant. -/
theorem Run.each_iff (I : σ → Prop) (start : I s₀) {good guard : σ → α → Prop}
    (invariant : ∀ {s a t o'}, I s → ok s a → M.step s a = some (t, o') → I t)
    (decides : ∀ {s a t o'}, I s → ok s a → M.step s a = some (t, o') → (good s a ↔ guard s a))
    (h : Run M ok s₀ as s o) :
    (∀ bs a t o', bs ++ [a] <+: as → Run M ok s₀ bs t o' → good t a) ↔
      Run M (fun s a => ok s a ∧ guard s a) s₀ as s o := by
  constructor
  · intro all
    induction h with
    | start => exact .start
    | @snoc as s t o o' a hr hok hs ih =>
      have hi := hr.state_invariant I start invariant
      have met := all as a s o (List.prefix_refl _) hr
      refine .snoc (ih ?_) ⟨hok, (decides hi hok hs).mp met⟩ hs
      intro bs b t o' hpre
      exact all bs b t o' (hpre.trans (List.prefix_append as [a]))
  · rintro hr bs a t o' ⟨cs, rfl⟩ hbs
    obtain ⟨r, _, _, hpre, -, -⟩ := hr.split
    obtain ⟨q, _, _, hq, ⟨hok, hmet⟩, hs, -⟩ := hpre.snoc_inv
    obtain ⟨rfl, -⟩ := hbs.deterministic hq
    have hi : I q := hq.state_invariant I start (fun hi hok hs => invariant hi hok.1 hs)
    exact (decides hi hok hs).mpr hmet

/-- Where under an invariant every state that is not at rest has a step that
lowers a measure, some run comes to rest. -/
theorem exists_rest (I rest : σ → Prop) (measure : σ → Nat)
    (progress : ∀ s, I s → ¬ rest s → ∃ a t o, ok s a ∧ M.step s a = some (t, o) ∧ I t ∧
      measure t < measure s)
    (h : I s) : ∃ as t o, Run M ok s as t o ∧ I t ∧ rest t := by
  induction hn : measure s using Nat.strongRecOn generalizing s with
  | _ n ih =>
    by_cases hr : rest s
    · exact ⟨[], s, [], .start, h, hr⟩
    · obtain ⟨a, s₁, o₁, hok, hs, h₁, hlt⟩ := progress s h hr
      obtain ⟨as, t, o, run, ht, hrest⟩ := ih (measure s₁) (hn ▸ hlt) h₁ rfl
      have first : Run M ok s [a] s₁ o₁ := Run.single hok hs
      exact ⟨[a] ++ as, t, o₁ ++ o, first.append run, ht, hrest⟩

section Components
variable {β : Type u} {p : β → Bool} {l : List β} {i j : Nat} {x y z : β}

theorem getElem?_set_cases (hx : l[i]? = some x) (h : (l.set i y)[j]? = some z) :
    j = i ∧ z = y ∨ j ≠ i ∧ l[j]? = some z := by
  by_cases hij : j = i
  · subst hij
    rw [List.getElem?_set_self (List.getElem?_eq_some_iff.mp hx).1] at h
    exact Or.inl ⟨rfl, (Option.some.inj h).symm⟩
  · rw [List.getElem?_set_ne (Ne.symm hij)] at h
    exact Or.inr ⟨hij, h⟩

theorem getElem?_concat_cases (h : (l ++ [y])[j]? = some z) :
    l[j]? = some z ∨ j = l.length ∧ z = y := by
  rw [List.getElem?_append] at h
  split at h
  · exact Or.inl h
  · rename_i hj
    cases hd : j - l.length with
    | zero =>
      rw [hd] at h
      exact Or.inr ⟨by omega, (Option.some.inj h).symm⟩
    | succ n => simp [hd] at h

theorem forall_mem_set {P : β → Prop} (h : ∀ x ∈ l, P x) (hy : P y) : ∀ x ∈ l.set i y, P x := by
  intro x hx
  rcases List.mem_or_eq_of_mem_set hx with hx | rfl
  · exact h x hx
  · exact hy

theorem forall_mem_concat {P : β → Prop} (h : ∀ x ∈ l, P x) (hy : P y) : ∀ x ∈ l ++ [y], P x :=
  List.forall_mem_append.mpr ⟨h, List.forall_mem_singleton.mpr hy⟩

theorem mem_set_of_mem (hy : l[i]? = some y) (hx : x ∈ l) : x ∈ l.set i z ∨ x = y := by
  obtain ⟨j, hj⟩ := List.mem_iff_getElem?.mp hx
  by_cases hij : i = j
  · subst hij
    exact Or.inr (Option.some.inj (hj.symm.trans hy))
  · left
    apply List.mem_of_getElem? (i := j)
    rw [List.getElem?_set_ne hij, hj]

theorem mem_set_self (hx : l[i]? = some x) : y ∈ l.set i y :=
  List.mem_set (List.getElem?_eq_some_iff.mp hx).1 y

theorem find?_set_pos (hx : l[i]? = some x) (hpx : p x = true) (hpy : p y = true)
    (once : l.countP p ≤ 1) : l.find? p = some x ∧ (l.set i y).find? p = some y := by
  induction l generalizing i with
  | nil => simp at hx
  | cons z l ih =>
    cases i with
    | zero =>
      obtain rfl := Option.some.inj hx
      simp [hpx, hpy]
    | succ i =>
      have hmem : x ∈ l := List.mem_of_getElem? hx
      have hpos : 0 < l.countP p := List.countP_pos_iff.mpr ⟨x, hmem, hpx⟩
      cases hz : p z with
      | true =>
        rw [List.countP_cons_of_pos hz] at once
        omega
      | false =>
        rw [List.countP_cons_of_neg (by simp [hz])] at once
        simpa [hz] using ih hx once

theorem find?_set_neg (hx : l[i]? = some x) (hpx : p x = false) (hpy : p y = false) :
    (l.set i y).find? p = l.find? p := by
  induction l generalizing i with
  | nil => simp at hx
  | cons z l ih =>
    cases i with
    | zero =>
      obtain rfl := Option.some.inj hx
      simp [hpx, hpy]
    | succ i =>
      have htail := ih hx
      simp only [List.set_cons_succ, List.find?_cons, htail]

theorem countP_set_same (hx : l[i]? = some x) (same : p y = p x) :
    (l.set i y).countP p = l.countP p := by
  induction l generalizing i with
  | nil => simp at hx
  | cons z l ih =>
    cases i with
    | zero =>
      obtain rfl := Option.some.inj hx
      simp [List.countP_cons, same]
    | succ i =>
      have htail := ih hx
      simp only [List.set_cons_succ, List.countP_cons, htail]

/-- A measure of a list that is a sum falls where that of one element does. -/
theorem sum_map_set_lt {w : β → Nat}
    (hx : l[i]? = some x) (hlt : w y < w x) : ((l.set i y).map w).sum < (l.map w).sum := by
  induction l generalizing i with
  | nil => simp at hx
  | cons z zs ih =>
    cases i with
    | zero =>
      simp only [List.getElem?_cons_zero, Option.some.injEq] at hx
      subst hx
      simpa using hlt
    | succ i =>
      simp only [List.getElem?_cons_succ] at hx
      have hrest := ih hx
      simp only [List.set_cons_succ, List.map_cons, List.sum_cons]
      omega

/-- In a sum over a list the weight of one element is replaced. -/
theorem sum_map_set_add {w : β → Nat} (hx : l[i]? = some x) :
    ((l.set i y).map w).sum + w x = (l.map w).sum + w y := by
  induction l generalizing i with
  | nil => simp at hx
  | cons z zs ih =>
    cases i with
    | zero =>
      simp only [List.getElem?_cons_zero, Option.some.injEq] at hx
      subst hx
      simp only [List.set_cons_zero, List.map_cons, List.sum_cons]
      omega
    | succ i =>
      have hrest := ih (List.getElem?_cons_succ ▸ hx)
      simp only [List.set_cons_succ, List.map_cons, List.sum_cons]
      omega

end Components

end StepMachine
