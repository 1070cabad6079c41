import Mathlib.Logic.Function.Basic
import Mathlib.Data.List.Induction

/-!
# Interleavings of sequences, with copies and foreign entries

A weave merges one sequence for every source into one list, each in its own
order. Anywhere in between it may repeat an entry that is already there and may
be copied, and may hold entries that belong to no source. The positions count
how much of each sequence has been used.
-/

namespace Weaving

universe u v

variable {ι : Type u} [DecidableEq ι] {M : Type v}

inductive Weave (seqs : ι → List M) (copied foreign : M → Prop) : (ι → Nat) → List M → Prop
  | nil : Weave seqs copied foreign (fun _ => 0) []
  | next {pos : ι → Nat} {w : List M} {m : M} (i : ι) :
      Weave seqs copied foreign pos w → (seqs i)[pos i]? = some m →
      Weave seqs copied foreign (Function.update pos i (pos i + 1)) (w ++ [m])
  | again {pos : ι → Nat} {w : List M} {m : M} :
      Weave seqs copied foreign pos w → m ∈ w → copied m →
      Weave seqs copied foreign pos (w ++ [m])
  | alien {pos : ι → Nat} {w : List M} {m : M} :
      Weave seqs copied foreign pos w → foreign m → Weave seqs copied foreign pos (w ++ [m])

/-- The weaves in which every sequence has been used up. -/
def Woven (seqs : ι → List M) (copied foreign : M → Prop) (w : List M) : Prop :=
  Weave seqs copied foreign (fun i => (seqs i).length) w

variable {seqs : ι → List M} {copied foreign : M → Prop} {pos : ι → Nat} {w : List M}

theorem Weave.woven (h : Weave seqs copied foreign pos w) (used : ∀ i, pos i = (seqs i).length) :
    Woven seqs copied foreign w := by
  obtain rfl : pos = fun i => (seqs i).length := funext used
  exact h

/-- Every entry is foreign or comes from the used part of a sequence. -/
theorem Weave.mem (h : Weave seqs copied foreign pos w) {m : M} (hm : m ∈ w) :
    foreign m ∨ ∃ i n, n < pos i ∧ (seqs i)[n]? = some m := by
  induction h generalizing m with
  | nil => simp at hm
  | next i _ he ih =>
    rename_i p _ _ _
    rcases List.mem_append.mp hm with hm | hm
    · rcases ih hm with hf | ⟨k, n, hn, hk⟩
      · exact Or.inl hf
      · refine Or.inr ⟨k, n, ?_, hk⟩
        by_cases hki : k = i
        · subst k
          simp only [Function.update_self]
          omega
        · simpa only [Function.update_of_ne hki] using hn
    · obtain rfl := List.mem_singleton.mp hm
      exact Or.inr ⟨i, p i, by simp, he⟩
  | again _ hold _ ih =>
    rcases List.mem_append.mp hm with hm | hm
    · exact ih hm
    · obtain rfl := List.mem_singleton.mp hm
      exact ih hold
  | alien _ hf ih =>
    rcases List.mem_append.mp hm with hm | hm
    · exact ih hm
    · obtain rfl := List.mem_singleton.mp hm
      exact Or.inl hf

theorem Weave.map {N : Type v} {copied' foreign' : N → Prop} (g : M → N)
    (hc : ∀ m ∈ w, copied m → copied' (g m)) (hf : ∀ m, foreign m → foreign' (g m))
    (h : Weave seqs copied foreign pos w) :
    Weave (fun i => (seqs i).map g) copied' foreign' pos (w.map g) := by
  induction h with
  | nil => exact .nil
  | next i _ he ih =>
    rw [List.map_append]
    exact .next i (ih (fun x hx => hc x (List.mem_append_left _ hx))) (by simp [he])
  | again _ hold hcm ih =>
    rw [List.map_append]
    have hcopied := hc _ (List.mem_append_left _ hold) hcm
    exact .again (ih (fun x hx => hc x (List.mem_append_left _ hx)))
      (List.mem_map_of_mem hold) hcopied
  | alien _ hfm ih =>
    rw [List.map_append]
    exact .alien (ih (fun x hx => hc x (List.mem_append_left _ hx))) (hf _ hfm)

theorem Woven.map {N : Type v} {copied' foreign' : N → Prop} (g : M → N)
    (hc : ∀ m ∈ w, copied m → copied' (g m)) (hf : ∀ m, foreign m → foreign' (g m))
    (h : Woven seqs copied foreign w) :
    Woven (fun i => (seqs i).map g) copied' foreign' (w.map g) := by
  have hmap := Weave.map g hc hf h
  simpa only [Woven, List.length_map] using hmap

/-- A single sequence, as far as it has come. -/
theorem Weave.ofPrefix {seq : List M} (h : w <+: seq) :
    Weave (fun _ : PUnit.{u + 1} => seq) copied foreign (fun _ => w.length) w := by
  induction w using List.reverseRecOn with
  | nil => exact .nil
  | append_singleton w m ih =>
    have before := ih ((List.prefix_append w [m]).trans h)
    have hm : seq[w.length]? = some m := by
      obtain ⟨rest, rfl⟩ := h
      simp
    have after := before.next .unit hm
    have used : Function.update (fun _ : PUnit.{u + 1} => w.length) .unit (w.length + 1) =
        fun _ => (w ++ [m]).length := by
      funext x
      simp
    rw [used] at after
    exact after

end Weaving
