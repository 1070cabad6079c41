import Mathlib.Data.List.Basic

/-!
# Append-only logs that are read from a cursor

Entries are numbered 1, 2, 3, … in the order they were appended, and a number
is never given twice: deleting the log removes the entries it holds, and a
later append carries on counting. The history keeps the removed entries too.
A cursor is the number of the last entry its reader has seen, 0 at first.
-/

namespace AppendLog

universe u

structure Log (M : Type u) where
  history : List M
  removed : Nat
  removed_le : removed ≤ history.length

variable {M : Type u}

def Log.empty : Log M := ⟨[], 0, Nat.le_refl 0⟩

def Log.append (l : Log M) (m : M) : Log M where
  history := l.history ++ [m]
  removed := l.removed
  removed_le := by
    rw [List.length_append]
    exact Nat.le_add_right_of_le l.removed_le

def Log.delete (l : Log M) : Log M where
  history := l.history
  removed := l.history.length
  removed_le := Nat.le_refl _

/-- A log exists while it holds an entry. -/
def Log.Exists (l : Log M) : Prop := l.removed < l.history.length

instance (l : Log M) : Decidable l.Exists := inferInstanceAs (Decidable (_ < _))

def number : Nat → List M → List (Nat × M)
  | _, [] => []
  | n, m :: ms => (n, m) :: number (n + 1) ms

/-- Where a reader with this cursor stands: past what it saw and what is gone. -/
def Log.floor (l : Log M) (cursor : Nat) : Nat := max cursor l.removed

/-- The entries a reader with this cursor has not seen. -/
def Log.unread (l : Log M) (cursor : Nat) : List (Nat × M) :=
  number (l.floor cursor + 1) (l.history.drop (l.floor cursor))

def Log.read (l : Log M) (cursor count : Nat) : List (Nat × M) := (l.unread cursor).take count

/-- The log holds this entry, or held it, under this number. -/
def Log.Entry (l : Log M) (n : Nat) (m : M) : Prop := ∃ i, n = i + 1 ∧ l.history[i]? = some m

@[simp] theorem number_length (n : Nat) (ms : List M) : (number n ms).length = ms.length := by
  induction ms generalizing n with
  | nil => rfl
  | cons m ms ih => simp [number, ih]

theorem number_append (n : Nat) (ms ms' : List M) :
    number n (ms ++ ms') = number n ms ++ number (n + ms.length) ms' := by
  induction ms generalizing n with
  | nil => simp [number]
  | cons m ms ih =>
    simp only [List.cons_append, number, ih, List.length_cons]
    rw [show n + 1 + ms.length = n + (ms.length + 1) by omega]

theorem number_map_snd (n : Nat) (ms : List M) : (number n ms).map Prod.snd = ms := by
  induction ms generalizing n with
  | nil => rfl
  | cons m ms ih => simp [number, ih]

theorem number_le {n : Nat} {ms : List M} {k : Nat} (h : k ∈ (number n ms).map Prod.fst) : n ≤ k := by
  induction ms generalizing n with
  | nil => cases h
  | cons m ms ih =>
    rcases List.mem_cons.mp h with rfl | h
    · exact Nat.le_refl _
    · have := ih h
      omega

theorem number_increasing (n : Nat) (ms : List M) :
    ((number n ms).map Prod.fst).Pairwise (fun j k => j < k) := by
  induction ms generalizing n with
  | nil => exact List.Pairwise.nil
  | cons m ms ih =>
    refine List.pairwise_cons.mpr ⟨?_, ih (n + 1)⟩
    intro k hk
    have := number_le hk
    omega

@[simp] theorem history_append (l : Log M) (m : M) : (l.append m).history = l.history ++ [m] := rfl

@[simp] theorem history_delete (l : Log M) : l.delete.history = l.history := rfl

@[simp] theorem history_empty : (Log.empty : Log M).history = [] := rfl

@[simp] theorem unread_empty (c : Nat) : (Log.empty : Log M).unread c = [] := by
  simp [Log.unread, Log.empty, number]

theorem unread_length (l : Log M) (c : Nat) :
    (l.unread c).length = l.history.length - l.floor c := by
  simp [Log.unread]

/-- What is unread stays unread, in its place, while the log grows. -/
theorem unread_grown {l l' : Log M} {ms : List M} (grown : l'.history = l.history ++ ms)
    (kept : l'.removed = l.removed) {c : Nat} (h : c ≤ l.history.length) :
    l'.unread c = l.unread c ++ number (l.history.length + 1) ms := by
  have hf : l'.floor c = l.floor c := by simp only [Log.floor, kept]
  have hle : l.floor c ≤ l.history.length := Nat.max_le.mpr ⟨h, l.removed_le⟩
  simp only [Log.unread, hf, grown]
  rw [List.drop_append_of_le_length hle, number_append, List.length_drop]
  rw [show l.floor c + 1 + (l.history.length - l.floor c) = l.history.length + 1 by omega]

theorem number_drop (n k : Nat) (ms : List M) : (number n ms).drop k = number (n + k) (ms.drop k) := by
  induction k generalizing n ms with
  | zero => rfl
  | succ k ih =>
    cases ms with
    | nil => rfl
    | cons m ms =>
      rw [number, List.drop_succ_cons, ih, List.drop_succ_cons]
      rw [show n + 1 + k = n + (k + 1) by omega]

/-- What a log that has also been cut still has for its reader. -/
theorem unread_cut {l l' : Log M} {ms : List M} (grown : l'.history = l.history ++ ms)
    (cut : l.removed ≤ l'.removed) {c : Nat} (h : c ≤ l.history.length) :
    (l'.unread c).Sublist (l.unread c ++ number (l.history.length + 1) ms) := by
  have hle : l.removed ≤ l'.history.length := Nat.le_trans cut l'.removed_le
  have whole := @unread_grown M l ⟨l'.history, l.removed, hle⟩ ms grown rfl c h
  have hfloor : l.floor c ≤ l'.floor c := by
    simp only [Log.floor]
    omega
  have hdrop : l'.unread c =
      ((⟨l'.history, l.removed, hle⟩ : Log M).unread c).drop (l'.floor c - l.floor c) := by
    have hf : (⟨l'.history, l.removed, hle⟩ : Log M).floor c = l.floor c := rfl
    simp only [Log.unread, hf, number_drop, List.drop_drop]
    rw [show l.floor c + 1 + (l'.floor c - l.floor c) = l'.floor c + 1 by omega,
      show l.floor c + (l'.floor c - l.floor c) = l'.floor c by omega]
  rw [hdrop, whole]
  exact List.drop_sublist _ _

theorem unread_grows {l l' : Log M} (grown : l.history <+: l'.history)
    (kept : l'.removed = l.removed) {c : Nat} (h : c ≤ l.history.length) :
    l.unread c <+: l'.unread c := by
  obtain ⟨ms, hms⟩ := grown
  exact ⟨_, (unread_grown hms.symm kept h).symm⟩

/-- The first unread entry: its number, its place in the history, and what is
left for a reader that has seen it. -/
theorem unread_cons {l : Log M} {c n : Nat} {m : M} {rest : List (Nat × M)}
    (h : l.unread c = (n, m) :: rest) :
    n = l.floor c + 1 ∧ n ≤ l.history.length ∧ l.history[l.floor c]? = some m ∧
      l.unread n = rest := by
  unfold Log.unread at h
  cases hd : l.history.drop (l.floor c) with
  | nil => simp [hd, number] at h
  | cons x xs =>
    simp only [hd, number, List.cons.injEq, Prod.mk.injEq] at h
    obtain ⟨⟨hn, rfl⟩, hr⟩ := h
    have hlen : l.floor c < l.history.length := by
      have := congrArg List.length hd
      simp only [List.length_drop, List.length_cons] at this
      omega
    have hfloor : l.floor (l.floor c + 1) = l.floor c + 1 := by
      have : l.removed ≤ l.floor c := Nat.le_max_right _ _
      unfold Log.floor at this ⊢
      omega
    refine ⟨hn.symm, by omega, ?_, ?_⟩
    · rw [List.getElem?_eq_getElem hlen]
      have := congrArg List.head? hd
      simpa [List.head?_drop, List.getElem?_eq_getElem hlen] using this
    · subst hn
      have hdrop : l.history.drop (l.floor c + 1) = xs := by
        rw [← List.drop_drop, hd, List.drop_one, List.tail_cons]
      simp only [Log.unread, hfloor, hdrop, hr]

/-- Past an unread entry stands what follows it. -/
theorem unread_append {l : Log M} {c n : Nat} {m : M} {pre post : List (Nat × M)}
    (h : l.unread c = pre ++ (n, m) :: post) : l.unread n = post := by
  induction pre generalizing c with
  | nil => exact (unread_cons h).2.2.2
  | cons e pre ih =>
    obtain ⟨k, x⟩ := e
    exact ih (unread_cons h).2.2.2

/-- A reader that stops at an unread entry has what follows it still to read. -/
theorem unread_through {l : Log M} {c : Nat} {e : Nat × M} {pre post : List (Nat × M)}
    (h : l.unread c = pre ++ e :: post) : l.unread c = (pre ++ [e]) ++ l.unread e.1 := by
  rw [unread_append h, h, List.append_assoc, List.singleton_append]

theorem entry_le {l : Log M} {n : Nat} {m : M} (h : l.Entry n m) : n ≤ l.history.length := by
  obtain ⟨i, rfl, hm⟩ := h
  exact (List.getElem?_eq_some_iff.mp hm).1

theorem entry_grows {l l' : Log M} (grown : l.history <+: l'.history) {n : Nat} {m : M}
    (h : l.Entry n m) : l'.Entry n m := by
  obtain ⟨i, hn, hm⟩ := h
  obtain ⟨ms, hms⟩ := grown
  refine ⟨i, hn, ?_⟩
  rw [← hms, List.getElem?_append_left (List.getElem?_eq_some_iff.mp hm).1, hm]

theorem mem_number {n k : Nat} {m : M} {ms : List M} (h : (n, m) ∈ number k ms) :
    ∃ i, n = k + i ∧ ms[i]? = some m := by
  induction ms generalizing k with
  | nil => cases h
  | cons x ms ih =>
    rcases List.mem_cons.mp h with h | h
    · cases h
      exact ⟨0, rfl, rfl⟩
    · obtain ⟨i, hn, hm⟩ := ih h
      exact ⟨i + 1, by omega, by simpa using hm⟩

/-- What is unread is in the log. -/
theorem entry_of_unread {l : Log M} {c n : Nat} {m : M} (h : (n, m) ∈ l.unread c) :
    l.Entry n m := by
  obtain ⟨i, hn, hm⟩ := mem_number h
  rw [List.getElem?_drop] at hm
  exact ⟨l.floor c + i, by omega, hm⟩

end AppendLog
