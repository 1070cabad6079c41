import Mathlib.Data.List.Basic
import Mathlib.Logic.Function.Basic

/-!
# Files written in place

Opening a file for writing creates or empties it, and its content is there once
the file is closed. A writer that is killed has done a first part of its
operations.
-/

namespace FileWrites

universe u v

inductive File (C : Type v) where
  | empty
  | full (content : C)
  deriving DecidableEq

abbrev Directory (N : Type u) (C : Type v) := N → Option (File C)

inductive Op (N : Type u) (C : Type v) where
  | truncate (name : N)
  | write (name : N) (content : C)
  | other
  deriving DecidableEq

variable {N : Type u} {C : Type v} [DecidableEq N] {d : Directory N C} {n m : N} {c : C}
variable {ops : List (Op N C)} {op : Op N C}

namespace Directory

def truncate (d : Directory N C) (n : N) : Directory N C := Function.update d n (some .empty)

def write (d : Directory N C) (n : N) (c : C) : Directory N C :=
  Function.update d n (some (.full c))

@[simp] theorem truncate_self : d.truncate n n = some .empty := Function.update_self _ _ _

@[simp] theorem truncate_ne (h : m ≠ n) : d.truncate n m = d m := Function.update_of_ne h _ _

@[simp] theorem write_self : d.write n c n = some (.full c) := Function.update_self _ _ _

@[simp] theorem write_ne (h : m ≠ n) : d.write n c m = d m := Function.update_of_ne h _ _

theorem truncate_exists (h : d m ≠ none) : d.truncate n m ≠ none := by
  by_cases hmn : m = n
  · subst hmn
    simp
  · simpa [hmn] using h

theorem write_exists (h : d m ≠ none) : d.write n c m ≠ none := by
  by_cases hmn : m = n
  · subst hmn
    simp
  · simpa [hmn] using h

end Directory

def Op.name : Op N C → Option N
  | .truncate n | .write n _ => some n
  | .other => none

def Op.apply (d : Directory N C) : Op N C → Directory N C
  | .truncate n => d.truncate n
  | .write n c => d.write n c
  | .other => d

def perform (ops : List (Op N C)) (d : Directory N C) : Directory N C := ops.foldl Op.apply d

theorem perform_append (ops more : List (Op N C)) (d : Directory N C) :
    perform (ops ++ more) d = perform more (perform ops d) := List.foldl_append

theorem perform_truncate (ops : List (Op N C)) (d : Directory N C) (n : N) :
    perform (ops ++ [.truncate n]) d = (perform ops d).truncate n := perform_append _ _ _

theorem Op.apply_other (h : op.name ≠ some n) : op.apply d n = d n := by
  cases op with
  | truncate m => exact Directory.truncate_ne fun e => h (congrArg some e.symm)
  | write m c => exact Directory.write_ne fun e => h (congrArg some e.symm)
  | other => rfl

theorem perform_other (h : ∀ op ∈ ops, op.name ≠ some n) : perform ops d n = d n := by
  induction ops generalizing d with
  | nil => rfl
  | cons op ops ih =>
    obtain ⟨hop, hops⟩ := List.forall_mem_cons.mp h
    exact (ih hops).trans (Op.apply_other hop)

/-- A file is opened, written and closed. -/
def replaceFile (n : N) (c : C) : List (Op N C) := [.truncate n, .write n c]

theorem perform_replaceFile (ops : List (Op N C)) (d : Directory N C) (n : N) (c : C) :
    perform (ops ++ replaceFile n c) d n = some (.full c) := by
  rw [perform_append]
  exact Directory.write_self

/-- The other files are as they were before. -/
theorem perform_replaceFile_ne (ops : List (Op N C)) (d : Directory N C) (c : C) (h : m ≠ n) :
    perform (ops ++ replaceFile n c) d m = perform ops d m := by
  rw [perform_append]
  refine perform_other fun op hop => ?_
  rcases List.mem_pair.mp hop with rfl | rfl
  · exact fun e => h (Option.some.inj e).symm
  · exact fun e => h (Option.some.inj e).symm

omit [DecidableEq N] in
/-- A writer is killed before it comes to the last file, or with that file
opened, or when it is done. -/
theorem take_cases (ops : List (Op N C)) (n : N) (c : C) (k : Nat) :
    (ops ++ replaceFile n c).take k = ops.take k ∨
      (ops ++ replaceFile n c).take k = ops ++ [.truncate n] ∨
      (ops ++ replaceFile n c).take k = ops ++ replaceFile n c := by
  rcases Nat.lt_or_ge ops.length k with hlt | hge
  · right
    rw [List.take_append, List.take_of_length_le (Nat.le_of_lt hlt)]
    obtain ⟨j, hj⟩ := Nat.exists_eq_add_of_lt hlt
    have hrest : k - ops.length = j + 1 := by omega
    rw [hrest]
    cases j with
    | zero => exact Or.inl rfl
    | succ j => exact Or.inr (by simp [replaceFile])
  · exact Or.inl (List.take_append_of_le_length hge)

end FileWrites
