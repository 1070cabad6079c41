import DelegateProtocol.Lib.KeyedTable
import DelegateProtocol.Lib.StepMachine
import Mathlib.Data.List.Basic

/-!
# Workspaces handed over in one process

A task invocation has two parts: the signal handler `_prepare_execution` makes a
workspace directory and leaves it in `_prepared_workspaces` under the task's id,
and then the body of `execute_task` takes it from there and removes it in the
end. Invocations of one process run in threads; a task that is delivered again
comes with the id it had. An exception in the handler is logged, and the body
runs all the same. Directories are told apart by the order in which `mkdtemp`
made them.
-/

namespace PreparedWorkspaces

open KeyedTable StepMachine

inductive Stage where
  | preparing
  | receiving
  | givingUp
  | storing
  | mirroring
  | prepared
  | opening
  | running
  | cleaning
  | ended
  deriving DecidableEq

/-- `created` is the `workspace_dir` of the handler and `used` that of the body;
`stored` is whether the handler got to leave its own in the dictionary. -/
structure Invocation where
  taskId : String
  executionId : String
  created : Option Nat
  stored : Bool
  used : Option Nat
  stage : Stage
  deriving DecidableEq

/-- An item of `_prepared_workspaces`. -/
structure Prepared where
  taskId : String
  workspaceDir : Nat

structure Process where
  prepared : Table Prepared.taskId
  workspaces : List Nat
  made : Nat
  invocations : List Invocation

def Process.start : Process := ⟨KeyedTable.empty _, [], 0, []⟩

inductive What where
  | goesOn
  | received (ok : Bool)
  | raises

inductive Action where
  | claims (taskId executionId : String)
  | does (i : Nat) (what : What)

/-- `_prepared_workspaces.get(task_id)`. -/
def Process.waiting (s : Process) (taskId : String) : Option Nat :=
  (s.prepared.get? taskId).map Prepared.workspaceDir

/-- `shutil.rmtree(dir, ignore_errors=True)`. -/
def Process.rmtree (s : Process) (dir : Option Nat) : Process :=
  { s with workspaces := s.workspaces.filter (fun w => some w ≠ dir) }

/-- The next statements of an invocation. -/
def advance (s : Process) (inv : Invocation) : What → Option (Process × Invocation)
  | .goesOn =>
    match inv.stage with
    | .preparing =>
      if inv.executionId = "" then some (s, { inv with stage := .prepared })
      else some ({ s with workspaces := s.workspaces ++ [s.made], made := s.made + 1 },
        { inv with created := some s.made, stage := .receiving })
    | .givingUp => some (s.rmtree inv.created, { inv with stage := .prepared })
    | .storing =>
      match inv.created with
      | none => none
      | some w =>
        some ({ s with prepared := s.prepared.put ⟨inv.taskId, w⟩ },
          { inv with stored := true, stage := .mirroring })
    | .mirroring => some (s, { inv with stage := .prepared })
    | .prepared =>
      match s.waiting inv.taskId with
      | none => some (s, { inv with stage := .ended })
      | some w =>
        some ({ s with prepared := s.prepared.erase inv.taskId },
          { inv with used := some w, stage := .opening })
    | .opening => some (s, { inv with stage := .running })
    | .running => some (s, { inv with stage := .cleaning })
    | .cleaning => some (s.rmtree inv.used, { inv with stage := .ended })
    | _ => none
  | .received ok =>
    match inv.stage with
    | .receiving => some (s, { inv with stage := if ok = true then .storing else .givingUp })
    | _ => none
  | .raises =>
    match inv.stage with
    | .preparing | .receiving | .givingUp | .mirroring => some (s, { inv with stage := .prepared })
    | .opening => some (s, { inv with stage := .ended })
    | .running => some (s, { inv with stage := .cleaning })
    | _ => none

def step (s : Process) : Action → Option (Process × List Unit)
  | .claims taskId executionId =>
    some ({ s with
      invocations := s.invocations ++ [⟨taskId, executionId, none, false, none, .preparing⟩] }, [])
  | .does i what =>
    match s.invocations[i]? with
    | none => none
    | some inv =>
      match advance s inv what with
      | none => none
      | some (s, inv) => some ({ s with invocations := s.invocations.set i inv }, [])

def process : Machine Process Action Unit := ⟨step⟩

def AllEnded (s : Process) : Prop := ∀ inv ∈ s.invocations, inv.stage = .ended

instance (s : Process) : Decidable (AllEnded s) := inferInstanceAs (Decidable (∀ inv ∈ _, _))

/-- Every body runs on the directory its own handler made, none is skipped whose
handler succeeded, and nothing is left in the end. -/
structure HandedOver (s : Process) : Prop where
  own : ∀ inv ∈ s.invocations, ∀ w, inv.used = some w → inv.created = some w
  run : ∀ inv ∈ s.invocations, inv.stored = true → inv.stage = .ended → inv.used ≠ none
  removed : AllEnded s → s.workspaces = []

def InOrder (s : Process) (inv : Invocation) (what : What) : Prop :=
  match inv.stage, what with
  | .receiving, .raises | .givingUp, .raises | .opening, .raises => False
  | .storing, .goesOn => s.waiting inv.taskId = none
  | .prepared, .goesOn => inv.stored = false → s.waiting inv.taskId = none
  | _, _ => True

/-- No exception leaves the handler between `mkdtemp` and the dictionary, or the
body between the dictionary and `try`; and nothing waits under the id of a task
when its handler leaves a directory there, or its body starts without one left
there by its handler. -/
def Orderly (s : Process) : Action → Prop
  | .claims _ _ => True
  | .does i what => ∀ inv, s.invocations[i]? = some inv → InOrder s inv what

/-- The steps that change nothing but where an invocation stands. -/
inductive Next : Stage → Stage → Prop
  | received : Next .receiving .storing
  | notReceived : Next .receiving .givingUp
  | mirrored : Next .mirroring .prepared
  | opened : Next .opening .running
  | ran : Next .running .cleaning

inductive Does (s : Process) (inv : Invocation) : What → Process → Invocation → Prop
  | makes : inv.stage = .preparing → Does s inv .goesOn
      { s with workspaces := s.workspaces ++ [s.made], made := s.made + 1 }
      { inv with created := some s.made, stage := .receiving }
  | quits {what : What} : inv.stage = .preparing → Does s inv what s { inv with stage := .prepared }
  | goesOn {what : What} {stage : Stage} : Next inv.stage stage →
      (what = .raises → inv.stage ≠ .receiving ∧ inv.stage ≠ .opening) →
      Does s inv what s { inv with stage := stage }
  | drops : inv.stage = .receiving ∨ inv.stage = .givingUp →
      Does s inv .raises s { inv with stage := .prepared }
  | givesUp : inv.stage = .givingUp →
      Does s inv .goesOn (s.rmtree inv.created) { inv with stage := .prepared }
  | stores {w : Nat} : inv.stage = .storing → inv.created = some w →
      Does s inv .goesOn { s with prepared := s.prepared.put ⟨inv.taskId, w⟩ }
        { inv with stored := true, stage := .mirroring }
  | takes {w : Nat} : inv.stage = .prepared → s.waiting inv.taskId = some w →
      Does s inv .goesOn { s with prepared := s.prepared.erase inv.taskId }
        { inv with used := some w, stage := .opening }
  | skips : inv.stage = .prepared → s.waiting inv.taskId = none →
      Does s inv .goesOn s { inv with stage := .ended }
  | loses : inv.stage = .opening → Does s inv .raises s { inv with stage := .ended }
  | cleans : inv.stage = .cleaning →
      Does s inv .goesOn (s.rmtree inv.used) { inv with stage := .ended }

section Steps
variable {s t p : Process} {inv inv' x y : Invocation} {what : What} {i j : Nat} {a : Action}
variable {k k' : String} {w : Nat} {o : List Unit}

theorem advance_does (h : advance s inv what = some (p, inv')) : Does s inv what p inv' := by
  unfold advance at h
  cases what with
  | goesOn =>
    simp only at h
    cases hs : inv.stage <;> simp only [hs] at h
    case preparing =>
      split at h
      · cases h
        exact .quits hs
      · cases h
        exact .makes hs
    case receiving => cases h
    case givingUp => cases h; exact .givesUp hs
    case storing =>
      split at h
      · cases h
      · rename_i w hw
        cases h
        exact .stores hs hw
    case mirroring => cases h; exact .goesOn (hs ▸ .mirrored) nofun
    case prepared =>
      split at h
      · rename_i hw
        cases h
        exact .skips hs hw
      · rename_i w hw
        cases h
        exact .takes hs hw
    case opening => cases h; exact .goesOn (hs ▸ .opened) nofun
    case running => cases h; exact .goesOn (hs ▸ .ran) nofun
    case cleaning => cases h; exact .cleans hs
    case ended => cases h
  | received ok =>
    simp only at h
    split at h
    · rename_i hs
      cases h
      cases ok with
      | true => exact .goesOn (hs ▸ .received) nofun
      | false => exact .goesOn (hs ▸ .notReceived) nofun
    · cases h
  | raises =>
    simp only at h
    cases hs : inv.stage <;> simp only [hs] at h
    case preparing => cases h; exact .quits hs
    case receiving => cases h; exact .drops (Or.inl hs)
    case givingUp => cases h; exact .drops (Or.inr hs)
    case mirroring => cases h; exact .goesOn (hs ▸ .mirrored) (by simp [hs])
    case opening => cases h; exact .loses hs
    case running => cases h; exact .goesOn (hs ▸ .ran) (by simp [hs])
    all_goals cases h

theorem waiting_put (s : Process) : Process.waiting
    { s with prepared := s.prepared.put ⟨k, w⟩ } k' = if k = k' then some w else s.waiting k' := by
  simp only [Process.waiting, get?_put]
  split <;> rfl

theorem waiting_erase (s : Process) : Process.waiting
    { s with prepared := s.prepared.erase k } k' = if k' = k then none else s.waiting k' := by
  simp only [Process.waiting, get?_erase]
  split <;> rfl

theorem Does.invocations (h : Does s inv what p inv') : p.invocations = s.invocations := by
  cases h <;> rfl

theorem Does.taskId (h : Does s inv what p inv') : inv'.taskId = inv.taskId := by
  cases h <;> rfl

/-- The fields of an invocation where it stands. -/
def Shape (inv : Invocation) : Prop :=
  match inv.stage with
  | .preparing => inv.created = none ∧ inv.stored = false ∧ inv.used = none
  | .receiving | .givingUp | .storing => inv.created ≠ none ∧ inv.stored = false ∧ inv.used = none
  | .mirroring => inv.created ≠ none ∧ inv.stored = true ∧ inv.used = none
  | .prepared => (inv.stored = true → inv.created ≠ none) ∧ inv.used = none
  | .opening | .running | .cleaning =>
    (inv.stored = true → inv.created ≠ none) ∧ inv.used ≠ none
  | .ended => inv.stored = true → inv.created ≠ none

/-- The directory was left in the dictionary by the invocation that made it. -/
def Stored (s : Process) (w : Nat) : Prop :=
  ∃ (j : Nat) (x : Invocation), s.invocations[j]? = some x ∧ x.stored = true ∧ x.created = some w

structure Based (s : Process) : Prop where
  shape : ∀ (j : Nat) x, s.invocations[j]? = some x → Shape x
  fresh : ∀ (j : Nat) x w, s.invocations[j]? = some x → x.created = some w → w < s.made
  unique : ∀ (i j : Nat) x y w, s.invocations[i]? = some x → s.invocations[j]? = some y →
    x.created = some w → y.created = some w → i = j
  source : ∀ k w, s.waiting k = some w → Stored s w
  taken : ∀ (j : Nat) x w, s.invocations[j]? = some x → x.used = some w → Stored s w
  known : ∀ w ∈ s.workspaces, ∃ (j : Nat) (x : Invocation), s.invocations[j]? = some x ∧ x.created = some w

theorem Does.shape (h : Does s inv what p inv') (shape : Shape inv) : Shape inv' := by
  cases h with
  | makes hs => simp_all [Shape]
  | quits hs => simp_all [Shape]
  | goesOn next _ =>
    generalize hs : inv.stage = stage at next
    cases next <;> simp_all [Shape]
  | drops hs => rcases hs with hs | hs <;> simp_all [Shape]
  | givesUp hs => simp_all [Shape]
  | stores hs hw => simp_all [Shape]
  | takes hs hw => simp_all [Shape]
  | skips hs hw => simp_all [Shape]
  | loses hs => simp_all [Shape]
  | cleans hs => simp_all [Shape]

/-- What has been made stays, and so does that it has been stored. -/
theorem Does.created (h : Does s inv what p inv') (shape : Shape inv) :
    (inv.created = none ∧ inv'.created = some s.made ∧ p.made = s.made + 1 ∧
        p.workspaces = s.workspaces ++ [s.made] ∧ inv'.stored = false) ∨
      (inv'.created = inv.created ∧ p.made = s.made ∧ p.workspaces ⊆ s.workspaces ∧
        (inv.stored = true → inv'.stored = true)) := by
  cases h with
  | makes hs =>
    simp only [Shape, hs] at shape
    exact Or.inl ⟨shape.1, rfl, rfl, rfl, shape.2.1⟩
  | givesUp hs => exact Or.inr ⟨rfl, rfl, List.filter_sublist.subset, id⟩
  | cleans hs => exact Or.inr ⟨rfl, rfl, List.filter_sublist.subset, id⟩
  | stores hs hw => exact Or.inr ⟨rfl, rfl, List.Subset.refl _, fun _ => rfl⟩
  | _ => exact Or.inr ⟨rfl, rfl, List.Subset.refl _, id⟩

/-- Where the directory an invocation takes over comes from. -/
theorem Does.used (h : Does s inv what p inv') (hw : inv'.used = some w) :
    inv.used = some w ∨ s.waiting inv.taskId = some w := by
  cases h with
  | takes hs hwait =>
    cases hw
    exact Or.inr hwait
  | _ => exact Or.inl hw

theorem Does.waiting (h : Does s inv what p inv') (hw : p.waiting k = some w) :
    s.waiting k = some w ∨
      (k = inv.taskId ∧ inv.stage = .storing ∧ inv'.stored = true ∧ inv'.created = some w ∧
        inv'.used = inv.used) := by
  cases h with
  | stores hs hc =>
    rw [waiting_put] at hw
    split at hw
    · rename_i hk
      cases hw
      exact Or.inr ⟨hk.symm, hs, rfl, hc, rfl⟩
    · exact Or.inl hw
  | takes hs hwait =>
    rw [waiting_erase] at hw
    split at hw
    · cases hw
    · exact Or.inl hw
  | _ => exact Or.inl hw

/-- The process after a step of one of its invocations. -/
def Process.put (p : Process) (i : Nat) (inv : Invocation) : Process :=
  { p with invocations := p.invocations.set i inv }

theorem put_cases (hi : p.invocations[i]? = some inv) (h : (p.put i inv').invocations[j]? = some y) :
    j = i ∧ y = inv' ∨ j ≠ i ∧ p.invocations[j]? = some y :=
  getElem?_set_cases hi h

theorem put_self (hi : p.invocations[i]? = some inv) :
    (p.put i inv').invocations[i]? = some inv' :=
  List.getElem?_set_self (List.getElem?_eq_some_iff.mp hi).1

theorem put_of_ne (hne : j ≠ i) (hj : p.invocations[j]? = some x) :
    (p.put i inv').invocations[j]? = some x :=
  (List.getElem?_set_ne hne.symm).trans hj

theorem Does.stored (h : Does s inv what p inv') (shape : Shape inv)
    (hi : s.invocations[i]? = some inv) (hw : Stored s w) : Stored (p.put i inv') w := by
  rw [← h.invocations] at hi
  obtain ⟨j, x, hj, hstored, hcreated⟩ := hw
  rw [← h.invocations] at hj
  by_cases hij : j = i
  · subst hij
    obtain rfl := Option.some.inj (hi.symm.trans hj)
    rcases h.created shape with ⟨hnone, -⟩ | ⟨hsame, -, -, hstays⟩
    · simp [hnone] at hcreated
    · exact ⟨j, inv', put_self hi, hstays hstored, hsame.trans hcreated⟩
  · exact ⟨j, x, put_of_ne hij hj, hstored, hcreated⟩

/-- A directory some invocation made is nobody else's after a step. -/
theorem Based.apart (h : Based s) (hi : s.invocations[i]? = some inv)
    (does : Does s inv what p inv') (hj : s.invocations[j]? = some y) (hne : j ≠ i)
    (hy : y.created = some w) : inv'.created ≠ some w := by
  intro hw
  rcases does.created (h.shape i inv hi) with ⟨-, hnew, -⟩ | ⟨hsame, -⟩
  · have hlt := h.fresh j y w hj hy
    rw [hnew] at hw
    cases hw
    exact Nat.lt_irrefl _ hlt
  · exact hne (h.unique j i y inv w hj hi hy (hsame.symm.trans hw))

/-- The invocation that made a directory still has it as its own. -/
theorem Does.made_stays (does : Does s inv what p inv') (shape : Shape inv)
    (hi : s.invocations[i]? = some inv) (hj : s.invocations[j]? = some x)
    (hx : x.created = some w) :
    ∃ (j : Nat) (x : Invocation), (p.put i inv').invocations[j]? = some x ∧ x.created = some w := by
  rw [← does.invocations] at hi hj
  by_cases hij : j = i
  · subst hij
    obtain rfl := Option.some.inj (hi.symm.trans hj)
    rcases does.created shape with ⟨hnone, -⟩ | ⟨hsame, -⟩
    · simp [hnone] at hx
    · exact ⟨j, inv', put_self hi, hsame.trans hx⟩
  · exact ⟨j, x, put_of_ne hij hj, hx⟩

theorem Based.does (h : Based s) (hi : s.invocations[i]? = some inv)
    (does : Does s inv what p inv') : Based (p.put i inv') := by
  have hshape := h.shape i inv hi
  have hi' := hi
  rw [← does.invocations] at hi'
  have cases_of {j : Nat} {y : Invocation} (hy : (p.put i inv').invocations[j]? = some y) :
      j = i ∧ y = inv' ∨ j ≠ i ∧ s.invocations[j]? = some y := by
    rw [← does.invocations]
    exact put_cases hi' hy
  refine ⟨?_, ?_, ?_, ?_, ?_, ?_⟩
  · intro j y hy
    rcases cases_of hy with ⟨-, rfl⟩ | ⟨-, hj⟩
    · exact does.shape hshape
    · exact h.shape j y hj
  · intro j y w hy hw
    have hmade : s.made ≤ p.made := by
      rcases does.created hshape with ⟨-, -, hm, -⟩ | ⟨-, hm, -⟩ <;> omega
    rcases cases_of hy with ⟨-, rfl⟩ | ⟨-, hj⟩
    · rcases does.created hshape with ⟨-, hnew, hm, -⟩ | ⟨hsame, hm, -⟩
      · rw [hnew] at hw
        cases hw
        exact hm ▸ Nat.lt_succ_self _
      · exact hm ▸ h.fresh i inv w hi (hsame.symm.trans hw)
    · exact Nat.lt_of_lt_of_le (h.fresh j y w hj hw) hmade
  · intro j j' x y w hx hy hxw hyw
    rcases cases_of hx with ⟨rfl, rfl⟩ | ⟨hne, hj⟩
    · rcases cases_of hy with ⟨rfl, rfl⟩ | ⟨hne', hj'⟩
      · rfl
      · exact absurd hxw (h.apart hi does hj' hne' hyw)
    · rcases cases_of hy with ⟨rfl, rfl⟩ | ⟨hne', hj'⟩
      · exact absurd hyw (h.apart hi does hj hne hxw)
      · exact h.unique j j' x y w hj hj' hxw hyw
  · intro k w hw
    rcases does.waiting hw with hold | ⟨-, -, hstored, hcreated, -⟩
    · exact does.stored hshape hi (h.source k w hold)
    · exact ⟨i, inv', put_self hi', hstored, hcreated⟩
  · intro j y w hy hw
    rcases cases_of hy with ⟨-, rfl⟩ | ⟨-, hj⟩
    · rcases does.used hw with hold | hwait
      · exact does.stored hshape hi (h.taken i inv w hi hold)
      · exact does.stored hshape hi (h.source _ w hwait)
    · exact does.stored hshape hi (h.taken j y w hj hw)
  · intro w hw
    rcases does.created hshape with ⟨-, hnew, -, hws, -⟩ | ⟨-, -, hsub, -⟩
    · have hw' : w ∈ s.workspaces ++ [s.made] := hws ▸ hw
      rcases List.mem_append.mp hw' with hold | hmade
      · obtain ⟨j, x, hj, hx⟩ := h.known w hold
        exact does.made_stays hshape hi hj hx
      · rw [List.mem_singleton.mp hmade]
        exact ⟨i, inv', put_self hi', hnew⟩
    · obtain ⟨j, x, hj, hx⟩ := h.known w (hsub hw)
      exact does.made_stays hshape hi hj hx

/-- The invocation, or the dictionary for it, still has the directory it made. -/
def Keeps (inv : Invocation) : Prop :=
  inv.stage ≠ .ended ∧ (inv.stage = .prepared → inv.stored = true)

structure Fine (s : Process) (inv : Invocation) : Prop where
  own : ∀ w, inv.used = some w → inv.created = some w
  waits : inv.stored = true → inv.used = none →
    inv.stage ≠ .ended ∧ s.waiting inv.taskId = inv.created
  held : ∀ w, inv.created = some w → w ∈ s.workspaces → Keeps inv

def Good (s : Process) : Prop := ∀ (j : Nat) x, s.invocations[j]? = some x → Fine s x

structure Backed (s : Process) : Prop where
  there : ∀ (j : Nat) x w, s.invocations[j]? = some x → x.created = some w → Keeps x →
    w ∈ s.workspaces
  entry : ∀ k w, s.waiting k = some w → ∃ (j : Nat) (x : Invocation),
    s.invocations[j]? = some x ∧ x.taskId = k ∧ x.stored = true ∧ x.created = some w ∧ x.used = none

theorem Based.same (h : Based s) (hi : s.invocations[i]? = some x) (hj : s.invocations[j]? = some y)
    (hx : x.created = some w) (hy : y.created = some w) : y = x := by
  obtain rfl := h.unique i j x y w hi hj hx hy
  exact Option.some.inj (hj.symm.trans hi)

/-- The invocation that stored a directory is the one that made it. -/
theorem Based.stored (h : Based s) (hi : s.invocations[i]? = some x) (hx : x.created = some w)
    (hw : Stored s w) : x.stored = true := by
  obtain ⟨j, y, hj, hstored, hy⟩ := hw
  rw [← h.same hi hj hx hy]
  exact hstored

theorem Based.created_of_stored (h : Based s) (hi : s.invocations[i]? = some x)
    (hx : x.stored = true) : ∃ w, x.created = some w := by
  have shape := h.shape i x hi
  apply Option.ne_none_iff_exists'.mp
  unfold Shape at shape
  cases hs : x.stage <;> simp_all

/-- Before anything is left in the dictionary nothing can have gone wrong. -/
theorem Fine.early (shape : Shape inv) (hs : inv.stage = .preparing ∨ inv.stage = .receiving ∨
    inv.stage = .givingUp ∨ inv.stage = .storing) : Fine s inv := by
  have hfields : inv.stored = false ∧ inv.used = none := by
    unfold Shape at shape
    rcases hs with hs | hs | hs | hs <;> simp only [hs] at shape <;> exact shape.2
  have hkeeps : Keeps inv := by
    rcases hs with hs | hs | hs | hs <;> simp [Keeps, hs]
  exact ⟨by simp [hfields], by simp [hfields], fun _ _ _ => hkeeps⟩

/-- The body has got a directory, and has not ended. -/
theorem Fine.late (own : ∀ w, inv.used = some w → inv.created = some w) (used : inv.used ≠ none)
    (live : inv.stage ≠ .ended) (past : inv.stage ≠ .prepared) : Fine s inv :=
  ⟨own, fun _ hu => absurd hu used, fun _ _ _ => ⟨live, fun hp => absurd hp past⟩⟩

theorem mem_rmtree {dir : Option Nat} :
    w ∈ (s.rmtree dir).workspaces ↔ w ∈ s.workspaces ∧ dir ≠ some w := by
  simp only [Process.rmtree, List.mem_filter, decide_eq_true_eq, ne_comm]

/-- A directory is removed only by an invocation that has it. -/
theorem Does.removes (h : Does s inv what p inv') (hmem : w ∈ s.workspaces)
    (gone : w ∉ p.workspaces) : inv'.created = some w ∨ inv'.used = some w := by
  cases h with
  | makes hs => exact absurd (List.mem_append_left _ hmem) gone
  | givesUp hs => exact Or.inl (not_not.mp fun hne => gone (mem_rmtree.mpr ⟨hmem, hne⟩))
  | cleans hs => exact Or.inr (not_not.mp fun hne => gone (mem_rmtree.mpr ⟨hmem, hne⟩))
  | _ => exact absurd hmem gone

/-- All was well before with an invocation that is well after its own step. -/
theorem Fine.before (based : Based s) (hi : s.invocations[i]? = some inv)
    (does : Does s inv what p inv') (mine : Fine (p.put i inv') inv') : Fine s inv := by
  have shape := based.shape i inv hi
  cases does with
  | makes hs => exact .early shape (Or.inl hs)
  | quits hs => exact .early shape (Or.inl hs)
  | @goesOn _ stage next _ =>
    have hlive : inv.stage ≠ .ended ∧ inv.stage ≠ .prepared := by
      generalize inv.stage = before at next
      cases next <;> simp
    exact ⟨mine.own, fun hst hu => ⟨hlive.1, (mine.waits hst hu).2⟩,
      fun _ _ _ => ⟨hlive.1, fun hp => absurd hp hlive.2⟩⟩
  | drops hs => exact .early shape (Or.inr (hs.elim Or.inl (fun h => Or.inr (Or.inl h))))
  | givesUp hs => exact .early shape (Or.inr (Or.inr (Or.inl hs)))
  | stores hs hw => exact .early shape (Or.inr (Or.inr (Or.inr hs)))
  | @takes w hs hw =>
    have hcreated : inv.created = some w := mine.own w rfl
    have hstored := based.stored hi hcreated (based.source _ w hw)
    simp only [Shape, hs] at shape
    exact ⟨by simp [shape.2], fun _ _ => ⟨by simp [hs], hw.trans hcreated.symm⟩,
      fun _ _ _ => ⟨by simp [hs], fun _ => hstored⟩⟩
  | skips hs hw =>
    simp only [Shape, hs] at shape
    exact ⟨by simp [shape.2], fun hst => absurd rfl (mine.waits hst shape.2).1,
      fun w hc hmem => absurd rfl (mine.held w hc hmem).1⟩
  | loses hs =>
    simp only [Shape, hs] at shape
    exact .late mine.own shape.2 (by simp [hs]) (by simp [hs])
  | cleans hs =>
    simp only [Shape, hs] at shape
    exact .late mine.own shape.2 (by simp [hs]) (by simp [hs])

/-- A step that goes well is taken from a process where all was well. -/
theorem Good.before (based : Based s) (hi : s.invocations[i]? = some inv)
    (does : Does s inv what p inv') (good : Good (p.put i inv')) : Good s := by
  have hi' := hi
  rw [← does.invocations] at hi'
  have mine : Fine (p.put i inv') inv' := good i inv' (put_self hi')
  have based' := based.does hi does
  intro j x hj
  by_cases hij : j = i
  · subst hij
    obtain rfl := Option.some.inj (hi.symm.trans hj)
    exact mine.before based hi does
  · have hj' := hj
    rw [← does.invocations] at hj'
    have theirs : Fine (p.put i inv') x := good j x (put_of_ne hij hj')
    have apart {w : Nat} (hc : x.created = some w) (hc' : inv'.created = some w) : False :=
      hij (based'.unique j i x inv' w (put_of_ne hij hj') (put_self hi') hc hc')
    refine ⟨theirs.own, ?_, ?_⟩
    · intro hst hu
      obtain ⟨hlive, hwait⟩ := theirs.waits hst hu
      obtain ⟨w, hc⟩ := based.created_of_stored hj hst
      refine ⟨hlive, ?_⟩
      rcases does.waiting (hwait.trans hc) with hold | ⟨-, -, -, hcreated, -⟩
      · exact hold.trans hc.symm
      · exact False.elim (apart hc hcreated)
    · intro w hc hmem
      by_cases hstays : w ∈ p.workspaces
      · exact theirs.held w hc hstays
      · rcases does.removes hmem hstays with hmine | hmine
        · exact False.elim (apart hc hmine)
        · exact False.elim (apart hc (mine.own w hmine))

/-- In order, a body takes the directory of its own handler. -/
theorem Fine.takes (fine : Fine s inv) (shape : Shape inv) (hs : inv.stage = .prepared)
    (hw : s.waiting inv.taskId = some w) (order : InOrder s inv .goesOn) :
    inv.created = some w := by
  simp only [Shape, hs] at shape
  simp only [InOrder, hs] at order
  cases hst : inv.stored with
  | false =>
    rw [order hst] at hw
    cases hw
  | true => exact (fine.waits hst shape.2).2.symm.trans hw

/-- All stays well with the invocation that takes a step in order. -/
theorem Fine.does (based : Based s) (fine : Fine s inv) (hi : s.invocations[i]? = some inv)
    (does : Does s inv what p inv') (order : InOrder s inv what) : Fine (p.put i inv') inv' := by
  have shape := based.shape i inv hi
  cases does with
  | makes hs =>
    simp only [Shape, hs] at shape
    exact ⟨by simp [shape], by simp [shape], by simp [Keeps]⟩
  | quits hs =>
    simp only [Shape, hs] at shape
    exact ⟨by simp [shape], by simp [shape], by simp [shape]⟩
  | @goesOn _ stage next _ =>
    have hlive : stage ≠ .ended ∧ (stage = .prepared → inv.stored = true) := by
      generalize hs : inv.stage = before at next
      cases next <;> simp [Shape, hs] at shape ⊢
      exact shape.2.1
    exact ⟨fine.own, fun hst hu => ⟨hlive.1, (fine.waits hst hu).2⟩, fun _ _ _ => hlive⟩
  | drops hs =>
    rcases hs with hs | hs <;> simp [InOrder, hs] at order
  | givesUp hs =>
    simp only [Shape, hs] at shape
    exact ⟨by simp [shape], by simp [shape], fun w hc hmem => absurd hc (mem_rmtree.mp hmem).2⟩
  | @stores w hs hw =>
    simp only [Shape, hs] at shape
    refine ⟨by simp [shape.2.2], fun _ _ => ⟨by simp, ?_⟩, fun _ _ _ => by simp [Keeps]⟩
    exact (waiting_put s).trans ((if_pos rfl).trans hw.symm)
  | @takes w hs hw =>
    refine .late ?_ (by simp) (by simp) (by simp)
    intro w' hw'
    cases hw'
    exact fine.takes shape hs hw order
  | skips hs hw =>
    simp only [Shape, hs] at shape
    have hnot : inv.stored ≠ true := by
      intro hst
      obtain ⟨w, hc⟩ := based.created_of_stored hi hst
      have hwait := (fine.waits hst shape.2).2
      rw [hw, hc] at hwait
      cases hwait
    exact ⟨by simp [shape.2], fun hst => absurd hst hnot,
      fun w hc hmem => absurd ((fine.held w hc hmem).2 hs) hnot⟩
  | loses hs => simp [InOrder, hs] at order
  | cleans hs =>
    simp only [Shape, hs] at shape
    obtain ⟨u, hu⟩ := Option.ne_none_iff_exists'.mp shape.2
    refine ⟨fine.own, fun _ hnone => absurd hnone shape.2, ?_⟩
    intro w hc hmem
    have hsame : inv.used = inv.created := hu.trans (fine.own u hu).symm
    exact absurd (hsame.trans hc) (mem_rmtree.mp hmem).2

/-- A step in order leaves the entries of others in the dictionary. -/
theorem Does.waiting_kept (does : Does s inv what p inv') (fine : Fine s inv) (shape : Shape inv)
    (order : InOrder s inv what) (hwait : s.waiting k = some w) (hc : inv.created ≠ some w) :
    p.waiting k = some w := by
  cases does with
  | @stores w' hs hw =>
    simp only [InOrder, hs] at order
    refine (waiting_put s).trans ((if_neg ?_).trans hwait)
    intro hk
    rw [← hk, order] at hwait
    cases hwait
  | @takes w' hs hw =>
    refine (waiting_erase s).trans ((if_neg ?_).trans hwait)
    intro hk
    rw [← hwait, hk, hw] at hc
    exact hc (fine.takes shape hs hw order)
  | _ => exact hwait

/-- What is there after a step was there before it, or has just been made. -/
theorem Does.workspaces (does : Does s inv what p inv') (shape : Shape inv)
    (hmem : w ∈ p.workspaces) : w ∈ s.workspaces ∨ w = s.made := by
  rcases does.created shape with ⟨-, -, -, hws, -⟩ | ⟨-, -, hsub, -⟩
  · rw [hws] at hmem
    exact (List.mem_append.mp hmem).imp_right List.mem_singleton.mp
  · exact Or.inl (hsub hmem)

/-- And with all others. -/
theorem Fine.others (based : Based s) (good : Good s) (hi : s.invocations[i]? = some inv)
    (does : Does s inv what p inv') (order : InOrder s inv what) (hij : j ≠ i)
    (hj : s.invocations[j]? = some x) : Fine (p.put i inv') x := by
  have shape := based.shape i inv hi
  have theirs : Fine s x := good j x hj
  refine ⟨theirs.own, ?_, ?_⟩
  · intro hst hu
    obtain ⟨hlive, hwait⟩ := theirs.waits hst hu
    obtain ⟨w, hc⟩ := based.created_of_stored hj hst
    have apart : inv.created ≠ some w := fun hc' => hij (based.unique j i x inv w hj hi hc hc')
    have kept := does.waiting_kept (good i inv hi) shape order (hwait.trans hc) apart
    exact ⟨hlive, kept.trans hc.symm⟩
  · intro w hc hmem
    rcases does.workspaces shape hmem with hmem | rfl
    · exact theirs.held w hc hmem
    · exact absurd (based.fresh j x s.made hj hc) (Nat.lt_irrefl _)

/-- A step in order, taken where all is well, leaves it so. -/
theorem Good.does (based : Based s) (good : Good s) (hi : s.invocations[i]? = some inv)
    (does : Does s inv what p inv') (order : InOrder s inv what) : Good (p.put i inv') := by
  have hi' := hi
  rw [← does.invocations] at hi'
  intro j x hx
  rcases put_cases hi' hx with ⟨-, rfl⟩ | ⟨hij, hj⟩
  · exact (good i inv hi).does based hi does order
  · rw [does.invocations] at hj
    exact Fine.others based good hi does order hij hj

/-- What the invocation that moves still has after a step is there. -/
theorem Backed.mine (based : Based s) (backed : Backed s)
    (hi : s.invocations[i]? = some inv) (does : Does s inv what p inv')
    (mine : Fine (p.put i inv') inv') (hc : inv'.created = some w) (keeps : Keeps inv') :
    w ∈ p.workspaces := by
  have shape := based.shape i inv hi
  have old := backed.there i inv w hi
  cases does with
  | makes hs =>
    cases hc
    exact List.mem_append_right _ (List.mem_singleton_self _)
  | quits hs =>
    simp only [Shape, hs] at shape
    exact absurd hc (by simp [shape.1])
  | @goesOn _ stage next _ =>
    refine old hc ?_
    generalize hs : inv.stage = before at next
    cases next <;> simp [Keeps, hs]
  | drops hs =>
    have hst := keeps.2 rfl
    rcases hs with hs | hs <;> simp only [Shape, hs] at shape <;> simp [shape.2.1] at hst
  | givesUp hs =>
    have hst := keeps.2 rfl
    simp only [Shape, hs] at shape
    simp [shape.2.1] at hst
  | stores hs hw => exact old hc (by simp [Keeps, hs])
  | @takes w' hs hw =>
    have hown : inv.created = some w' := mine.own w' rfl
    exact old hc ⟨by simp [hs], fun _ => based.stored hi hown (based.source _ w' hw)⟩
  | skips hs hw => exact absurd rfl keeps.1
  | loses hs => exact absurd rfl keeps.1
  | cleans hs => exact absurd rfl keeps.1

/-- An entry of the dictionary that stays is not that of a body that has begun. -/
theorem Does.entry_kept (does : Does s inv what p inv') (shape : Shape inv)
    (hold : s.waiting k = some w) (hw : p.waiting k = some w) (hk : inv.taskId = k)
    (hstored : inv.stored = true) (hused : inv.used = none) :
    inv'.stored = true ∧ inv'.created = inv.created ∧ inv'.used = none := by
  cases does with
  | goesOn next _ => exact ⟨hstored, rfl, hused⟩
  | takes hs hwait =>
    have hnone : Process.waiting { s with prepared := s.prepared.erase inv.taskId } k = none :=
      (waiting_erase s).trans (if_pos hk.symm)
    exact absurd (hnone.symm.trans hw) nofun
  | skips hs hnone => exact absurd ((hk ▸ hnone).symm.trans hold) nofun
  | drops hs => rcases hs with hs | hs <;> simp [Shape, hs, hstored] at shape
  | makes hs => simp [Shape, hs, hstored] at shape
  | quits hs => simp [Shape, hs, hstored] at shape
  | givesUp hs => simp [Shape, hs, hstored] at shape
  | stores hs _ => simp [Shape, hs, hstored] at shape
  | loses hs => simp [Shape, hs, hused] at shape
  | cleans hs => simp [Shape, hs, hused] at shape

theorem Backed.does (based : Based s) (backed : Backed s)
    (hi : s.invocations[i]? = some inv) (does : Does s inv what p inv')
    (after : Good (p.put i inv')) : Backed (p.put i inv') := by
  have hi' := hi
  rw [← does.invocations] at hi'
  have based' := based.does hi does
  have shape := based.shape i inv hi
  have mine : Fine (p.put i inv') inv' := after i inv' (put_self hi')
  refine ⟨?_, ?_⟩
  · intro j x w hx hc keeps
    rcases put_cases hi' hx with ⟨-, rfl⟩ | ⟨hij, hj'⟩
    · have there : w ∈ p.workspaces := backed.mine based hi does mine hc keeps
      exact there
    · have hj := hj'
      rw [does.invocations] at hj
      have hmem := backed.there j x w hj hc keeps
      by_contra hgone
      have hmine : inv'.created = some w := (does.removes hmem hgone).elim id (mine.own w)
      exact hij (based'.unique j i x inv' w hx (put_self hi') hc hmine)
  · intro k w hw
    rcases does.waiting hw with hold | ⟨rfl, hs, hstored, hcreated, hused⟩
    · obtain ⟨j, x, hj, hk, hstored, hcreated, hused⟩ := backed.entry k w hold
      by_cases hij : j = i
      · subst hij
        obtain rfl := Option.some.inj (hi.symm.trans hj)
        obtain ⟨hst, hsame, hu⟩ := does.entry_kept shape hold hw hk hstored hused
        exact ⟨j, inv', put_self hi', does.taskId.trans hk, hst, hsame.trans hcreated, hu⟩
      · rw [← does.invocations] at hj
        exact ⟨j, x, put_of_ne hij hj, hk, hstored, hcreated, hused⟩
    · simp only [Shape, hs] at shape
      exact ⟨i, inv', put_self hi', does.taskId, hstored, hcreated, hused.trans shape.2.2⟩

/-- A step out of order, taken where all is well, does harm. -/
theorem Good.breaks (based : Based s) (good : Good s) (backed : Backed s)
    (hi : s.invocations[i]? = some inv) (does : Does s inv what p inv')
    (disorder : ¬ InOrder s inv what) : ¬ Good (p.put i inv') := by
  intro after
  have hi' := hi
  rw [← does.invocations] at hi'
  have based' := based.does hi does
  have shape := based.shape i inv hi
  have fine : Fine s inv := good i inv hi
  have mine : Fine (p.put i inv') inv' := after i inv' (put_self hi')
  cases does with
  | makes hs => simp [InOrder, hs] at disorder
  | quits hs => simp [InOrder, hs] at disorder
  | @goesOn _ stage next hraises =>
    generalize hs : inv.stage = before at next
    cases next <;> cases what <;> simp [InOrder, hs] at disorder hraises
  | drops hs =>
    -- the handler is done, and the directory is nobody's
    have hcreated : inv.created ≠ none ∧ inv.stored = false := by
      rcases hs with hs | hs <;> simp only [Shape, hs] at shape <;> exact ⟨shape.1, shape.2.1⟩
    obtain ⟨w, hc⟩ := Option.ne_none_iff_exists'.mp hcreated.1
    have hkeeps : Keeps inv := by
      rcases hs with hs | hs <;> simp [Keeps, hs]
    have hlost := (mine.held w hc (backed.there i inv w hi hc hkeeps)).2 rfl
    simp [hcreated.2] at hlost
  | givesUp hs => simp [InOrder, hs] at disorder
  | @stores w hs hw =>
    -- the entry that was there is replaced
    simp only [InOrder, hs] at disorder
    obtain ⟨w', hw'⟩ := Option.ne_none_iff_exists'.mp disorder
    obtain ⟨j, x, hj, hk, hstored, hcreated, hused⟩ := backed.entry _ w' hw'
    have hij : j ≠ i := by
      rintro rfl
      obtain rfl := Option.some.inj (hi.symm.trans hj)
      simp [Shape, hs, hstored] at shape
    have theirs := after j x (put_of_ne hij hj)
    have hwait := (theirs.waits hstored hused).2
    rw [hk] at hwait
    have hput : Process.waiting { s with prepared := s.prepared.put ⟨inv.taskId, w⟩ } inv.taskId =
        some w := (waiting_put s).trans (if_pos rfl)
    exact hij (based.unique j i x inv w hj hi (hwait.symm.trans hput) hw)
  | @takes w hs hw =>
    -- a body whose handler left nothing takes what another's left
    simp only [InOrder, hs, Classical.not_imp] at disorder
    have hown : inv.created = some w := mine.own w rfl
    have hstored := based.stored hi hown (based.source _ w hw)
    simp [disorder.1] at hstored
  | skips hs hw => simp [InOrder, hs, hw] at disorder
  | loses hs =>
    simp only [Shape, hs] at shape
    obtain ⟨w, hu⟩ := Option.ne_none_iff_exists'.mp shape.2
    have hc := fine.own w hu
    have hkeeps : Keeps inv := by simp [Keeps, hs]
    exact (mine.held w hc (backed.there i inv w hi hc hkeeps)).1 rfl
  | cleans hs => simp [InOrder, hs] at disorder

def claimed (taskId executionId : String) : Invocation :=
  ⟨taskId, executionId, none, false, none, .preparing⟩

def Process.claim (s : Process) (taskId executionId : String) : Process :=
  { s with invocations := s.invocations ++ [claimed taskId executionId] }

theorem step_cases (h : step s a = some (t, o)) :
    (∃ taskId executionId, a = .claims taskId executionId ∧ t = s.claim taskId executionId) ∨
      ∃ i what inv p inv', a = .does i what ∧ s.invocations[i]? = some inv ∧
        Does s inv what p inv' ∧ t = p.put i inv' := by
  cases a with
  | claims taskId executionId =>
    cases h
    exact Or.inl ⟨taskId, executionId, rfl, rfl⟩
  | does i what =>
    simp only [step] at h
    split at h
    · cases h
    · rename_i inv hi
      split at h
      · cases h
      · rename_i p inv' hadv
        cases h
        exact Or.inr ⟨i, what, inv, p, inv', rfl, hi, advance_does hadv, rfl⟩

theorem claim_cases {taskId executionId : String}
    (h : (s.claim taskId executionId).invocations[j]? = some x) :
    s.invocations[j]? = some x ∨ (j = s.invocations.length ∧ x = claimed taskId executionId) :=
  getElem?_concat_cases h

theorem claim_old {taskId executionId : String} (h : s.invocations[j]? = some x) :
    (s.claim taskId executionId).invocations[j]? = some x :=
  (List.getElem?_append_left (List.getElem?_eq_some_iff.mp h).1).trans h

theorem Based.claim (h : Based s) (taskId executionId : String) :
    Based (s.claim taskId executionId) where
  shape j x hj := by
    rcases claim_cases hj with hj | ⟨-, rfl⟩
    · exact h.shape j x hj
    · exact ⟨rfl, rfl, rfl⟩
  fresh j x w hj hc := by
    rcases claim_cases hj with hj | ⟨-, rfl⟩
    · exact h.fresh j x w hj hc
    · cases hc
  unique i j x y w hi hj hx hy := by
    rcases claim_cases hi with hi | ⟨-, rfl⟩
    · rcases claim_cases hj with hj | ⟨-, rfl⟩
      · exact h.unique i j x y w hi hj hx hy
      · cases hy
    · cases hx
  source k w hw := by
    obtain ⟨j, x, hj, hx⟩ := h.source k w hw
    exact ⟨j, x, claim_old hj, hx⟩
  taken j x w hj hu := by
    rcases claim_cases hj with hj | ⟨-, rfl⟩
    · obtain ⟨j', y, hj', hy⟩ := h.taken j x w hj hu
      exact ⟨j', y, claim_old hj', hy⟩
    · cases hu
  known w hw := by
    obtain ⟨j, x, hj, hx⟩ := h.known w hw
    exact ⟨j, x, claim_old hj, hx⟩

theorem good_claim {taskId executionId : String} : Good (s.claim taskId executionId) ↔ Good s := by
  constructor
  · intro h j x hj
    exact ⟨(h j x (claim_old hj)).own, (h j x (claim_old hj)).waits, (h j x (claim_old hj)).held⟩
  · intro h j x hj
    rcases claim_cases hj with hj | ⟨-, rfl⟩
    · exact ⟨(h j x hj).own, (h j x hj).waits, (h j x hj).held⟩
    · exact .early ⟨rfl, rfl, rfl⟩ (Or.inl rfl)

theorem Backed.claim (h : Backed s) (taskId executionId : String) :
    Backed (s.claim taskId executionId) where
  there j x w hj hc keeps := by
    rcases claim_cases hj with hj | ⟨-, rfl⟩
    · exact h.there j x w hj hc keeps
    · cases hc
  entry k w hw := by
    obtain ⟨j, x, hj, hx⟩ := h.entry k w hw
    exact ⟨j, x, claim_old hj, hx⟩

structure Inv (s : Process) : Prop where
  based : Based s
  backed : Good s → Backed s

theorem Inv.start : Inv .start where
  based := by
    refine ⟨?_, ?_, ?_, ?_, ?_, ?_⟩
    · intro j x hj
      cases hj
    · intro j x w hj
      cases hj
    · intro i j x y w hi
      cases hi
    · intro k w hw
      cases hw
    · intro j x w hj
      cases hj
    · intro w hw
      cases hw
  backed _ := by
    refine ⟨?_, ?_⟩
    · intro j x w hj
      cases hj
    · intro k w hw
      cases hw

theorem Inv.step (h : Inv s) (hs : step s a = some (t, o)) : Inv t := by
  rcases step_cases hs with ⟨taskId, executionId, rfl, rfl⟩ | ⟨i, what, inv, p, inv', rfl, hi, does, rfl⟩
  · exact ⟨h.based.claim _ _, fun good => (h.backed (good_claim.mp good)).claim _ _⟩
  · exact ⟨h.based.does hi does, fun good =>
      (h.backed (good.before h.based hi does)).does h.based hi does good⟩

theorem good_iff_orderly {actions : List Action} (run : Run process Free .start actions s o) :
    Good s ↔ Run process Orderly .start actions s o := by
  rw [← run_free_and_iff]
  refine run.good_iff Inv Good ⟨.start, fun j x hj => by cases hj⟩
    (fun h _ hs => h.step hs) ?_ ?_ ?_
  · intro s a t o' h good _ order hs
    rcases step_cases hs with ⟨taskId, executionId, rfl, rfl⟩ |
      ⟨i, what, inv, p, inv', rfl, hi, does, rfl⟩
    · exact good_claim.mpr good
    · exact good.does h.based hi does (order inv hi)
  · intro s a t o' h good _ disorder hs
    rcases step_cases hs with ⟨taskId, executionId, rfl, rfl⟩ |
      ⟨i, what, inv, p, inv', rfl, hi, does, rfl⟩
    · exact absurd trivial disorder
    · refine good.breaks h.based (h.backed good) hi does (fun order => disorder ?_)
      intro inv₁ hi₁
      obtain rfl := Option.some.inj (hi.symm.trans hi₁)
      exact order
  · intro s a t o' h bad hs after
    rcases step_cases hs with ⟨taskId, executionId, rfl, rfl⟩ |
      ⟨i, what, inv, p, inv', rfl, hi, does, rfl⟩
    · exact bad (good_claim.mp after)
    · exact bad (after.before h.based hi does)

/-- In every run whose steps are in order workspaces are handed over; once all
invocations have ended they have been only if every step was in order. -/
theorem handed_over_iff {actions : List Action} (run : Run process Free .start actions s o) :
    (Run process Orderly .start actions s o → HandedOver s) ∧
      (AllEnded s → (HandedOver s ↔ Run process Orderly .start actions s o)) := by
  have based : Based s := (run.state_invariant Inv .start (fun h _ hs => h.step hs)).based
  have forwards : Run process Orderly .start actions s o → HandedOver s := by
    intro hr
    have good := (good_iff_orderly run).mpr hr
    refine ⟨?_, ?_, ?_⟩
    · intro x hx
      obtain ⟨j, hj⟩ := List.mem_iff_getElem?.mp hx
      exact (good j x hj).own
    · intro x hx hst hs hu
      obtain ⟨j, hj⟩ := List.mem_iff_getElem?.mp hx
      exact ((good j x hj).waits hst hu).1 hs
    · intro ended
      apply List.eq_nil_iff_forall_not_mem.mpr
      intro w hw
      obtain ⟨j, x, hj, hc⟩ := based.known w hw
      exact ((good j x hj).held w hc hw).1 (ended x (List.mem_of_getElem? hj))
  refine ⟨forwards, fun ended => ⟨fun handed => (good_iff_orderly run).mp ?_, forwards⟩⟩
  intro j x hj
  have hx := List.mem_of_getElem? hj
  refine ⟨handed.own x hx, fun hst hu => absurd hu (handed.run x hx hst (ended x hx)), ?_⟩
  intro w _ hw
  rw [handed.removed ended] at hw
  cases hw

end Steps

/-- Both handlers are done before either body starts. -/
def redelivered : List Action :=
  [.claims "t" "e", .claims "t" "e",
    .does 0 .goesOn, .does 0 (.received true), .does 0 .goesOn, .does 0 .goesOn,
    .does 1 .goesOn, .does 1 (.received true), .does 1 .goesOn, .does 1 .goesOn,
    .does 0 .goesOn, .does 0 .goesOn, .does 0 .goesOn, .does 0 .goesOn, .does 1 .goesOn]

theorem redelivered_run : ∃ s o, Run process Free .start redelivered s o ∧ AllEnded s ∧
    s.workspaces = [0] := by
  have hrun : (replay process .start redelivered).any
      (fun p => AllEnded p.1 && p.1.workspaces = [0]) = true := by
    decide +kernel
  obtain ⟨s, o, run, hend⟩ := run_of_replay_test hrun
  simp only [Bool.and_eq_true, decide_eq_true_eq] at hend
  exact ⟨s, o, run, hend⟩

/-- The workspace of the first stays behind. -/
theorem redelivered_leaks : ∃ s o, Run process Free .start redelivered s o ∧ AllEnded s ∧
    ¬ HandedOver s := by
  obtain ⟨s, o, run, ended, left⟩ := redelivered_run
  refine ⟨s, o, run, ended, fun handed => ?_⟩
  rw [handed.removed ended] at left
  cases left

theorem redelivered_iff : ∃ s o, Run process Free .start redelivered s o ∧ AllEnded s ∧
    (HandedOver s ↔ Run process Orderly .start redelivered s o) := by
  obtain ⟨s, o, run, ended, -⟩ := redelivered_run
  exact ⟨s, o, run, ended, (handed_over_iff run).2 ended⟩

end PreparedWorkspaces
