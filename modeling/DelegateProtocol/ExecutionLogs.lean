import DelegateProtocol.ReadingOrder

/-!
# The log rows of a watcher

A watcher stores every LOG message it handles once, in the order of the stream,
and numbers its rows 1, 2, 3, …
-/

namespace ExecutionLogs

open AppendLog Handlers Models Runtime StepMachine Streams WatchExecution ReadingOrder

def IsLog (fields : Fields) : Prop := fields.get? "type" = some "LOG"

instance (fields : Fields) : Decidable (IsLog fields) := inferInstanceAs (Decidable (_ = _))

/-- The texts of the LOG messages among the entries of a stream. -/
def logLines (entries : List (Nat × Fields)) : List String :=
  (entries.filter (fun entry => decide (IsLog entry.2))).map
    (fun entry => entry.2.getD "message" "")

/-- Rows for these lines, numbered from 1. -/
def logRows (id : Uuid.UUID) (lines : List String) : List ExecutionLog :=
  lines.mapIdx (fun n line => ⟨id, n + 1, line⟩)

structure Logged (base : List ExecutionLog) (s : System) (o : List Seen) : Prop where
  seq : s.watch.logSeq = (logLines (handledOf .log o)).length
  rows : s.world.store.db.logsOf s.watch.execution.id =
    base ++ logRows s.watch.execution.id (logLines (handledOf .log o))

theorem logLines_append (entries entries' : List (Nat × Fields)) :
    logLines (entries ++ entries') = logLines entries ++ logLines entries' := by
  simp [logLines]

theorem logLines_eq_nil {entries : List (Nat × Fields)} (h : ∀ e ∈ entries, ¬ IsLog e.2) :
    logLines entries = [] := by
  simp only [logLines, List.map_eq_nil_iff, List.filter_eq_nil_iff, decide_eq_true_eq]
  exact h

theorem logRows_snoc (id : Uuid.UUID) (lines : List String) (line : String) :
    logRows id (lines ++ [line]) = logRows id lines ++ [⟨id, lines.length + 1, line⟩] := by
  simp [logRows, List.mapIdx_append]

section Steps
variable {host : Host} {s t : System} {a : Act} {o o' : List Seen} {base : List ExecutionLog}

/-- A step that neither handles a message of the log stream nor touches the rows. -/
theorem Logged.keep (hl : Logged base s o) (hout : handledOf .log o' = [])
    (hseq : t.watch.logSeq = s.watch.logSeq) (hexec : t.watch.execution = s.watch.execution)
    (hrows : t.world.store.db.logsOf s.watch.execution.id =
      s.world.store.db.logsOf s.watch.execution.id) : Logged base t (o ++ o') := by
  constructor
  · rw [handledOf_append, hout, List.append_nil, hseq]
    exact hl.seq
  · rw [handledOf_append, hout, List.append_nil, hexec, hrows]
    exact hl.rows

theorem Logged.message (hl : Logged base s o) {m : Message} {store : Store} {logSeq : Nat}
    {state : Option OutputState} (h : Effects host s.watch m s.world.store store logSeq state)
    (hexec : t.watch.execution = s.watch.execution) (hseq : t.watch.logSeq = logSeq)
    (hstore : t.world.store = store) : Logged base t (o ++ [.handled m]) := by
  have none_of (hk : m.kind ≠ .log) : handledOf .log [.handled m] = [] := by simp [handledOf, hk]
  cases h with
  | skip _ hlog _ =>
    by_cases hk : m.kind = .log
    · have hn : logLines [(m.id, m.fields)] = [] := logLines_eq_nil (by
        intro e he
        rw [List.mem_singleton.mp he]
        exact hlog hk)
      constructor
      · rw [handledOf_append, logLines_append, hseq]
        simpa [handledOf, hk, hn] using hl.seq
      · rw [handledOf_append, logLines_append, hexec, hstore]
        simpa [handledOf, hk, hn] using hl.rows
    · exact hl.keep (none_of hk) hseq hexec (by rw [hstore])
  | log hk ht =>
    have hone : logLines [(m.id, m.fields)] = [m.fields.getD "message" ""] := by
      have : IsLog m.fields := ht
      simp [logLines, this]
    constructor
    · rw [handledOf_append, logLines_append, hseq, hl.seq]
      simp [handledOf, hk, hone]
    · rw [handledOf_append, logLines_append, hexec, hstore]
      simp only [handledOf, hk, if_true, hone, logRows_snoc, ← hl.seq]
      rw [addLog_logsOf _ _ _ rfl, hl.rows, List.append_assoc]
  | status hk _ =>
    refine hl.keep (none_of (by simp [hk])) hseq hexec ?_
    rw [hstore]
    exact handleStatus_logsOf _
  | waiting hk _ => exact hl.keep (none_of (by simp [hk])) hseq hexec (by rw [hstore])
  | received hk _ _ =>
    refine hl.keep (none_of (by simp [hk])) hseq hexec ?_
    rw [hstore]
    rfl
  | failed hk _ =>
    refine hl.keep (none_of (by simp [hk])) hseq hexec ?_
    rw [hstore]
    rfl

theorem Logged.moves (hl : Logged base s o) {input : Input} {world : World} {watch : Watch}
    (h : Moves host s.world s.watch input world watch o') :
    Raised ⟨world, watch⟩ ∨ Logged base ⟨world, watch⟩ (o ++ o') := by
  cases h with
  | message _ _ he => exact Or.inr (hl.message (effect_ok he) rfl rfl rfl)
  | messageRaised _ _ _ => exact Or.inl ⟨_, rfl⟩
  | requestRowGone _ hm _ =>
    exact Or.inr (hl.keep (by simp [handledOf, hm.1]) rfl rfl rfl)
  | request _ hm _ => exact Or.inr (hl.keep (by simp [handledOf, hm.1]) rfl rfl rfl)
  | saved _ hs => exact Or.inr (hl.keep rfl rfl rfl (saveTransfer_ok hs).2)
  | _ => exact Or.inr (hl.keep rfl rfl rfl rfl)

theorem Logged.step (hl : Raised s ∨ Logged base s o)
    (h : (watching host).step s a = some (t, o')) : Raised t ∨ Logged base t (o ++ o') := by
  cases a with
  | watcher input =>
    have hm := watching_watcher h
    rcases hl with ⟨e, he⟩ | hl
    · exact False.elim (moves_live hm _ he)
    · exact hl.moves hm
  | publish key fields =>
    obtain ⟨rfl, rfl⟩ := watching_publish h
    exact hl.imp id (fun hl => hl.keep rfl rfl rfl rfl)
  | others store =>
    obtain ⟨hleft, rfl, rfl⟩ := watching_others h
    exact hl.imp id (fun hl => hl.keep rfl rfl rfl hleft.2.1)

end Steps

/-- Unless it has died of an exception, the rows of an execution are those from
before and one for each LOG message its watcher has handled. -/
theorem logged_run {host : Host} {ok : System → Act → Prop} {world : World} {execution : Named}
    {keys : Keys} {as : List Act} {s : System} {o : List Seen}
    (h : Run (watching host) ok ⟨world, .start execution keys⟩ as s o) :
    Raised s ∨ Logged (world.store.db.logsOf execution.id) s o := by
  refine h.invariant (fun s o => Raised s ∨ Logged (world.store.db.logsOf execution.id) s o)
    (Or.inr ⟨rfl, ?_⟩) (fun hi _ hs => Logged.step hi hs)
  exact (List.append_nil _).symm

end ExecutionLogs
