import DelegateProtocol.Lib.StepMachine
import DelegateProtocol.ReaderAgreement
import Mathlib.Order.Bounds.Basic

/-!
# How long the receiver waits

The loop of `receive_once` beside a stream to which others append whenever they
like, and a clock that never goes back. XREAD answers at once with what is
unread; it comes back with nothing only when the time it was told to block for
has passed. The loop asks the clock at its top, at every start of a transfer and
at every chunk it adds.
-/

namespace ReceiverDeadlines

open AppendLog ChunkedTransfer OverlappingTransfers Runtime StepMachine Worker

inductive Phase where
  | checking (r : Receiving)
  | blocked (r : Receiving) (block : Int)
  | ended (ending : Ending)

/-- `now` is what the clock has shown last. -/
structure Call where
  events : Log Fields
  lastId : Nat
  now : ℚ
  phase : Phase

inductive Turn where
  | arrives (fields : Fields)
  | checks (now : ℚ)
  | answered (clock : Nat → ℚ)
  | expired (now : ℚ)

inductive Seen where
  | asked (block : Int)
  | processed (m : Arrival)
  | polled (p : Poll)

def Phase.ending? : Phase → Option Ending
  | .ended ending => some ending
  | _ => none

def Turn.arrival : Turn → Bool
  | .arrives _ => true
  | _ => false

/-- A step of the call itself. -/
def Turn.own : Turn → Bool
  | .arrives _ => false
  | _ => true

def Turn.answer : Turn → Bool
  | .answered _ => true
  | _ => false

def Turn.expiry : Turn → Bool
  | .expired _ => true
  | _ => false

def Turn.check : Turn → Bool
  | .checks _ => true
  | _ => false

/-- The entries XREAD answers with, each with the moment it is processed at. -/
def answer (s : Call) (clock : Nat → ℚ) : List Arrival :=
  (s.events.read s.lastId receiveCount).map (fun entry => ⟨entry.1, entry.2, clock entry.1⟩)

def Rising (now : ℚ) (ms : List Arrival) : Prop := (now :: ms.map Arrival.now).Pairwise (· ≤ ·)

instance (now : ℚ) (ms : List Arrival) : Decidable (Rising now ms) :=
  inferInstanceAs (Decidable (List.Pairwise _ _))

def lastNow (now : ℚ) (ms : List Arrival) : ℚ := (ms.getLast?.map Arrival.now).getD now

def step (waitTimeout : ℚ) (s : Call) : Turn → Option (Call × List Seen)
  | .arrives fields => some ({ s with events := s.events.append fields }, [])
  | .checks now =>
    match s.phase with
    | .checking r =>
      if now < s.now then none
      else if r.deadline - now ≤ 0 then
        some ({ s with now := now, phase := .ended (.transferFailed .timeout s.lastId) },
          [.polled ⟨now, []⟩])
      else
        let block := blockMs (r.deadline - now)
        some ({ s with now := now, phase := .blocked r block }, [.asked block])
    | _ => none
  | .answered clock =>
    match s.phase with
    | .blocked r _ =>
      let ms := answer s clock
      if ms ≠ [] ∧ Rising s.now ms then
        let seen := .polled ⟨s.now, ms⟩ :: (processed waitTimeout ms r).map .processed
        match receiveBatch waitTimeout ms s.lastId r with
        | .error ending => some ({ s with now := lastNow s.now ms, phase := .ended ending }, seen)
        | .ok (lastId, r) =>
          some ({ s with lastId := lastId, now := lastNow s.now ms, phase := .checking r }, seen)
      else none
    | _ => none
  | .expired now =>
    match s.phase with
    | .blocked r block =>
      if s.events.unread s.lastId = [] ∧ s.now + block / 1000 ≤ now then
        some ({ s with now := now, phase := .checking r }, [.polled ⟨s.now, []⟩])
      else none
    | _ => none

def receiving (waitTimeout : ℚ) : Machine Call Turn Seen := ⟨step waitTimeout⟩

def begin (waitTimeout start : ℚ) (log : Log Fields) (lastId : Nat) : Call :=
  ⟨log, lastId, start, .checking (.begin waitTimeout start)⟩

def IsStart (m : Arrival) : Prop := m.fields.get? "type" = some "DATA_START"

instance (m : Arrival) : Decidable (IsStart m) := inferInstanceAs (Decidable (_ = _))

/-- The start processed last, and what has been processed since. -/
def current (ms : List Arrival) : Option (Arrival × List Arrival) :=
  ms.foldl (fun c m => if IsStart m then some (m, []) else c.map (fun p => (p.1, p.2 ++ [m]))) none

/-- A chunk of the transfer with this start, under this number. -/
def ChunkOf (first : Arrival) (seq : Int) (m : Arrival) : Prop :=
  m.fields.get? "type" = some "DATA_CHUNK" ∧
    m.fields.get? "transfer_id" = first.fields.get? "transfer_id" ∧
    readSequenceNo m.fields = .ok seq

/-- A message that starts a transfer, or is the first copy of a chunk of the
transfer started last. -/
def Advances (ms : List Arrival) (m : Arrival) : Prop :=
  IsStart m ∨ ∃ first since seq, current ms = some (first, since) ∧ ChunkOf first seq m ∧
    ∀ x ∈ since, ¬ ChunkOf first seq x

/-- The start of the call and the moments of progress in it. -/
def moments (start : ℚ) (ms : List Arrival) : Set ℚ :=
  {t | t = start ∨ ∃ pre m post, ms = pre ++ m :: post ∧ Advances pre m ∧ t = m.now}

def Seen.arrival? : Seen → Option Arrival
  | .processed m => some m
  | _ => none

def Seen.poll? : Seen → Option Poll
  | .polled p => some p
  | _ => none

def arrivalsOf (seen : List Seen) : List Arrival := seen.filterMap Seen.arrival?

def pollsOf (seen : List Seen) : List Poll := seen.filterMap Seen.poll?

section Messages
variable {waitTimeout start now : ℚ} {r r' : Receiving} {ms : List Arrival} {m : Arrival}

theorem current_snoc (ms : List Arrival) (m : Arrival) : current (ms ++ [m]) =
    if IsStart m then some (m, []) else (current ms).map (fun p => (p.1, p.2 ++ [m])) := by
  simp [current, List.foldl_append]

theorem mem_moments_snoc {t : ℚ} : t ∈ moments start (ms ++ [m]) ↔
    t ∈ moments start ms ∨ (Advances ms m ∧ t = m.now) := by
  constructor
  · rintro (rfl | ⟨pre, x, post, he, ha, rfl⟩)
    · exact Or.inl (Or.inl rfl)
    · rcases List.eq_nil_or_concat post with rfl | ⟨post', y, rfl⟩
      · obtain ⟨rfl, hx⟩ := List.append_inj' he rfl
        obtain rfl := List.singleton_inj.mp hx
        exact Or.inr ⟨ha, rfl⟩
      · have hsplit : ms ++ [m] = (pre ++ x :: post') ++ [y] := by simpa using he
        obtain ⟨rfl, -⟩ := List.append_inj' hsplit rfl
        exact Or.inl (Or.inr ⟨pre, x, post', rfl, ha, rfl⟩)
  · rintro ((rfl | ⟨pre, x, post, rfl, ha, rfl⟩) | ⟨ha, rfl⟩)
    · exact Or.inl rfl
    · exact Or.inr ⟨pre, x, post ++ [m], by simp, ha, rfl⟩
    · exact Or.inr ⟨ms, m, [], rfl, ha, rfl⟩

/-- The variables of the loop after the messages processed so far. -/
structure Holds (waitTimeout start now : ℚ) (r : Receiving) (ms : List Arrival) : Prop where
  deadline : IsGreatest (moments start ms) (r.deadline - waitTimeout)
  past : r.deadline - waitTimeout ≤ now
  started : r.started = true ↔ current ms ≠ none
  transfer : ∀ first since, current ms = some (first, since) →
    r.transferId = first.fields.get? "transfer_id" ∧
      ∀ seq, seq ∈ r.seenSeq ↔ ∃ x ∈ since, ChunkOf first seq x

/-- What a message that does not leave the loop does to the variables. -/
inductive Takes (waitTimeout : ℚ) (m : Arrival) (r : Receiving) : Receiving → Prop
  | start {r' : Receiving} : IsStart m → r'.transferId = m.fields.get? "transfer_id" →
      r'.started = true → r'.seenSeq = [] → r'.deadline = m.now + waitTimeout →
      Takes waitTimeout m r r'
  | chunk {seq : Int} {buf : List UInt8} : ¬ IsStart m →
      m.fields.get? "type" = some "DATA_CHUNK" → r.started = true →
      m.fields.get? "transfer_id" = r.transferId → readSequenceNo m.fields = .ok seq →
      seq ∉ r.seenSeq →
      Takes waitTimeout m r
        { r with seenSeq := seq :: r.seenSeq, buf := buf, deadline := m.now + waitTimeout }
  | duplicate {seq : Int} : ¬ IsStart m → m.fields.get? "type" = some "DATA_CHUNK" →
      r.started = true → m.fields.get? "transfer_id" = r.transferId →
      readSequenceNo m.fields = .ok seq → seq ∈ r.seenSeq → Takes waitTimeout m r r
  | other : ¬ IsStart m → ¬ (m.fields.get? "type" = some "DATA_CHUNK" ∧ r.started = true ∧
      m.fields.get? "transfer_id" = r.transferId) → Takes waitTimeout m r r

theorem readStart_transferId {fields : Fields} {s : Start} (h : readStart fields = .ok s) :
    fields.get? "transfer_id" = some s.transferId := by
  unfold readStart Fields.item at h
  cases hid : fields.get? "transfer_id" with
  | none => simp [hid] at h
  | some id =>
    simp only [hid] at h
    repeat' split at h
    all_goals cases h
    rfl

theorem receiveMessage_takes (h : receiveMessage waitTimeout m r = .ok r') :
    Takes waitTimeout m r r' := by
  unfold receiveMessage at h
  simp only at h
  by_cases hs : m.fields.get? "type" = some "DATA_START"
  · rw [if_pos hs] at h
    cases hr : readStart m.fields with
    | error e => simp [hr] at h
    | ok s =>
      simp only [hr, Except.ok.injEq] at h
      subst h
      exact .start hs (readStart_transferId hr).symm rfl rfl rfl
  · rw [if_neg hs] at h
    by_cases hc : m.fields.get? "type" = some "DATA_CHUNK" ∧ r.started = true ∧
        m.fields.get? "transfer_id" = r.transferId
    · rw [if_pos hc] at h
      cases hq : readSequenceNo m.fields with
      | error e => simp [hq] at h
      | ok seq =>
        simp only [hq] at h
        by_cases hseen : seq ∈ r.seenSeq
        · rw [if_pos hseen, Except.ok.injEq] at h
          subst h
          exact .duplicate hs hc.1 hc.2.1 hc.2.2 hq hseen
        · rw [if_neg hseen] at h
          cases hb : readChunk m.fields with
          | error e => simp [hb] at h
          | ok chunk =>
            simp only [hb, Except.ok.injEq] at h
            subst h
            exact .chunk hs hc.1 hc.2.1 hc.2.2 hq hseen
    · rw [if_neg hc] at h
      split at h
      · split at h
        · cases h
        · split at h <;> cases h
      · cases h
        exact .other hs hc

theorem greatest_advance {t : ℚ} (h : IsGreatest (moments start ms) t) (later : t ≤ m.now)
    (advances : Advances ms m) : IsGreatest (moments start (ms ++ [m])) m.now := by
  refine ⟨mem_moments_snoc.mpr (Or.inr ⟨advances, rfl⟩), ?_⟩
  intro u hu
  rcases mem_moments_snoc.mp hu with hu | ⟨-, rfl⟩
  · exact (h.2 hu).trans later
  · exact le_rfl

theorem greatest_stay {t : ℚ} (h : IsGreatest (moments start ms) t) (idle : ¬ Advances ms m) :
    IsGreatest (moments start (ms ++ [m])) t := by
  refine ⟨mem_moments_snoc.mpr (Or.inl h.1), ?_⟩
  intro u hu
  rcases mem_moments_snoc.mp hu with hu | ⟨ha, -⟩
  · exact h.2 hu
  · exact absurd ha idle

theorem ChunkOf.unique {first : Arrival} {seq seq' : Int} (h : ChunkOf first seq m)
    (h' : ChunkOf first seq' m) : seq' = seq :=
  Except.ok.inj (h'.2.2.symm.trans h.2.2)

theorem Holds.later {now' : ℚ} (h : Holds waitTimeout start now r ms) (later : now ≤ now') :
    Holds waitTimeout start now' r ms :=
  ⟨h.deadline, h.past.trans later, h.started, h.transfer⟩

theorem copied_snoc {first : Arrival} {since : List Arrival} {seq : Int} :
    (∃ x ∈ since ++ [m], ChunkOf first seq x) ↔
      (∃ x ∈ since, ChunkOf first seq x) ∨ ChunkOf first seq m := by
  simp [or_and_right, exists_or]

theorem Holds.begin (waitTimeout start : ℚ) :
    Holds waitTimeout start start (.begin waitTimeout start) [] where
  deadline := by
    have hd : (Receiving.begin waitTimeout start).deadline - waitTimeout = start :=
      add_sub_cancel_right start waitTimeout
    rw [hd]
    refine ⟨Or.inl rfl, ?_⟩
    rintro t (rfl | ⟨pre, m, post, he, -⟩)
    · exact le_rfl
    · simp at he
  past := le_of_eq (add_sub_cancel_right start waitTimeout)
  started := by simp [Receiving.begin, current]
  transfer first since h := by cases h

/-- A message within a transfer: what is left to show is where the deadline
stands, and that the number of a chunk of the transfer has been seen. -/
theorem Holds.within (h : Holds waitTimeout start now r ms) (hs : ¬ IsStart m)
    (hstarted : r'.started = r.started) (hid : r'.transferId = r.transferId)
    (deadline : IsGreatest (moments start (ms ++ [m])) (r'.deadline - waitTimeout))
    (past : r'.deadline - waitTimeout ≤ m.now)
    (seen : ∀ first since, current ms = some (first, since) →
      ∀ seq, seq ∈ r'.seenSeq ↔ seq ∈ r.seenSeq ∨ ChunkOf first seq m) :
    Holds waitTimeout start m.now r' (ms ++ [m]) := by
  refine ⟨deadline, past, ?_, ?_⟩
  · rw [hstarted, h.started, current_snoc, if_neg hs]
    simp
  · intro first since' hc
    rw [current_snoc, if_neg hs] at hc
    obtain ⟨⟨first', since⟩, hcur, he⟩ := Option.map_eq_some_iff.mp hc
    cases he
    obtain ⟨htransfer, hseen⟩ := h.transfer _ _ hcur
    refine ⟨hid.trans htransfer, fun seq => ?_⟩
    rw [seen _ _ hcur, copied_snoc, hseen seq]

/-- Under the variables of the loop, a chunk of the transfer that is going on. -/
theorem Holds.chunkOf (h : Holds waitTimeout start now r ms) {first : Arrival}
    {since : List Arrival} {seq : Int} (hcur : current ms = some (first, since))
    (hc : m.fields.get? "type" = some "DATA_CHUNK")
    (hid : m.fields.get? "transfer_id" = r.transferId)
    (hseq : readSequenceNo m.fields = .ok seq) : ChunkOf first seq m :=
  ⟨hc, hid.trans (h.transfer first since hcur).1, hseq⟩

/-- A message that moves the deadline is one the transfer advances by, and the
others leave it where it is. -/
theorem Holds.message (h : Holds waitTimeout start now r ms) (later : now ≤ m.now)
    (takes : Takes waitTimeout m r r') : Holds waitTimeout start m.now r' (ms ++ [m]) := by
  have hpast := h.past.trans later
  have hnow : m.now + waitTimeout - waitTimeout = m.now := add_sub_cancel_right _ _
  cases takes with
  | start hs hid hstarted hseen hdeadline =>
    have hd : r'.deadline - waitTimeout = m.now := by rw [hdeadline, hnow]
    have hcurrent : current (ms ++ [m]) = some (m, []) := by rw [current_snoc, if_pos hs]
    refine ⟨?_, hd.le, ?_, ?_⟩
    · rw [hd]
      exact greatest_advance h.deadline hpast (Or.inl hs)
    · simp [hstarted, hcurrent]
    · intro first since hc
      rw [hcurrent] at hc
      cases hc
      exact ⟨hid, fun seq => by simp [hseen]⟩
  | @chunk seq buf hs hc hstarted hid hseq hnew =>
    obtain ⟨⟨first, since⟩, hcur⟩ := Option.ne_none_iff_exists'.mp (h.started.mp hstarted)
    have hchunk := h.chunkOf hcur hc hid hseq
    have hadvances : Advances ms m := by
      refine Or.inr ⟨first, since, seq, hcur, hchunk, ?_⟩
      intro x hx hxc
      exact hnew (((h.transfer first since hcur).2 seq).mpr ⟨x, hx, hxc⟩)
    refine h.within hs rfl rfl ?_ hnow.le ?_
    · rw [hnow]
      exact greatest_advance h.deadline hpast hadvances
    · intro first' since' hcur' q
      obtain rfl := congrArg Prod.fst (Option.some.inj (hcur.symm.trans hcur'))
      have hq : q = seq ↔ ChunkOf first q m := ⟨fun he => he ▸ hchunk, hchunk.unique⟩
      rw [List.mem_cons, hq, or_comm]
  | @duplicate seq hs hc hstarted hid hseq hold =>
    obtain ⟨⟨first, since⟩, hcur⟩ := Option.ne_none_iff_exists'.mp (h.started.mp hstarted)
    have hchunk := h.chunkOf hcur hc hid hseq
    obtain ⟨copy, hcopy, hcopied⟩ := ((h.transfer first since hcur).2 seq).mp hold
    have hidle : ¬ Advances ms m := by
      rintro (hstart | ⟨first', since', seq', hcur', hchunk', hfresh⟩)
      · exact hs hstart
      · rw [hcur] at hcur'
        cases hcur'
        rw [hchunk.unique hchunk'] at hfresh
        exact hfresh copy hcopy hcopied
    refine h.within hs rfl rfl (greatest_stay h.deadline hidle) hpast ?_
    intro first' since' hcur' q
    obtain rfl := congrArg Prod.fst (Option.some.inj (hcur.symm.trans hcur'))
    exact (or_iff_left_of_imp fun hq => hchunk.unique hq ▸ hold).symm
  | other hs hnot =>
    have hforeign : ∀ first since seq, current ms = some (first, since) → ¬ ChunkOf first seq m := by
      intro first since seq hcur hchunk
      have hstarted : r.started = true := h.started.mpr (by simp [hcur])
      exact hnot ⟨hchunk.1, hstarted, hchunk.2.1.trans (h.transfer first since hcur).1.symm⟩
    have hidle : ¬ Advances ms m := by
      rintro (hstart | ⟨first, since, seq, hcur, hchunk, -⟩)
      · exact hs hstart
      · exact hforeign first since seq hcur hchunk
    refine h.within hs rfl rfl (greatest_stay h.deadline hidle) hpast ?_
    intro first since hcur q
    exact (or_iff_left (hforeign first since q hcur)).symm

theorem lastNow_cons (now : ℚ) (m : Arrival) (ms : List Arrival) :
    lastNow now (m :: ms) = lastNow m.now ms := by
  cases ms with
  | nil => rfl
  | cons m' ms => simp [lastNow, List.getLast?_cons]

theorem Rising.cons (h : Rising now (m :: ms)) : now ≤ m.now ∧ Rising m.now ms := by
  obtain ⟨hfirst, hrest⟩ := List.pairwise_cons.mp h
  exact ⟨hfirst _ (List.mem_cons_self ..), hrest⟩

/-- A batch that is read to its end. -/
theorem Holds.batch {done : List Arrival} {lastId lastId' : Nat}
    (h : Holds waitTimeout start now r done) (rising : Rising now ms)
    (hb : receiveBatch waitTimeout ms lastId r = .ok (lastId', r')) :
    processed waitTimeout ms r = ms ∧ lastId' = lastOf lastId ms ∧
      Holds waitTimeout start (lastNow now ms) r' (done ++ ms) := by
  induction ms generalizing now r done lastId with
  | nil =>
    cases hb
    exact ⟨rfl, rfl, by simpa [lastNow] using h⟩
  | cons m ms ih =>
    rw [receiveBatch] at hb
    cases hm : receiveMessage waitTimeout m r with
    | error e => simp [hm] at hb
    | ok r₁ =>
      simp only [hm] at hb
      obtain ⟨hle, hrest⟩ := rising.cons
      have hnext := h.message hle (receiveMessage_takes hm)
      obtain ⟨hp, hl, hend⟩ := ih hnext hrest hb
      refine ⟨by simp only [processed, hm, hp], by rw [hl, lastOf_cons], ?_⟩
      rw [lastNow_cons]
      simpa using hend

end Messages

inductive Moves (waitTimeout : ℚ) (s : Call) : Turn → Call → List Seen → Prop
  | arrives (fields : Fields) :
      Moves waitTimeout s (.arrives fields) { s with events := s.events.append fields } []
  | timesOut {r : Receiving} {now : ℚ} : s.phase = .checking r → s.now ≤ now →
      r.deadline ≤ now → Moves waitTimeout s (.checks now)
        { s with now := now, phase := .ended (.transferFailed .timeout s.lastId) }
        [.polled ⟨now, []⟩]
  | asks {r : Receiving} {now : ℚ} : s.phase = .checking r → s.now ≤ now → now < r.deadline →
      Moves waitTimeout s (.checks now)
        { s with now := now, phase := .blocked r (blockMs (r.deadline - now)) }
        [.asked (blockMs (r.deadline - now))]
  | reads {r r' : Receiving} {block : Int} {clock : Nat → ℚ} {lastId : Nat} :
      s.phase = .blocked r block → answer s clock ≠ [] → Rising s.now (answer s clock) →
      receiveBatch waitTimeout (answer s clock) s.lastId r = .ok (lastId, r') →
      Moves waitTimeout s (.answered clock)
        { s with lastId := lastId, now := lastNow s.now (answer s clock), phase := .checking r' }
        (.polled ⟨s.now, answer s clock⟩ ::
          (processed waitTimeout (answer s clock) r).map .processed)
  | ends {r : Receiving} {block : Int} {clock : Nat → ℚ} {ending : Ending} :
      s.phase = .blocked r block → answer s clock ≠ [] → Rising s.now (answer s clock) →
      receiveBatch waitTimeout (answer s clock) s.lastId r = .error ending →
      Moves waitTimeout s (.answered clock)
        { s with now := lastNow s.now (answer s clock), phase := .ended ending }
        (.polled ⟨s.now, answer s clock⟩ ::
          (processed waitTimeout (answer s clock) r).map .processed)
  | expires {r : Receiving} {block : Int} {now : ℚ} : s.phase = .blocked r block →
      s.events.unread s.lastId = [] → s.now + block / 1000 ≤ now →
      Moves waitTimeout s (.expired now) { s with now := now, phase := .checking r }
        [.polled ⟨s.now, []⟩]

section Steps
variable {waitTimeout start : ℚ} {s t : Call} {turn : Turn} {turns : List Turn}
variable {seen o : List Seen} {r : Receiving} {lastId₀ : Nat} {log : Log Fields}

theorem step_moves (h : step waitTimeout s turn = some (t, o)) : Moves waitTimeout s turn t o := by
  cases turn with
  | arrives fields =>
    cases h
    exact .arrives fields
  | checks now =>
    simp only [step] at h
    split at h
    · rename_i r hr
      split at h
      · cases h
      · rename_i hback
        split at h
        · rename_i hlate
          cases h
          exact .timesOut hr (not_lt.mp hback) (sub_nonpos.mp hlate)
        · rename_i hearly
          cases h
          exact .asks hr (not_lt.mp hback) (sub_pos.mp (not_le.mp hearly))
    · cases h
  | answered clock =>
    simp only [step] at h
    split at h
    · rename_i r block hr
      split at h
      · rename_i hok
        split at h
        · rename_i ending hb
          cases h
          exact .ends hr hok.1 hok.2 hb
        · rename_i lastId r' hb
          cases h
          exact .reads hr hok.1 hok.2 hb
      · cases h
    · cases h
  | expired now =>
    simp only [step] at h
    split at h
    · rename_i r block hr
      split at h
      · rename_i hok
        cases h
        exact .expires hr hok.1 hok.2
      · cases h
    · cases h

/-- The argument is never below 100, and never 0. -/
theorem blockMs_ge (remaining : ℚ) : 100 ≤ blockMs remaining := by
  unfold blockMs
  rw [Int.le_floor]
  have hmax : (1 / 10 : ℚ) ≤ max remaining (1 / 10) := le_max_right _ _
  push_cast
  linarith

/-- A call that goes on, with the variables of its loop. -/
structure Stands (waitTimeout start : ℚ) (lastId₀ : Nat) (s : Call) (seen : List Seen)
    (r : Receiving) : Prop where
  holds : Holds waitTimeout start s.now r (arrivalsOf seen)
  goesOn : ∀ more, receivePolls waitTimeout (pollsOf seen ++ more) lastId₀
    (.begin waitTimeout start) = receivePolls waitTimeout more s.lastId r

/-- A call that is over: time is up only when no progress has been made for as
long as it is given, and nothing else is raised over messages that can be read. -/
structure Settles (waitTimeout start : ℚ) (lastId₀ : Nat) (s : Call) (seen : List Seen)
    (ending : Ending) : Prop where
  timely : ∀ lastId, ending = .transferFailed .timeout lastId → ∃ latest,
    IsGreatest (moments start (arrivalsOf seen)) latest ∧ waitTimeout ≤ s.now - latest
  raised : ∀ e, ending = .raised e → ∃ m ∈ arrivalsOf seen, ¬ Readable m.fields
  ends : receivePolls waitTimeout (pollsOf seen) lastId₀ (.begin waitTimeout start) = some ending

def Sound (waitTimeout start : ℚ) (lastId₀ : Nat) (s : Call) (seen : List Seen) : Prop :=
  match s.phase with
  | .checking r => Stands waitTimeout start lastId₀ s seen r
  | .blocked r block => Stands waitTimeout start lastId₀ s seen r ∧ s.now < r.deadline ∧
    block = blockMs (r.deadline - s.now)
  | .ended ending => Settles waitTimeout start lastId₀ s seen ending

theorem arrivalsOf_append : arrivalsOf (seen ++ o) = arrivalsOf seen ++ arrivalsOf o :=
  List.filterMap_append ..

theorem arrivalsOf_quiet (quiet : arrivalsOf o = []) : arrivalsOf (seen ++ o) = arrivalsOf seen := by
  rw [arrivalsOf_append, quiet, List.append_nil]

theorem pollsOf_append : pollsOf (seen ++ o) = pollsOf seen ++ pollsOf o :=
  List.filterMap_append ..

theorem arrivalsOf_processed (p : Poll) (ms : List Arrival) :
    arrivalsOf (.polled p :: ms.map .processed) = ms := by
  have hms : List.filterMap Seen.arrival? (ms.map .processed) = ms := by
    simp [List.filterMap_map, Function.comp_def, Seen.arrival?]
  exact hms

theorem pollsOf_processed (p : Poll) (ms : List Arrival) :
    pollsOf (.polled p :: ms.map .processed) = [p] := by
  have hms : List.filterMap Seen.poll? (ms.map .processed) = [] := by
    simp [List.filterMap_map, Function.comp_def, Seen.poll?]
  exact congrArg (p :: ·) hms

/-- Only the loop itself runs out of time. -/
theorem receiveBatch_in_time {ms : List Arrival} {lastId lastId' : Nat} :
    receiveBatch waitTimeout ms lastId r ≠ .error (.transferFailed .timeout lastId') := by
  induction ms generalizing r lastId with
  | nil => simp [receiveBatch]
  | cons m ms ih =>
    rw [receiveBatch]
    cases hm : receiveMessage waitTimeout m r with
    | ok r₁ => exact ih
    | error ending =>
      rintro he
      simp only [Except.error.injEq] at he
      subst he
      unfold receiveMessage at hm
      simp only at hm
      repeat' split at hm
      all_goals cases hm

theorem raised_unreadable {ms : List Arrival} {lastId : Nat} {e : PyError}
    (h : receiveBatch waitTimeout ms lastId r = .error (.raised e)) :
    ∃ m ∈ processed waitTimeout ms r, ¬ Readable m.fields := by
  induction ms generalizing r lastId with
  | nil => cases h
  | cons m ms ih =>
    rw [receiveBatch] at h
    cases hm : receiveMessage waitTimeout m r with
    | error ending =>
      simp only [hm, Except.error.injEq] at h
      subst h
      refine ⟨m, ?_, fun hr => receiveMessage_readable hr e hm⟩
      simp only [processed, hm, List.mem_singleton]
    | ok r₁ =>
      simp only [hm] at h
      obtain ⟨x, hx, hn⟩ := ih h
      refine ⟨x, ?_, hn⟩
      simp only [processed, hm]
      exact List.mem_cons_of_mem _ hx

theorem Stands.aside (h : Stands waitTimeout start lastId₀ s seen r) (later : s.now ≤ t.now)
    (same : t.lastId = s.lastId) (arrivals : arrivalsOf o = []) (polls : pollsOf o = []) :
    Stands waitTimeout start lastId₀ t (seen ++ o) r where
  holds := by
    rw [arrivalsOf_quiet arrivals]
    exact h.holds.later later
  goesOn more := by
    rw [pollsOf_append, polls, List.append_nil, same]
    exact h.goesOn more

theorem Sound.step (h : Sound waitTimeout start lastId₀ s seen) (moves : Moves waitTimeout s turn t o) :
    Sound waitTimeout start lastId₀ t (seen ++ o) := by
  unfold Sound at h
  cases moves with
  | arrives fields =>
    rw [List.append_nil]
    unfold Sound
    cases hp : s.phase with
    | checking r =>
      rw [hp] at h
      exact ⟨h.holds, h.goesOn⟩
    | blocked r block =>
      rw [hp] at h
      exact ⟨⟨h.1.holds, h.1.goesOn⟩, h.2⟩
    | ended ending =>
      rw [hp] at h
      exact ⟨h.timely, h.raised, h.ends⟩
  | @timesOut r now hr hle hlate =>
    rw [hr] at h
    refine ⟨?_, ?_, ?_⟩
    · intro lastId _
      refine ⟨r.deadline - waitTimeout, ?_, by linarith⟩
      rw [arrivalsOf_quiet rfl]
      exact h.holds.deadline
    · intro e he
      cases he
    · rw [pollsOf_append, h.goesOn]
      have hover : r.deadline - now ≤ 0 := sub_nonpos.mpr hlate
      simp only [pollsOf, List.filterMap_cons, Seen.poll?, List.filterMap_nil, receivePolls,
        if_pos hover]
  | @asks r now hr hle hearly =>
    rw [hr] at h
    exact ⟨h.aside hle rfl rfl rfl, hearly, rfl⟩
  | @reads r r' block clock lastId hr hsome hrising hb =>
    rw [hr] at h
    obtain ⟨hp, -, hend⟩ := h.1.holds.batch hrising hb
    have hover : ¬ r.deadline - s.now ≤ 0 := not_le.mpr (sub_pos.mpr h.2.1)
    refine ⟨?_, ?_⟩
    · rw [arrivalsOf_append, arrivalsOf_processed, hp]
      exact hend
    · intro more
      rw [pollsOf_append, pollsOf_processed, List.append_assoc, h.1.goesOn, List.singleton_append]
      simp only [receivePolls, if_neg hover, hb]
  | @ends r block clock ending hr hsome hrising hb =>
    rw [hr] at h
    have hover : ¬ r.deadline - s.now ≤ 0 := not_le.mpr (sub_pos.mpr h.2.1)
    refine ⟨?_, ?_, ?_⟩
    · rintro lastId rfl
      exact absurd hb receiveBatch_in_time
    · rintro e rfl
      obtain ⟨m, hm, hn⟩ := raised_unreadable hb
      refine ⟨m, ?_, hn⟩
      rw [arrivalsOf_append, arrivalsOf_processed]
      exact List.mem_append_right _ hm
    · rw [pollsOf_append, pollsOf_processed, h.1.goesOn]
      simp only [receivePolls, if_neg hover, hb]
  | @expires r block now hr hnone hle =>
    rw [hr] at h
    have hover : ¬ r.deadline - s.now ≤ 0 := not_le.mpr (sub_pos.mpr h.2.1)
    have hblock : (100 : ℚ) ≤ block := by
      rw [h.2.2]
      exact_mod_cast blockMs_ge _
    have hnow : s.now ≤ now := by linarith
    refine ⟨?_, ?_⟩
    · rw [arrivalsOf_quiet rfl]
      exact h.1.holds.later hnow
    · intro more
      rw [pollsOf_append, List.append_assoc, h.1.goesOn]
      simp only [pollsOf, List.filterMap_cons, Seen.poll?, List.filterMap_nil,
        List.singleton_append, receivePolls, if_neg hover, receiveBatch]

theorem asked_ge (moves : Moves waitTimeout s turn t o) {block : Int}
    (h : Seen.asked block ∈ o) : 100 ≤ block := by
  cases moves with
  | asks _ _ _ =>
    simp only [List.mem_singleton, Seen.asked.injEq] at h
    subst h
    exact blockMs_ge _
  | _ => simp at h

/-- The empty answers there is time for between two moments of progress. -/
def patience (waitTimeout : ℚ) : Nat := ⌈10 * waitTimeout⌉₊

/-- What is left to read, for a call that goes on. -/
def owed (s : Call) : Nat :=
  match s.phase with
  | .ended _ => 0
  | _ => (s.events.unread s.lastId).length

def Phase.running? : Phase → Option Receiving
  | .checking r => some r
  | .blocked r _ => some r
  | .ended _ => none

def Phase.isChecking : Phase → Bool
  | .checking _ => true
  | _ => false

/-- An answer takes up messages, and without one the clock runs: each expiry
takes a tenth of a second or more off the time that is left. -/
structure Paced (waitTimeout : ℚ) (unread : Nat) (turns : List Turn) (s : Call) : Prop where
  answers : turns.countP Turn.answer + owed s ≤ unread + turns.countP Turn.arrival
  expiries : ∃ since : Nat, since ≤ patience waitTimeout ∧
    turns.countP Turn.expiry ≤ turns.countP Turn.answer * patience waitTimeout + since ∧
    ∀ r, s.phase.running? = some r → (since : ℚ) ≤ 10 * (s.now - (r.deadline - waitTimeout))
  checks : turns.countP Turn.check ≤ turns.countP Turn.answer + turns.countP Turn.expiry +
    if s.phase.isChecking = true then 0 else 1

theorem unread_answered {clock : Nat → ℚ} {lastId : Nat} (hsome : answer s clock ≠ [])
    (last : lastId = lastOf s.lastId (answer s clock)) :
    (s.events.unread lastId).length + 1 ≤ (s.events.unread s.lastId).length := by
  obtain ⟨entries, he, hnext⟩ :=
    ReaderAgreement.arrivals_next s.events s.lastId ⟨s.now, receiveCount, Nat.le_refl _, clock⟩
  have hsame : ReaderAgreement.arrivals s.events s.lastId
      ⟨s.now, receiveCount, Nat.le_refl _, clock⟩ = answer s clock := rfl
  rw [hsame] at he hnext
  have hentries : entries ≠ [] := by
    rintro rfl
    exact hsome he
  have hpos := List.length_pos_iff.mpr hentries
  rw [hnext, ← last, List.length_append]
  omega

theorem Paced.begin : Paced waitTimeout (log.unread lastId₀).length []
    (begin waitTimeout start log lastId₀) where
  answers := by simp [owed, ReceiverDeadlines.begin]
  expiries := by
    refine ⟨0, Nat.zero_le _, by simp, ?_⟩
    intro r hr
    cases hr
    simp [ReceiverDeadlines.begin, Receiving.begin]
  checks := by simp [ReceiverDeadlines.begin, Phase.isChecking]

theorem countP_turn (p : Turn → Bool) :
    (turns ++ [turn]).countP p = turns.countP p + (p turn).toNat := by
  rw [List.countP_append, List.countP_singleton]
  cases p turn <;> rfl

theorem unread_arrives (fields : Fields) : ((s.events.append fields).unread s.lastId).length ≤
    (s.events.unread s.lastId).length + 1 := by
  have hfloor : (s.events.append fields).floor s.lastId = s.events.floor s.lastId := rfl
  rw [unread_length, unread_length, hfloor, history_append, List.length_append,
    List.length_singleton]
  omega

theorem owed_arrives (fields : Fields) :
    owed { s with events := s.events.append fields } ≤ owed s + 1 := by
  cases hp : s.phase with
  | ended ending => simp [owed, hp]
  | checking r => simpa [owed, hp] using unread_arrives fields
  | blocked r block => simpa [owed, hp] using unread_arrives fields

/-- An answer takes something off what is left to read, and an arrival adds one. -/
theorem Moves.owed (moves : Moves waitTimeout s turn t o)
    (sound : Sound waitTimeout start lastId₀ s seen) :
    turn.answer.toNat + owed t ≤ owed s + turn.arrival.toNat := by
  unfold Sound at sound
  cases moves with
  | arrives fields => simpa [Turn.answer, Turn.arrival] using owed_arrives fields
  | timesOut hr => simp [ReceiverDeadlines.owed, Turn.answer]
  | asks hr => simp [ReceiverDeadlines.owed, hr, Turn.answer]
  | @reads r r' block clock lastId hr hsome hrising hb =>
    rw [hr] at sound
    obtain ⟨-, hlast, -⟩ := sound.1.holds.batch hrising hb
    have hless := unread_answered hsome hlast
    simp only [ReceiverDeadlines.owed, hr, Turn.answer, Turn.arrival, Bool.toNat_true,
      Bool.toNat_false]
    omega
  | ends hr hsome =>
    have hless := unread_answered hsome rfl
    simp only [ReceiverDeadlines.owed, hr, Turn.answer, Turn.arrival, Bool.toNat_true,
      Bool.toNat_false]
    omega
  | expires hr => simp [ReceiverDeadlines.owed, hr, Turn.answer]

/-- 1 for a call whose latest check has had no answer and has not expired. -/
def pending (s : Call) : Nat := if s.phase.isChecking = true then 0 else 1

theorem Moves.pending (moves : Moves waitTimeout s turn t o) :
    turn.check.toNat + pending s ≤ turn.answer.toNat + turn.expiry.toNat + pending t := by
  cases moves with
  | arrives fields => simp [ReceiverDeadlines.pending, Turn.check]
  | timesOut hr => simp [ReceiverDeadlines.pending, hr, Phase.isChecking, Turn.check]
  | asks hr => simp [ReceiverDeadlines.pending, hr, Phase.isChecking, Turn.check]
  | reads hr =>
    simp [ReceiverDeadlines.pending, hr, Phase.isChecking, Turn.check, Turn.answer]
  | ends hr => simp [ReceiverDeadlines.pending, hr, Phase.isChecking, Turn.check, Turn.answer]
  | expires hr =>
    simp [ReceiverDeadlines.pending, hr, Phase.isChecking, Turn.check, Turn.expiry]

/-- The expiries since the latest answer have taken their time. -/
def Waited (waitTimeout : ℚ) (since : Nat) (s : Call) : Prop :=
  ∀ r, s.phase.running? = some r → (since : ℚ) ≤ 10 * (s.now - (r.deadline - waitTimeout))

/-- An expiry is counted, and an answer starts the count again. -/
theorem Moves.waited (moves : Moves waitTimeout s turn t o)
    (sound : Sound waitTimeout start lastId₀ s seen) {since : Nat}
    (hsince : since ≤ patience waitTimeout) (waited : Waited waitTimeout since s) :
    ∃ since', since' ≤ patience waitTimeout ∧
      turn.expiry.toNat + since ≤ turn.answer.toNat * patience waitTimeout + since' ∧
      Waited waitTimeout since' t := by
  have after := sound.step moves
  unfold Sound at sound after
  cases moves with
  | arrives fields => exact ⟨since, hsince, by simp [Turn.expiry], waited⟩
  | timesOut => exact ⟨since, hsince, by simp [Turn.expiry], nofun⟩
  | @asks r now hr hle hearly =>
    refine ⟨since, hsince, by simp [Turn.expiry], ?_⟩
    rintro r' hr'
    cases hr'
    have hbefore := waited r (by rw [hr]; rfl)
    have hlater : s.now - (r.deadline - waitTimeout) ≤ now - (r.deadline - waitTimeout) := by
      linarith
    linarith
  | reads =>
    refine ⟨0, Nat.zero_le _, by simpa [Turn.expiry, Turn.answer] using hsince, ?_⟩
    rintro r' hr'
    cases hr'
    have hnonneg := sub_nonneg.mpr after.holds.past
    push_cast
    linarith
  | ends => exact ⟨0, Nat.zero_le _, by simpa [Turn.expiry, Turn.answer] using hsince, nofun⟩
  | @expires r block now hr hnone hle =>
    rw [hr] at sound
    have hblock : (100 : ℚ) ≤ block := by
      rw [sound.2.2]
      exact_mod_cast blockMs_ge _
    have hbefore := waited r (by rw [hr]; rfl)
    have hroom : since < patience waitTimeout := by
      unfold patience
      rw [Nat.lt_ceil]
      have hearly := sound.2.1
      linarith
    refine ⟨since + 1, hroom, by simp [Turn.expiry, Turn.answer, Nat.add_comm], ?_⟩
    rintro r' hr'
    cases hr'
    push_cast
    linarith

theorem Paced.step {unread : Nat} (h : Paced waitTimeout unread turns s)
    (sound : Sound waitTimeout start lastId₀ s seen) (moves : Moves waitTimeout s turn t o) :
    Paced waitTimeout unread (turns ++ [turn]) t := by
  obtain ⟨hanswers, ⟨since, hsince, hexpiries, htime⟩, hchecks⟩ := h
  refine ⟨?_, ?_, ?_⟩
  · have howed := moves.owed sound
    rw [countP_turn, countP_turn]
    omega
  · obtain ⟨since', hsince', hstep, htime'⟩ := moves.waited sound hsince htime
    refine ⟨since', hsince', ?_, htime'⟩
    rw [countP_turn, countP_turn, Nat.add_mul]
    omega
  · have hpending := moves.pending
    unfold pending at hpending
    rw [countP_turn, countP_turn, countP_turn]
    omega

theorem rising_still (s : Call) : Rising s.now (answer s (fun _ => s.now)) := by
  have hsame : (answer s (fun _ => s.now)).map Arrival.now =
      List.replicate (answer s (fun _ => s.now)).length s.now := by
    rw [List.eq_replicate_iff]
    refine ⟨List.length_map .., ?_⟩
    intro x hx
    simp only [answer, List.map_map, List.mem_map, Function.comp_apply] at hx
    obtain ⟨entry, -, rfl⟩ := hx
    rfl
  unfold Rising
  rw [hsame, ← List.replicate_succ]
  exact List.pairwise_replicate.mpr (Or.inr le_rfl)

/-- A call that is not over can take a step of its own. -/
theorem not_stuck (running : s.phase.ending? = none) : ∃ turn t o,
    turn.own = true ∧ (receiving waitTimeout).step s turn = some (t, o) := by
  cases hp : s.phase with
  | ended ending => simp [hp, Phase.ending?] at running
  | checking r =>
    by_cases hlate : r.deadline - s.now ≤ 0
    · exact ⟨.checks s.now, _, _, rfl, by
        simp only [receiving, step, hp, lt_irrefl, if_false, if_pos hlate]; rfl⟩
    · exact ⟨.checks s.now, _, _, rfl, by
        simp only [receiving, step, hp, lt_irrefl, if_false, if_neg hlate]; rfl⟩
  | blocked r block =>
    by_cases hnone : s.events.unread s.lastId = []
    · have hok : s.events.unread s.lastId = [] ∧
          s.now + (block : ℚ) / 1000 ≤ s.now + (block : ℚ) / 1000 := ⟨hnone, le_rfl⟩
      exact ⟨.expired (s.now + block / 1000), _, _, rfl, by
        simp only [receiving, step, hp, if_pos hok]; rfl⟩
    · have hsome : answer s (fun _ => s.now) ≠ [] := by
        simpa [answer, Log.read, receiveCount] using hnone
      have hok := And.intro hsome (rising_still s)
      cases hb : receiveBatch waitTimeout (answer s (fun _ => s.now)) s.lastId r with
      | error ending =>
        exact ⟨.answered (fun _ => s.now), _, _, rfl, by
          simp only [receiving, step, hp, if_pos hok, hb]; rfl⟩
      | ok p =>
        exact ⟨.answered (fun _ => s.now), _, _, rfl, by
          simp only [receiving, step, hp, if_pos hok, hb]; rfl⟩

/-- The steps of a call that gets to see so many messages. -/
def mostSteps (waitTimeout : ℚ) (messages : Nat) : Nat :=
  2 * (messages + (messages + 1) * patience waitTimeout) + 1

theorem turns_split (turns : List Turn) : turns.countP Turn.own =
    turns.countP Turn.answer + turns.countP Turn.expiry + turns.countP Turn.check := by
  induction turns with
  | nil => rfl
  | cons turn turns ih =>
    simp only [List.countP_cons, ih]
    cases turn with
    | arrives fields => simp [Turn.own, Turn.answer, Turn.expiry, Turn.check]
    | _ =>
      simp only [Turn.own, Turn.answer, Turn.expiry, Turn.check, if_true, Bool.false_eq_true,
        if_false]
      omega

theorem Paced.bound {unread : Nat} (h : Paced waitTimeout unread turns s) :
    turns.countP Turn.own ≤
      mostSteps waitTimeout (unread + turns.countP Turn.arrival) := by
  obtain ⟨hanswers, ⟨since, hsince, hexpiries, -⟩, hchecks⟩ := h
  have hle : turns.countP Turn.answer ≤ unread + turns.countP Turn.arrival :=
    (Nat.le_add_right _ _).trans hanswers
  have hmul := Nat.mul_le_mul_right (patience waitTimeout) (Nat.add_le_add_right hle 1)
  rw [Nat.add_mul _ 1, Nat.one_mul] at hmul
  have hlast : (if s.phase.isChecking = true then 0 else 1) ≤ 1 := by
    split <;> omega
  rw [turns_split]
  unfold mostSteps
  omega

structure Inv (waitTimeout start : ℚ) (log : Log Fields) (lastId₀ : Nat) (turns : List Turn)
    (s : Call) (seen : List Seen) : Prop where
  sound : Sound waitTimeout start lastId₀ s seen
  paced : Paced waitTimeout (log.unread lastId₀).length turns s
  asked : ∀ block, Seen.asked block ∈ seen → 100 ≤ block

theorem run_inv (run : Run (receiving waitTimeout) Free (begin waitTimeout start log lastId₀)
    turns s seen) : Inv waitTimeout start log lastId₀ turns s seen := by
  refine run.invariant_along (Inv waitTimeout start log lastId₀) ?_ ?_
  · exact ⟨⟨.begin waitTimeout start, fun _ => rfl⟩, .begin, by simp⟩
  · intro turns s seen turn t o _ h _ hs
    have hmoves := step_moves hs
    refine ⟨h.sound.step hmoves, h.paced.step h.sound hmoves, ?_⟩
    intro block hm
    exact (List.mem_append.mp hm).elim (h.asked block) (asked_ge hmoves)

/-- A call comes to an end, however its messages arrive: it never gets stuck, and
the number of its steps is bounded by the number of messages. It ends as
`receive_once` does on what XREAD has answered, with nothing raised over messages
that can be read, and out of time only when no progress has been made for that
long; while it goes on, the deadline is that of the latest progress. -/
theorem receive_once_waits (run : Run (receiving waitTimeout) Free
    (begin waitTimeout start log lastId₀) turns s seen) :
    turns.countP Turn.own ≤
        mostSteps waitTimeout ((log.unread lastId₀).length + turns.countP Turn.arrival) ∧
      (s.phase.ending? = none → ∃ turn t o, turn.own = true ∧
        (receiving waitTimeout).step s turn = some (t, o)) ∧
      (∀ ending, s.phase = .ended ending →
        receiveOnce waitTimeout start lastId₀ (pollsOf seen) = some ending) ∧
      ((∀ m ∈ arrivalsOf seen, Readable m.fields) → ∀ e, s.phase ≠ .ended (.raised e)) ∧
      (∀ lastId, s.phase = .ended (.transferFailed .timeout lastId) → ∃ latest,
        IsGreatest (moments start (arrivalsOf seen)) latest ∧ waitTimeout ≤ s.now - latest) ∧
      (∀ r, s.phase.running? = some r →
        IsGreatest (moments start (arrivalsOf seen)) (r.deadline - waitTimeout)) ∧
      ∀ block, Seen.asked block ∈ seen → 100 ≤ block := by
  obtain ⟨sound, paced, asked⟩ := run_inv run
  unfold Sound at sound
  refine ⟨paced.bound, not_stuck, ?_, ?_, ?_, ?_, asked⟩
  · intro ending hp
    rw [hp] at sound
    exact sound.ends
  · intro readable e hp
    rw [hp] at sound
    obtain ⟨m, hm, hn⟩ := sound.raised e rfl
    exact hn (readable m hm)
  · intro lastId hp
    rw [hp] at sound
    exact sound.timely lastId rfl
  · intro r hr
    cases hp : s.phase with
    | ended ending => simp [hp, Phase.running?] at hr
    | checking r' =>
      rw [hp] at hr sound
      cases hr
      exact sound.holds.deadline
    | blocked r' block =>
      rw [hp] at hr sound
      cases hr
      exact sound.1.holds.deadline

end Steps

def startFields : Fields := startMessage [] "t0" 2 [1, 2, 3]

def chunkFields : Fields := chunkMessage [] "t0" 0 [1, 2]

/-- The copy of the chunk, a quarter of a second after it, moves nothing: time is
up half a second after the chunk. -/
def duplicated : List Turn :=
  [.arrives startFields, .arrives chunkFields, .checks 0, .answered (fun _ => 0),
    .arrives chunkFields, .checks (1 / 4), .answered (fun _ => 1 / 4), .checks (1 / 4),
    .expired (1 / 2), .checks (1 / 2)]

theorem duplicated_times_out : ∃ s seen,
    Run (receiving (1 / 2)) Free (begin (1 / 2) 0 .empty 0) duplicated s seen ∧
      s.phase.ending? = some (.transferFailed .timeout 3) ∧
      7 ≤ mostSteps (1 / 2) 3 ∧
      (∃ latest, IsGreatest (moments 0 (arrivalsOf seen)) latest ∧ 1 / 2 ≤ s.now - latest) ∧
      ∀ block, Seen.asked block ∈ seen → 100 ≤ block := by
  have hrun : (replay (receiving (1 / 2)) (begin (1 / 2) 0 .empty 0) duplicated).any
      (fun p => p.1.phase.ending? = some (.transferFailed .timeout 3)) = true := by
    decide +kernel
  obtain ⟨s, seen, run, hend⟩ := run_of_replay_test hrun
  have hend' : s.phase.ending? = some (.transferFailed .timeout 3) := by simpa using hend
  obtain ⟨hbound, -, -, -, htimely, -, hasked⟩ := receive_once_waits run
  have hphase : s.phase = .ended (.transferFailed .timeout 3) := by
    cases hp : s.phase with
    | ended ending =>
      rw [hp] at hend'
      rw [Option.some.inj hend']
    | _ => simp [hp, Phase.ending?] at hend'
  exact ⟨s, seen, run, hend', hbound, htimely 3 hphase, hasked⟩

end ReceiverDeadlines
