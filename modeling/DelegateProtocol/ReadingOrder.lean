import DelegateProtocol.WatchExecution

/-!
# What a watcher has in hand

The messages a watcher has read and not yet handled are, stream by stream, the
next ones after its cursor, and the streams come in the order in which they are
named: events, log, status, output.
-/

namespace ReadingOrder

open AppendLog Handlers Models Runtime StepMachine Streams WatchExecution

def rank : Kind → Nat
  | .events => 0
  | .log => 1
  | .status => 2
  | .output => 3

/-- The messages still to be handled before the next poll. -/
def inHand : Point → List Message
  | .handling rest => rest
  | .authorizing _ _ rest => rest
  | .sending _ _ _ _ rest => rest
  | _ => []

def ofKind (k : Kind) (ms : List Message) : List (Nat × Fields) :=
  (ms.filter (fun m => decide (m.kind = k))).map (fun m => (m.id, m.fields))

/-- The messages of one stream a run has handled, in order. -/
def handledOf (k : Kind) : List Seen → List (Nat × Fields)
  | [] => []
  | .handled m :: o => if m.kind = k then (m.id, m.fields) :: handledOf k o else handledOf k o
  | _ :: o => handledOf k o

structure InOrder (s : System) : Prop where
  behind : ∀ k, s.watch.lastIds k ≤ (s.log k).history.length
  next : ∀ k, ofKind k (inHand s.watch.point) <+: (s.log k).unread (s.watch.lastIds k)
  sorted : (inHand s.watch.point).Pairwise (fun a b => rank a.kind ≤ rank b.kind)

section Moves
variable {host : Host} {world world' : World} {watch watch' : Watch} {input : Input}
variable {seen : List Seen}

theorem moves_same (h : Moves host world watch input world' watch' seen) :
    watch'.execution = watch.execution ∧ watch'.keys = watch.keys := by
  cases h <;> exact ⟨rfl, rfl⟩

/-- A watcher that has ended takes no step. -/
theorem moves_live (h : Moves host world watch input world' watch' seen) (why : Why) :
    watch.point ≠ .ended why := by
  intro hp
  cases h <;> simp_all

theorem xadd_redis (world : World) (key : String) (fields : Fields) (key' : String) :
    ((world.xadd key fields).redis key' = world.redis key' ∧ key' ≠ key) ∨
      ((world.xadd key fields).redis key' = (world.redis key').append fields ∧ key' = key) := by
  by_cases h : key' = key
  · subst h
    exact Or.inr ⟨by simp [World.xadd], rfl⟩
  · exact Or.inl ⟨by simp [World.xadd, h], h⟩

theorem xadd_history (world : World) (key : String) (fields : Fields) (key' : String) :
    (world.redis key').history <+: ((world.xadd key fields).redis key').history ∧
      ((world.xadd key fields).redis key').removed = (world.redis key').removed := by
  rcases xadd_redis world key fields key' with ⟨h, -⟩ | ⟨h, -⟩
  · rw [h]
    exact ⟨List.prefix_refl _, rfl⟩
  · rw [h]
    exact ⟨List.prefix_append _ _, rfl⟩

theorem deleteKeys_history (world : World) (keys : Keys) (key : String) :
    ((world.deleteKeys keys).redis key).history = (world.redis key).history := by
  simp only [World.deleteKeys]
  split <;> rfl

theorem moves_history (h : Moves host world watch input world' watch' seen) (key : String) :
    (world.redis key).history <+: (world'.redis key).history := by
  cases h with
  | xadd _ => exact (xadd_history world _ _ key).1
  | xaddUnanswered _ => exact (xadd_history world _ _ key).1
  | delete _ =>
    change _ <+: ((world.deleteKeys watch.keys).redis key).history
    rw [deleteKeys_history]
  | deleteUnanswered _ => rw [deleteKeys_history]
  | _ => exact List.prefix_refl _

/-- Only the clean-up removes anything. -/
theorem moves_removed (h : Moves host world watch input world' watch' seen)
    (kept : Seen.deleted ∉ seen) (key : String) :
    (world'.redis key).removed = (world.redis key).removed := by
  cases h with
  | xadd _ => exact (xadd_history world _ _ key).2
  | xaddUnanswered _ => exact (xadd_history world _ _ key).2
  | delete _ => exact False.elim (kept (List.mem_singleton_self _))
  | deleteUnanswered _ => exact False.elim (kept (List.mem_singleton_self _))
  | _ => rfl

/-- A step touches no stream but the four. -/
theorem moves_outside (h : Moves host world watch input world' watch' seen) {key : String}
    (outside : ∀ k, watch.keys.key k ≠ key) : world'.redis key = world.redis key := by
  have kept : (world.deleteKeys watch.keys).redis key = world.redis key := by
    simp only [World.deleteKeys]
    rw [if_neg]
    rintro ⟨k, -, hk⟩
    exact outside k hk
  have aside (fields : Fields) :
      (world.xadd watch.keys.events fields).redis key = world.redis key :=
    Function.update_of_ne (Ne.symm (outside .events)) _ _
  cases h with
  | xadd _ => exact aside _
  | xaddUnanswered _ => exact aside _
  | delete _ => exact kept
  | deleteUnanswered _ => exact kept
  | _ => rfl

/-- The ways a step changes what is in hand. -/
inductive Hand (world world' : World) (watch watch' : Watch) (seen : List Seen) : Prop
  | keep : inHand watch'.point = inHand watch.point → watch'.lastIds = watch.lastIds →
      (∀ m, Seen.handled m ∉ seen) → Seen.deleted ∉ seen →
      Hand world world' watch watch' seen
  | drop : inHand watch'.point = [] → watch'.lastIds = watch.lastIds →
      (∀ m, Seen.handled m ∉ seen) → Hand world world' watch watch' seen
  | take (counts : Kind → Nat) : watch.point = .reading → (∀ k, counts k ≤ maxCount) →
      watch'.point = .handling (xread world watch counts) → watch'.lastIds = watch.lastIds →
      world' = world → seen = [] → Hand world world' watch watch' seen
  | next (m : Message) (rest : List Message) : watch.point = .handling (m :: rest) →
      (inHand watch'.point = rest ∨ inHand watch'.point = []) →
      watch'.lastIds = Function.update watch.lastIds m.kind m.id →
      world'.redis = world.redis → seen = [.handled m] →
      Hand world world' watch watch' seen

theorem moves_hand (h : Moves host world watch input world' watch' seen) :
    Hand world world' watch watch' seen := by
  cases h with
  | expire _ => exact .drop rfl rfl (by simp)
  | rowGone _ _ => exact .drop rfl rfl (by simp)
  | finish _ _ _ => exact .drop rfl rfl (by simp)
  | poll _ _ _ => exact .drop rfl rfl (by simp)
  | read hp hc => exact .take _ hp hc rfl rfl rfl rfl
  | readLost _ => exact .drop rfl rfl (by simp)
  | batchDone _ => exact .drop rfl rfl (by simp)
  | requestRowGone hp _ _ => exact .next _ _ hp (Or.inl rfl) rfl rfl rfl
  | request hp _ _ => exact .next _ _ hp (Or.inl rfl) rfl rfl rfl
  | message hp _ _ => exact .next _ _ hp (Or.inl rfl) rfl rfl rfl
  | messageRaised hp _ _ => exact .next _ _ hp (Or.inr rfl) rfl rfl rfl
  | requestRaised _ _ => exact .drop rfl rfl (by simp)
  | rejected hp _ => exact .keep (by rw [hp]; rfl) rfl (by simp) (by simp)
  | fileNotFound hp _ => exact .keep (by rw [hp]; rfl) rfl (by simp) (by simp)
  | granted hp _ => exact .keep (by rw [hp]; rfl) rfl (by simp) (by simp)
  | xadd hp => exact .keep (by rw [hp]; rfl) rfl (by simp) (by simp)
  | xaddLost _ => exact .drop rfl rfl (by simp)
  | xaddUnanswered _ => exact .drop rfl rfl (by simp)
  | saved hp _ => exact .keep (by rw [hp]; rfl) rfl (by simp) (by simp)
  | saveRaised _ _ => exact .drop rfl rfl (by simp)
  | delete _ => exact .drop rfl rfl (by simp)
  | deleteLost _ => exact .drop rfl rfl (by simp)
  | deleteUnanswered _ => exact .drop rfl rfl (by simp)

end Moves

theorem ofKind_cons_self (m : Message) (ms : List Message) :
    ofKind m.kind (m :: ms) = (m.id, m.fields) :: ofKind m.kind ms := by
  simp [ofKind]

theorem ofKind_cons_ne {m : Message} {k : Kind} (h : m.kind ≠ k) (ms : List Message) :
    ofKind k (m :: ms) = ofKind k ms := by
  simp [ofKind, h]

theorem ofKind_map (j k : Kind) (entries : List (Nat × Fields)) :
    ofKind k (entries.map (fun e => ⟨j, e.1, e.2⟩)) = if j = k then entries else [] := by
  by_cases h : j = k
  · simp [ofKind, h, List.filter_map, Function.comp_def]
  · simp [ofKind, h, List.filter_map, Function.comp_def]

/-- XREAD hands over the first unread entries of every stream. -/
theorem ofKind_xread (world : World) (watch : Watch) (counts : Kind → Nat) (k : Kind) :
    ofKind k (xread world watch counts) =
      (world.redis (watch.keys.key k)).read (watch.lastIds k) (counts k) := by
  have append (a b : List Message) : ofKind k (a ++ b) = ofKind k a ++ ofKind k b := by
    simp [ofKind]
  simp only [xread, kinds, List.flatMap_cons, List.flatMap_nil, append, ofKind_map]
  cases k <;> simp [ofKind]

theorem xread_sorted (world : World) (watch : Watch) (counts : Kind → Nat) :
    (xread world watch counts).Pairwise (fun a b => rank a.kind ≤ rank b.kind) := by
  unfold xread
  rw [List.pairwise_flatMap]
  constructor
  · intro k _
    rw [List.pairwise_map]
    exact List.pairwise_of_forall (fun _ _ => Nat.le_refl _)
  · have order : kinds.Pairwise (fun j k => rank j ≤ rank k) := by decide
    refine order.imp ?_
    intro j k hjk a ha b hb
    obtain ⟨_, _, rfl⟩ := List.mem_map.mp ha
    obtain ⟨_, _, rfl⟩ := List.mem_map.mp hb
    exact hjk

theorem mem_ofKind {k : Kind} {ms : List Message} {m : Message} (hm : m ∈ ms) (hk : m.kind = k) :
    (m.id, m.fields) ∈ ofKind k ms :=
  List.mem_map.mpr ⟨m, List.mem_filter.mpr ⟨hm, by simpa using hk⟩, rfl⟩

section Invariant
variable {host : Host} {s t : System} {a : Act} {o : List Seen}

theorem InOrder.start (world : World) (execution : Named) (keys : Keys) :
    InOrder ⟨world, .start execution keys⟩ where
  behind _ := Nat.zero_le _
  next _ := List.nil_prefix
  sorted := List.Pairwise.nil

/-- The head of the hand is the next entry of its stream. -/
theorem InOrder.head (hi : InOrder s) {m : Message} {rest : List Message}
    (hp : s.watch.point = .handling (m :: rest)) :
    ∃ later, (s.log m.kind).unread (s.watch.lastIds m.kind) = (m.id, m.fields) :: later ∧
      ofKind m.kind rest <+: later := by
  have h := hi.next m.kind
  rw [hp, inHand, ofKind_cons_self] at h
  obtain ⟨later, hl⟩ := h
  exact ⟨ofKind m.kind rest ++ later, hl.symm, List.prefix_append _ _⟩

/-- With its head handled, the rest of the hand is what comes next. -/
theorem InOrder.handled (hi : InOrder s) {m : Message} {rest : List Message}
    (hp : s.watch.point = .handling (m :: rest)) (k : Kind) :
    Function.update s.watch.lastIds m.kind m.id k ≤ (s.log k).history.length ∧
      ofKind k rest <+: (s.log k).unread (Function.update s.watch.lastIds m.kind m.id k) := by
  obtain ⟨later, hunread, hrest⟩ := hi.head hp
  obtain ⟨-, hid, -, hlater⟩ := unread_cons hunread
  by_cases hk : m.kind = k
  · subst hk
    rw [Function.update_self, hlater]
    exact ⟨hid, hrest⟩
  · rw [Function.update_of_ne (Ne.symm hk)]
    have hnext := hi.next k
    rw [hp, inHand, ofKind_cons_ne hk] at hnext
    exact ⟨hi.behind k, hnext⟩

theorem InOrder.moves (hi : InOrder s) {input : Input}
    (h : Moves host s.world s.watch input t.world t.watch o) : InOrder t := by
  have hkeys := (moves_same h).2
  have hgrown (k : Kind) : (s.log k).history <+: (t.log k).history := by
    simp only [System.log, hkeys]
    exact moves_history h _
  cases moves_hand h with
  | keep hand ids _ kept =>
    refine ⟨fun k => ?_, fun k => ?_, by rw [hand]; exact hi.sorted⟩
    · rw [ids]
      exact Nat.le_trans (hi.behind k) (hgrown k).length_le
    · rw [hand, ids]
      refine (hi.next k).trans (unread_grows (hgrown k) ?_ (hi.behind k))
      simp only [System.log, hkeys]
      exact moves_removed h kept _
  | drop hand ids _ =>
    refine ⟨fun k => ?_, fun k => ?_, by rw [hand]; exact List.Pairwise.nil⟩
    · rw [ids]
      exact Nat.le_trans (hi.behind k) (hgrown k).length_le
    · rw [hand]
      exact List.nil_prefix
  | take counts hp hc hp' ids hworld _ =>
    refine ⟨fun k => ?_, fun k => ?_, ?_⟩
    · rw [ids]
      exact Nat.le_trans (hi.behind k) (hgrown k).length_le
    · rw [hp', inHand, ofKind_xread, ids]
      simp only [System.log, hkeys, hworld]
      exact List.take_prefix _ _
    · rw [hp']
      exact xread_sorted _ _ _
  | next m rest hp hand ids _ hseen =>
    have kept : Seen.deleted ∉ o := by simp [hseen]
    have hsorted : rest.Pairwise (fun a b => rank a.kind ≤ rank b.kind) := by
      have := hi.sorted
      rw [hp] at this
      exact (List.pairwise_cons.mp this).2
    have hbehind := fun k => (hi.handled hp k).1
    have hnext := fun k => (hi.handled hp k).2
    refine ⟨fun k => ?_, fun k => ?_, ?_⟩
    · rw [ids]
      exact Nat.le_trans (hbehind k) (hgrown k).length_le
    · rw [ids]
      rcases hand with hand | hand
      · rw [hand]
        refine (hnext k).trans (unread_grows (hgrown k) ?_ (hbehind k))
        simp only [System.log, hkeys]
        exact moves_removed h kept _
      · rw [hand]
        exact List.nil_prefix
    · rcases hand with hand | hand
      · rw [hand]
        exact hsorted
      · rw [hand]
        exact List.Pairwise.nil

theorem InOrder.step (hi : InOrder s) (h : (watching host).step s a = some (t, o)) :
    InOrder t := by
  cases a with
  | watcher input => exact hi.moves (watching_watcher h)
  | publish key fields =>
    obtain ⟨rfl, -⟩ := watching_publish h
    refine ⟨fun k => ?_, fun k => ?_, hi.sorted⟩
    · exact Nat.le_trans (hi.behind k) (xadd_history s.world key fields _).1.length_le
    · have grown := xadd_history s.world key fields (s.watch.keys.key k)
      exact (hi.next k).trans (unread_grows grown.1 grown.2 (hi.behind k))
  | others store =>
    obtain ⟨-, rfl, -⟩ := watching_others h
    exact ⟨hi.behind, hi.next, hi.sorted⟩

end Invariant

theorem handledOf_append (k : Kind) (o o' : List Seen) :
    handledOf k (o ++ o') = handledOf k o ++ handledOf k o' := by
  induction o with
  | nil => rfl
  | cons x o ih =>
    cases x with
    | handled m =>
      simp only [List.cons_append, handledOf]
      split
      · rw [ih, List.cons_append]
      · exact ih
    | _ => exact ih

theorem handledOf_nil {k : Kind} {o : List Seen} (h : ∀ m, Seen.handled m ∉ o) :
    handledOf k o = [] := by
  induction o with
  | nil => rfl
  | cons x o ih =>
    have ho := ih (fun m hm => h m (List.mem_cons_of_mem _ hm))
    cases x with
    | handled m => exact False.elim (h m (List.mem_cons_self ..))
    | _ => exact ho

theorem handledOf_quiet {k : Kind} {o' : List Seen} (h : ∀ m, Seen.handled m ∉ o')
    (o : List Seen) : handledOf k (o ++ o') = handledOf k o := by
  rw [handledOf_append, handledOf_nil h, List.append_nil]

/-- All entries of a log above a base, with their numbers. -/
def entries (base : Nat) (l : Log Fields) : List (Nat × Fields) :=
  number (base + 1) (l.history.drop base)

theorem entries_grown {base : Nat} {l l' : Log Fields} {ms : List Fields}
    (grown : l'.history = l.history ++ ms) (h : base ≤ l.history.length) :
    entries base l' = entries base l ++ number (l.history.length + 1) ms := by
  unfold entries
  rw [grown, List.drop_append_of_le_length h, number_append, List.length_drop]
  rw [show base + 1 + (l.history.length - base) = l.history.length + 1 by omega]

theorem entries_unread (l : Log Fields) : entries l.removed l = l.unread 0 := by
  simp [entries, Log.unread, Log.floor]

/-- No message of a stream is handled twice. -/
theorem handled_increasing {k : Kind} {base : Nat} {l : Log Fields} {o : List Seen}
    (h : handledOf k o <+: entries base l) :
    ((handledOf k o).map Prod.fst).Pairwise (fun j k => j < k) :=
  (number_increasing (base + 1) (l.history.drop base)).sublist (h.map Prod.fst).sublist

/-- The handled messages of every stream are its first entries, and until the
clean-up those that are still unread are the others. -/
structure Consecutive (base : Kind → Nat) (s : System) (o : List Seen) : Prop where
  below : ∀ k, base k ≤ (s.log k).history.length
  first : ∀ k, handledOf k o <+: entries (base k) (s.log k)
  whole : Seen.deleted ∉ o → ∀ k, (s.log k).removed = base k ∧
    entries (base k) (s.log k) = handledOf k o ++ (s.log k).unread (s.watch.lastIds k)
  closed : Seen.deleted ∈ o → ∃ why, s.watch.point = .ended why

section Consecutive
variable {host : Host} {s t : System} {a : Act} {o o' : List Seen} {base : Kind → Nat}

theorem Consecutive.start (world : World) (execution : Named) (keys : Keys) :
    Consecutive (fun k => (world.redis (keys.key k)).removed) ⟨world, .start execution keys⟩ [] where
  below k := (world.redis (keys.key k)).removed_le
  first _ := List.nil_prefix
  whole _ _ := ⟨rfl, entries_unread _⟩
  closed h := nomatch h

theorem moves_deleted {input : Input}
    (h : Moves host s.world s.watch input t.world t.watch o') (hd : Seen.deleted ∈ o') :
    ∃ why, t.watch.point = .ended why := by
  generalize t.world = world at h
  generalize t.watch = watch at h ⊢
  cases h with
  | delete _ => exact ⟨_, rfl⟩
  | deleteUnanswered _ => exact ⟨_, rfl⟩
  | _ => simp at hd

/-- Streams that grow while nothing is handled. -/
theorem Consecutive.grow (hc : Consecutive base s o) (hi : InOrder s)
    (hids : t.watch.lastIds = s.watch.lastIds) (hout : ∀ k, handledOf k o' = [])
    (hgrown : ∀ k, (s.log k).history <+: (t.log k).history)
    (hkept : Seen.deleted ∉ o' → ∀ k, (t.log k).removed = (s.log k).removed)
    (hclosed : Seen.deleted ∈ o ++ o' → ∃ why, t.watch.point = .ended why) :
    Consecutive base t (o ++ o') := by
  have same (k : Kind) : handledOf k (o ++ o') = handledOf k o := by
    rw [handledOf_append, hout, List.append_nil]
  refine ⟨fun k => Nat.le_trans (hc.below k) (hgrown k).length_le, fun k => ?_, fun hn k => ?_,
    hclosed⟩
  · obtain ⟨ms, hms⟩ := hgrown k
    rw [same, entries_grown hms.symm (hc.below k)]
    exact (hc.first k).trans (List.prefix_append _ _)
  · obtain ⟨hno, hno'⟩ : Seen.deleted ∉ o ∧ Seen.deleted ∉ o' := by simpa using hn
    obtain ⟨hremoved, hwhole⟩ := hc.whole hno k
    have kept := hkept hno' k
    obtain ⟨ms, hms⟩ := hgrown k
    refine ⟨kept.trans hremoved, ?_⟩
    rw [same, hids, unread_grown hms.symm kept (hi.behind k),
      entries_grown hms.symm (hc.below k), hwhole, List.append_assoc]

theorem Consecutive.moves (hc : Consecutive base s o) (hi : InOrder s) {input : Input}
    (h : Moves host s.world s.watch input t.world t.watch o') : Consecutive base t (o ++ o') := by
  have hkeys := (moves_same h).2
  have hgrown (k : Kind) : (s.log k).history <+: (t.log k).history := by
    simp only [System.log, hkeys]
    exact moves_history h _
  have hkept : Seen.deleted ∉ o' → ∀ k, (t.log k).removed = (s.log k).removed := by
    intro hn k
    simp only [System.log, hkeys]
    exact moves_removed h hn _
  have hopen : Seen.deleted ∉ o := by
    intro hd
    obtain ⟨why, hw⟩ := hc.closed hd
    exact moves_live h why hw
  have hclosed : Seen.deleted ∈ o ++ o' → ∃ why, t.watch.point = .ended why := by
    intro hd
    rcases List.mem_append.mp hd with hd | hd
    · exact False.elim (hopen hd)
    · exact moves_deleted h hd
  cases moves_hand h with
  | keep _ ids hnone _ => exact hc.grow hi ids (fun k => handledOf_nil hnone) hgrown hkept hclosed
  | drop _ ids hnone => exact hc.grow hi ids (fun k => handledOf_nil hnone) hgrown hkept hclosed
  | take _ _ _ _ ids _ hseen =>
    exact hc.grow hi ids (fun k => by rw [hseen]; rfl) hgrown hkept hclosed
  | next m rest hp _ ids hredis hseen =>
    obtain ⟨later, hunread, -⟩ := hi.head hp
    obtain ⟨-, -, -, hlater⟩ := unread_cons hunread
    have hlog (k : Kind) : t.log k = s.log k := by
      simp only [System.log, hkeys, hredis]
    have hsplit (k : Kind) : entries (base k) (t.log k) =
        handledOf k (o ++ o') ++ (t.log k).unread (t.watch.lastIds k) := by
      rw [handledOf_append, hseen, ids, hlog, (hc.whole hopen k).2]
      by_cases hk : m.kind = k
      · subst hk
        rw [Function.update_self, hlater, hunread]
        simp [handledOf]
      · rw [Function.update_of_ne (Ne.symm hk)]
        simp [handledOf, hk]
    refine ⟨fun k => by rw [hlog]; exact hc.below k, fun k => ?_, fun _ k => ⟨?_, hsplit k⟩, hclosed⟩
    · rw [hsplit]
      exact List.prefix_append _ _
    · rw [hlog]
      exact (hc.whole hopen k).1

theorem Consecutive.step (hc : Consecutive base s o) (hi : InOrder s)
    (h : (watching host).step s a = some (t, o')) : Consecutive base t (o ++ o') := by
  cases a with
  | watcher input => exact hc.moves hi (watching_watcher h)
  | publish key fields =>
    obtain ⟨rfl, rfl⟩ := watching_publish h
    refine hc.grow hi rfl (fun _ => rfl) (fun k => (xadd_history s.world key fields _).1)
      (fun _ k => (xadd_history s.world key fields _).2) ?_
    simpa using hc.closed
  | others store =>
    obtain ⟨-, rfl, rfl⟩ := watching_others h
    refine hc.grow hi rfl (fun _ => rfl) (fun k => List.prefix_refl _) (fun _ _ => rfl) ?_
    simpa using hc.closed

/-- Along every run the messages handled are the first ones of their streams. -/
theorem consecutive_run {ok : System → Act → Prop} {world : World} {execution : Named}
    {keys : Keys} {as : List Act}
    (h : Run (watching host) ok ⟨world, .start execution keys⟩ as s o) :
    InOrder s ∧ Consecutive (fun k => (world.redis (keys.key k)).removed) s o := by
  refine h.invariant (fun s o => InOrder s ∧
    Consecutive (fun k => (world.redis (keys.key k)).removed) s o)
    ⟨.start world execution keys, .start world execution keys⟩ ?_
  rintro s o a t o' ⟨hi, hc⟩ _ hs
  exact ⟨hi.step hs, hc.step hi hs⟩

end Consecutive

end ReadingOrder
