import DelegateProtocol.Lib.Weaving
import Mathlib.Data.List.Range

/-!
# Reassembling transfers that are sent in pieces

A transfer is a start with a header, numbered chunks and a finish. A
reassembler holds the buffer of the transfer started last: it adds the first
copy of every chunk of that transfer, drops the buffer when another transfer
starts, and closes it at the transfer's own finish. Everything else it skips.
-/

namespace Reassembly

universe u v w x

variable {ι : Type u} {κ : Type v} {β : Type w} {γ : Type x}

inductive Piece (ι : Type u) (κ : Type v) (β : Type w) (γ : Type x) where
  | start (id : ι) (header : γ)
  | chunk (id : ι) (seq : κ) (bytes : List β)
  | finish (id : ι)
  | other

structure Buffer (ι : Type u) (κ : Type v) (β : Type w) (γ : Type x) where
  id : ι
  header : γ
  bytes : List β
  seen : List κ

variable [DecidableEq ι] [DecidableEq κ]

def Buffer.add (b : Buffer ι κ β γ) (seq : κ) (bytes : List β) : Buffer ι κ β γ :=
  if seq ∈ b.seen then b else { b with bytes := b.bytes ++ bytes, seen := seq :: b.seen }

/-- The buffer held after one more piece. -/
def advance : Option (Buffer ι κ β γ) → Piece ι κ β γ → Option (Buffer ι κ β γ)
  | _, .start id header => some ⟨id, header, [], []⟩
  | none, _ => none
  | some b, .chunk id seq bytes => if id = b.id then some (b.add seq bytes) else some b
  | some b, .finish id => if id = b.id then none else some b
  | some b, .other => some b

/-- The buffer a piece closes. -/
def closes : Option (Buffer ι κ β γ) → Piece ι κ β γ → Option (Buffer ι κ β γ)
  | some b, .finish id => if id = b.id then some b else none
  | _, _ => none

def after (ps : List (Piece ι κ β γ)) : Option (Buffer ι κ β γ) := ps.foldl advance none

/-- The buffers closed along a list of pieces. -/
def closings : Option (Buffer ι κ β γ) → List (Piece ι κ β γ) → List (Buffer ι κ β γ)
  | _, [] => []
  | s, p :: ps => (closes s p).toList ++ closings (advance s p) ps

omit [DecidableEq κ] in
theorem closes_finish {s : Option (Buffer ι κ β γ)} {p : Piece ι κ β γ} {b : Buffer ι κ β γ}
    (h : closes s p = some b) : p = .finish b.id := by
  cases s with
  | none => simp [closes] at h
  | some c =>
    cases p with
    | finish id =>
      simp only [closes] at h
      by_cases hid : id = c.id
      · rw [if_pos hid, Option.some.injEq] at h
        rw [← h, hid]
      · simp [hid] at h
    | _ => simp [closes] at h

/-- Nothing is held once a buffer has been closed. -/
theorem advance_closes {s : Option (Buffer ι κ β γ)} {p : Piece ι κ β γ} {b : Buffer ι κ β γ}
    (h : closes s p = some b) : advance s p = none := by
  cases s with
  | none => simp [closes] at h
  | some c =>
    have hp := closes_finish h
    rw [hp] at h ⊢
    by_cases hid : b.id = c.id
    · simp [advance, hid]
    · simp [closes, hid] at h

theorem after_snoc (ps : List (Piece ι κ β γ)) (p : Piece ι κ β γ) :
    after (ps ++ [p]) = advance (after ps) p := by
  simp [after, List.foldl_append]

theorem closings_append (s : Option (Buffer ι κ β γ)) (ps qs : List (Piece ι κ β γ)) :
    closings s (ps ++ qs) = closings s ps ++ closings (ps.foldl advance s) qs := by
  induction ps generalizing s with
  | nil => rfl
  | cons p ps ih => simp [closings, ih]

theorem closings_snoc (ps : List (Piece ι κ β γ)) (p : Piece ι κ β γ) :
    closings none (ps ++ [p]) = closings none ps ++ (closes (after ps) p).toList := by
  rw [closings_append]
  simp [closings, after]

/-- The numbered contents of the chunks of one transfer, in order of arrival. -/
def copiesOf (id : ι) : List (Piece ι κ β γ) → List (κ × List β)
  | [] => []
  | .chunk id' seq bytes :: ps =>
    if id' = id then (seq, bytes) :: copiesOf id ps else copiesOf id ps
  | _ :: ps => copiesOf id ps

/-- Keep the first entry of every number, in order. -/
def firsts (cs : List (κ × List β)) : List (κ × List β) :=
  cs.foldl (fun kept c => if c.1 ∈ kept.map Prod.fst then kept else kept ++ [c]) []

def content (cs : List (κ × List β)) : List β := (firsts cs).flatMap Prod.snd

/-- The pieces between the start of `b`'s transfer and now. -/
structure Since (b : Buffer ι κ β γ) (ps : List (Piece ι κ β γ)) : Prop where
  no_start : ∀ id header, Piece.start id header ∉ ps
  no_finish : Piece.finish b.id ∉ ps
  bytes : b.bytes = content (copiesOf b.id ps)
  seen : b.seen.reverse = (firsts (copiesOf b.id ps)).map Prod.fst

omit [DecidableEq κ] in
theorem copiesOf_snoc (id : ι) (ps : List (Piece ι κ β γ)) (p : Piece ι κ β γ) :
    copiesOf id (ps ++ [p]) = copiesOf id ps ++ copiesOf id [p] := by
  induction ps with
  | nil => rfl
  | cons q ps ih =>
    cases q with
    | chunk id' seq bytes =>
      simp only [List.cons_append, copiesOf]
      split
      · rw [ih, List.cons_append]
      · exact ih
    | start _ _ => simpa only [List.cons_append, copiesOf] using ih
    | finish _ => simpa only [List.cons_append, copiesOf] using ih
    | other => simpa only [List.cons_append, copiesOf] using ih

theorem firsts_snoc (cs : List (κ × List β)) (c : κ × List β) :
    firsts (cs ++ [c]) =
      if c.1 ∈ (firsts cs).map Prod.fst then firsts cs else firsts cs ++ [c] := by
  unfold firsts
  rw [List.foldl_append]
  rfl

/-- A chunk of the transfer extends the buffer by its first copy. -/
theorem Since.add {b : Buffer ι κ β γ} {ps : List (Piece ι κ β γ)} (h : Since b ps) (seq : κ)
    (bytes : List β) : Since (b.add seq bytes) (ps ++ [.chunk b.id seq bytes]) := by
  have hid : (b.add seq bytes).id = b.id := by
    unfold Buffer.add
    split <;> rfl
  have hcopies : copiesOf b.id (ps ++ [.chunk b.id seq bytes]) =
      copiesOf b.id ps ++ [(seq, bytes)] := by
    rw [copiesOf_snoc]
    simp [copiesOf]
  have hseen : seq ∈ b.seen ↔ seq ∈ (firsts (copiesOf b.id ps)).map Prod.fst := by
    rw [← h.seen, List.mem_reverse]
  constructor
  · intro id header hm
    rcases List.mem_append.mp hm with hm | hm
    · exact h.no_start id header hm
    · simp at hm
  · intro hm
    rw [hid] at hm
    rcases List.mem_append.mp hm with hm | hm
    · exact h.no_finish hm
    · simp at hm
  · rw [hid, hcopies, content, firsts_snoc]
    by_cases hs : seq ∈ b.seen
    · simp only [Buffer.add, if_pos hs, if_pos (hseen.mp hs)]
      exact h.bytes
    · simp only [Buffer.add, if_neg hs, if_neg (fun hm => hs (hseen.mpr hm)), List.flatMap_append,
        List.flatMap_singleton]
      rw [h.bytes, content]
  · rw [hid, hcopies, firsts_snoc]
    by_cases hs : seq ∈ b.seen
    · simp only [Buffer.add, if_pos hs, if_pos (hseen.mp hs)]
      exact h.seen
    · simp only [Buffer.add, if_neg hs, if_neg (fun hm => hs (hseen.mpr hm)), List.reverse_cons,
        List.map_append, List.map_cons, List.map_nil, h.seen]

/-- A piece that is neither a start nor one of the transfer's own is skipped. -/
theorem Since.skip {b : Buffer ι κ β γ} {ps : List (Piece ι κ β γ)} (h : Since b ps)
    {p : Piece ι κ β γ} (hstart : ∀ id header, p ≠ .start id header)
    (hfinish : p ≠ .finish b.id) (hcopies : copiesOf b.id [p] = []) : Since b (ps ++ [p]) := by
  have he : copiesOf b.id (ps ++ [p]) = copiesOf b.id ps := by
    rw [copiesOf_snoc, hcopies, List.append_nil]
  constructor
  · intro id header hm
    rcases List.mem_append.mp hm with hm | hm
    · exact h.no_start id header hm
    · exact hstart id header (List.mem_singleton.mp hm).symm
  · intro hm
    rcases List.mem_append.mp hm with hm | hm
    · exact h.no_finish hm
    · exact hfinish (List.mem_singleton.mp hm).symm
  · rw [he]
    exact h.bytes
  · rw [he]
    exact h.seen

/-- The buffer held is that of the transfer started last, and holds what has
arrived of it since. -/
theorem after_eq_some {ps : List (Piece ι κ β γ)} {b : Buffer ι κ β γ} (h : after ps = some b) :
    ∃ pre mid, ps = pre ++ .start b.id b.header :: mid ∧ Since b mid := by
  induction ps using List.reverseRecOn generalizing b with
  | nil => cases h
  | append_singleton ps p ih =>
    rw [after_snoc] at h
    have fresh (b : Buffer ι κ β γ) (hb : b.bytes = []) (hs : b.seen = []) : Since b [] :=
      ⟨by simp, by simp, by simp [hb, content, firsts, copiesOf], by simp [hs, firsts, copiesOf]⟩
    cases p with
    | start id header =>
      simp only [advance, Option.some.injEq] at h
      subst h
      exact ⟨ps, [], rfl, fresh _ rfl rfl⟩
    | chunk id seq bytes =>
      cases hs : after ps with
      | none => simp [hs, advance] at h
      | some c =>
        obtain ⟨pre, mid, he, since⟩ := ih hs
        simp only [hs, advance] at h
        by_cases hid : id = c.id
        · rw [if_pos hid, Option.some.injEq] at h
          subst h hid
          have hsame : (c.add seq bytes).id = c.id ∧ (c.add seq bytes).header = c.header := by
            unfold Buffer.add
            split <;> exact ⟨rfl, rfl⟩
          rw [hsame.1, hsame.2]
          exact ⟨pre, mid ++ [.chunk c.id seq bytes], by simp [he], since.add seq bytes⟩
        · rw [if_neg hid, Option.some.injEq] at h
          subst h
          exact ⟨pre, mid ++ [.chunk id seq bytes], by simp [he],
            since.skip (by simp) (by simp) (by simp [copiesOf, hid])⟩
    | finish id =>
      cases hs : after ps with
      | none => simp [hs, advance] at h
      | some c =>
        obtain ⟨pre, mid, he, since⟩ := ih hs
        simp only [hs, advance] at h
        by_cases hid : id = c.id
        · simp [hid] at h
        · rw [if_neg hid, Option.some.injEq] at h
          subst h
          exact ⟨pre, mid ++ [.finish id], by simp [he],
            since.skip (by simp) (by simpa using hid) (by simp [copiesOf])⟩
    | other =>
      cases hs : after ps with
      | none => simp [hs, advance] at h
      | some c =>
        obtain ⟨pre, mid, he, since⟩ := ih hs
        simp only [hs, advance, Option.some.injEq] at h
        subst h
        exact ⟨pre, mid ++ [.other], by simp [he],
          since.skip (by simp) (by simp) (by simp [copiesOf])⟩

/-- A closed buffer holds exactly one transfer between its start and its finish. -/
theorem closes_eq_some {ps : List (Piece ι κ β γ)} {p : Piece ι κ β γ} {b : Buffer ι κ β γ}
    (h : closes (after ps) p = some b) :
    p = .finish b.id ∧ ∃ pre mid, ps = pre ++ .start b.id b.header :: mid ∧ Since b mid := by
  have hp := closes_finish h
  cases hs : after ps with
  | none => simp [hs, closes] at h
  | some c =>
    rw [hs, hp] at h
    by_cases hid : b.id = c.id
    · simp only [closes, if_pos hid, Option.some.injEq] at h
      subst h
      exact ⟨hp, after_eq_some hs⟩
    · simp [closes, hid] at h

def Piece.bytes? : Piece ι κ β γ → Option (List β)
  | .chunk _ _ bytes => some bytes
  | _ => none

/-- The contents of the chunks of all transfers. -/
def contents (ps : List (Piece ι κ β γ)) : List (List β) := ps.filterMap Piece.bytes?

omit [DecidableEq κ] in
theorem copiesOf_contents (id : ι) (ps : List (Piece ι κ β γ)) :
    ((copiesOf id ps).map Prod.snd).Sublist (contents ps) := by
  induction ps with
  | nil => exact List.Sublist.slnil
  | cons p ps ih =>
    cases p with
    | chunk id' seq bytes =>
      simp only [copiesOf, contents, List.filterMap_cons, Piece.bytes?]
      split
      · exact ih.cons_cons _
      · exact ih.cons _
    | start _ _ => exact ih
    | finish _ => exact ih
    | other => exact ih

theorem firsts_sublist (cs : List (κ × List β)) : (firsts cs).Sublist cs := by
  induction cs using List.reverseRecOn with
  | nil => exact List.Sublist.slnil
  | append_singleton cs c ih =>
    rw [firsts_snoc]
    split
    · exact ih.trans (List.sublist_append_left cs [c])
    · exact ih.append_right [c]

/-- The bytes of a closed buffer are contents of chunks, in order of arrival. -/
theorem closes_contents {ps : List (Piece ι κ β γ)} {p : Piece ι κ β γ} {b : Buffer ι κ β γ}
    (h : closes (after ps) p = some b) :
    ∃ cs : List (List β), cs.Sublist (contents ps) ∧ b.bytes = cs.flatten := by
  obtain ⟨-, pre, mid, rfl, since⟩ := closes_eq_some h
  refine ⟨(firsts (copiesOf b.id mid)).map Prod.snd, ?_, ?_⟩
  · have later : (contents mid).Sublist (contents (pre ++ .start b.id b.header :: mid)) := by
      apply List.Sublist.filterMap
      exact ((List.Sublist.refl mid).cons _).trans (List.sublist_append_right pre _)
    exact (((firsts_sublist _).map _).trans (copiesOf_contents b.id mid)).trans later
  · rw [since.bytes, content, List.flatMap_def]

end Reassembly
