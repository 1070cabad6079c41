import DelegateProtocol.Lib.Reassembly

/-!
# Reassembly under interleaving

Several senders publish complete transfers with distinct ids into one list,
chunks may be copied and pieces of other kinds stand anywhere in between. What
a reassembler holds is then always the part sent so far of one transfer, so a
buffer it closes is a whole transfer, and it closes at least one.
-/

namespace WovenTransfers

open Reassembly Weaving

universe u v w x

structure Transfer (ι : Type u) (β : Type w) (γ : Type x) where
  id : ι
  header : γ
  chunks : List (List β)

variable {ι : Type u} {κ : Type v} {β : Type w} {γ : Type x}
variable (number : Nat → κ)

def chunkPieces (t : Transfer ι β γ) : List (Piece ι κ β γ) :=
  t.chunks.mapIdx (fun n bytes => .chunk t.id (number n) bytes)

/-- The complete sequence of a transfer. -/
def sends (t : Transfer ι β γ) : List (Piece ι κ β γ) :=
  .start t.id t.header :: (chunkPieces number t ++ [.finish t.id])

/-- The buffer of a transfer of which `n` chunks have arrived. -/
def filled (t : Transfer ι β γ) (n : Nat) : Buffer ι κ β γ :=
  ⟨t.id, t.header, (t.chunks.take n).flatten, (List.range n).reverse.map number⟩

def whole (t : Transfer ι β γ) : Buffer ι κ β γ := filled number t t.chunks.length

def IsChunk : Piece ι κ β γ → Prop
  | .chunk _ _ _ => True
  | _ => False

def IsOther : Piece ι κ β γ → Prop
  | .other => True
  | _ => False

theorem sends_length (t : Transfer ι β γ) : (sends number t).length = t.chunks.length + 2 := by
  simp [sends, chunkPieces]

theorem sends_zero (t : Transfer ι β γ) : (sends number t)[0]? = some (.start t.id t.header) := rfl

theorem sends_chunk (t : Transfer ι β γ) {n : Nat} {bytes : List β}
    (h : t.chunks[n]? = some bytes) :
    (sends number t)[n + 1]? = some (.chunk t.id (number n) bytes) := by
  have hn : n < t.chunks.length := (List.getElem?_eq_some_iff.mp h).1
  simp only [sends, List.getElem?_cons_succ]
  rw [List.getElem?_append_left (by simpa [chunkPieces] using hn)]
  simp [chunkPieces, h]

theorem sends_finish (t : Transfer ι β γ) :
    (sends number t)[t.chunks.length + 1]? = some (.finish t.id) := by
  simp only [sends, List.getElem?_cons_succ]
  rw [List.getElem?_append_right (by simp [chunkPieces])]
  simp [chunkPieces]

/-- A piece of the sequence is the start, a chunk or the finish by its place. -/
theorem sends_cases (t : Transfer ι β γ) {n : Nat} {p : Piece ι κ β γ}
    (h : (sends number t)[n]? = some p) :
    (n = 0 ∧ p = .start t.id t.header) ∨
      (∃ m bytes, n = m + 1 ∧ t.chunks[m]? = some bytes ∧ p = .chunk t.id (number m) bytes) ∨
      (n = t.chunks.length + 1 ∧ p = .finish t.id) := by
  cases n with
  | zero =>
    rw [sends_zero] at h
    exact Or.inl ⟨rfl, (Option.some.inj h).symm⟩
  | succ m =>
    right
    have hlt : m + 1 < t.chunks.length + 2 := by
      have := (List.getElem?_eq_some_iff.mp h).1
      rwa [sends_length] at this
    by_cases hm : m < t.chunks.length
    · have hb : t.chunks[m]? = some t.chunks[m] := List.getElem?_eq_getElem hm
      rw [sends_chunk number t hb] at h
      exact Or.inl ⟨m, _, rfl, hb, (Option.some.inj h).symm⟩
    · have he : m = t.chunks.length := by omega
      subst he
      rw [sends_finish] at h
      exact Or.inr ⟨rfl, (Option.some.inj h).symm⟩

variable [DecidableEq ι] [DecidableEq κ]

omit [DecidableEq ι] in
/-- The next chunk in order extends the buffer. -/
theorem filled_add (injective : ∀ m n, number m = number n → m = n) (t : Transfer ι β γ) {n : Nat}
    {bytes : List β} (h : t.chunks[n]? = some bytes) :
    (filled number t n).add (number n) bytes = filled number t (n + 1) := by
  have hnew : number n ∉ (filled number t n : Buffer ι κ β γ).seen := by
    intro hm
    simp only [filled, List.mem_map, List.mem_reverse, List.mem_range] at hm
    obtain ⟨m, hlt, he⟩ := hm
    have := injective m n he
    omega
  have hbytes : (t.chunks.take (n + 1)).flatten = (t.chunks.take n).flatten ++ bytes := by
    rw [List.take_add_one, h]
    simp
  have hseen : (List.range (n + 1)).reverse.map number =
      number n :: (List.range n).reverse.map number := by
    simp [List.range_succ]
  rw [Buffer.add, if_neg hnew]
  simp only [filled, hbytes, hseen]

omit [DecidableEq ι] in
/-- A chunk that has arrived before changes nothing. -/
theorem filled_again (t : Transfer ι β γ) {m n : Nat} (h : m < n) (bytes : List β) :
    (filled number t n : Buffer ι κ β γ).add (number m) bytes = filled number t n := by
  have hold : number m ∈ (filled number t n : Buffer ι κ β γ).seen := by
    simp only [filled, List.mem_map, List.mem_reverse, List.mem_range]
    exact ⟨m, h, rfl⟩
  simp only [Buffer.add, if_pos hold]

section Weaves
variable {σ : Type u} [DecidableEq σ] (ts : σ → Transfer ι β γ)

/-- A buffer holds what its sender has published so far, and not the finish. -/
def Tracks (pos : σ → Nat) (s : Option (Buffer ι κ β γ)) : Prop :=
  ∀ b, s = some b → ∃ i n, pos i = n + 1 ∧ n ≤ (ts i).chunks.length ∧ b = filled number (ts i) n

variable {number} {ts}
variable {pos : σ → Nat} {w : List (Piece ι κ β γ)} {p : Piece ι κ β γ}

theorem Tracks.advance_next (injective : ∀ m n, number m = number n → m = n)
    (distinct : ∀ i j, (ts i).id = (ts j).id → i = j) {s : Option (Buffer ι κ β γ)}
    (h : Tracks number ts pos s) {i : σ} (hp : (sends number (ts i))[pos i]? = some p) :
    Tracks number ts (Function.update pos i (pos i + 1)) (advance s p) := by
  intro b hb
  -- what is held stays tracked unless the entry is its own sender's
  have old (j : σ) (n : Nat) (hj : pos j = n + 1) (hn : n ≤ (ts j).chunks.length) (hji : j ≠ i) :
      ∃ k m, Function.update pos i (pos i + 1) k = m + 1 ∧ m ≤ (ts k).chunks.length ∧
        filled number (ts j) n = filled number (ts k) m :=
    ⟨j, n, by rw [Function.update_of_ne hji]; exact hj, hn, rfl⟩
  rcases sends_cases number (ts i) hp with ⟨h0, rfl⟩ | ⟨m, bytes, hm, hbytes, rfl⟩ | ⟨hf, rfl⟩
  · refine ⟨i, 0, by rw [Function.update_self, h0], Nat.zero_le _, ?_⟩
    simp only [advance, Option.some.injEq] at hb
    simp [← hb, filled]
  · cases s with
    | none => simp [advance] at hb
    | some c =>
      obtain ⟨j, n, hj, hn, rfl⟩ := h c rfl
      simp only [advance] at hb
      by_cases hid : (ts i).id = (filled number (ts j) n : Buffer ι κ β γ).id
      · obtain rfl := distinct i j hid
        have he : n = m := by omega
        subst he
        rw [if_pos hid, Option.some.injEq, filled_add number injective (ts i) hbytes] at hb
        subst hb
        have hlt := (List.getElem?_eq_some_iff.mp hbytes).1
        exact ⟨i, n + 1, by rw [Function.update_self, hj], by omega, rfl⟩
      · rw [if_neg hid, Option.some.injEq] at hb
        subst hb
        exact old j n hj hn (fun he => hid (by rw [he]; rfl))
  · cases s with
    | none => simp [advance] at hb
    | some c =>
      obtain ⟨j, n, hj, hn, rfl⟩ := h c rfl
      simp only [advance] at hb
      by_cases hid : (ts i).id = (filled number (ts j) n : Buffer ι κ β γ).id
      · simp [hid] at hb
      · rw [if_neg hid, Option.some.injEq] at hb
        subst hb
        exact old j n hj hn (fun he => hid (by rw [he]; rfl))

omit [DecidableEq σ] in
theorem Tracks.advance_again (distinct : ∀ i j, (ts i).id = (ts j).id → i = j)
    {s : Option (Buffer ι κ β γ)} (h : Tracks number ts pos s) {i : σ} {n : Nat} (hn : n < pos i)
    (hp : (sends number (ts i))[n]? = some p) (hc : IsChunk p) :
    Tracks number ts pos (advance s p) := by
  rcases sends_cases number (ts i) hp with ⟨_, rfl⟩ | ⟨m, bytes, hm, _, rfl⟩ | ⟨_, rfl⟩
  · exact False.elim hc
  · cases s with
    | none => exact h
    | some c =>
      intro b hb
      obtain ⟨j, q, hj, hq, rfl⟩ := h c rfl
      simp only [advance] at hb
      by_cases hid : (ts i).id = (filled number (ts j) q : Buffer ι κ β γ).id
      · obtain rfl := distinct i j hid
        rw [if_pos hid, filled_again number (ts i) (show m < q by omega), Option.some.injEq] at hb
        exact ⟨i, q, hj, hq, hb.symm⟩
      · rw [if_neg hid, Option.some.injEq] at hb
        exact ⟨j, q, hj, hq, hb.symm⟩
  · exact False.elim hc

theorem advance_other {s : Option (Buffer ι κ β γ)} (h : IsOther p) : advance s p = s := by
  cases p with
  | other => cases s <;> rfl
  | start _ _ => exact False.elim h
  | chunk _ _ _ => exact False.elim h
  | finish _ => exact False.elim h

theorem weave_tracks (injective : ∀ m n, number m = number n → m = n)
    (distinct : ∀ i j, (ts i).id = (ts j).id → i = j)
    (h : Weave (fun i => sends number (ts i)) IsChunk IsOther pos w) :
    Tracks number ts pos (after w) := by
  induction h with
  | nil => intro b hb; cases hb
  | next i _ hp ih =>
    rw [after_snoc]
    exact ih.advance_next injective distinct hp
  | again hw hold hc ih =>
    rw [after_snoc]
    rcases hw.mem hold with hf | ⟨i, n, hn, hp⟩
    · rw [advance_other hf]
      exact ih
    · exact ih.advance_again distinct hn hp hc
  | alien _ hf ih =>
    rw [after_snoc, advance_other hf]
    exact ih

/-- A buffer closed by the last entry of a weave is a whole transfer. -/
theorem weave_closes (injective : ∀ m n, number m = number n → m = n)
    (distinct : ∀ i j, (ts i).id = (ts j).id → i = j)
    (h : Weave (fun i => sends number (ts i)) IsChunk IsOther pos (w ++ [p]))
    {b : Buffer ι κ β γ} (hb : closes (after w) p = some b) :
    ∃ i, p = .finish (ts i).id ∧ b = whole number (ts i) := by
  obtain ⟨hfin, -⟩ := closes_eq_some hb
  generalize hl : w ++ [p] = l at h
  cases h with
  | nil => simp at hl
  | next i hw hp =>
    obtain ⟨rfl, hq⟩ := List.append_inj' hl rfl
    obtain rfl := List.head_eq_of_cons_eq hq
    rcases sends_cases number (ts i) hp with ⟨_, rfl⟩ | ⟨m, bytes, _, _, rfl⟩ | ⟨hpos, rfl⟩
    · cases hfin
    · cases hfin
    · cases hs : after w with
      | none => simp [hs, closes] at hb
      | some c =>
        obtain ⟨j, n, hj, hn, rfl⟩ := weave_tracks injective distinct hw c hs
        simp only [hs, closes] at hb
        by_cases hid : (ts i).id = (filled number (ts j) n : Buffer ι κ β γ).id
        · obtain rfl := distinct i j hid
          rw [if_pos hid, Option.some.injEq] at hb
          have he : n = (ts i).chunks.length := by omega
          exact ⟨i, rfl, by rw [← hb, he, whole]⟩
        · simp [hid] at hb
  | again _ _ hc =>
    obtain ⟨rfl, hq⟩ := List.append_inj' hl rfl
    obtain rfl := List.head_eq_of_cons_eq hq
    rw [hfin] at hc
    exact False.elim hc
  | alien _ hf =>
    obtain ⟨rfl, hq⟩ := List.append_inj' hl rfl
    obtain rfl := List.head_eq_of_cons_eq hq
    rw [hfin] at hf
    exact False.elim hf

/-- Of a single transfer only the last piece closes a buffer, and it closes the
whole transfer. -/
theorem sends_closes (injective : ∀ m n, number m = number n → m = n) {t : Transfer ι β γ}
    (hpre : w ++ [p] <+: sends number t) {b : Buffer ι κ β γ} (hb : closes (after w) p = some b) :
    b = whole number t ∧ w ++ [p] = sends number t := by
  have woven : Weave (fun _ : PUnit.{u + 1} => sends number t) IsChunk IsOther
      (fun _ => (w ++ [p]).length) (w ++ [p]) := .ofPrefix hpre
  obtain ⟨-, hp, hwhole⟩ := @weave_closes _ _ _ _ _ _ _ PUnit.{u + 1} _ (fun _ => t) _ _ _ injective
    (fun _ _ _ => rfl) woven _ hb
  refine ⟨hwhole, hpre.eq_of_length ?_⟩
  have hplace : (sends number t)[w.length]? = some p := by
    obtain ⟨rest, he⟩ := hpre
    rw [← he]
    simp
  rw [sends_length, List.length_append, List.length_singleton]
  rcases sends_cases number t hplace with ⟨_, he⟩ | ⟨_, _, _, _, he⟩ | ⟨hlast, _⟩
  · rw [hp] at he
    cases he
  · rw [hp] at he
    cases he
  · omega

end Weaves

end WovenTransfers
