import DelegateProtocol.Lib.WovenTransfers

/-!
# Transfers one after the other

A sender that finishes one transfer before it begins the next. Other pieces may
stand in between, and the last transfer may not be complete yet. The ids of the
transfers need not be distinct.
-/

namespace SerialTransfers

open Reassembly WovenTransfers

universe u v w x

variable {ι : Type u} {κ : Type v} {β : Type w} {γ : Type x}
variable {number : Nat → κ} {P : Transfer ι β γ → Prop} {t : Transfer ι β γ} {n : Nat}
variable {w pending : List (Piece ι κ β γ)} {p : Piece ι κ β γ} {s : Option (Buffer ι κ β γ)}

/-- What has been sent, with what is still to come of the transfer in progress. -/
inductive Serial (number : Nat → κ) (P : Transfer ι β γ → Prop) :
    List (Piece ι κ β γ) → List (Piece ι κ β γ) → Prop
  | nil : Serial number P [] []
  | other {w pending : List (Piece ι κ β γ)} {p : Piece ι κ β γ} :
      Serial number P w pending → IsOther p → Serial number P (w ++ [p]) pending
  | begin {w : List (Piece ι κ β γ)} {t : Transfer ι β γ} :
      Serial number P w [] → P t → Serial number P w (sends number t)
  | next {w pending : List (Piece ι κ β γ)} {p : Piece ι κ β γ} :
      Serial number P w (p :: pending) → Serial number P (w ++ [p]) pending

/-- Other pieces may stand anywhere. -/
theorem Serial.others {ps : List (Piece ι κ β γ)} (h : Serial number P w pending)
    (hp : ∀ p ∈ ps, IsOther p) : Serial number P (w ++ ps) pending := by
  induction ps generalizing w with
  | nil =>
    rw [List.append_nil]
    exact h
  | cons p ps ih =>
    have hnext := ih (h.other (hp p List.mem_cons_self))
      (fun q hq => hp q (List.mem_cons_of_mem _ hq))
    rw [List.append_assoc] at hnext
    exact hnext

variable [DecidableEq ι] [DecidableEq κ]

/-- What a reassembler holds when the first pieces of a transfer have arrived. -/
def Holds (number : Nat → κ) (t : Transfer ι β γ) (n : Nat) (s : Option (Buffer ι κ β γ)) : Prop :=
  ∀ m, n = m + 1 → m ≤ t.chunks.length → s = some (filled number t m)

theorem Holds.other (h : Holds number t n s) (hp : IsOther p) : Holds number t n (advance s p) := by
  rw [advance_other hp]
  exact h

/-- The next piece of a transfer extends the buffer; only the last one closes it. -/
theorem Holds.next (injective : ∀ m n, number m = number n → m = n) (h : Holds number t n s)
    (hp : (sends number t)[n]? = some p) :
    Holds number t (n + 1) (advance s p) ∧ ∀ b, closes s p = some b → b = whole number t := by
  rcases sends_cases number t hp with ⟨rfl, rfl⟩ | ⟨m, bytes, rfl, hb, rfl⟩ | ⟨rfl, rfl⟩
  · refine ⟨?_, fun b hb => ?_⟩
    · intro m hm _
      obtain rfl : m = 0 := by omega
      cases s <;> simp [advance, filled]
    · cases s <;> simp [closes] at hb
  · have hm : m < t.chunks.length := (List.getElem?_eq_some_iff.mp hb).1
    obtain rfl := h m rfl hm.le
    refine ⟨?_, fun b hb => by simp [closes] at hb⟩
    intro k hk _
    obtain rfl : k = m + 1 := by omega
    have hid : (filled number t m : Buffer ι κ β γ).id = t.id := rfl
    simp only [advance, hid, if_true, filled_add number injective t hb]
  · obtain rfl := h _ rfl (Nat.le_refl _)
    refine ⟨fun m hm hle => by omega, fun b hb => ?_⟩
    have hid : (filled number t t.chunks.length : Buffer ι κ β γ).id = t.id := rfl
    simp only [closes, hid, if_true] at hb
    exact (Option.some.inj hb).symm

/-- Whatever a reassembler closes is one of the transfers. -/
theorem Serial.closings (injective : ∀ m n, number m = number n → m = n)
    (h : Serial number P w pending) :
    (∀ b ∈ closings none w, ∃ t, P t ∧ b = whole number t) ∧
      (pending = [] ∨
        ∃ t n, P t ∧ pending = (sends number t).drop n ∧ Holds number t n (after w)) := by
  induction h with
  | nil => exact ⟨by simp [Reassembly.closings], Or.inl rfl⟩
  | @other w pending p _ hp ih =>
    obtain ⟨hclosed, hpending⟩ := ih
    refine ⟨?_, ?_⟩
    · intro b hb
      rw [closings_snoc] at hb
      rcases List.mem_append.mp hb with hb | hb
      · exact hclosed b hb
      · have hf := closes_finish (Option.mem_toList.mp hb)
        subst hf
        exact False.elim hp
    · rcases hpending with hnil | ⟨t, n, ht, hdrop, holds⟩
      · exact Or.inl hnil
      · refine Or.inr ⟨t, n, ht, hdrop, ?_⟩
        rw [after_snoc]
        exact holds.other hp
  | @begin w t _ ht ih =>
    exact ⟨ih.1, Or.inr ⟨t, 0, ht, List.drop_zero.symm, fun m hm => by omega⟩⟩
  | @next w pending p _ ih =>
    obtain ⟨hclosed, hnil | ⟨t, n, ht, hdrop, holds⟩⟩ := ih
    · cases hnil
    · have hp : (sends number t)[n]? = some p := by
        rw [← List.head?_drop, ← hdrop]
        rfl
      obtain ⟨holds', hwhole⟩ := holds.next injective hp
      refine ⟨?_, Or.inr ⟨t, n + 1, ht, ?_, ?_⟩⟩
      · intro b hb
        rw [closings_snoc] at hb
        rcases List.mem_append.mp hb with hb | hb
        · exact hclosed b hb
        · exact ⟨t, ht, hwhole b (Option.mem_toList.mp hb)⟩
      · rw [← List.tail_drop, ← hdrop]
        rfl
      · rw [after_snoc]
        exact holds'

/-- All pieces but the last leave the whole transfer to be closed, whatever was
held before. -/
theorem holds_whole (injective : ∀ m n, number m = number n → m = n) (t : Transfer ι β γ)
    (s : Option (Buffer ι κ β γ)) :
    (sends number t).dropLast.foldl advance s = some (whole number t) := by
  have along (n : Nat) (hn : n ≤ t.chunks.length + 1) :
      Holds number t n (((sends number t).take n).foldl advance s) := by
    induction n with
    | zero => exact fun m hm => by omega
    | succ n ih =>
      have hlt : n < (sends number t).length := by
        rw [sends_length]
        omega
      have hp : (sends number t)[n]? = some (sends number t)[n] := List.getElem?_eq_getElem hlt
      rw [List.take_add_one, hp, Option.toList_some, List.foldl_append]
      exact ((ih (by omega)).next injective hp).1
  have hlast := along (t.chunks.length + 1) (Nat.le_refl _) t.chunks.length rfl (Nat.le_refl _)
  rw [List.dropLast_eq_take, sends_length]
  exact hlast

/-- A transfer that stands in one piece somewhere is closed. -/
theorem closings_ne_nil (injective : ∀ m n, number m = number n → m = n) (t : Transfer ι β γ)
    (s : Option (Buffer ι κ β γ)) (pre post : List (Piece ι κ β γ)) :
    closings s (pre ++ sends number t ++ post) ≠ [] := by
  have hsends : sends number t =
      (.start t.id t.header :: chunkPieces number t) ++ [.finish t.id] := rfl
  have held := holds_whole injective t (pre.foldl advance s)
  rw [hsends, List.dropLast_concat] at held
  have hid : (whole number t : Buffer ι κ β γ).id = t.id := rfl
  have last : whole number t ∈ closings (pre.foldl advance s) (sends number t) := by
    rw [hsends, closings_append, held]
    exact List.mem_append_right _ (by simp [Reassembly.closings, closes, hid])
  rw [closings_append, closings_append]
  exact List.ne_nil_of_mem (List.mem_append_left _ (List.mem_append_right _ last))

end SerialTransfers
