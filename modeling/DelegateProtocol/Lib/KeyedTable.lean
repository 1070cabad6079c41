import Mathlib.Data.List.Basic
import Mathlib.Data.List.Nodup

/-!
# Tables with a primary key

A table is a list of rows no two of which have the same key: the constraint is
a field, so a table that breaks it cannot be built. Rows keep the order in
which they were created.
-/

namespace KeyedTable

universe u v

structure Table {Row : Type u} {K : Type v} (key : Row → K) where
  rows : List Row
  unique : (rows.map key).Nodup

variable {Row : Type u} {K : Type v} [DecidableEq K] {key : Row → K}

def empty (key : Row → K) : Table key := ⟨[], List.nodup_nil⟩

def Table.get? (t : Table key) (k : K) : Option Row :=
  t.rows.find? (fun r => decide (key r = k))

/-- INSERT: refused when a row already has the key. -/
def Table.create (t : Table key) (r : Row) : Option (Table key) :=
  if h : key r ∈ t.rows.map key then none
  else some ⟨t.rows ++ [r], by
    rw [List.map_append, List.nodup_append]
    refine ⟨t.unique, List.nodup_singleton _, ?_⟩
    rintro a ha b hb rfl
    exact h (List.mem_singleton.mp hb ▸ ha)⟩

/-- UPDATE of the row with the key, by a function that leaves keys alone. -/
def Table.update (t : Table key) (k : K) (f : Row → Row)
    (same : ∀ r, key (f r) = key r := by intro r; rfl) : Table key where
  rows := t.rows.map (fun r => if key r = k then f r else r)
  unique := by
    have he : (t.rows.map (fun r => if key r = k then f r else r)).map key =
        t.rows.map key := by
      rw [List.map_map]
      refine List.map_congr_left (fun r _ => ?_)
      by_cases h : key r = k
      · simp [h, same]
      · simp [h]
    rw [he]
    exact t.unique

/-- DELETE of the row with the key, if there is one. -/
def Table.erase (t : Table key) (k : K) : Table key where
  rows := t.rows.filter (fun r => decide (key r ≠ k))
  unique := t.unique.sublist (List.filter_sublist.map key)

/-- The row replaces the one with its key, or is added. -/
def Table.put (t : Table key) (r : Row) : Table key where
  rows := (t.erase (key r)).rows ++ [r]
  unique := by
    rw [List.map_append, List.nodup_append]
    refine ⟨(t.erase (key r)).unique, List.nodup_singleton _, ?_⟩
    rintro a ha b hb rfl
    obtain ⟨x, hx, hk⟩ := List.mem_map.mp ha
    have hne := (List.mem_filter.mp hx).2
    simp [hk, List.mem_singleton.mp hb] at hne

theorem get?_some_key {t : Table key} {k : K} {r : Row} (h : t.get? k = some r) : key r = k := by
  simpa using List.find?_some h

theorem get?_eq_none_iff {t : Table key} {k : K} : t.get? k = none ↔ ∀ r ∈ t.rows, key r ≠ k := by
  simp [Table.get?, List.find?_eq_none]

@[simp] theorem get?_empty (k : K) : (empty key).get? k = none := rfl

theorem get?_create {t t' : Table key} {r : Row} (h : t.create r = some t') (k : K) :
    t'.get? k = if key r = k then some r else t.get? k := by
  unfold Table.create at h
  split at h
  · cases h
  · rename_i hnew
    obtain rfl := Option.some.inj h
    simp only [Table.get?, List.find?_append]
    by_cases hk : key r = k
    · subst hk
      have hnone : t.rows.find? (fun x => decide (key x = key r)) = none := by
        rw [List.find?_eq_none]
        intro x hx
        have hne : key x ≠ key r := fun he => hnew (List.mem_map.mpr ⟨x, hx, he⟩)
        simpa using hne
      simp [hnone]
    · simp [hk]

theorem create_fresh {t t' : Table key} {r : Row} (h : t.create r = some t') :
    t.get? (key r) = none := by
  unfold Table.create at h
  split at h
  · cases h
  · rename_i hnew
    rw [get?_eq_none_iff]
    intro x hx he
    exact hnew (List.mem_map.mpr ⟨x, hx, he⟩)

theorem get?_update (t : Table key) (k : K) (f : Row → Row) (same : ∀ r, key (f r) = key r)
    (k' : K) :
    (t.update k f same).get? k' = if k' = k then (t.get? k).map f else t.get? k' := by
  obtain ⟨rows, unique⟩ := t
  change (rows.map _).find? _ = if k' = k then (rows.find? _).map f else rows.find? _
  clear unique
  induction rows with
  | nil => simp
  | cons x xs ih =>
    rw [List.map_cons, List.find?_cons]
    by_cases hx : key x = k
    · by_cases hk : k' = k
      · simp [hx, hk, same]
      · have hne : key x ≠ k' := fun he => hk (he.symm.trans hx)
        have hne' : k ≠ k' := fun he => hk he.symm
        simpa [hk, hne, hne', hx, same] using ih
    · by_cases hk : k' = k
      · subst hk
        simpa [hx] using ih
      · by_cases hxk : key x = k'
        · simp [hk, hxk]
        · simpa [hx, hk, hxk] using ih

theorem get?_update_self (t : Table key) (k : K) (f : Row → Row) (same : ∀ r, key (f r) = key r) :
    (t.update k f same).get? k = (t.get? k).map f := by
  simp [get?_update]

theorem get?_update_of_ne (t : Table key) {k k' : K} (f : Row → Row)
    (same : ∀ r, key (f r) = key r) (h : k' ≠ k) :
    (t.update k f same).get? k' = t.get? k' := by
  simp [get?_update, h]

theorem get?_erase (t : Table key) (k k' : K) :
    (t.erase k).get? k' = if k' = k then none else t.get? k' := by
  simp only [Table.get?, Table.erase, List.find?_filter]
  by_cases hk : k' = k
  · subst hk
    simp [List.find?_eq_none]
  · rw [if_neg hk]
    congr 1
    funext r
    by_cases hr : key r = k'
    · simp [hr, hk]
    · simp [hr]

theorem get?_put (t : Table key) (r : Row) (k : K) :
    (t.put r).get? k = if key r = k then some r else t.get? k := by
  have he := get?_erase t (key r) k
  simp only [Table.get?, Table.put, List.find?_append] at he ⊢
  by_cases hk : key r = k
  · rw [he, if_pos hk.symm]
    simp [hk]
  · rw [he, if_neg (Ne.symm hk)]
    simp [hk]

end KeyedTable
