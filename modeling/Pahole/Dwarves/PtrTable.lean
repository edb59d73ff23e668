import Mathlib.Tactic

/-!
# Pointer tables

`struct ptr_table`: entries by id, where an id that was never given an entry has none.
-/

namespace Pahole

/-- `struct ptr_table`; `nr_entries` is the length, and `none` is `NULL`. -/
abbrev PtrTable (α : Type) := List (Option α)

namespace PtrTable

variable {α : Type}

/-- `ptr_table__add`.  The id is the number of entries before. -/
def add (pt : PtrTable α) (ptr : Option α) : PtrTable α := pt ++ [ptr]

/-- `ptr_table__add_with_id` -/
def addWithId (pt : PtrTable α) (ptr : Option α) (id : ℕ) : PtrTable α :=
  (pt ++ List.replicate (id + 1 - pt.length) none).set id ptr

/-- `ptr_table__entry` -/
def entry (pt : PtrTable α) (id : ℕ) : Option α := pt[id]?.join

theorem entry_addWithId_self (pt : PtrTable α) (ptr : Option α) (id : ℕ) :
    (pt.addWithId ptr id).entry id = ptr := by
  have hlt : id < (pt ++ List.replicate (id + 1 - pt.length) none).length := by
    rw [List.length_append, List.length_replicate]
    omega
  simp only [entry, addWithId]
  rw [List.getElem?_set_self hlt, Option.join_some]

theorem entry_addWithId_of_ne (pt : PtrTable α) (ptr : Option α) {id i : ℕ} (h : i ≠ id) :
    (pt.addWithId ptr id).entry i = pt.entry i := by
  simp only [entry, addWithId]
  rw [List.getElem?_set_ne h.symm]
  by_cases hi : i < pt.length
  · rw [List.getElem?_append_left hi]
  · have hle : pt.length ≤ i := Nat.le_of_not_lt hi
    rw [List.getElem?_append_right hle, List.getElem?_eq_none hle, List.getElem?_replicate]
    split <;> rfl

theorem entry_add (pt : PtrTable α) (ptr : Option α) (i : ℕ) :
    (pt.add ptr).entry i = if i = pt.length then ptr else pt.entry i := by
  unfold entry add
  rcases lt_trichotomy i pt.length with hlt | rfl | hgt
  · rw [List.getElem?_append_left hlt, if_neg hlt.ne]
  · rw [List.getElem?_concat_length, if_pos rfl, Option.join_some]
  · rw [if_neg hgt.ne', List.getElem?_eq_none hgt.le, List.getElem?_eq_none]
    rw [List.length_append, List.length_singleton]
    exact hgt

theorem entry_of_length_le {pt : PtrTable α} {i : ℕ} (h : pt.length ≤ i) : pt.entry i = none := by
  rw [entry, List.getElem?_eq_none h, Option.join_none]

/-- Clearing an entry leaves all other entries as they are. -/
theorem entry_set_none (pt : PtrTable α) (id i : ℕ) :
    entry (pt.set id none) i = if i = id then none else pt.entry i := by
  unfold entry
  rw [List.getElem?_set]
  by_cases h : id = i
  · subst h
    rw [if_pos rfl, if_pos rfl]
    split <;> rfl
  · rw [if_neg h, if_neg (Ne.symm h)]

end PtrTable

end Pahole
