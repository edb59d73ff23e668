import Mathlib.Tactic
import Mathlib.Data.List.Sort

/-!
# Merge sort under a comparison that need not be an order

What `List.mergeSort` does with the first two elements holds for every comparison.
-/

namespace MergeSort

variable {α : Type} {le le' : α → α → Bool}

/-- Merging keeps the order of its first argument. -/
theorem sublist_merge_left (xs ys : List α) : xs.Sublist (xs.merge ys le) := by
  induction xs generalizing ys with
  | nil => exact List.nil_sublist _
  | cons x xs ihx =>
      induction ys with
      | nil => simp
      | cons y ys ihy =>
          rw [List.cons_merge_cons]
          split
          · exact (ihx (y :: ys)).cons_cons x
          · exact ihy.cons y

/-- Two elements at the front that compare as less or equal stay in this order. -/
theorem pair_sublist_mergeSort {a b : α} (hle : le a b = true) (xs : List α) :
    [a, b].Sublist ((a :: b :: xs).mergeSort le) := by
  generalize hn : xs.length = n
  induction n using Nat.strong_induction_on generalizing xs with
  | _ n ih =>
      rw [List.mergeSort]
      simp only [List.MergeSort.Internal.splitInTwo_fst]
      cases xs with
      | nil =>
          simp [List.MergeSort.Internal.splitInTwo, List.splitAt, List.splitAt.go,
            List.mergeSort_singleton, hle]
      | cons c rest =>
          have hhalf : ∃ k, (a :: b :: c :: rest).take
              (((a :: b :: c :: rest).length + 1) / 2) = a :: b :: (c :: rest).take k ∧
                k < (c :: rest).length := by
            refine ⟨(rest.length + 4) / 2 - 2, ?_, ?_⟩
            · have hk : ((a :: b :: c :: rest).length + 1) / 2 =
                  (rest.length + 4) / 2 - 2 + 1 + 1 := by
                simp only [List.length_cons]
                omega
              rw [hk]
              rfl
            · rw [List.length_cons]
              omega
          obtain ⟨k, hk, hlt⟩ := hhalf
          rw [hk]
          refine List.Sublist.trans ?_ (sublist_merge_left _ _)
          refine ih ((c :: rest).take k).length ?_ _ rfl
          rw [List.length_take, ← hn]
          omega

/-- Comparisons that agree on the elements of a list sort it alike. -/
theorem mergeSort_congr {xs : List α} (h : ∀ a ∈ xs, ∀ b ∈ xs, le a b = le' a b) :
    xs.mergeSort le = xs.mergeSort le' := by
  have hmap := List.map_mergeSort (f := id) h
  rwa [List.map_id, List.map_id] at hmap

/-- An element at the end that nothing exceeds stays at the end. -/
theorem mergeSort_concat (htrans : ∀ a b c, le a b = true → le b c = true → le a c = true)
    (htotal : ∀ a b, (le a b || le b a) = true) {x : α} (xs : List α)
    (h : ∀ a ∈ xs, le a x = true) : ∃ ys, (xs ++ [x]).mergeSort le = ys ++ [x] := by
  induction xs with
  | nil => exact ⟨[], List.mergeSort_singleton x⟩
  | cons a xs ih =>
      obtain ⟨ys, hys⟩ := ih fun b hb => h b (List.mem_cons_of_mem _ hb)
      obtain ⟨l₁, l₂, hcons, hrest, hless⟩ := List.mergeSort_cons htrans htotal a (xs ++ [x])
      rw [List.cons_append, hcons]
      rw [hys] at hrest
      rcases List.eq_nil_or_concat l₂ with rfl | ⟨l₃, y, rfl⟩
      · rw [List.append_nil] at hrest
        have hmem : x ∈ l₁ := by
          rw [← hrest]
          simp
        have hnot := hless x hmem
        rw [h a List.mem_cons_self] at hnot
        exact absurd hnot (by simp)
      · rw [List.concat_eq_append, ← List.append_assoc] at hrest
        obtain ⟨-, hlast⟩ := List.append_inj' hrest rfl
        obtain rfl := (List.cons.inj hlast).1
        exact ⟨l₁ ++ a :: l₃, by simp⟩

end MergeSort
