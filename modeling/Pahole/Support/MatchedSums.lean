import Mathlib.Tactic
import Mathlib.Algebra.BigOperators.Group.List.Basic

/-!
# Sums over matched entries

Two lists are matched by a key, or by a function from one to the other that may find
nothing.  What is looked up for the entries of one list is a sum over both, which can be
taken the other way round.
-/

namespace MatchedSums

variable {α β κ : Type*}

theorem sum_comm (xs : List α) (ys : List β) (v : α → β → ℤ) :
    (xs.map fun x => (ys.map fun y => v x y).sum).sum =
      (ys.map fun y => (xs.map fun x => v x y).sum).sum := by
  induction xs with
  | nil => simp
  | cons x xs ih => simp [ih, List.sum_map_add]

/-- A double sum over the entries of two lists of owners can be taken in either order. -/
theorem sum_comm_owned {γ δ : Type*} (xs : List α) (fs : α → List γ) (ys : List β)
    (gs : β → List δ) (v : α → γ → β → δ → ℤ) :
    (xs.map fun x => ((fs x).map fun f =>
        (ys.map fun y => ((gs y).map fun g => v x f y g).sum).sum).sum).sum =
      (ys.map fun y => ((gs y).map fun g =>
        (xs.map fun x => ((fs x).map fun f => v x f y g).sum).sum).sum).sum := by
  calc
    (xs.map fun x => ((fs x).map fun f =>
        (ys.map fun y => ((gs y).map fun g => v x f y g).sum).sum).sum).sum =
      (xs.map fun x => (ys.map fun y =>
        ((fs x).map fun f => ((gs y).map fun g => v x f y g).sum).sum).sum).sum := by
      congr 2
      funext x
      exact sum_comm _ _ _
    _ = (ys.map fun y => (xs.map fun x =>
        ((fs x).map fun f => ((gs y).map fun g => v x f y g).sum).sum).sum).sum :=
      sum_comm _ _ _
    _ = (ys.map fun y => (xs.map fun x =>
        ((gs y).map fun g => ((fs x).map fun f => v x f y g).sum).sum).sum).sum := by
      congr 2
      funext y
      congr 2
      funext x
      exact sum_comm _ _ _
    _ = _ := by
      congr 2
      funext y
      exact sum_comm _ _ _

theorem sum_map_eq_zero {xs : List α} {v : α → ℤ} (h : ∀ x ∈ xs, v x = 0) :
    (xs.map v).sum = 0 := by
  induction xs with
  | nil => rfl
  | cons x xs ih =>
      rw [List.map_cons, List.sum_cons, h x List.mem_cons_self,
        ih fun y hy => h y (List.mem_cons_of_mem _ hy), zero_add]

theorem sum_map_congr {xs : List α} {v w : α → ℤ} (h : ∀ x ∈ xs, v x = w x) :
    (xs.map v).sum = (xs.map w).sum := by
  rw [List.map_congr_left h]

theorem sum_map_sub (xs : List α) (v w : α → ℤ) :
    (xs.map fun x => v x - w x).sum = (xs.map v).sum - (xs.map w).sum := by
  induction xs with
  | nil => simp
  | cons x xs ih =>
      simp only [List.map_cons, List.sum_cons, ih]
      ring

/-- Over distinct keys, the sum of the values at a key is the value of the entry that the key
finds. -/
theorem sum_ite_key [DecidableEq κ] {xs : List α} {key : α → κ} (h : (xs.map key).Nodup)
    (k : κ) (v : α → ℤ) :
    (xs.map fun x => if key x = k then v x else 0).sum =
      (xs.find? fun x => key x = k).elim 0 v := by
  induction xs with
  | nil => rfl
  | cons x xs ih =>
      rw [List.map_cons, List.nodup_cons] at h
      rw [List.map_cons, List.sum_cons]
      by_cases hk : key x = k
      · have hrest : (xs.map fun y => if key y = k then v y else 0).sum = 0 := by
          refine sum_map_eq_zero fun y hy => if_neg fun hyk => h.1 ?_
          rw [hk, ← hyk]
          exact List.mem_map_of_mem hy
        rw [if_pos hk, hrest, add_zero, List.find?_cons_of_pos (by simpa using hk)]
        rfl
      · rw [if_neg hk, zero_add, ih h.2, List.find?_cons_of_neg (by simpa using hk)]

/-- The sum of the values at the entry found is its value, or zero if none is found. -/
theorem sum_ite_found [DecidableEq α] {xs : List α} (h : xs.Nodup) {found : Option α}
    (hmem : ∀ x, found = some x → x ∈ xs) (v : α → ℤ) :
    (xs.map fun x => if found = some x then v x else 0).sum = found.elim 0 v := by
  cases found with
  | none => exact sum_map_eq_zero fun x _ => if_neg (by simp)
  | some a =>
      have ha := hmem a rfl
      clear hmem
      induction xs with
      | nil => exact absurd ha (by simp)
      | cons x xs ih =>
          rw [List.nodup_cons] at h
          rw [List.map_cons, List.sum_cons]
          rcases List.mem_cons.mp ha with rfl | hin
          · have hrest : (xs.map fun y => if some a = some y then v y else 0).sum = 0 := by
              refine sum_map_eq_zero fun y hy => if_neg fun hay => h.1 ?_
              rwa [Option.some.inj hay]
            rw [if_pos rfl, hrest, add_zero]
            rfl
          · have hne : some a ≠ some x := by
              rintro hax
              obtain rfl := Option.some.inj hax
              exact h.1 hin
            rw [if_neg hne, zero_add, ih h.2 hin]

/-- The sum over the entries of each owner is the sum over all pairs of an owner and an entry.
-/
theorem sum_owned {γ : Type*} (xs : List α) (fs : α → List γ) (v : α → γ → ℤ) :
    (xs.map fun x => ((fs x).map fun f => v x f).sum).sum =
      ((xs.flatMap fun x => (fs x).map (Prod.mk x)).map fun e => v e.1 e.2).sum := by
  induction xs with
  | nil => rfl
  | cons x xs ih =>
      rw [List.map_cons, List.sum_cons, ih, List.flatMap_cons, List.map_append,
        List.sum_append, List.map_map]
      rfl

/-- If at most one entry satisfies `p`, summing `v` over those that do gives `v` or zero. -/
theorem sum_ite_once {xs : List α} {p : α → Bool}
    (h : xs.Pairwise fun x y => p x = true → p y = false) (v : ℤ) :
    (xs.map fun x => if p x then v else 0).sum = if xs.any p then v else 0 := by
  induction xs with
  | nil => rfl
  | cons x xs ih =>
      rw [List.pairwise_cons] at h
      rw [List.map_cons, List.sum_cons, ih h.2, List.any_cons]
      cases hp : p x with
      | true =>
          have hnone : xs.any p = false := by
            rw [List.any_eq_false]
            intro y hy
            rw [h.1 y hy hp]
            exact Bool.false_ne_true
          rw [hnone]
          simp
      | false => simp

/-- Entries whose value is zero can be left out of a sum. -/
theorem sum_filter_of_zero (xs : List α) (p : α → Bool) (v : α → ℤ)
    (h : ∀ x ∈ xs, p x = false → v x = 0) :
    ((xs.filter p).map v).sum = (xs.map v).sum := by
  induction xs with
  | nil => rfl
  | cons x xs ih =>
      have hrest := ih fun y hy => h y (List.mem_cons_of_mem _ hy)
      cases hp : p x with
      | true => rw [List.filter_cons_of_pos hp, List.map_cons, List.map_cons, List.sum_cons,
          List.sum_cons, hrest]
      | false =>
          rw [List.filter_cons_of_neg (by simp [hp]), List.map_cons, List.sum_cons,
            h x List.mem_cons_self hp, zero_add, hrest]

end MatchedSums
