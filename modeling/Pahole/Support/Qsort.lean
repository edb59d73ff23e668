import Mathlib.Tactic
import Mathlib.Data.List.Perm.Basic
import Mathlib.Data.List.Sort

/-!
# `qsort`

The C library leaves the order of elements that compare equal open.  A `Qsort` is
any way of settling it, and a result about every `Qsort` is one about every
tie-breaking order.
-/

/-- The sign of the result of `cmp` is that of a total preorder. -/
structure Comparator {α : Type} (cmp : α → α → ℤ) : Prop where
  total : ∀ a b, cmp a b ≤ 0 ∨ cmp b a ≤ 0
  trans : ∀ a b c, cmp a b ≤ 0 → cmp b c ≤ 0 → cmp a c ≤ 0

/-- An implementation of `qsort`. -/
structure Qsort where
  sort : {α : Type} → (α → α → ℤ) → List α → List α
  perm : ∀ {α : Type} (cmp : α → α → ℤ) (xs : List α), (sort cmp xs).Perm xs
  sorted : ∀ {α : Type} (cmp : α → α → ℤ) (xs : List α), Comparator cmp →
    (sort cmp xs).Pairwise fun a b => cmp a b ≤ 0

namespace Qsort

variable {α : Type} {cmp : α → α → ℤ}

/-- The elements of a list in the order of a list of their indices. -/
def arrange (p : List ℕ) (xs : List α) : List α :=
  if p.Perm (List.range xs.length) then p.filterMap fun i => xs[i]? else xs

theorem filterMap_range_getElem? (xs : List α) :
    (List.range xs.length).filterMap (fun i => xs[i]?) = xs := by
  induction xs with
  | nil => rfl
  | cons x xs ih =>
      rw [List.length_cons, List.range_succ_eq_map, List.filterMap_cons]
      simp only [List.getElem?_cons_zero, List.filterMap_map]
      exact congrArg (x :: ·) ih

theorem perm_arrange (p : List ℕ) (xs : List α) : (arrange p xs).Perm xs := by
  unfold arrange
  split
  · next hp =>
      have hperm := hp.filterMap fun i => xs[i]?
      rwa [filterMap_range_getElem?] at hperm
  · exact List.Perm.refl xs

/-- Every permutation arranges the elements in some order of their indices. -/
theorem exists_arrange {xs ys : List α} (h : ys.Perm xs) : ∃ p, arrange p xs = ys := by
  have hzip : (Relation.Comp (fun a b => a = List.map Prod.fst b) List.Perm) ys xs.zipIdx := by
    rw [List.eq_map_comp_perm]
    change ys.Perm (xs.zipIdx.map Prod.fst)
    rw [List.zipIdx_map_fst]
    exact h
  obtain ⟨zs, rfl, hzs⟩ := hzip
  have hindices := hzs.map Prod.snd
  rw [List.zipIdx_map_snd, ← List.range_eq_range'] at hindices
  refine ⟨zs.map Prod.snd, ?_⟩
  rw [arrange, if_pos hindices, List.filterMap_map, ← List.filterMap_eq_map]
  apply List.filterMap_congr
  rintro ⟨x, i⟩ hmem
  have hx := hzs.mem_iff.mp hmem
  rw [List.mk_mem_zipIdx_iff_getElem?] at hx
  exact hx

/-- The stable implementation. -/
def stable : Qsort where
  sort cmp xs := xs.mergeSort fun a b => decide (cmp a b ≤ 0)
  perm cmp xs := List.mergeSort_perm xs _
  sorted cmp xs h := by
    have hsorted := @List.pairwise_mergeSort _ (fun a b => decide (cmp a b ≤ 0))
      (by simpa using h.trans) (by simpa using h.total) xs
    simpa using hsorted

/-- The implementation that arranges the elements before it sorts them stably. -/
def arranged (p : List ℕ) : Qsort where
  sort cmp xs := stable.sort cmp (arrange p xs)
  perm cmp xs := (stable.perm cmp (arrange p xs)).trans (perm_arrange p xs)
  sorted cmp xs h := stable.sorted cmp (arrange p xs) h

/-- Every order that a comparison allows is that of some implementation. -/
theorem exists_sort_eq {xs ys : List α} (hperm : ys.Perm xs)
    (hsorted : ys.Pairwise fun a b => cmp a b ≤ 0) : ∃ qsort : Qsort, qsort.sort cmp xs = ys := by
  obtain ⟨p, hp⟩ := exists_arrange hperm
  refine ⟨arranged p, ?_⟩
  change (arrange p xs).mergeSort (fun a b => decide (cmp a b ≤ 0)) = ys
  rw [hp]
  apply List.mergeSort_of_pairwise
  exact hsorted.imp fun hle => decide_eq_true hle

@[simp] theorem mem_sort (qsort : Qsort) {xs : List α} {x : α} :
    x ∈ qsort.sort cmp xs ↔ x ∈ xs :=
  (qsort.perm cmp xs).mem_iff

@[simp] theorem length_sort (qsort : Qsort) (xs : List α) :
    (qsort.sort cmp xs).length = xs.length :=
  (qsort.perm cmp xs).length_eq

end Qsort
