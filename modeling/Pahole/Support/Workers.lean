import Mathlib.Algebra.BigOperators.Group.Finset.Basic
import Mathlib.Algebra.Order.BigOperators.Group.Finset
import Mathlib.Data.Fintype.BigOperators
import Mathlib.Tactic

/-!
# Counting workers

Several workers take steps, one at a time.  What holds of them together is told by how many
are in which state, and a step changes such a number by what one worker contributes.
-/

namespace Workers

open Finset

variable {ι π : Type} [Fintype ι]

/-- The sum over all workers. -/
def tally (f : π → ℕ) (ws : ι → π) : ℕ := ∑ i, f (ws i)

section Tally

variable {f g : π → ℕ} {ws : ι → π} {i : ι} {p : π}

theorem le_tally (f : π → ℕ) (ws : ι → π) (i : ι) : f (ws i) ≤ tally f ws :=
  single_le_sum (f := fun i => f (ws i)) (fun _ _ => Nat.zero_le _) (mem_univ i)

theorem tally_eq_zero : tally f ws = 0 ↔ ∀ i, f (ws i) = 0 := by
  rw [tally, sum_eq_zero_iff]
  exact ⟨fun h i => h i (mem_univ i), fun h i _ => h i⟩

theorem tally_const (p : π) : tally f (fun _ : ι => p) = Fintype.card ι * f p := by
  rw [tally, sum_const, card_univ, smul_eq_mul]

theorem tally_lt_card (h : ∀ p, f p ≤ 1) (hi : f (ws i) = 0) : tally f ws < Fintype.card ι := by
  have hsum : tally f ws < ∑ _ : ι, 1 :=
    sum_lt_sum (fun j _ => h (ws j)) ⟨i, mem_univ i, by omega⟩
  rwa [sum_const, card_univ, smul_eq_mul, mul_one] at hsum

variable [DecidableEq ι]

theorem add_le_tally (f : π → ℕ) (ws : ι → π) {j : ι} (h : i ≠ j) :
    f (ws i) + f (ws j) ≤ tally f ws := by
  rw [tally, ← sum_pair (f := fun i => f (ws i)) h]
  exact sum_le_sum_of_subset (subset_univ _)

/-- A step of one worker changes the sum by the difference of its terms. -/
theorem tally_update (f : π → ℕ) (ws : ι → π) (i : ι) (p : π) :
    tally f (Function.update ws i p) + f (ws i) = tally f ws + f p := by
  have hrest : ∑ j ∈ univ.erase i, f (Function.update ws i p j) =
      ∑ j ∈ univ.erase i, f (ws j) :=
    sum_congr rfl fun j hj => by rw [Function.update_of_ne (ne_of_mem_erase hj)]
  have hleft := sum_erase_add univ (fun j => f (Function.update ws i p j)) (mem_univ i)
  have hright := sum_erase_add univ (fun j => f (ws j)) (mem_univ i)
  rw [Function.update_self] at hleft
  rw [tally, tally, ← hleft, ← hright, hrest]
  ring

theorem tally_update_of_eq (h : f p = f (ws i)) : tally f (Function.update ws i p) = tally f ws := by
  have hstep := tally_update f ws i p
  omega

end Tally

/-! ## Work that ends -/

section Ends

variable {σ : Type} {step : σ → σ → Prop} {good : σ → Prop} {measure : σ → ℕ}

/-- Where every step makes the measure smaller, no run goes on without an end. -/
theorem exists_not_step (keep : ∀ s s', good s → step s s' → good s')
    (shrink : ∀ s s', good s → step s s' → measure s' < measure s) {run : ℕ → σ}
    (hstart : good (run 0)) : ∃ i, ¬step (run i) (run (i + 1)) := by
  by_contra hforever
  push Not at hforever
  have hgood : ∀ i, good (run i) := by
    intro i
    induction i with
    | zero => exact hstart
    | succ i ih => exact keep _ _ ih (hforever i)
  have hsmall : ∀ i, measure (run i) + i ≤ measure (run 0) := by
    intro i
    induction i with
    | zero => exact le_rfl
    | succ i ih =>
        have hless := shrink _ _ (hgood i) (hforever i)
        omega
  have hlast := hsmall (measure (run 0) + 1)
  omega

end Ends

end Workers
