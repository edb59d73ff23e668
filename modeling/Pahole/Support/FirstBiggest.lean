import Mathlib.Tactic

/-!
# The first of the heaviest values

A scan that keeps the heaviest value so far, and the earlier one of two that are as
heavy.  Values without weight are not kept.
-/

namespace FirstBiggest

variable {α : Type*} (weight : α → ℕ)

/-- The weight of the choice so far. -/
def chosenWeight (best : Option α) : ℕ := best.elim 0 weight

/-- The choice after one more value. -/
def heavier (best : Option α) (x : α) : Option α :=
  if chosenWeight weight best < weight x then some x else best

/-- The first of the heaviest values of a list. -/
def pick (xs : List α) : Option α := xs.foldl (heavier weight) none

variable {weight} {best : Option α} {x m : α} {xs : List α}

@[simp] theorem pick_nil : pick weight ([] : List α) = none := rfl

theorem pick_concat : pick weight (xs ++ [x]) = heavier weight (pick weight xs) x := by
  simp [pick]

theorem heavier_of_lt (h : chosenWeight weight best < weight x) :
    heavier weight best x = some x := if_pos h

theorem heavier_of_le (h : weight x ≤ chosenWeight weight best) :
    heavier weight best x = best := if_neg (not_lt.mpr h)

theorem chosenWeight_heavier :
    chosenWeight weight (heavier weight best x) = max (chosenWeight weight best) (weight x) := by
  rcases lt_or_ge (chosenWeight weight best) (weight x) with hlt | hle
  · rw [heavier_of_lt hlt, max_eq_right hlt.le]
    rfl
  · rw [heavier_of_le hle, max_eq_left hle]

theorem weight_le_chosenWeight (hx : x ∈ xs) : weight x ≤ chosenWeight weight (pick weight xs) := by
  induction xs using List.reverseRecOn with
  | nil => exact absurd hx List.not_mem_nil
  | append_singleton xs y ih =>
      rw [pick_concat, chosenWeight_heavier]
      rcases List.mem_append.mp hx with hx | hx
      · exact le_max_of_le_left (ih hx)
      · rw [List.mem_singleton.mp hx]
        exact le_max_right _ _

theorem mem_of_pick_eq_some (h : pick weight xs = some m) : m ∈ xs ∧ 0 < weight m := by
  induction xs using List.reverseRecOn with
  | nil => simp at h
  | append_singleton xs x ih =>
      rw [pick_concat] at h
      rcases lt_or_ge (chosenWeight weight (pick weight xs)) (weight x) with hlt | hle
      · rw [heavier_of_lt hlt] at h
        obtain rfl := Option.some.inj h
        exact ⟨by simp, (Nat.zero_le _).trans_lt hlt⟩
      · rw [heavier_of_le hle] at h
        exact ⟨List.mem_append_left _ (ih h).1, (ih h).2⟩

/-- `pick` is none if and only if every element weighs 0. -/
theorem pick_eq_none_iff : pick weight xs = none ↔ ∀ x ∈ xs, weight x = 0 := by
  constructor
  · intro h x hx
    have hle : weight x ≤ chosenWeight weight (pick weight xs) := weight_le_chosenWeight hx
    rw [h] at hle
    exact Nat.le_zero.mp hle
  · intro h
    cases hpick : pick weight xs with
    | none => rfl
    | some m =>
        obtain ⟨hmem, hpos⟩ := mem_of_pick_eq_some hpick
        exact absurd (h m hmem) hpos.ne'

end FirstBiggest
