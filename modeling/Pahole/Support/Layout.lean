import Mathlib.Algebra.Order.Ring.Nat
import Mathlib.Data.Nat.Size
import Mathlib.Tactic.Common

/-!
# Laying members out

The rules by which C places the members of a struct.
-/

namespace Layout

/-- The first multiple of an alignment from an offset on. -/
def roundUp (a x : ℕ) : ℕ := (x + (a - 1)) / a * a

section RoundUp

variable {a b x y : ℕ}

theorem dvd_roundUp (a x : ℕ) : a ∣ roundUp a x := Nat.dvd_mul_left _ _

theorem le_roundUp (ha : 0 < a) (x : ℕ) : x ≤ roundUp a x := by
  have hdiv := Nat.div_add_mod' (x + (a - 1)) a
  have hmod := Nat.mod_lt (x + (a - 1)) ha
  unfold roundUp
  omega

theorem roundUp_lt (ha : 0 < a) (x : ℕ) : roundUp a x < x + a := by
  have hdiv := Nat.div_mul_le_self (x + (a - 1)) a
  unfold roundUp
  omega

/-- The multiple of `a` from `x` on that is less than `x + a` is `roundUp a x`. -/
theorem roundUp_eq (hdvd : a ∣ y) (hle : x ≤ y) (hlt : y < x + a) : roundUp a x = y := by
  obtain ⟨k, rfl⟩ := hdvd
  have ha : 0 < a := by omega
  have hdiv : (x + (a - 1)) / a = k := by
    apply Nat.div_eq_of_lt_le
    · rw [mul_comm]
      omega
    · rw [Nat.succ_mul, mul_comm]
      omega
  unfold roundUp
  rw [hdiv, mul_comm]

theorem roundUp_of_dvd (ha : 0 < a) (hdvd : a ∣ x) : roundUp a x = x :=
  roundUp_eq hdvd (le_refl x) (by omega)

theorem roundUp_one (x : ℕ) : roundUp 1 x = x := roundUp_of_dvd one_pos (one_dvd x)

end RoundUp

/-! ## Powers of two -/

section Powers

variable {a b x y : ℕ}

theorem dvd_of_le (ha : a.isPowerOfTwo) (hb : b.isPowerOfTwo) (h : a ≤ b) : a ∣ b := by
  obtain ⟨i, rfl⟩ := ha
  obtain ⟨j, rfl⟩ := hb
  exact Nat.pow_dvd_pow 2 ((Nat.pow_le_pow_iff_right (by omega)).mp h)

theorem isPowerOfTwo_max (ha : a.isPowerOfTwo) (hb : b.isPowerOfTwo) :
    (max a b).isPowerOfTwo := by
  rcases le_total a b with h | h
  · rwa [max_eq_right h]
  · rwa [max_eq_left h]

/-- The larger of two alignments divides what both divide. -/
theorem max_dvd (ha : a ∣ x) (hb : b ∣ x) : max a b ∣ x := by
  rcases le_total a b with h | h
  · rwa [max_eq_right h]
  · rwa [max_eq_left h]

/-- A power of two above a number is above the next power of two as well. -/
theorem two_pow_size_le (ha : a.isPowerOfTwo) (h : x < a) : 2 ^ x.size ≤ a := by
  obtain ⟨k, rfl⟩ := ha
  exact Nat.pow_le_pow_right (by omega) (Nat.size_le.mpr h)

theorem isPowerOfTwo_two_pow (k : ℕ) : (2 ^ k).isPowerOfTwo := ⟨k, rfl⟩

/-- Rounding up to a second alignment what was rounded up to a first one: from the
start the result is the first multiple of the larger one. -/
theorem roundUp_reach {m start : ℕ} (hm : m.isPowerOfTwo) (ha : a.isPowerOfTwo)
    (hdvd : m ∣ x) (hlt : x < start + m) :
    max m a ∣ roundUp a x ∧ roundUp a x < start + max m a := by
  have hapos := Nat.pos_of_isPowerOfTwo ha
  have hle := le_roundUp hapos x
  rcases le_total a m with h | h
  · have hax : a ∣ x := (dvd_of_le ha hm h).trans hdvd
    rw [max_eq_left h, roundUp_of_dvd hapos hax]
    exact ⟨hdvd, hlt⟩
  · rw [max_eq_right h]
    refine ⟨dvd_roundUp a x, ?_⟩
    have hma : m ∣ a := dvd_of_le hm ha h
    have hskip : m ∣ a - (roundUp a x - x) :=
      Nat.dvd_sub hma (Nat.dvd_sub (hma.trans (dvd_roundUp a x)) hdvd)
    have hbelow := roundUp_lt hapos x
    have hroom := Nat.le_of_dvd (by omega) hskip
    omega

end Powers

/-! ## Structs -/

/-- The size and the alignment of a member. -/
structure Field where
  size : ℕ
  alignment : ℕ

/-- The offsets of members that come after an offset. -/
def offsets : ℕ → List Field → List ℕ
  | _, [] => []
  | start, f :: fs =>
      roundUp f.alignment start :: offsets (roundUp f.alignment start + f.size) fs

/-- The end of the last member. -/
def finish : ℕ → List Field → ℕ
  | start, [] => start
  | start, f :: fs => finish (roundUp f.alignment start + f.size) fs

/-- The alignment of a struct that has at least the given one. -/
def alignment : ℕ → List Field → ℕ
  | least, [] => least
  | least, f :: fs => max f.alignment (alignment least fs)

def size (least : ℕ) (fs : List Field) : ℕ := roundUp (alignment least fs) (finish 0 fs)

section Alignment

variable {least x : ℕ} {fs : List Field}

theorem isPowerOfTwo_alignment (hleast : least.isPowerOfTwo)
    (hfs : ∀ f ∈ fs, f.alignment.isPowerOfTwo) : (alignment least fs).isPowerOfTwo := by
  induction fs with
  | nil => exact hleast
  | cons f fs ih =>
      exact isPowerOfTwo_max (hfs f (List.mem_cons_self ..))
        (ih fun g hg => hfs g (List.mem_cons_of_mem f hg))

theorem le_alignment {f : Field} (hf : f ∈ fs) : f.alignment ≤ alignment least fs := by
  induction fs with
  | nil => nomatch hf
  | cons g fs ih =>
      rcases List.mem_cons.mp hf with rfl | hf
      · exact le_max_left _ _
      · exact (ih hf).trans (le_max_right _ _)

theorem least_le_alignment (least : ℕ) (fs : List Field) : least ≤ alignment least fs := by
  induction fs with
  | nil => exact le_refl least
  | cons f fs ih => exact ih.trans (le_max_right _ _)

theorem alignment_le {n : ℕ} (hleast : least ≤ n) (hfs : ∀ f ∈ fs, f.alignment ≤ n) :
    alignment least fs ≤ n := by
  induction fs with
  | nil => exact hleast
  | cons f fs ih =>
      exact max_le (hfs f (List.mem_cons_self ..))
        (ih fun g hg => hfs g (List.mem_cons_of_mem f hg))

theorem alignment_eq_least (hfs : ∀ f ∈ fs, f.alignment ≤ least) : alignment least fs = least :=
  le_antisymm (alignment_le le_rfl hfs) (least_le_alignment least fs)

/-- The alignment of a struct divides what those of its members divide. -/
theorem alignment_dvd_iff (hleast : least.isPowerOfTwo)
    (hfs : ∀ f ∈ fs, f.alignment.isPowerOfTwo) :
    alignment least fs ∣ x ↔ least ∣ x ∧ ∀ f ∈ fs, f.alignment ∣ x := by
  have hpow := isPowerOfTwo_alignment hleast hfs
  constructor
  · intro h
    exact ⟨(dvd_of_le hleast hpow (least_le_alignment least fs)).trans h,
      fun f hf => (dvd_of_le (hfs f hf) hpow (le_alignment hf)).trans h⟩
  · rintro ⟨hl, hall⟩
    clear hpow
    induction fs with
    | nil => exact hl
    | cons f fs ih =>
        exact max_dvd (hall f (List.mem_cons_self ..))
          (ih (fun g hg => hfs g (List.mem_cons_of_mem f hg))
            fun g hg => hall g (List.mem_cons_of_mem f hg))

theorem le_finish {start : ℕ} (hfs : ∀ f ∈ fs, 0 < f.alignment) : start ≤ finish start fs := by
  induction fs generalizing start with
  | nil => exact le_refl start
  | cons f fs ih =>
      have hle := le_roundUp (hfs f (List.mem_cons_self ..)) start
      exact (hle.trans (Nat.le_add_right _ _)).trans
        (ih fun g hg => hfs g (List.mem_cons_of_mem f hg))

end Alignment

end Layout
