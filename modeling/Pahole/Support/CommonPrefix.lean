import Mathlib.Data.List.Infix
import Mathlib.Tactic

/-!
# Common prefixes

How far two lists agree, and what is the longest prefix that all lists of a family have.
A prefix of all lists of a sequence is one of the first list that is no longer than any
two neighbours agree.
-/

namespace CommonPrefix

variable {α : Type*}

/-- A common prefix of the lists of which every common prefix is a prefix. -/
structure IsLongest (p : List α) (lists : List (List α)) : Prop where
  common : ∀ xs ∈ lists, p <+: xs
  longest : ∀ q, (∀ xs ∈ lists, q <+: xs) → q <+: p

/-- The empty list is the longest common prefix exactly when no value is the first of all lists.
-/
theorem isLongest_nil_iff {lists : List (List α)} :
    IsLongest [] lists ↔ ¬∃ x, ∀ xs ∈ lists, xs.head? = some x := by
  constructor
  · rintro h ⟨x, hx⟩
    have hcommon : ∀ xs ∈ lists, [x] <+: xs := by
      intro xs hxs
      obtain ⟨rest, rfl⟩ := List.head?_eq_some_iff.mp (hx xs hxs)
      exact ⟨rest, rfl⟩
    exact absurd (List.prefix_nil.mp (h.longest [x] hcommon)) (by simp)
  · intro h
    constructor
    · exact fun xs _ => List.nil_prefix
    · intro q hq
      cases q with
      | nil => exact List.nil_prefix
      | cons x q =>
          refine absurd ⟨x, fun xs hxs => ?_⟩ h
          obtain ⟨rest, rfl⟩ := hq xs hxs
          rfl

variable [DecidableEq α]

/-- How many values two lists agree in from the start. -/
def commonLength : List α → List α → ℕ
  | a :: as, b :: bs => if a = b then commonLength as bs + 1 else 0
  | _, _ => 0

/-- A prefix of one list is one of the other if it is no longer than they agree. -/
theorem prefix_iff_le_commonLength {p as bs : List α} (h : p <+: as) :
    p <+: bs ↔ p.length ≤ commonLength as bs := by
  induction p generalizing as bs with
  | nil => simp
  | cons x p ih =>
      cases as with
      | nil => exact absurd h (by simp)
      | cons a as =>
          obtain ⟨rfl, hp⟩ := List.cons_prefix_cons.mp h
          cases bs with
          | nil => simp [commonLength]
          | cons b bs =>
              rw [List.cons_prefix_cons, ih hp, commonLength]
              by_cases hx : x = b
              · simp [hx]
              · simp [hx]

theorem commonLength_comm (as bs : List α) : commonLength as bs = commonLength bs as := by
  induction as generalizing bs with
  | nil => cases bs <;> rfl
  | cons a as ih =>
      cases bs with
      | nil => rfl
      | cons b bs =>
          rw [commonLength, commonLength, ih bs]
          exact if_congr eq_comm rfl rfl

/-- The least of a bound and of how far neighbours agree, going on from a first list. -/
def leastCommon (prev : List α) (bound : ℕ) : List (List α) → ℕ
  | [] => bound
  | curr :: rest => leastCommon curr (min bound (commonLength curr prev)) rest

theorem leastCommon_le {prev : List α} {bound : ℕ} {lists : List (List α)} :
    leastCommon prev bound lists ≤ bound := by
  induction lists generalizing prev bound with
  | nil => exact le_refl _
  | cons curr rest ih => exact ih.trans (min_le_left _ _)

theorem length_le_leastCommon_iff {p prev : List α} {bound : ℕ} {lists : List (List α)}
    (h : p <+: prev) :
    p.length ≤ leastCommon prev bound lists ↔
      p.length ≤ bound ∧ ∀ xs ∈ lists, p <+: xs := by
  induction lists generalizing prev bound with
  | nil => simp [leastCommon]
  | cons curr rest ih =>
      rw [leastCommon, List.forall_mem_cons]
      have hagree : p <+: curr ↔ p.length ≤ commonLength curr prev := by
        rw [commonLength_comm]
        exact prefix_iff_le_commonLength h
      by_cases hcurr : p <+: curr
      · rw [ih hcurr, le_min_iff]
        constructor
        · exact fun ⟨hb, hr⟩ => ⟨hb.1, hcurr, hr⟩
        · exact fun ⟨hb, _, hr⟩ => ⟨⟨hb, hagree.mp hcurr⟩, hr⟩
      · constructor
        · intro hle
          exact absurd (hagree.mpr ((hle.trans leastCommon_le).trans (min_le_right _ _))) hcurr
        · exact fun ⟨_, hno, _⟩ => absurd hno hcurr

theorem commonLength_le_right (as bs : List α) : commonLength as bs ≤ bs.length := by
  induction as generalizing bs with
  | nil => exact Nat.zero_le _
  | cons a as ih =>
      cases bs with
      | nil => exact le_refl _
      | cons b bs =>
          rw [commonLength]
          split
          · exact Nat.succ_le_succ (ih bs)
          · exact Nat.zero_le _

/-- The least that neighbours agree is the length of the longest common prefix. -/
theorem leastCommon_eq {p prev : List α} {bound : ℕ} {lists : List (List α)}
    (h : IsLongest p (prev :: lists)) (hne : lists ≠ []) :
    leastCommon prev bound lists = min bound p.length := by
  obtain ⟨hprev, hlists⟩ := List.forall_mem_cons.mp h.common
  apply le_antisymm
  · have hlength : (prev.take (leastCommon prev bound lists)).length =
        leastCommon prev bound lists := by
      cases lists with
      | nil => exact absurd rfl hne
      | cons curr rest =>
          rw [List.length_take]
          apply min_eq_left
          calc leastCommon prev bound (curr :: rest)
              = leastCommon curr (min bound (commonLength curr prev)) rest := rfl
            _ ≤ min bound (commonLength curr prev) := leastCommon_le
            _ ≤ commonLength curr prev := min_le_right _ _
            _ ≤ prev.length := commonLength_le_right curr prev
    have hstart := List.take_prefix (leastCommon prev bound lists) prev
    obtain ⟨hbound, hcommon⟩ := (length_le_leastCommon_iff hstart).mp hlength.le
    have hlongest := h.longest _ (List.forall_mem_cons.mpr ⟨hstart, hcommon⟩)
    rw [hlength] at hbound
    exact le_min hbound (hlength ▸ hlongest.length_le)
  · have hcut : p.take bound <+: prev := (List.take_prefix _ _).trans hprev
    rw [← List.length_take, length_le_leastCommon_iff hcut]
    constructor
    · exact List.length_take_le _ _
    · exact fun xs hxs => (List.take_prefix _ _).trans (hlists xs hxs)

end CommonPrefix
