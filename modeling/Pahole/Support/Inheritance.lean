import Mathlib.Logic.Function.Basic
import Mathlib.Order.Basic
import Mathlib.Tactic.Common

/-!
# Inherited values

Entries that take the value of another entry, when they are visited.  Whether an entry has
its value in the end depends on the order of the visits.
-/

namespace Inheritance

variable {ι α : Type*}

/-- A visit of an entry: its own value is stored, or that of another entry is, perhaps
only where there is none yet, or what is stored is dropped. -/
inductive Visit (ι : Type*) where
  | load (i : ι)
  | copy (i j : ι)
  | fill (i j : ι)
  | clear (i : ι)

/-- The value at the end of the links of an entry, for so many links. -/
def endFrom (next : ι → Option ι) (own : ι → α) : ℕ → ι → α
  | 0, i => own i
  | n + 1, i =>
      match next i with
      | none => own i
      | some j => endFrom next own n j

/-- The value at the end of the links of an entry.  The links make the rank smaller. -/
def endOf (next : ι → Option ι) (own : ι → α) (rank : ι → ℕ) (i : ι) : α :=
  endFrom next own (rank i) i

section Ends

variable {next : ι → Option ι} {own : ι → α} {rank : ι → ℕ}

theorem endFrom_succ (hrank : ∀ i j, next i = some j → rank j < rank i) {n : ℕ} {i : ι}
    (h : rank i ≤ n) : endFrom next own (n + 1) i = endFrom next own n i := by
  induction n generalizing i with
  | zero =>
      cases hnext : next i with
      | none => simp [endFrom, hnext]
      | some j =>
          have hj := hrank i j hnext
          omega
  | succ n ih =>
      rw [endFrom]
      conv_rhs => rw [endFrom]
      cases hnext : next i with
      | none => rfl
      | some j =>
          have hj := hrank i j hnext
          exact ih (by omega)

theorem endFrom_of_le (hrank : ∀ i j, next i = some j → rank j < rank i) {n : ℕ} {i : ι}
    (h : rank i ≤ n) : endFrom next own n i = endOf next own rank i := by
  induction h with
  | refl => rfl
  | step h ih => rw [endFrom_succ hrank h, ih]

theorem endOf_link (hrank : ∀ i j, next i = some j → rank j < rank i) {i j : ι}
    (h : next i = some j) : endOf next own rank i = endOf next own rank j := by
  have hj := hrank i j h
  obtain ⟨n, hn⟩ := Nat.exists_eq_succ_of_ne_zero (Nat.ne_of_gt (Nat.lt_of_le_of_lt
    (Nat.zero_le _) hj))
  rw [endOf, hn, endFrom, h]
  exact endFrom_of_le hrank (by omega)

theorem endOf_of_none {i : ι} (h : next i = none) : endOf next own rank i = own i := by
  unfold endOf
  cases rank i with
  | zero => rfl
  | succ n => rw [endFrom, h]

end Ends

section Visits

variable [DecidableEq ι] [DecidableEq α] (own : ι → α) (unset : α) (start : ι → Prop)

/-- The values after a visit. -/
def visit (σ : ι → α) : Visit ι → ι → α
  | .load i => Function.update σ i (own i)
  | .copy i j => Function.update σ i (σ j)
  | .fill i j => if σ i = unset then Function.update σ i (σ j) else σ
  | .clear i => Function.update σ i unset

/-- The entry has the value of the end of its chain after the visits, of which the last one is
the head of the list. -/
def Arrived : List (Visit ι) → ι → Prop
  | [], i => start i
  | .load k :: vs, i => i = k ∨ Arrived vs i
  | .copy k j :: vs, i => if i = k then Arrived vs j else Arrived vs i
  | .fill k j :: vs, i => Arrived vs i ∨ (i = k ∧ Arrived vs j)
  | .clear k :: vs, i => i ≠ k ∧ Arrived vs i

/-- The entries that have arrived have their final values, and the others none. -/
structure Settled (final : ι → α) (arrived : ι → Prop) (σ : ι → α) : Prop where
  there : ∀ i, arrived i → σ i = final i
  absent : ∀ i, ¬arrived i → σ i = unset

/-- The visit gives its entry the final value.  An entry that has its value from the start, and
is only filled, may be filled with anything. -/
def Leads (final : ι → α) (vs : List (Visit ι)) : Visit ι → Prop
  | .load i => own i = final i
  | .copy i j => final i = final j
  | .fill i j => final i = final j ∨
      (start i ∧ final i ≠ unset ∧ .clear i ∉ vs ∧ ∀ j, .copy i j ∉ vs)
  | .clear _ => True

variable {own unset start}

theorem arrived_of_start {vs : List (Visit ι)} {i : ι} (h : start i) (hclear : .clear i ∉ vs)
    (hcopy : ∀ j, .copy i j ∉ vs) : Arrived start vs i := by
  induction vs with
  | nil => exact h
  | cons v vs ih =>
      have ih' := ih (fun hmem => hclear (List.mem_cons_of_mem _ hmem))
        fun j hmem => hcopy j (List.mem_cons_of_mem _ hmem)
      cases v with
      | load k => exact Or.inr ih'
      | copy k j =>
          have hne : i ≠ k := by
            rintro rfl
            exact hcopy j (List.mem_cons_self ..)
          rw [Arrived, if_neg hne]
          exact ih'
      | fill k j => exact Or.inl ih'
      | clear k =>
          refine ⟨?_, ih'⟩
          rintro rfl
          exact hclear (List.mem_cons_self ..)

theorem arrived_append (vs vs' : List (Visit ι)) (i : ι) :
    Arrived start (vs ++ vs') i ↔ Arrived (Arrived start vs') vs i := by
  induction vs generalizing i with
  | nil => exact Iff.rfl
  | cons v vs ih =>
      cases v with
      | load k => exact or_congr_right (ih i)
      | copy k j =>
          simp only [List.cons_append, Arrived]
          split
          · exact ih j
          · exact ih i
      | fill k j => exact or_congr (ih i) (and_congr_right fun _ => ih j)
      | clear k => exact and_congr_right fun _ => ih i

theorem arrived_of_load {vs : List (Visit ι)} {i : ι} (h : .load i ∈ vs)
    (hclear : .clear i ∉ vs) (hcopy : ∀ j, .copy i j ∉ vs) : Arrived start vs i := by
  obtain ⟨late, early, rfl⟩ := List.append_of_mem h
  rw [arrived_append]
  refine arrived_of_start (Or.inl rfl) (fun hmem => ?_) fun j hmem => ?_
  · exact hclear (List.mem_append_left _ hmem)
  · exact hcopy j (List.mem_append_left _ hmem)

theorem settled_visits {final σ : ι → α} {vs : List (Visit ι)}
    (hstart : Settled unset final start σ)
    (hleads : ∀ v ∈ vs, Leads own unset start final vs v) :
    Settled unset final (Arrived start vs) (vs.foldr (fun v σ => visit own unset σ v) σ) := by
  suffices hall : ∀ early, early <:+ vs → Settled unset final (Arrived start early)
      (early.foldr (fun v σ => visit own unset σ v) σ) from hall vs (List.suffix_refl vs)
  intro early hearly
  induction early with
  | nil => exact hstart
  | cons v early ih =>
      have hsub : early <:+ vs := (List.suffix_cons v early).trans hearly
      obtain ⟨hthere, habsent⟩ := ih hsub
      have hv := hleads v (hearly.subset (List.mem_cons_self ..))
      rw [List.foldr_cons]
      generalize early.foldr (fun v σ => visit own unset σ v) σ = τ at hthere habsent
      cases v with
      | load k =>
          have hown : own k = final k := hv
          constructor
          · intro i hi
            by_cases heq : i = k
            · rw [heq, visit, Function.update_self, hown]
            · rw [visit, Function.update_of_ne heq]
              exact hthere i (hi.resolve_left heq)
          · intro i hi
            obtain ⟨hne, hi⟩ := not_or.mp hi
            rw [visit, Function.update_of_ne hne]
            exact habsent i hi
      | copy k j =>
          have hsame : final k = final j := hv
          constructor
          · intro i hi
            by_cases heq : i = k
            · rw [Arrived, if_pos heq] at hi
              rw [heq, visit, Function.update_self, hsame]
              exact hthere j hi
            · rw [Arrived, if_neg heq] at hi
              rw [visit, Function.update_of_ne heq]
              exact hthere i hi
          · intro i hi
            by_cases heq : i = k
            · rw [Arrived, if_pos heq] at hi
              rw [heq, visit, Function.update_self]
              exact habsent j hi
            · rw [Arrived, if_neg heq] at hi
              rw [visit, Function.update_of_ne heq]
              exact habsent i hi
      | clear k =>
          constructor
          · rintro i ⟨hne, hi⟩
            rw [visit, Function.update_of_ne hne]
            exact hthere i hi
          · intro i hi
            by_cases heq : i = k
            · rw [heq, visit, Function.update_self]
            · rw [visit, Function.update_of_ne heq]
              exact habsent i fun h => hi ⟨heq, h⟩
      | fill k j =>
          by_cases hunset : τ k = unset
          · rw [visit, if_pos hunset]
            have hsame : final k = final j := by
              rcases hv with hsame | ⟨hs, hne, hclear, hcopy⟩
              · exact hsame
              · have hk := arrived_of_start hs (fun hmem => hclear (hsub.subset hmem))
                  fun j hmem => hcopy j (hsub.subset hmem)
                exact absurd ((hthere k hk).symm.trans hunset) hne
            constructor
            · intro i hi
              by_cases heq : i = k
              · subst heq
                rw [Function.update_self, hsame]
                by_cases hj : Arrived start early j
                · exact hthere j hj
                · have hi := hi.resolve_right fun h => hj h.2
                  rw [habsent j hj, ← hsame, ← hthere i hi, hunset]
              · rw [Function.update_of_ne heq]
                exact hthere i (hi.resolve_right fun h => heq h.1)
            · intro i hi
              obtain ⟨hi, hboth⟩ := not_or.mp hi
              by_cases heq : i = k
              · subst heq
                rw [Function.update_self]
                exact habsent j fun h => hboth ⟨rfl, h⟩
              · rw [Function.update_of_ne heq]
                exact habsent i hi
          · rw [visit, if_neg hunset]
            constructor
            · intro i hi
              rcases hi with hi | ⟨rfl, -⟩
              · exact hthere i hi
              · by_contra hne
                exact hunset (habsent i fun h => hne (hthere i h))
            · intro i hi
              exact habsent i (not_or.mp hi).1

omit [DecidableEq ι] [DecidableEq α] in
/-- An entry has its value after the visits exactly when it has arrived, or its value is
none. -/
theorem settled_eq_iff {final σ : ι → α} {arrived : ι → Prop}
    (h : Settled unset final arrived σ) (i : ι) :
    σ i = final i ↔ arrived i ∨ final i = unset := by
  by_cases hi : arrived i
  · exact ⟨fun _ => Or.inl hi, fun _ => h.there i hi⟩
  · rw [h.absent i hi]
    exact ⟨fun heq => Or.inr heq.symm, fun hor => (hor.resolve_left hi).symm⟩

end Visits

end Inheritance
