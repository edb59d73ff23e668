import Mathlib.Data.List.Perm.Basic
import Mathlib.Tactic.Common

/-!
# Marks that are pushed

Items are visited one after the other.  A visit marks the item if it has a reason of its
own, and marks the items it pushes its conclusion to, unless the item was settled before:
by a visit of its own or by a push.
-/

namespace Marking

variable {ι : Type*} (pushes : ι → ι → Prop) (own : ι → Prop)

/-- The item is active, or one that an active item pushes to. -/
def Settled (active : List ι) (i : ι) : Prop := i ∈ active ∨ ∃ a ∈ active, pushes a i

/-- The item is active and has a reason of its own, or an active item pushes to it. -/
def Marked (active : List ι) (i : ι) : Prop :=
  (i ∈ active ∧ own i) ∨ ∃ a ∈ active, pushes a i

variable {pushes} in
theorem Settled.mono {active active' : List ι} {i : ι} (h : Settled pushes active i)
    (hsub : ∀ a ∈ active, a ∈ active') : Settled pushes active' i := by
  rcases h with h | ⟨a, ha, hpush⟩
  · exact Or.inl (hsub i h)
  · exact Or.inr ⟨a, hsub a ha, hpush⟩

variable [DecidableEq ι] [∀ i j, Decidable (pushes i j)]

instance (active : List ι) (i : ι) : Decidable (Settled pushes active i) :=
  inferInstanceAs (Decidable (_ ∨ _))

/-- The items whose visits had an effect, after one more visit. -/
def visit (active : List ι) (i : ι) : List ι :=
  if Settled pushes active i then active else i :: active

def visitAll (order : List ι) : List ι := order.foldl (visit pushes) []

section Visits

variable {pushes own} {active order : List ι} {i : ι}

theorem subset_visit (active : List ι) (i : ι) : ∀ a ∈ active, a ∈ visit pushes active i := by
  intro a ha
  unfold visit
  split
  · exact ha
  · exact List.mem_cons_of_mem i ha

theorem settled_visit (active : List ι) (i : ι) :
    Settled pushes (visit pushes active i) i := by
  unfold visit
  split
  · assumption
  · exact Or.inl (List.mem_cons_self ..)

theorem subset_visits (active order : List ι) :
    ∀ a ∈ active, a ∈ order.foldl (visit pushes) active := by
  induction order generalizing active with
  | nil => exact fun a ha => ha
  | cons i order ih => exact fun a ha => ih _ a (subset_visit active i a ha)

theorem settled_visits (active : List ι) (hi : i ∈ order) :
    Settled pushes (order.foldl (visit pushes) active) i := by
  induction order generalizing active with
  | nil => nomatch hi
  | cons j order ih =>
      rcases List.mem_cons.mp hi with rfl | hi
      · exact (settled_visit active i).mono (subset_visits _ order)
      · exact ih _ hi

theorem mem_visits {a : ι} (ha : a ∈ order.foldl (visit pushes) active) :
    a ∈ active ∨ a ∈ order := by
  induction order generalizing active with
  | nil => exact Or.inl ha
  | cons j order ih =>
      rcases ih ha with h | h
      · unfold visit at h
        split at h
        · exact Or.inl h
        · rcases List.mem_cons.mp h with rfl | h
          · exact Or.inr (List.mem_cons_self ..)
          · exact Or.inl h
      · exact Or.inr (List.mem_cons_of_mem j h)

/-- If no item is pushed to by an earlier one, every visited item is active. -/
theorem active_of_pairwise (hpair : order.Pairwise fun a b => ¬pushes a b)
    (hfresh : ∀ i ∈ order, ∀ a ∈ active, ¬pushes a i) :
    ∀ i ∈ order, i ∈ order.foldl (visit pushes) active := by
  induction order generalizing active with
  | nil =>
      intro i hi
      nomatch hi
  | cons j order ih =>
      obtain ⟨hj, hpair⟩ := List.pairwise_cons.mp hpair
      have hnone : ¬∃ a ∈ active, pushes a j := by
        rintro ⟨a, ha, hpush⟩
        exact hfresh j (List.mem_cons_self ..) a ha hpush
      have hmem : ∀ a ∈ visit pushes active j, a = j ∨ a ∈ active := by
        intro a ha
        unfold visit at ha
        split at ha
        · exact Or.inr ha
        · exact List.mem_cons.mp ha
      have hjmem : j ∈ visit pushes active j := by
        have hsettled : Settled pushes (visit pushes active j) j := settled_visit active j
        rcases hsettled with h | ⟨a, ha, hpush⟩
        · exact h
        · rcases hmem a ha with rfl | ha'
          · unfold visit at ha ⊢
            split
            · rename_i hsettled
              rcases hsettled with h | h
              · exact h
              · exact absurd h hnone
            · exact List.mem_cons_self ..
          · exact absurd ⟨a, ha', hpush⟩ hnone
      intro i hi
      rcases List.mem_cons.mp hi with rfl | hi
      · exact subset_visits _ order i hjmem
      · refine ih hpair ?_ i hi
        intro i' hi' a ha
        rcases hmem a ha with rfl | ha
        · exact hj i' hi'
        · exact hfresh i' (List.mem_cons_of_mem j hi') a ha

/-- When everything is settled already, no visit has an effect. -/
theorem visits_of_settled (h : ∀ i ∈ order, Settled pushes active i) :
    order.foldl (visit pushes) active = active := by
  induction order with
  | nil => rfl
  | cons j order ih =>
      have hj : visit pushes active j = active := if_pos (h j (List.mem_cons_self ..))
      rw [List.foldl_cons, hj]
      exact ih fun i hi => h i (List.mem_cons_of_mem j hi)

end Visits

/-! ## The order of the visits -/

section Order

variable {pushes own} {xs : List ι} {depth : ι → ℕ}

/-- An item that is pushed to, and has no reason of its own, is pushed to by one whose pushers
all push to the item. -/
def Unpreventable (pushes : ι → ι → Prop) (own : ι → Prop) (xs : List ι) : Prop :=
  ∀ c ∈ xs, ∀ e ∈ xs, pushes e c → own c ∨
    ∃ e' ∈ xs, pushes e' c ∧ ∀ f ∈ xs, pushes f e' → pushes f c

theorem marked_iff (h : Unpreventable pushes own xs) {order : List ι} (horder : order.Perm xs)
    {c : ι} (hc : c ∈ xs) :
    Marked pushes own (visitAll pushes order) c ↔ own c ∨ ∃ e ∈ xs, pushes e c := by
  have hmem : ∀ a ∈ visitAll pushes order, a ∈ xs := by
    intro a ha
    rcases mem_visits ha with ha | ha
    · nomatch ha
    · exact horder.mem_iff.mp ha
  have hsettled : ∀ i ∈ xs, Settled pushes (visitAll pushes order) i := fun i hi =>
    settled_visits [] (horder.mem_iff.mpr hi)
  constructor
  · rintro (⟨-, hown⟩ | ⟨a, ha, hpush⟩)
    · exact Or.inl hown
    · exact Or.inr ⟨a, hmem a ha, hpush⟩
  · have hown : own c → Marked pushes own (visitAll pushes order) c := by
      intro hown
      rcases hsettled c hc with hact | hpushed
      · exact Or.inl ⟨hact, hown⟩
      · exact Or.inr hpushed
    rintro (hreason | ⟨e, he, hpush⟩)
    · exact hown hreason
    · rcases h c hc e he hpush with hreason | ⟨e', he', hpush', hclosed⟩
      · exact hown hreason
      · rcases hsettled e' he' with hact | ⟨f, hf, hfpush⟩
        · exact Or.inr ⟨e', hact, hpush'⟩
        · exact Or.inr ⟨f, hf, hclosed f (hmem f hf) hfpush⟩

/-- Marks do not depend on the order of the visits exactly when no push can be
prevented. -/
theorem order_irrelevant_iff (hdepth : ∀ a b, pushes a b → depth b < depth a) :
    (∀ order order', order.Perm xs → order'.Perm xs → ∀ i ∈ xs,
      (Marked pushes own (visitAll pushes order) i ↔
        Marked pushes own (visitAll pushes order') i)) ↔ Unpreventable pushes own xs := by
  constructor
  · intro hsame c hc e he hpush
    by_contra hnot
    obtain ⟨hown, hprevent⟩ := not_or.mp hnot
    let inner := xs.mergeSort fun a b => depth a ≤ depth b
    have hperm : inner.Perm xs := List.mergeSort_perm xs _
    have hpair : inner.Pairwise fun a b => ¬pushes a b := by
      have hsorted : inner.Pairwise fun a b => decide (depth a ≤ depth b) = true :=
        List.pairwise_mergeSort (by simp; omega) (by simp; omega) xs
      refine hsorted.imp fun {a b} hle hab => ?_
      have hlt := hdepth a b hab
      have hle' := of_decide_eq_true hle
      omega
    have hmarked : Marked pushes own (visitAll pushes inner) c := by
      refine Or.inr ⟨e, ?_, hpush⟩
      exact active_of_pairwise hpair (fun _ _ _ ha => absurd ha List.not_mem_nil) e (hperm.mem_iff.mpr he)
    let late := inner.filter fun a => ¬pushes a c
    let last := inner.filter fun a => pushes a c
    have hperm' : (late ++ last).Perm xs := by
      refine (List.perm_append_comm.trans ?_).trans hperm
      have hfilter := List.filter_append_perm (fun a => decide (pushes a c)) inner
      simpa [late, last] using hfilter
    have hlate : ∀ a ∈ late, a ∈ late.foldl (visit pushes) [] :=
      active_of_pairwise (hpair.sublist List.filter_sublist) (fun _ _ _ ha => absurd ha List.not_mem_nil)
    have hvisits : visitAll pushes (late ++ last) = late.foldl (visit pushes) [] := by
      unfold visitAll
      rw [List.foldl_append]
      refine visits_of_settled fun i hi => ?_
      obtain ⟨hin, hic⟩ := List.mem_filter.mp hi
      have hprev : ∃ f ∈ xs, pushes f i ∧ ¬pushes f c := by
        by_contra hall
        refine hprevent ⟨i, hperm.mem_iff.mp hin, of_decide_eq_true hic, fun f hf hfi => ?_⟩
        by_contra hfc
        exact hall ⟨f, hf, hfi, hfc⟩
      obtain ⟨f, hf, hfi, hfc⟩ := hprev
      refine Or.inr ⟨f, hlate f ?_, hfi⟩
      exact List.mem_filter.mpr ⟨hperm.mem_iff.mpr hf, by simpa using hfc⟩
    have hunmarked : ¬Marked pushes own (visitAll pushes (late ++ last)) c := by
      rw [hvisits]
      rintro (⟨-, hreason⟩ | ⟨a, ha, hac⟩)
      · exact hown hreason
      · rcases mem_visits ha with ha | ha
        · nomatch ha
        · have hac' := (List.mem_filter.mp ha).2
          simp [hac] at hac'
    exact hunmarked ((hsame inner (late ++ last) hperm hperm' c hc).mp hmarked)
  · intro h order order' horder horder' i hi
    rw [marked_iff h horder hi, marked_iff h horder' hi]

end Order

end Marking
