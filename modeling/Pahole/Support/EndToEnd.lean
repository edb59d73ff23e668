import Mathlib.Tactic

/-!
# Items end to end

Items of given lengths that follow each other without gaps, and when two measures of
length agree on that.
-/

section EndToEnd

variable {α : Type*} (offset : α → ℤ)

/-- Each item starts where the one before it ends, the first one at `start`. -/
def EndToEnd (length : α → ℤ) : (start : ℤ) → List α → Prop
  | _, [] => True
  | start, a :: l => offset a = start ∧ EndToEnd length (start + length a) l

variable {offset} {length size : α → ℤ} {start : ℤ} {l : List α}

/-- Every item starts after the sum of the lengths of those before it. -/
theorem endToEnd_iff_getElem :
    EndToEnd offset length start l ↔
      ∀ i (_ : i < l.length), offset l[i] = start + ((l.take i).map length).sum := by
  induction l generalizing start with
  | nil => exact iff_of_true trivial fun i h => absurd h (Nat.not_lt_zero i)
  | cons a l ih =>
      constructor
      · rintro ⟨hfirst, hrest⟩ i hi
        cases i with
        | zero => simpa using hfirst
        | succ i =>
            have hnext := ih.mp hrest i (by simpa using hi)
            rw [List.getElem_cons_succ, List.take_succ_cons, List.map_cons, List.sum_cons, hnext,
              add_assoc]
      · intro h
        have hfirst := h 0 (Nat.succ_pos _)
        rw [List.getElem_cons_zero, List.take_zero, List.map_nil, List.sum_nil, add_zero] at hfirst
        refine ⟨hfirst, ih.mpr fun i hi => ?_⟩
        have hnext := h (i + 1) (by simpa using hi)
        rw [List.getElem_cons_succ, List.take_succ_cons, List.map_cons, List.sum_cons] at hnext
        rw [hnext, add_assoc]

/-- Where items are end to end by one length, they are by another one if the two agree on
all items but the last. -/
theorem EndToEnd.iff_forall_dropLast (h : EndToEnd offset length start l) :
    EndToEnd offset size start l ↔ ∀ a ∈ l.dropLast, length a = size a := by
  induction l generalizing start with
  | nil => simp [EndToEnd]
  | cons a l ih =>
      obtain ⟨hfirst, hrest⟩ := h
      cases l with
      | nil => simp [EndToEnd, hfirst]
      | cons b l =>
          have hnext : offset b = start + length a := hrest.1
          rw [List.dropLast_cons_cons]
          constructor
          · rintro ⟨-, hsize⟩
            have hsame : start + size a = start + length a := hsize.1.symm.trans hnext
            rw [hsame] at hsize
            exact List.forall_mem_cons.mpr ⟨by omega, (ih hrest).mp hsize⟩
          · intro hall
            obtain ⟨hsame, hothers⟩ := List.forall_mem_cons.mp hall
            refine ⟨hfirst, ?_⟩
            rw [← hsame]
            exact (ih hrest).mpr hothers

end EndToEnd
