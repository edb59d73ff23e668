import Mathlib.Tactic

/-!
# Binary search

The binary search of the C library, over a list whose elements are compared with a
key.  The result of a comparison is negative when the key is before the element and
positive when it is behind it.
-/

variable {α : Type}

/-- The rounds of a binary search between two indices. -/
def bsearchIn (cmp : α → ℤ) (xs : List α) : (fuel : ℕ) → (lo hi : ℕ) → Option ℕ
  | 0, _, _ => none
  | fuel + 1, lo, hi =>
      if lo < hi then
        let mid := lo + (hi - lo) / 2
        match xs[mid]? with
        | none => none
        | some x =>
            if cmp x < 0 then bsearchIn cmp xs fuel lo mid
            else if 0 < cmp x then bsearchIn cmp xs fuel (mid + 1) hi
            else some mid
      else none

/-- `bsearch`, with the index of what it finds. -/
def bsearch (cmp : α → ℤ) (xs : List α) : Option ℕ := bsearchIn cmp xs xs.length 0 xs.length

/-- The elements with a positive `cmp` come first, and those with a negative one last. -/
def SearchOrdered (cmp : α → ℤ) (xs : List α) : Prop :=
  xs.Pairwise fun x y => (cmp x < 0 → cmp y < 0) ∧ (0 < cmp y → 0 < cmp x)

variable {cmp : α → ℤ} {xs : List α}

theorem bsearchIn_sound {fuel lo hi i : ℕ} (h : bsearchIn cmp xs fuel lo hi = some i) :
    ∃ x, xs[i]? = some x ∧ cmp x = 0 := by
  induction fuel generalizing lo hi with
  | zero => cases h
  | succ fuel ih =>
      rw [bsearchIn] at h
      split at h
      · simp only at h
        split at h
        · cases h
        · next x hx =>
            split at h
            · exact ih h
            · split at h
              · exact ih h
              · next hnot hnot' =>
                  obtain rfl := Option.some.inj h
                  exact ⟨x, hx, le_antisymm (not_lt.mp hnot') (not_lt.mp hnot)⟩
      · cases h

section Ordered

variable {i j : ℕ} {x y : α}

/-- An element that is equal to the key is before those that compare negative. -/
theorem SearchOrdered.lt_of_neg (hord : SearchOrdered cmp xs) (hi : xs[i]? = some x)
    (hj : xs[j]? = some y) (hx : cmp x = 0) (hy : cmp y < 0) : i < j := by
  obtain ⟨hilen, rfl⟩ := List.getElem?_eq_some_iff.mp hi
  obtain ⟨hjlen, rfl⟩ := List.getElem?_eq_some_iff.mp hj
  rcases lt_trichotomy i j with hlt | rfl | hgt
  · exact hlt
  · exact absurd hx hy.ne
  · have hpair := List.pairwise_iff_getElem.mp hord j i hjlen hilen hgt
    exact absurd hx (hpair.1 hy).ne

/-- An element that is equal to the key is after those that compare positive. -/
theorem SearchOrdered.lt_of_pos (hord : SearchOrdered cmp xs) (hi : xs[i]? = some x)
    (hj : xs[j]? = some y) (hx : cmp x = 0) (hy : 0 < cmp y) : j < i := by
  obtain ⟨hilen, rfl⟩ := List.getElem?_eq_some_iff.mp hi
  obtain ⟨hjlen, rfl⟩ := List.getElem?_eq_some_iff.mp hj
  rcases lt_trichotomy i j with hlt | rfl | hgt
  · have hpair := List.pairwise_iff_getElem.mp hord i j hilen hjlen hlt
    exact absurd hx (hpair.2 hy).ne'
  · exact absurd hx hy.ne'
  · exact hgt

end Ordered

/-- The search finds something if an element of its range is equal to the key. -/
theorem bsearchIn_complete (hord : SearchOrdered cmp xs) {fuel lo hi k : ℕ} {x : α}
    (hfuel : hi - lo ≤ fuel) (hhi : hi ≤ xs.length) (hlo : lo ≤ k) (hk : k < hi)
    (hx : xs[k]? = some x) (hcmp : cmp x = 0) : (bsearchIn cmp xs fuel lo hi).isSome := by
  induction fuel generalizing lo hi with
  | zero => omega
  | succ fuel ih =>
      have hlt : lo < hi := lt_of_le_of_lt hlo hk
      have hmid : lo + (hi - lo) / 2 < xs.length := by omega
      have hfound := List.getElem?_eq_getElem hmid
      rw [bsearchIn, if_pos hlt]
      simp only [hfound]
      set mid := lo + (hi - lo) / 2 with hmid_eq
      split
      · next hneg =>
          have hbefore : k < mid := hord.lt_of_neg hx hfound hcmp hneg
          exact ih (by omega) hmid.le hlo hbefore
      · split
        · next hpos =>
            have hbehind : mid < k := hord.lt_of_pos hx hfound hcmp hpos
            exact ih (by omega) hhi hbehind hk
        · rfl

theorem bsearch_sound {i : ℕ} (h : bsearch cmp xs = some i) : ∃ x, xs[i]? = some x ∧ cmp x = 0 :=
  bsearchIn_sound h

theorem bsearch_isSome_iff (hord : SearchOrdered cmp xs) :
    (bsearch cmp xs).isSome ↔ ∃ x ∈ xs, cmp x = 0 := by
  constructor
  · intro h
    obtain ⟨i, hi⟩ := Option.isSome_iff_exists.mp h
    obtain ⟨x, hx, hcmp⟩ := bsearch_sound hi
    exact ⟨x, List.mem_of_getElem? hx, hcmp⟩
  · rintro ⟨x, hmem, hcmp⟩
    obtain ⟨k, hk⟩ := List.mem_iff_getElem?.mp hmem
    have hlt := (List.getElem?_eq_some_iff.mp hk).1
    exact bsearchIn_complete hord (le_refl _) (le_refl _) (Nat.zero_le k) hlt hk hcmp

/-! ## The end of a predicate -/

/-- The rounds of a binary search for the first element that `p` does not hold of. -/
def partitionPointIn (p : α → Bool) (xs : List α) : (fuel : ℕ) → (lo hi : ℕ) → ℕ
  | 0, lo, _ => lo
  | fuel + 1, lo, hi =>
      if lo < hi then
        let mid := lo + (hi - lo) / 2
        match xs[mid]? with
        | none => lo
        | some x =>
            if p x then partitionPointIn p xs fuel (mid + 1) hi
            else partitionPointIn p xs fuel lo mid
      else lo

/-- The index of the first element that `p` does not hold of, or the length. -/
def partitionPoint (p : α → Bool) (xs : List α) : ℕ :=
  partitionPointIn p xs xs.length 0 xs.length

section PartitionPoint

variable {p : α → Bool} {front back : List α} {fuel lo hi : ℕ}

/-- The point between what `p` holds of and what it does not is never left out. -/
theorem partitionPointIn_eq (hfront : ∀ x ∈ front, p x) (hback : ∀ x ∈ back, ¬ p x)
    (hfuel : hi - lo ≤ fuel) (hlo : lo ≤ front.length) (hhi : front.length ≤ hi)
    (hlen : hi ≤ (front ++ back).length) :
    partitionPointIn p (front ++ back) fuel lo hi = front.length := by
  induction fuel generalizing lo hi with
  | zero =>
      change lo = front.length
      omega
  | succ fuel ih =>
      rw [partitionPointIn]
      split
      · next hlt =>
          have hmid : lo + (hi - lo) / 2 < (front ++ back).length := by omega
          have hfound := List.getElem?_eq_getElem hmid
          simp only [hfound]
          set mid := lo + (hi - lo) / 2 with hmid_eq
          by_cases hside : mid < front.length
          · have hp : p (front ++ back)[mid] := by
              rw [List.getElem_append_left hside]
              exact hfront _ (List.getElem_mem _)
            rw [if_pos hp]
            exact ih (by omega) hside hhi hlen
          · have hp : ¬ p (front ++ back)[mid] := by
              rw [List.getElem_append_right (not_lt.mp hside)]
              exact hback _ (List.getElem_mem _)
            rw [if_neg hp]
            exact ih (by omega) hlo (not_lt.mp hside) hmid.le
      · exact Nat.le_antisymm hlo (by omega)

theorem partitionPoint_eq (front : List α) (hfront : ∀ x ∈ front, p x) (hback : ∀ x ∈ back, ¬ p x) :
    partitionPoint p (front ++ back) = front.length :=
  partitionPointIn_eq hfront hback (Nat.sub_le _ _) (Nat.zero_le _) (by simp) le_rfl

end PartitionPoint
