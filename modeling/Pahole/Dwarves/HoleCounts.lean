import Pahole.Dwarves.Holes

/-!
# Counts of holes

`class__find_holes` counts the places with byte holes and with bit holes in 8 bits, and the
users of the holes of a struct look at the counts first.
-/

namespace Pahole

namespace PackType

variable (ty : PackType)

/-- The members are in ascending order, disjoint, and inside a struct of less than 2^29 bytes.
-/
structure InOrder : Prop where
  size : ty.size < 536870912
  starts : ∀ m ∈ ty.seen, m.byteOffset ≤ ty.size
  ascending : ty.seen.Pairwise fun a b => a.endBit ≤ b.bitOffset
  inside : ∀ m ∈ ty.seen, m.endBit ≤ 8 * ty.size

/-- The places with a byte hole: before the first member, or between two of them. -/
def byteHolePlaces : ℕ := ty.holeGaps.countP fun g => g.1 ≠ 0

def bitHolePlaces : ℕ := ty.holeGaps.countP fun g => g.2 ≠ 0

/-- `nr_holes` and `nr_bit_holes` are the numbers of places with such holes, and all holes are
zero if `nr_holes` is. -/
structure CountsExact : Prop where
  nrHoles : ty.classHoles.nrHoles = ty.byteHolePlaces
  nrBitHoles : ty.classHoles.nrBitHoles = ty.bitHolePlaces
  guard : ty.classHoles.nrHoles = 0 → ∀ hole ∈ ty.classHoles.holes, hole = 0

end PackType

section Counts

variable {s : HoleSearch} {m : PackMember} {ms : List PackMember}

/-- The bytes between a bit and a member that does not start before it are not negative. -/
theorem byteHoles_nonneg {bit : ℕ} (hbit : bit ≤ m.bitOffset) (hoffset : m.bitOffset < 4294967296)
    (hbyte : m.byteOffset ≤ 536870912) : 0 ≤ HoleSearch.byteHoles bit m := by
  unfold HoleSearch.byteHoles
  split
  · split
    · rename_i hstart
      have hlt : m.byteOffset * 8 < 4294967296 := by
        by_contra hge
        have hwrap : m.byteOffset = 536870912 := by omega
        rw [hwrap] at hstart
        exact absurd hstart.1 (by simp [u32])
      have hexact : u32 ((m.byteOffset : ℤ) * 8) = m.byteOffset * 8 := by
        exact_mod_cast u32_of_lt hlt
      rw [hexact] at hstart
      rw [i32_of_nat (by omega) (by omega)]
      omega
    · exact le_rfl
  · rw [i32_of_nat (by omega) (by omega)]
    omega

theorem trailing_le (hlast : s.lastSeenBit ≤ m.bitOffset) :
    (s.trailing m.bitOffset).2 ≤ m.bitOffset := by
  unfold HoleSearch.trailing
  split
  · exact min_le_left _ _
  · exact hlast

/-- The search counts a place each time that it finds a hole. -/
theorem nrHoles_foldl (hs : s.nrHoles < 256) :
    (ms.foldl HoleSearch.step s).nrHoles =
      (s.nrHoles + (s.gaps ms).countP fun g => 0 < g.1) % 256 := by
  induction ms generalizing s with
  | nil => exact (Nat.mod_eq_of_lt hs).symm
  | cons m ms ih =>
      rw [List.foldl_cons]
      cases hseen : m.isUnseen with
      | true =>
          rw [step_unseen hseen, ih hs]
          simp [HoleSearch.gaps, hseen]
      | false =>
          have hcount : (s.step m).nrHoles =
              if 0 < HoleSearch.byteHoles (s.trailing m.bitOffset).2 m then
                (s.nrHoles + 1) % 256 else s.nrHoles := by
            unfold PackMember.isUnseen at hseen
            simp [HoleSearch.step, hseen]
          have hlt : (s.step m).nrHoles < 256 := by
            rw [hcount]
            split
            · exact Nat.mod_lt _ (by decide)
            · exact hs
          rw [ih hlt, hcount]
          simp only [HoleSearch.gaps, hseen, Bool.false_eq_true, if_false, List.countP_cons,
            decide_eq_true_eq]
          split
          · omega
          · omega

/-- Where members are in order, no hole is negative. -/
theorem gaps_nonneg {size : ℕ} (hsize : size < 536870912)
    (hfrom : ∀ m ∈ ms.filter fun m => !m.isUnseen, s.lastSeenBit ≤ m.bitOffset)
    (hstarts : ∀ m ∈ ms.filter fun m => !m.isUnseen, m.byteOffset ≤ size)
    (hinside : ∀ m ∈ ms.filter fun m => !m.isUnseen, m.endBit ≤ 8 * size)
    (hasc : (ms.filter fun m => !m.isUnseen).Pairwise fun a b => a.endBit ≤ b.bitOffset) :
    ∀ g ∈ s.gaps ms, 0 ≤ g.1 := by
  induction ms generalizing s with
  | nil => simp [HoleSearch.gaps]
  | cons m ms ih =>
      cases hseen : m.isUnseen with
      | true =>
          simp only [List.filter_cons, hseen, Bool.not_true, Bool.false_eq_true, if_false,
            HoleSearch.gaps, if_true] at hfrom hstarts hinside hasc ⊢
          exact ih hfrom hstarts hinside hasc
      | false =>
          simp only [List.filter_cons, hseen, Bool.not_false, if_true, HoleSearch.gaps,
            Bool.false_eq_true, if_false] at hfrom hstarts hinside hasc ⊢
          obtain ⟨hhead, htail⟩ := List.pairwise_cons.mp hasc
          have hm := hinside m List.mem_cons_self
          have hbyte := hstarts m List.mem_cons_self
          have hend : m.bitOffset ≤ m.endBit := Nat.le_add_right _ _
          have hlast : (s.step m).lastSeenBit = m.endBit := by
            have hstep : (s.step m).lastSeenBit = HoleSearch.bitEnd m := by
              unfold PackMember.isUnseen at hseen
              simp [HoleSearch.step, hseen]
            rw [hstep]
            unfold HoleSearch.bitEnd PackMember.endBit PackMember.bits at *
            split at hm
            · rename_i hbit
              rw [if_pos hbit, if_pos hbit]
              exact_mod_cast u32_of_lt (by omega)
            · rename_i hbit
              rw [if_neg hbit, if_neg hbit]
              exact_mod_cast u32_of_lt (by omega)
          intro g hg
          rcases List.mem_cons.mp hg with rfl | hg
          · exact byteHoles_nonneg (trailing_le (hfrom m List.mem_cons_self)) (by omega) (by omega)
          · have hrest : ∀ m' ∈ ms.filter fun m => !m.isUnseen,
                (s.step m).lastSeenBit ≤ m'.bitOffset := by
              intro m' hm'
              rw [hlast]
              exact hhead m' hm'
            exact ih hrest (fun m' hm' => hstarts m' (List.mem_cons_of_mem m hm'))
              (fun m' hm' => hinside m' (List.mem_cons_of_mem m hm')) htail g hg

end Counts

namespace PackType

variable {ty : PackType}

theorem gaps_nonneg_of_inOrder (h : ty.InOrder) : ∀ g ∈ ty.holeGaps, 0 ≤ g.1 :=
  gaps_nonneg h.size (fun _ _ => Nat.zero_le _) h.starts h.inside h.ascending

theorem foldl_countP {α : Type} (p : α → Prop) [DecidablePred p] (n : ℕ) (l : List α) :
    l.foldl (fun n x => if p x then (n + 1) % 256 else n) (n % 256) =
      (n + l.countP fun x => p x) % 256 := by
  induction l generalizing n with
  | nil => rfl
  | cons x l ih =>
      rw [List.foldl_cons, List.countP_cons]
      by_cases hx : p x
      · rw [if_pos hx, Nat.mod_add_mod, ih, if_pos (decide_eq_true hx)]
        congr 1
        omega
      · rw [if_neg hx, ih, if_neg (by simpa using hx), Nat.add_zero]

theorem nrBitHoles_eq (ty : PackType) : ty.classHoles.nrBitHoles = ty.bitHolePlaces % 256 := by
  rw [show ty.classHoles.nrBitHoles = ty.holeGaps.foldl
    (fun n g => if g.2 ≠ 0 then (n + 1) % 256 else n) (0 % 256) from rfl, foldl_countP, Nat.zero_add]
  rfl

/-- The fields for the numbers of holes hold these numbers modulo 256. -/
theorem counts_mod (h : ty.InOrder) :
    ty.classHoles.nrHoles = ty.byteHolePlaces % 256 ∧
      ty.classHoles.nrBitHoles = ty.bitHolePlaces % 256 := by
  refine ⟨?_, nrBitHoles_eq ty⟩
  have hcount : (ty.holeGaps.countP fun g => 0 < g.1) = ty.byteHolePlaces := by
    apply List.countP_congr
    intro g hg
    have hnonneg := gaps_nonneg_of_inOrder h g hg
    simp only [decide_eq_true_eq]
    omega
  rw [← hcount]
  have hfold := @nrHoles_foldl ⟨u32 (ty.size * 8), 0, 0, false, 0⟩ ty.members
    (Nat.zero_lt_succ 255)
  rw [Nat.zero_add] at hfold
  exact hfold

/-- If no place has a byte hole, `hole` is zero for every member. -/
theorem holes_eq_zero (hplaces : ty.byteHolePlaces = 0) :
    ∀ hole ∈ ty.classHoles.holes, hole = 0 := by
  intro hole hmem
  obtain ⟨g, hg, rfl⟩ := List.mem_map.mp hmem
  have hnone := List.countP_eq_zero.mp hplaces g (List.mem_of_mem_tail hg)
  simpa using hnone

/-- The counts of a struct with members in order are exact if and only if fewer than 256 places
have byte holes and fewer than 256 have bit holes. -/
theorem countsExact_iff (h : ty.InOrder) :
    ty.CountsExact ↔ ty.byteHolePlaces < 256 ∧ ty.bitHolePlaces < 256 := by
  obtain ⟨hbytes, hbits⟩ := counts_mod h
  constructor
  · intro hexact
    have hb := hexact.nrHoles
    have hbit := hexact.nrBitHoles
    constructor
    · rw [← hb, hbytes]
      exact Nat.mod_lt _ (by decide)
    · rw [← hbit, hbits]
      exact Nat.mod_lt _ (by decide)
  · rintro ⟨hfew, hfewBits⟩
    have hexact : ty.classHoles.nrHoles = ty.byteHolePlaces := by
      rw [hbytes, Nat.mod_eq_of_lt hfew]
    exact
      { nrHoles := hexact
        nrBitHoles := by rw [hbits, Nat.mod_eq_of_lt hfewBits]
        guard := fun hzero => holes_eq_zero (hexact.symm.trans hzero) }

/-- A struct of the number of chars, each but the last with a byte hole behind it. -/
def sparseStruct (n : ℕ) : PackType where
  members := (List.range n).map fun i => ⟨1, false, false, false, 16 * i, 2 * i, 1, 8, 0⟩
  size := 2 * n
  alignment := 0

theorem inOrder_sparseStruct : (sparseStruct 3).InOrder := by
  refine ⟨by decide, by decide, by decide, by decide⟩

theorem countsExact_iff_sparseStruct : (sparseStruct 3).CountsExact ↔
    (sparseStruct 3).byteHolePlaces < 256 ∧ (sparseStruct 3).bitHolePlaces < 256 :=
  countsExact_iff inOrder_sparseStruct

/-- The 8-bit counter of 256 holes is 0. -/
theorem not_countsExact_sparseStruct :
    (sparseStruct 257).InOrder ∧ ¬(sparseStruct 257).CountsExact := by
  refine ⟨⟨by decide +kernel, by decide +kernel, by decide +kernel, by decide +kernel⟩, ?_⟩
  intro h
  exact absurd h.nrHoles (by decide +kernel)

theorem wellPlaced_inOrder (h : ty.WellPlaced) : ty.InOrder where
  size := h.size
  starts := by
    intro m hm
    have hinside := h.inside m hm
    have hend : m.bitOffset ≤ m.endBit := Nat.le_add_right _ _
    by_cases hbit : m.bitfieldSize = 0
    · have hfield := h.field m hm hbit
      omega
    · obtain ⟨-, hunit, -⟩ := h.bitfield m hm hbit
      omega
  ascending := h.ascending
  inside := h.inside

end PackType

section Free

variable {s : HoleSearch} {c : Cursor} {m : PackMember} {ms : List PackMember}

theorem i32_eq_zero_iff {x : ℤ} : i32 x = 0 ↔ i32 x % 4294967296 = 0 := by
  unfold i32 u32
  split
  · omega
  · omega

theorem bitHoles_eq_zero_iff : s.bitHoles m = 0 ↔ s.bitHoles m % 4294967296 = 0 := by
  by_cases hbit : m.bitfieldSize ≠ 0
  · simp only [HoleSearch.bitHoles, if_pos hbit]
    exact i32_eq_zero_iff
  · simp only [HoleSearch.bitHoles, if_neg hbit, HoleSearch.trailing]
    split
    · exact i32_eq_zero_iff
    · simp

theorem gaps_eq_zero_iff : ∀ g ∈ s.gaps ms, g.2 = 0 ↔ g.2 % 4294967296 = 0 := by
  induction ms generalizing s with
  | nil => simp [HoleSearch.gaps]
  | cons m ms ih =>
      unfold HoleSearch.gaps
      split
      · exact ih
      · intro g hg
        rcases List.mem_cons.mp hg with rfl | hg
        · exact bitHoles_eq_zero_iff
        · exact ih g hg

/-- There are fewer free bits than 2^32 before any member. -/
theorem frees_lt (hc : c.Sound) (h : c.Ascends ms) : ∀ f ∈ c.frees ms, f.2 < 4294967296 := by
  induction ms generalizing c with
  | nil => simp [Cursor.frees]
  | cons m ms ih =>
      obtain ⟨hm, hle⟩ := h.1 m List.mem_cons_self
      intro f hf
      rcases List.mem_cons.mp hf with rfl | hf
      · have hfree := free_spec hc hm hle
        have hend : m.bitOffset ≤ m.endBit := Nat.le_add_right _ _
        have hlt := hm.endBit
        omega
      · exact ih (sound_after hc hm) (ascends_tail h) f hf

/-- Two lists that agree in bytes, and in bits modulo 2^32, count as many holes. -/
theorem countP_gaps {gaps : List (ℤ × ℤ)} {frees : List (ℕ × ℕ)}
    (h : List.Forall₂ (fun (g : ℤ × ℤ) (f : ℕ × ℕ) =>
      g.1 = f.1 ∧ g.2 % 4294967296 = (f.2 : ℤ) % 4294967296) gaps frees)
    (hgaps : ∀ g ∈ gaps, g.2 = 0 ↔ g.2 % 4294967296 = 0)
    (hfrees : ∀ f ∈ frees, f.2 < 4294967296) :
    (gaps.countP fun g => g.1 ≠ 0) = (frees.countP fun f => f.1 ≠ 0) ∧
      (gaps.countP fun g => g.2 ≠ 0) = frees.countP fun f => f.2 ≠ 0 := by
  induction h with
  | nil => exact ⟨rfl, rfl⟩
  | @cons g f gaps frees hgf _ ih =>
      obtain ⟨hbytes, hbits⟩ := ih (fun g hg => hgaps g (List.mem_cons_of_mem _ hg))
        fun f hf => hfrees f (List.mem_cons_of_mem _ hf)
      obtain ⟨hbyte, hbit⟩ := hgf
      have hg := hgaps g List.mem_cons_self
      have hf := hfrees f List.mem_cons_self
      have hzero : g.2 = 0 ↔ f.2 = 0 := by omega
      have hzeroByte : g.1 = 0 ↔ f.1 = 0 := by omega
      simp only [List.countP_cons, hbytes, hbits, ne_eq, hzero, hzeroByte, and_self]

end Free

namespace PackType

variable {ty : PackType}

/-- The places with holes are those before which bytes or bits are free. -/
theorem places_eq_free (h : ty.WellPlaced) (hstorage : ty.StorageFits) :
    ty.byteHolePlaces = (ty.frees.countP fun f => f.1 ≠ 0) ∧
      ty.bitHolePlaces = ty.frees.countP fun f => f.2 ≠ 0 :=
  countP_gaps (gaps_spec (at_start ty) sound_start (ascends_seen h hstorage)) gaps_eq_zero_iff
    (frees_lt sound_start (ascends_seen h hstorage))

end PackType

end Pahole
