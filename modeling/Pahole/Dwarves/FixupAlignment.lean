import Pahole.Dwarves.BiggestMember
import Pahole.Dwarves.Holes

/-!
# Alignment fix-up

`class__fixup_alignment` goes through the data members of a struct and moves each of them,
together with all that are behind it, to the left or to the right.  Holes, their number,
the size and the padding are patched on the way.
-/

namespace Pahole

/-! ## The code -/

/-- `struct class_member`, with the hole behind it. -/
structure FixMember extends ClassMember where
  hole : ℤ
  deriving DecidableEq

/-- The fields of `struct class` that the fix-up changes. -/
structure FixHead where
  size : ℕ
  padding : ℕ
  nrHoles : ℕ
  deriving DecidableEq

/-- `struct class`, all of whose tags are data members. -/
structure FixClass extends FixHead where
  members : List FixMember
  deriving DecidableEq

/-- The ways in which the fix-up ends without a result. -/
inductive FixError where
  /-- `last_member->hole`, with `last_member` being `NULL` -/
  | nullLast
  /-- `m->byte_size`, with `m` being `NULL` -/
  | nullBiggest
  /-- in `type__find_first_biggest_size_base_type_member` -/
  | biggest (err : BiggestError)
  deriving DecidableEq

/-- Where the loop is: the class, the member before, the one it is at and those behind. -/
structure FixPoint where
  head : FixHead
  last : Option FixMember
  pos : FixMember
  rest : List FixMember

/-- The member some bytes further on. -/
def FixMember.shift (bytes : ℤ) (m : FixMember) : FixMember :=
  { m with
    byteOffset := u32 (m.byteOffset + bytes)
    bitOffset := u32 (m.bitOffset + bytes * 8) }

@[simp] theorem FixMember.shift_hole (bytes : ℤ) (m : FixMember) :
    (m.shift bytes).hole = m.hole := rfl

@[simp] theorem FixMember.shift_byteSize (bytes : ℤ) (m : FixMember) :
    (m.shift bytes).byteSize = m.byteSize := rfl

@[simp] theorem FixMember.shift_byteOffset (bytes : ℤ) (m : FixMember) :
    (m.shift bytes).byteOffset = u32 (m.byteOffset + bytes) := rfl

/-- `class__subtract_offsets_from`, whose `size` has 16 bits. -/
def subtractOffsetsFrom (head : FixHead) (pos : FixMember) (rest : List FixMember) (size : ℕ) :
    FixHead × List FixMember :=
  let moved := rest.map (FixMember.shift (-(size % 65536 : ℕ)))
  if head.padding ≠ 0 then
    let last := moved.getLastD pos
    let newPadding := (head.size : ℤ) - (last.byteOffset + last.byteSize : ℕ)
    ({ head with padding := if 0 < newPadding then (newPadding % 65536).toNat else 0 }, moved)
  else (head, moved)

/-- `class__add_offsets_from`, whose `size` has 16 bits. -/
def addOffsetsFrom (rest : List FixMember) (size : ℕ) : List FixMember :=
  rest.map (FixMember.shift (size % 65536 : ℕ))

/-- `--class->nr_holes` if the hole is gone, in 8 bits. -/
def FixHead.closeHole (head : FixHead) (hole : ℤ) : FixHead :=
  if hole = 0 then { head with nrHoles := (head.nrHoles + 255) % 256 } else head

/-- A member that is not aligned to its size, behind another one. -/
def realign (head : FixHead) (last pos : FixMember) (rest : List FixMember) (power2 : ℕ) :
    FixPoint :=
  let remainder := pos.byteOffset % power2
  if (remainder : ℤ) ≤ last.hole then
    let hole := last.hole - remainder
    let pos := pos.shift (-remainder)
    let moved := subtractOffsetsFrom (head.closeHole hole) pos rest remainder
    { head := moved.1, last := some { last with hole := hole }, pos := pos, rest := moved.2 }
  else
    let inc := power2 - remainder
    { head :=
        { head with
          nrHoles := if last.hole = 0 then (head.nrHoles + 1) % 256 else head.nrHoles
          size := u32 (head.size + inc) }
      last := some { last with hole := last.hole + inc }
      pos := pos.shift inc
      rest := addOffsetsFrom rest inc }

/-- The loop over the powers of two, from the size of an address down to two. -/
def alignLoop : (fuel power2 : ℕ) → FixPoint → Except FixError FixPoint
  | 0, _, p => .ok p
  | fuel + 1, power2, p =>
      if power2 < 2 then .ok p
      else if p.pos.byteSize = power2 then
        if p.pos.byteOffset % power2 = 0 then .ok p
        else
          match p.last with
          | none => .error .nullLast
          | some last =>
              alignLoop fuel (power2 / 2) (realign p.head last p.pos p.rest power2)
      else alignLoop fuel (power2 / 2) p

/-- The first member, if it is not at the start. -/
def moveFirst (head : FixHead) (pos : FixMember) (rest : List FixMember) : FixPoint :=
  let size := (((pos.byteOffset : ℤ) - pos.byteSize) % 65536).toNat
  let moved := subtractOffsetsFrom head pos rest size
  { head := moved.1
    last := none
    pos := { pos with byteOffset := 0, bitOffset := 0 }
    rest := moved.2 }

/-- A hole as large as an address, or larger. -/
def shrinkHole (addrSize : ℕ) (head : FixHead) (last pos : FixMember) (rest : List FixMember) :
    FixPoint :=
  let dec := (last.hole / addrSize * addrSize).toNat
  let hole := last.hole - dec
  let pos := pos.shift (-dec)
  let moved := subtractOffsetsFrom
    { head.closeHole hole with size := u32 ((head.size : ℤ) - dec) } pos rest dec
  { head := moved.1, last := some { last with hole := hole }, pos := pos, rest := moved.2 }

/-- The body of the loop over the data members. -/
def fixStep (addrSize : ℕ) (p : FixPoint) : Except FixError FixPoint :=
  match p.last with
  | none =>
      if p.pos.byteOffset ≠ 0 then .ok (moveFirst p.head p.pos p.rest)
      else alignLoop addrSize addrSize p
  | some last =>
      if (addrSize : ℤ) ≤ last.hole then .ok (shrinkHole addrSize p.head last p.pos p.rest)
      else alignLoop addrSize addrSize p

/-- The loop over the data members, from one that is behind `last` on: the class and the
members from `last` on.  The fuel is the number of members. -/
def fixLoop (addrSize : ℕ) :
    (fuel : ℕ) → FixHead → Option FixMember → List FixMember →
      Except FixError (FixHead × List FixMember)
  | _, head, last, [] => .ok (head, last.toList)
  | 0, head, last, rest => .ok (head, last.toList ++ rest)
  | fuel + 1, head, last, pos :: rest =>
      (fixStep addrSize ⟨head, last, pos, rest⟩).bind fun p =>
        (fixLoop addrSize fuel p.head (some p.pos) p.rest).map fun r =>
          (r.1, p.last.toList ++ r.2)

/-- The class as a type, with members. -/
def fixType (size : ℕ) (members : List FixMember) : Aggregate where
  kind := .structType
  name := none
  type := 0
  size := size
  declaration := false
  members := members.map FixMember.toClassMember
  annots := []

/-- The rest of `class__fixup_alignment`, with the biggest member of a base type. -/
def fixPadding (head : FixHead) (last : FixMember) (m : ClassMember) : FixHead :=
  let unpaddedSize := last.byteOffset + last.byteSize
  let remainder := unpaddedSize % m.byteSize
  if m.byteSize = 0 then head
  else if remainder ≠ 0 then
    let padding := (m.byteSize - remainder) % 65536
    { head with padding := padding, size := u32 (unpaddedSize + padding : ℕ) }
  else head

/-- The end of the fix-up, with the result of the search for that member. -/
def fixEnd (head : FixHead) (members : List FixMember) (last : FixMember) :
    Except BiggestError (Option ClassMember) → Except FixError FixClass
  | .error err => .error (.biggest err)
  | .ok none => .error .nullBiggest
  | .ok (some m) => .ok { fixPadding head last m with members := members }

/-- `class__fixup_alignment` -/
def fixupAlignment (addrSize : ℕ) (tbl : TypesTable) (depth : ℕ) (c : FixClass) :
    Except FixError FixClass :=
  match fixLoop addrSize c.members.length c.toFixHead none c.members with
  | .error err => .error err
  | .ok (head, members) =>
      match members.getLast? with
      | none => .ok { head with members := members }
      | some last =>
          fixEnd head members last
            (typeFindFirstBiggest addrSize tbl depth (fixType head.size members))

/-! ## The effect of a step -/

/-- A size that the fix-up aligns members to: a power of two from two to that of an address. -/
def IsWord (addrSize size : ℕ) : Prop :=
  2 ≤ size ∧ size ≤ addrSize ∧ size.isPowerOfTwo

instance (addrSize size : ℕ) : Decidable (IsWord addrSize size) :=
  inferInstanceAs (Decidable (_ ∧ _ ∧ _))

/-- The bytes taken off a hole that is as large as an address: all its whole words. -/
def wholeWords (addrSize : ℕ) (hole : ℤ) : ℕ :=
  (hole / addrSize * addrSize).toNat

/-- How a member at some offset, of some size and behind some hole is moved: the bytes that
it goes, those that the members behind it go, those that the struct grows by, and whether the
padding is looked at. -/
inductive FixMove (addrSize : ℕ) (hole : ℤ) (offset size : ℕ) : ℤ → ℤ → ℤ → Bool → Prop where
  | shrink (hlarge : (addrSize : ℤ) ≤ hole) :
      FixMove addrSize hole offset size (-wholeWords addrSize hole)
        (-(wholeWords addrSize hole % 65536 : ℕ)) (-wholeWords addrSize hole) true
  | pull (hsmall : hole < addrSize) (hword : IsWord addrSize size) (hodd : offset % size ≠ 0)
      (hroom : ((offset % size : ℕ) : ℤ) ≤ hole) :
      FixMove addrSize hole offset size (-(offset % size : ℕ)) (-(offset % size : ℕ)) 0 true
  | push (hsmall : hole < addrSize) (hword : IsWord addrSize size) (hodd : offset % size ≠ 0)
      (hroom : hole < (offset % size : ℕ)) :
      FixMove addrSize hole offset size (size - offset % size : ℕ) (size - offset % size : ℕ)
        (size - offset % size : ℕ) false
  | stay (hsmall : hole < addrSize) (heven : IsWord addrSize size → offset % size = 0) :
      FixMove addrSize hole offset size 0 0 0 false

/-- The number of holes when one of them has changed. -/
def recount (nrHoles : ℕ) (old new : ℤ) : ℕ :=
  if old ≠ 0 ∧ new = 0 then (nrHoles + 255) % 256
  else if old = 0 ∧ new ≠ 0 then (nrHoles + 1) % 256
  else nrHoles

/-- The padding behind the last member, in 16 bits. -/
def paddingBehind (size : ℕ) (last : FixMember) : ℕ :=
  let newPadding := (size : ℤ) - (last.byteOffset + last.byteSize : ℕ)
  if 0 < newPadding then (newPadding % 65536).toNat else 0

/-- The effect of one step: `m`'s hole changes by `x`, `pos` moves by `x` and the members behind
it by `y`, and the struct grows by `d`; the padding is recomputed if `looks`. -/
structure FixStep (head : FixHead) (m pos : FixMember) (rest : List FixMember)
    (x y d : ℤ) (looks : Bool) (p : FixPoint) : Prop where
  last : p.last = some { m with hole := m.hole + x }
  pos : p.pos = pos.shift x
  rest : p.rest = rest.map (FixMember.shift y)
  size : p.head.size = u32 (head.size + d)
  nrHoles : p.head.nrHoles = recount head.nrHoles m.hole (m.hole + x)
  padding : p.head.padding =
    if looks ∧ head.padding ≠ 0 then paddingBehind p.head.size (p.rest.getLastD p.pos)
    else head.padding

theorem u32_lt_two_pow (x : ℤ) : u32 x < 4294967296 := by
  rw [u32]
  omega

/-- The offsets fit in 32 bits. -/
def FixMember.Fits (m : FixMember) : Prop :=
  m.byteOffset < 4294967296 ∧ m.bitOffset < 4294967296

theorem FixMember.shift_fits (x : ℤ) (m : FixMember) : (m.shift x).Fits :=
  ⟨u32_lt_two_pow _, u32_lt_two_pow _⟩

theorem FixMember.Fits.shift_zero {m : FixMember} (h : m.Fits) : m.shift 0 = m := by
  rw [FixMember.shift, add_zero, zero_mul, add_zero, u32_of_lt h.1, u32_of_lt h.2]

section Step

variable {addrSize : ℕ} {head : FixHead} {last pos : FixMember} {rest : List FixMember}

theorem subtractOffsetsFrom_eq (size : ℕ) (moved : List FixMember)
    (hmoved : rest.map (FixMember.shift (-(size % 65536 : ℕ))) = moved) :
    subtractOffsetsFrom head pos rest size =
      ({ head with padding :=
          if head.padding ≠ 0 then paddingBehind head.size (moved.getLastD pos)
          else head.padding }, moved) := by
  subst hmoved
  rw [subtractOffsetsFrom]
  split <;> rfl

theorem closeHole_eq (hole : ℤ) : head.closeHole hole =
    { head with nrHoles := if hole = 0 then (head.nrHoles + 255) % 256 else head.nrHoles } := by
  rw [FixHead.closeHole]
  split <;> rfl

theorem recount_close {nrHoles : ℕ} {old new : ℤ} (hold : old ≠ 0) :
    recount nrHoles old new = if new = 0 then (nrHoles + 255) % 256 else nrHoles := by
  simp [recount, hold]

theorem recount_open {nrHoles : ℕ} {old new : ℤ} (hnew : new ≠ 0) :
    recount nrHoles old new = if old = 0 then (nrHoles + 1) % 256 else nrHoles := by
  simp [recount, hnew]

theorem shrinkHole_step (hold : last.hole ≠ 0) :
    FixStep head last pos rest (-wholeWords addrSize last.hole)
      (-(wholeWords addrSize last.hole % 65536 : ℕ)) (-wholeWords addrSize last.hole) true
      (shrinkHole addrSize head last pos rest) := by
  rw [shrinkHole]
  dsimp only
  rw [subtractOffsetsFrom_eq _ _ rfl, closeHole_eq]
  exact
    { last := rfl
      pos := rfl
      rest := rfl
      size := rfl
      nrHoles := (recount_close hold).symm
      padding := by simp }

theorem realign_pull (hsize : head.size < 4294967296) (hodd : pos.byteOffset % pos.byteSize ≠ 0)
    (hroom : ((pos.byteOffset % pos.byteSize : ℕ) : ℤ) ≤ last.hole)
    (hsmall : pos.byteOffset % pos.byteSize < 65536) :
    FixStep head last pos rest (-(pos.byteOffset % pos.byteSize : ℕ))
      (-(pos.byteOffset % pos.byteSize : ℕ)) 0 true
      (realign head last pos rest pos.byteSize) := by
  have hold : last.hole ≠ 0 := by omega
  have hwidth : pos.byteOffset % pos.byteSize % 65536 = pos.byteOffset % pos.byteSize :=
    Nat.mod_eq_of_lt hsmall
  rw [realign, if_pos hroom]
  dsimp only
  rw [subtractOffsetsFrom_eq _ _ rfl, closeHole_eq, hwidth]
  exact
    { last := rfl
      pos := rfl
      rest := rfl
      size := by rw [add_zero, u32_of_lt hsize]
      nrHoles := (recount_close hold).symm
      padding := by simp }

theorem realign_push (hsize : pos.byteSize < 65536) (hhole : 0 ≤ last.hole)
    (hlt : pos.byteOffset % pos.byteSize < pos.byteSize)
    (hroom : last.hole < (pos.byteOffset % pos.byteSize : ℕ)) :
    FixStep head last pos rest (pos.byteSize - pos.byteOffset % pos.byteSize : ℕ)
      (pos.byteSize - pos.byteOffset % pos.byteSize : ℕ)
      (pos.byteSize - pos.byteOffset % pos.byteSize : ℕ) false
      (realign head last pos rest pos.byteSize) := by
  have hnew : last.hole + (pos.byteSize - pos.byteOffset % pos.byteSize : ℕ) ≠ 0 := by omega
  have hinc : (pos.byteSize - pos.byteOffset % pos.byteSize) % 65536 =
      pos.byteSize - pos.byteOffset % pos.byteSize := Nat.mod_eq_of_lt (by omega)
  rw [realign, if_neg (not_le.mpr hroom)]
  exact
    { last := rfl
      pos := rfl
      rest := by
        dsimp only
        rw [addOffsetsFrom, hinc]
      size := rfl
      nrHoles := (recount_open hnew).symm
      padding := by simp }

theorem isWord_iff (haddr : addrSize = 4 ∨ addrSize = 8) {size : ℕ} :
    IsWord addrSize size ↔ size = 2 ∨ size = 4 ∨ size = 8 ∧ addrSize = 8 := by
  constructor
  · rintro ⟨htwo, hle, k, rfl⟩
    have hk : k ≤ 3 := by
      by_contra hlt
      have := Nat.pow_le_pow_right (by decide : 0 < 2) (by omega : 4 ≤ k)
      omega
    interval_cases k <;> omega
  · rintro (rfl | rfl | ⟨rfl, rfl⟩)
    · exact ⟨le_rfl, by omega, 1, rfl⟩
    · exact ⟨by decide, by omega, 2, rfl⟩
    · exact ⟨by decide, le_rfl, 3, rfl⟩

theorem IsWord.dvd (haddr : addrSize = 4 ∨ addrSize = 8) {size : ℕ} (h : IsWord addrSize size) :
    size ∣ addrSize := by
  rcases (isWord_iff haddr).mp h with rfl | rfl | ⟨rfl, rfl⟩
  · rcases haddr with rfl | rfl <;> decide
  · rcases haddr with rfl | rfl <;> decide
  · exact dvd_refl 8

theorem alignLoop_of_zero {fuel power2 : ℕ} {p : FixPoint} (h : p.pos.byteOffset = 0) :
    alignLoop fuel power2 p = .ok p := by
  induction fuel generalizing power2 with
  | zero => rfl
  | succ fuel ih =>
      rw [alignLoop, h, Nat.zero_mod, if_pos rfl, ih]
      split
      · rfl
      · split <;> rfl

/-- Smaller powers of two than the size leave a member alone. -/
theorem alignLoop_of_lt {fuel power2 : ℕ} {p : FixPoint} (h : power2 < p.pos.byteSize) :
    alignLoop fuel power2 p = .ok p := by
  induction fuel generalizing power2 with
  | zero => rfl
  | succ fuel ih =>
      rw [alignLoop, if_neg h.ne', ih ((Nat.div_le_self _ _).trans_lt h)]
      split <;> rfl

theorem realign_pos_byteSize (power2 : ℕ) :
    (realign head last pos rest power2).pos.byteSize = pos.byteSize := by
  rw [realign]
  split <;> rfl

/-- The loop over the powers of two finds the size, if it is one of them. -/
theorem alignLoop_eq {k fuel : ℕ} (hfuel : k < fuel) :
    alignLoop fuel (2 ^ k) ⟨head, some last, pos, rest⟩ =
      .ok (if IsWord (2 ^ k) pos.byteSize ∧ pos.byteOffset % pos.byteSize ≠ 0 then
        realign head last pos rest pos.byteSize
      else ⟨head, some last, pos, rest⟩) := by
  induction k generalizing fuel with
  | zero =>
      obtain ⟨fuel, rfl⟩ := Nat.exists_eq_succ_of_ne_zero (Nat.ne_of_gt hfuel)
      have hnot : ¬(IsWord (2 ^ 0) pos.byteSize ∧ pos.byteOffset % pos.byteSize ≠ 0) := by
        rintro ⟨⟨htwo, hone, -⟩, -⟩
        omega
      rw [if_neg hnot, alignLoop, if_pos (by decide)]
  | succ k ih =>
      obtain ⟨fuel, rfl⟩ := Nat.exists_eq_succ_of_ne_zero (Nat.ne_of_gt (Nat.zero_lt_of_lt hfuel))
      have hpos : 0 < 2 ^ k := Nat.two_pow_pos k
      have htwo : ¬2 ^ (k + 1) < 2 := by
        rw [Nat.pow_succ]
        omega
      have hhalf : 2 ^ (k + 1) / 2 = 2 ^ k := by
        rw [Nat.pow_succ]
        omega
      rw [alignLoop, if_neg htwo, hhalf]
      by_cases hsize : pos.byteSize = 2 ^ (k + 1)
      · have hword : IsWord (2 ^ (k + 1)) pos.byteSize := by
          refine ⟨?_, hsize.le, k + 1, hsize⟩
          rw [hsize]
          exact not_lt.mp htwo
        rw [if_pos hsize]
        by_cases heven : pos.byteOffset % pos.byteSize = 0
        · rw [if_pos (hsize ▸ heven), if_neg fun h => h.2 heven]
        · have hpast : 2 ^ k < (realign head last pos rest (2 ^ (k + 1))).pos.byteSize := by
            rw [realign_pos_byteSize, hsize, Nat.pow_succ]
            omega
          rw [if_neg (hsize ▸ heven), if_pos ⟨hword, heven⟩, hsize]
          exact alignLoop_of_lt hpast
      · have hword : IsWord (2 ^ (k + 1)) pos.byteSize ↔ IsWord (2 ^ k) pos.byteSize := by
          constructor
          · rintro ⟨hge, hle, j, hj⟩
            refine ⟨hge, ?_, j, hj⟩
            rw [hj] at hle hsize ⊢
            have hjk : j ≤ k + 1 := (Nat.pow_le_pow_iff_right (by decide)).mp hle
            have hne : j ≠ k + 1 := fun heq => hsize (heq ▸ rfl)
            exact Nat.pow_le_pow_right (by decide) (by omega)
          · rintro ⟨hge, hle, hpow⟩
            refine ⟨hge, hle.trans ?_, hpow⟩
            exact Nat.pow_le_pow_right (by decide) (Nat.le_succ k)
        rw [if_neg hsize, ih (Nat.lt_of_succ_lt_succ hfuel)]
        simp only [hword]

/-- Every step behind another member is one of the moves. -/
theorem fixStep_spec (pos : FixMember) (rest : List FixMember) {k : ℕ}
    (haddr : addrSize = 2 ^ k) (hwidth : addrSize < 65536) (hsize : head.size < 4294967296)
    (hhole : 0 ≤ last.hole) (hfits : ∀ m ∈ pos :: rest, m.Fits) :
    ∃ p x y d looks, fixStep addrSize ⟨head, some last, pos, rest⟩ = .ok p ∧
      FixMove addrSize last.hole pos.byteOffset pos.byteSize x y d looks ∧
      FixStep head last pos rest x y d looks p := by
  have hpos : 0 < addrSize := haddr ▸ Nat.two_pow_pos k
  by_cases hlarge : (addrSize : ℤ) ≤ last.hole
  · have hold : last.hole ≠ 0 := by omega
    exact ⟨_, _, _, _, _, if_pos hlarge, .shrink hlarge, shrinkHole_step hold⟩
  have hsmall : last.hole < addrSize := not_le.mp hlarge
  have hloop : fixStep addrSize ⟨head, some last, pos, rest⟩ =
      .ok (if IsWord addrSize pos.byteSize ∧ pos.byteOffset % pos.byteSize ≠ 0 then
        realign head last pos rest pos.byteSize
      else ⟨head, some last, pos, rest⟩) := by
    have hfuel : k < addrSize := haddr ▸ Nat.lt_two_pow_self
    have hskip : fixStep addrSize ⟨head, some last, pos, rest⟩ =
        alignLoop addrSize addrSize ⟨head, some last, pos, rest⟩ := if_neg hlarge
    rw [hskip, haddr]
    exact alignLoop_eq (haddr ▸ hfuel)
  by_cases hodd : IsWord addrSize pos.byteSize ∧ pos.byteOffset % pos.byteSize ≠ 0
  · rw [if_pos hodd] at hloop
    obtain ⟨hword, hodd⟩ := hodd
    have hlt : pos.byteOffset % pos.byteSize < pos.byteSize :=
      Nat.mod_lt _ (Nat.lt_of_lt_of_le (by decide) hword.1)
    have hbyteSize : pos.byteSize < 65536 := hword.2.1.trans_lt hwidth
    by_cases hroom : ((pos.byteOffset % pos.byteSize : ℕ) : ℤ) ≤ last.hole
    · exact ⟨_, _, _, _, _, hloop, .pull hsmall hword hodd hroom,
        realign_pull hsize hodd hroom (hlt.trans hbyteSize)⟩
    · have hroom := not_le.mp hroom
      exact ⟨_, _, _, _, _, hloop, .push hsmall hword hodd hroom,
        realign_push hbyteSize hhole hlt hroom⟩
  · rw [if_neg hodd] at hloop
    refine ⟨_, _, _, _, _, hloop,
      .stay hsmall fun hword => not_not.mp fun hne => hodd ⟨hword, hne⟩, ?_⟩
    exact
      { last := by simp
        pos := (hfits pos List.mem_cons_self).shift_zero.symm
        rest := by
          refine ((List.map_congr_left fun m hm => ?_).trans (List.map_id rest)).symm
          exact (hfits m (List.mem_cons_of_mem _ hm)).shift_zero
        size := by rw [add_zero, u32_of_lt hsize]
        nrHoles := by simp [recount]
        padding := by simp }

/-- No move takes a member over the one before, and none enlarges the struct by more than an
address. -/
theorem FixMove.bounds {hole : ℤ} {offset size : ℕ} {x y d : ℤ} {looks : Bool}
    (h : FixMove addrSize hole offset size x y d looks) (hhole : 0 ≤ hole) (haddr : 0 < addrSize) :
    0 ≤ hole + x ∧ -hole ≤ d ∧ x ≤ d ∧ d ≤ addrSize := by
  cases h with
  | shrink hlarge =>
      have hwords : (wholeWords addrSize hole : ℤ) = hole / addrSize * addrSize :=
        Int.toNat_of_nonneg (mul_nonneg (Int.ediv_nonneg hhole (Int.natCast_nonneg _))
          (Int.natCast_nonneg _))
      have hle : (wholeWords addrSize hole : ℤ) ≤ hole := by
        rw [hwords]
        exact Int.ediv_mul_le hole (by omega)
      omega
  | pull hsmall hword hodd hroom => omega
  | push hsmall hword hodd hroom =>
      have := hword.2.1
      omega
  | stay hsmall heven => omega

end Step

/-! ## The effect of the loop -/

/-- The fields of a member that no move changes. -/
def FixMember.key (m : FixMember) : FixMember :=
  { m with byteOffset := 0, bitOffset := 0, hole := 0 }

/-- How many of some members have a hole behind them. -/
def openHoles (ms : List FixMember) : ℕ :=
  ms.countP fun m => m.hole ≠ 0

/-- The bit offset is that of the byte offset, in 32 bits. -/
def FixMember.BitsAgree (m : FixMember) : Prop :=
  m.bitOffset = u32 ((m.byteOffset : ℤ) * 8)

/-- Where the loop can be: holes are not negative, and take up no more than the struct, which
is small enough not to outgrow its bit offsets. -/
structure FixState (addrSize : ℕ) (head : FixHead) (last : FixMember) (rest : List FixMember) :
    Prop where
  fits : ∀ m ∈ rest, m.Fits
  bits : ∀ m ∈ rest, m.BitsAgree
  holes : ∀ m ∈ last :: rest, 0 ≤ m.hole
  sum : last.hole + (rest.map FixMember.hole).sum ≤ head.size
  room : head.size + addrSize * rest.length < 536870912
  nrHoles : head.nrHoles < 256

/-- The effect of the loop: the members keep their keys, their bit offsets agree with their byte
offsets, `nr_holes` changes with the number of holes, the last hole is kept, and the struct
grows by at most one address per member. -/
structure FixRun (addrSize : ℕ) (head : FixHead) (last : FixMember) (rest : List FixMember)
    (head' : FixHead) (last' : FixMember) (rest' : List FixMember) : Prop where
  same : ∃ hole, last' = { last with hole := hole }
  keys : rest'.map FixMember.key = rest.map FixMember.key
  bits : ∀ m ∈ rest', m.BitsAgree
  nrHoles : (head'.nrHoles + openHoles (last :: rest)) % 256 =
    (head.nrHoles + openHoles (last' :: rest')) % 256
  small : head'.nrHoles < 256
  lastHole : ((last' :: rest').map FixMember.hole).getLast? =
    ((last :: rest).map FixMember.hole).getLast?
  size : head'.size ≤ head.size + addrSize * rest.length
  /-- the next member has gone as far as its hole has grown -/
  next : ∀ pos ∈ rest.head?, ∃ pos' ∈ rest'.head?,
    ((pos'.byteOffset : ℤ) - last'.hole) % 4294967296 =
      ((pos.byteOffset : ℤ) - last.hole) % 4294967296

section Run

variable {addrSize k : ℕ} {head head' : FixHead} {last last' pos : FixMember}
  {rest rest' : List FixMember} {x y d : ℤ} {looks : Bool} {p : FixPoint}

theorem recount_spec {nrHoles : ℕ} (h : nrHoles < 256) (old new : ℤ) :
    recount nrHoles old new < 256 ∧
      (recount nrHoles old new + if old ≠ 0 then 1 else 0) % 256 =
        (nrHoles + if new ≠ 0 then 1 else 0) % 256 := by
  rw [recount]
  split
  · next hclosed =>
      rw [if_pos hclosed.1, if_neg (not_not_intro hclosed.2)]
      omega
  · split
    · next hopened =>
        rw [if_neg (not_not_intro hopened.1), if_pos hopened.2]
        omega
    · next hclosed hopened =>
        refine ⟨h, ?_⟩
        by_cases hold : old = 0
        · have hnew : new = 0 := by
            by_contra hnew
            exact hopened ⟨hold, hnew⟩
          rw [if_neg (not_not_intro hold), if_neg (not_not_intro hnew)]
        · have hnew : new ≠ 0 := fun hnew => hclosed ⟨hold, hnew⟩
          rw [if_pos hold, if_pos hnew]

theorem openHoles_cons : openHoles (last :: rest) =
    openHoles rest + if last.hole ≠ 0 then 1 else 0 := by
  rw [openHoles, List.countP_cons]
  simp [openHoles]

theorem openHoles_shift : openHoles (rest.map (FixMember.shift y)) = openHoles rest := by
  rw [openHoles, List.countP_map]
  rfl

theorem bitsAgree_shift {m : FixMember} (h : m.BitsAgree) : (m.shift y).BitsAgree := by
  rw [FixMember.BitsAgree] at h ⊢
  simp only [FixMember.shift]
  rw [h]
  simp only [u32]
  omega

/-- A step of the loop leads from a `FixState` to a `FixState`, with the size changed by the
distance moved. -/
theorem FixState.step (h : FixState addrSize head last (pos :: rest)) (haddr : 0 < addrSize)
    (hmove : FixMove addrSize last.hole pos.byteOffset pos.byteSize x y d looks)
    (hstep : FixStep head last pos rest x y d looks p) :
    FixState addrSize p.head p.pos p.rest ∧ (p.head.size : ℤ) = head.size + d := by
  obtain ⟨hlast, hholes⟩ := List.forall_mem_cons.mp h.holes
  obtain ⟨-, hlow, -, hhigh⟩ := hmove.bounds hlast haddr
  obtain ⟨hpos, hrest⟩ := List.forall_mem_cons.mp hholes
  have hsum := h.sum
  have hroom := h.room
  rw [List.map_cons, List.sum_cons] at hsum
  rw [List.length_cons, Nat.mul_succ] at hroom
  have hnonneg : 0 ≤ (rest.map FixMember.hole).sum :=
    List.sum_nonneg fun n hn => by
      obtain ⟨m, hm, rfl⟩ := List.mem_map.mp hn
      exact hrest m hm
  have hsize : (p.head.size : ℤ) = head.size + d := by
    rw [hstep.size, u32]
    omega
  have hholes' : p.rest.map FixMember.hole = rest.map FixMember.hole := by
    rw [hstep.rest, List.map_map]
    rfl
  refine ⟨?_, hsize⟩
  exact
    { fits := by
        rw [hstep.rest]
        intro m hm
        obtain ⟨m', -, rfl⟩ := List.mem_map.mp hm
        exact m'.shift_fits y
      bits := by
        rw [hstep.rest]
        intro m hm
        obtain ⟨m', hm', rfl⟩ := List.mem_map.mp hm
        exact bitsAgree_shift (h.bits m' (List.mem_cons_of_mem _ hm'))
      holes := by
        rw [hstep.pos, hstep.rest]
        refine List.forall_mem_cons.mpr ⟨hpos, fun m hm => ?_⟩
        obtain ⟨m', hm', rfl⟩ := List.mem_map.mp hm
        exact hrest m' hm'
      sum := by
        rw [hholes', hstep.pos, FixMember.shift_hole]
        omega
      room := by
        rw [hstep.rest, List.length_map]
        omega
      nrHoles := by
        rw [hstep.nrHoles]
        exact (recount_spec h.nrHoles _ _).1 }

/-- The loop with one more member is a step, followed by the loop over the rest. -/
theorem fixLoop_turn {fuel : ℕ}
    (hstep : fixStep addrSize ⟨head, some last, pos, rest⟩ = .ok p)
    (hloop : fixLoop addrSize fuel p.head (some p.pos) p.rest = .ok (head', rest')) :
    fixLoop addrSize (fuel + 1) head (some last) (pos :: rest) =
      .ok (head', p.last.toList ++ rest') := by
  rw [fixLoop, hstep, Except.bind, hloop]
  rfl

/-- From a `FixState` the loop returns, and has made a `FixRun`. -/
theorem fixLoop_run (haddr : addrSize = 2 ^ k) (hwidth : addrSize < 65536)
    (h : FixState addrSize head last rest) :
    ∃ head' last' rest', fixLoop addrSize rest.length head (some last) rest =
        .ok (head', last' :: rest') ∧ FixRun addrSize head last rest head' last' rest' := by
  have hpos : 0 < addrSize := haddr ▸ Nat.two_pow_pos k
  generalize hlength : rest.length = fuel
  induction fuel generalizing head last rest with
  | zero =>
      obtain rfl := List.length_eq_zero_iff.mp hlength
      refine ⟨head, last, [], rfl, ?_⟩
      exact
        { same := ⟨last.hole, rfl⟩
          keys := rfl
          bits := by simp
          nrHoles := rfl
          small := h.nrHoles
          lastHole := rfl
          size := Nat.le_add_right _ _
          next := by simp }
  | succ fuel ih =>
      obtain ⟨pos, rest, rfl⟩ := List.exists_cons_of_length_eq_add_one hlength
      have hlength := Nat.succ.inj hlength
      have hroom := h.room
      have hhole := h.holes last List.mem_cons_self
      obtain ⟨p, x, y, d, looks, hp, hmove, hstep⟩ :=
        fixStep_spec pos rest haddr hwidth (by omega : head.size < 4294967296) hhole h.fits
      obtain ⟨hnext, hsize⟩ := h.step hpos hmove hstep
      obtain ⟨-, -, -, hd⟩ := hmove.bounds hhole hpos
      have hlength' : p.rest.length = fuel := by
        rw [hstep.rest, List.length_map, hlength]
      obtain ⟨head', pos', rest', hloop, hrun⟩ := ih hnext hlength'
      obtain ⟨hole, hsame⟩ := hrun.same
      refine ⟨head', { last with hole := last.hole + x }, pos' :: rest', ?_, ?_⟩
      · rw [fixLoop_turn hp hloop, hstep.last]
        rfl
      obtain ⟨-, hcount⟩ := recount_spec h.nrHoles last.hole (last.hole + x)
      have hkey : pos'.key = pos.key := by
        rw [hsame, hstep.pos]
        rfl
      have hoffset : pos'.byteOffset = u32 (pos.byteOffset + x) := by
        rw [hsame, hstep.pos]
        rfl
      exact
        { same := ⟨_, rfl⟩
          keys := by
            rw [List.map_cons, List.map_cons, hkey, hrun.keys, hstep.rest, List.map_map]
            rfl
          bits := by
            refine List.forall_mem_cons.mpr ⟨?_, hrun.bits⟩
            have hbits : p.pos.BitsAgree := by
              rw [hstep.pos]
              exact bitsAgree_shift (h.bits pos List.mem_cons_self)
            rw [hsame]
            exact hbits
          nrHoles := by
            have hopen : openHoles (p.pos :: p.rest) = openHoles (pos :: rest) := by
              rw [openHoles_cons, openHoles_cons, hstep.pos, hstep.rest, openHoles_shift,
                FixMember.shift_hole]
            have hbefore : openHoles (last :: pos :: rest) =
                openHoles (pos :: rest) + if last.hole ≠ 0 then 1 else 0 := openHoles_cons
            have hafter : openHoles ({ last with hole := last.hole + x } :: pos' :: rest') =
                openHoles (pos' :: rest') + if last.hole + x ≠ 0 then 1 else 0 := openHoles_cons
            have hnr := hrun.nrHoles
            rw [hopen, hstep.nrHoles] at hnr
            rw [hbefore, hafter]
            omega
          small := hrun.small
          lastHole := by
            have hholes : (p.pos :: p.rest).map FixMember.hole =
                (pos :: rest).map FixMember.hole := by
              rw [hstep.pos, hstep.rest, List.map_cons, List.map_map]
              rfl
            have hlast := hrun.lastHole
            rw [hholes] at hlast
            rw [List.map_cons, List.map_cons] at hlast ⊢
            rw [List.getLast?_cons_cons, List.map_cons, List.map_cons, List.getLast?_cons_cons]
            exact hlast
          size := by
            have hle := hrun.size
            rw [hlength'] at hle
            rw [List.length_cons, hlength, Nat.mul_succ]
            omega
          next := by
            intro pos₀ hpos₀
            obtain rfl := Option.some.inj hpos₀
            refine ⟨_, rfl, ?_⟩
            rw [hoffset, u32]
            dsimp only
            omega }

end Run

end Pahole
