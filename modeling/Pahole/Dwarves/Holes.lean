import Pahole.Dwarves.Packed

/-!
# Holes and padding

What `class__find_holes` leaves in a struct, whose fields have 8, 16 and 32 bits, and the
free space that the struct has.
-/

namespace Pahole

/-- `struct class` after the search. -/
structure ClassHoles where
  preHole : ℕ
  preBitHole : ℕ
  /-- `hole` and `bit_hole` of the members but the last one -/
  holes : List ℤ
  bitHoles : List ℕ
  padding : ℕ
  bitPadding : ℕ
  nrHoles : ℕ
  nrBitHoles : ℕ

namespace PackMember

/-- Members that the search does not look at. -/
def isUnseen (pos : PackMember) : Bool :=
  (pos.isInheritance && (pos.isVirtual || pos.byteSize == 0)) || pos.isStatic

/-- The bits that the member has. -/
def bits (pos : PackMember) : ℕ :=
  if pos.bitfieldSize ≠ 0 then pos.bitfieldSize else pos.byteSize * 8

def endBit (pos : PackMember) : ℕ := pos.bitOffset + pos.bits

end PackMember

namespace HoleSearch

/-- The bits left before the member: those of the bitfield that ends, and those of its own
unit. -/
def bitHoles (s : HoleSearch) (pos : PackMember) : ℤ :=
  let trailing := s.trailing pos.bitOffset
  if pos.bitfieldSize ≠ 0 then
    let alignedStart := u32 (pos.byteOffset * 8)
    let lastSeenBit :=
      if trailing.2 < alignedStart ∧ alignedStart ≤ pos.bitOffset then alignedStart
      else trailing.2
    i32 (trailing.1 + (pos.bitOffset - lastSeenBit))
  else trailing.1

/-- `byte_holes` and `bit_holes` at each member that is looked at. -/
def gaps (s : HoleSearch) : List PackMember → List (ℤ × ℤ)
  | [] => []
  | pos :: members =>
      if pos.isUnseen then gaps s members
      else
        (byteHoles (s.trailing pos.bitOffset).2 pos, s.bitHoles pos) ::
          gaps (s.step pos) members

end HoleSearch

namespace PackType

variable (ty : PackType)

def seen : List PackMember := ty.members.filter fun pos => !pos.isUnseen

def holeGaps : List (ℤ × ℤ) :=
  HoleSearch.gaps ⟨u32 (ty.size * 8), 0, 0, false, 0⟩ ty.members

/-- `class->bit_padding`, in 8 bits. -/
def bitPadding : ℕ :=
  let s := ty.findHoles
  if s.inBitfield then
    ((((min (u32 (ty.size * 8)) s.curBitfieldEnd : ℕ) : ℤ) - s.lastSeenBit) % 256).toNat
  else 0

/-- The fields that `class__find_holes` fills in.  The gap before the first member goes to the
class, the others go to the member before them. -/
def classHoles : ClassHoles where
  preHole := ((ty.holeGaps.map fun g => (g.1 % 65536).toNat).headD 0)
  preBitHole := ((ty.holeGaps.map fun g => (g.2 % 256).toNat).headD 0)
  holes := ty.holeGaps.tail.map fun g => g.1
  bitHoles := ty.holeGaps.tail.map fun g => (g.2 % 256).toNat
  padding := ty.padding
  bitPadding := ty.bitPadding
  nrHoles := ty.findHoles.nrHoles
  nrBitHoles := ty.holeGaps.foldl (fun n g => if g.2 ≠ 0 then (n + 1) % 256 else n) 0

/-- The bits of the members, the holes and the padding sum to those of the struct. -/
def Accounted : Prop :=
  (ty.size : ℤ) * 8 = (ty.seen.map PackMember.bits).sum +
    8 * (ty.classHoles.preHole + ty.classHoles.holes.sum + ty.classHoles.padding) +
    ty.classHoles.preBitHole + ty.classHoles.bitHoles.sum + ty.classHoles.bitPadding

/-- The members and what `hole` of each is after the search: zero where the search did not
look, and for the last member that it looked at. -/
def memberHoles : List PackMember → List ℤ → List (PackMember × ℤ)
  | [], _ => []
  | pos :: members, holes =>
      if pos.isUnseen then (pos, 0) :: memberHoles members holes
      else (pos, holes.headD 0) :: memberHoles members holes.tail

/-- The bytes that the loop of `__class__fprintf` adds to `sum_bytes` for a member with a hole:
its size, and for a base class its size less the part of its padding that the next member uses.
-/
def printedBytes (pos : PackMember) (hole : ℤ) : ℤ :=
  if pos.bitfieldSize ≠ 0 then 0
  else if pos.isInheritance ∧ hole < 0 then pos.byteSize + hole
  else pos.byteSize

/-- `size_diff` of `__class__fprintf`, which has its "BRAIN FART ALERT" when it is not zero.  The
sums are over all members, base classes and static members included, whose types are known. -/
def sizeDiff : ℤ :=
  let members := memberHoles ty.members ty.classHoles.holes
  let bytes := (members.map fun m => printedBytes m.1 m.2).sum
  let bits := (ty.members.map PackMember.bitfieldSize).sum
  let holes := ty.classHoles.preHole + ((members.map Prod.snd).filter fun hole => 0 < hole).sum
  let bitHoles := ty.classHoles.preBitHole + ty.classHoles.bitHoles.sum
  i32 (ty.size * 8 - (bytes * 8 + bits + holes * 8 + bitHoles +
    ty.classHoles.padding * 8 + ty.classHoles.bitPadding))

/-- The bits of the members that the search does not look at. -/
def unseenBits : ℕ := ((ty.members.filter PackMember.isUnseen).map PackMember.bits).sum

end PackType

/-! ## Free space -/

/-- Where a member ends and, when it is a bitfield, the end and the width of the storage that
its bitfield has. -/
structure Cursor where
  bit : ℕ
  storage : Option (ℕ × ℕ)

namespace Cursor

def start : Cursor := ⟨0, none⟩

/-- The storage of a bitfield that a member belongs to. -/
def widen (pos : PackMember) : Option (ℕ × ℕ) → ℕ × ℕ
  | some (stop, width) =>
      if stop < pos.endBit ∨ width < pos.bitSize then
        (8 * pos.byteOffset + pos.bitSize, pos.bitSize)
      else (stop, width)
  | none => (8 * pos.byteOffset + pos.bitSize, pos.bitSize)

def after (c : Cursor) (pos : PackMember) : Cursor :=
  ⟨pos.endBit, if pos.bitfieldSize ≠ 0 then some (widen pos c.storage) else none⟩

/-- Where the storage of the last bitfield ends, before some bit. -/
def reach (c : Cursor) (bit : ℕ) : ℕ :=
  match c.storage with
  | some (stop, _) => min bit stop
  | none => c.bit

/-- The free bytes and the free bits before a member. -/
def free (c : Cursor) (pos : PackMember) : ℕ × ℕ :=
  let reached := c.reach pos.bitOffset
  if pos.bitfieldSize ≠ 0 then
    if reached < 8 * pos.byteOffset then
      (pos.byteOffset - reached / 8, reached - c.bit + (pos.bitOffset - 8 * pos.byteOffset))
    else (0, reached - c.bit + (pos.bitOffset - reached))
  else (pos.bitOffset / 8 - reached / 8, reached - c.bit)

/-- The free space before each of the members. -/
def frees (c : Cursor) : List PackMember → List (ℕ × ℕ)
  | [] => []
  | pos :: members => c.free pos :: frees (c.after pos) members

/-- The free bytes and the free bits at the end of a struct. -/
def tail (c : Cursor) (size : ℕ) : ℕ × ℕ :=
  match c.storage with
  | some _ => (size - c.reach (size * 8) / 8, c.reach (size * 8) - c.bit)
  | none => (size - c.bit / 8, 0)

end Cursor

namespace PackType

variable (ty : PackType)

/-- The members are in ascending order, disjoint in bits and inside the struct, fields start at
a byte, and bitfields are in their storage. -/
structure WellPlaced : Prop where
  size : ty.size < 536870912
  field : ∀ m ∈ ty.seen, m.bitfieldSize = 0 → m.bitOffset = 8 * m.byteOffset
  bitfield : ∀ m ∈ ty.seen, m.bitfieldSize ≠ 0 → m.bitSize = 8 * m.byteSize ∧
    8 * m.byteOffset ≤ m.bitOffset ∧ m.endBit ≤ 8 * (m.byteOffset + m.byteSize)
  ascending : ty.seen.Pairwise fun a b => a.endBit ≤ b.bitOffset
  inside : ∀ m ∈ ty.seen, m.endBit ≤ 8 * ty.size

/-- Storage ends below 2^32 bits. -/
def StorageFits : Prop :=
  ∀ m ∈ ty.seen, m.bitfieldSize ≠ 0 → 8 * m.byteOffset + m.bitSize < 4294967296

def frees : List (ℕ × ℕ) := Cursor.start.frees ty.seen

def freeTail : ℕ × ℕ := (ty.seen.foldl Cursor.after Cursor.start).tail ty.size

/-- The free space before the first member and after the last one is less than 2^16 bytes, and
free bits are less than 2^8 everywhere. -/
structure Fits : Prop where
  storage : ty.StorageFits
  first : (ty.frees.map Prod.fst).headD 0 < 65536
  bits : ∀ g ∈ ty.frees, g.2 < 256
  padding : ty.freeTail.1 < 65536
  bitPadding : ty.freeTail.2 < 256

end PackType

/-! ## The search finds the free space -/

/-- The variables of the search are those of a cursor. -/
structure HoleSearch.At (s : HoleSearch) (c : Cursor) : Prop where
  bit : s.lastSeenBit = c.bit
  inBitfield : s.inBitfield = c.storage.isSome
  storage : ∀ stop width, c.storage = some (stop, width) →
    s.curBitfieldEnd = stop ∧ s.curBitfieldSize = width
  narrow : c.storage = none → s.curBitfieldSize = 0

/-- The cursor is below 2^32 bits, inside its storage if it has one, and at a byte otherwise. -/
structure Cursor.Sound (c : Cursor) : Prop where
  bit : c.bit < 4294967296
  storage : ∀ stop width, c.storage = some (stop, width) →
    c.bit ≤ stop ∧ stop % 8 = 0 ∧ stop < 4294967296
  aligned : c.storage = none → c.bit % 8 = 0

/-- A field starts at a byte and a bitfield is in its storage, both below 2^32 bits. -/
structure PackMember.Placed (m : PackMember) : Prop where
  endBit : m.endBit < 4294967296
  field : m.bitfieldSize = 0 → m.bitOffset = 8 * m.byteOffset
  bitfield : m.bitfieldSize ≠ 0 → m.bitSize = 8 * m.byteSize ∧
    8 * m.byteOffset ≤ m.bitOffset ∧ m.endBit ≤ 8 * (m.byteOffset + m.byteSize)
  storage : m.bitfieldSize ≠ 0 → 8 * m.byteOffset + m.bitSize < 4294967296

section Search

variable {s : HoleSearch} {c : Cursor} {m : PackMember}

theorem i32_emod (x : ℤ) : i32 x % 4294967296 = x % 4294967296 := by
  unfold i32 u32
  split <;> omega

theorem i32_of_nat {x : ℤ} (h0 : 0 ≤ x) (h : x < 2147483648) : i32 x = x := by
  unfold i32 u32
  split <;> omega

theorem bitEnd_eq (hm : m.Placed) : HoleSearch.bitEnd m = m.endBit := by
  have hend := hm.endBit
  unfold HoleSearch.bitEnd PackMember.endBit PackMember.bits at *
  split at hend
  · rename_i hbit
    rw [if_pos hbit, if_pos hbit]
    exact_mod_cast u32_of_lt hend
  · rename_i hbit
    rw [if_neg hbit, if_neg hbit]
    exact_mod_cast u32_of_lt hend

theorem trailing_snd (hs : s.At c) (bit : ℕ) : (s.trailing bit).2 = c.reach bit := by
  unfold HoleSearch.trailing Cursor.reach
  cases hstorage : c.storage with
  | none => simp [hs.inBitfield, hstorage, hs.bit]
  | some storage => simp [hs.inBitfield, hstorage, (hs.storage _ _ hstorage).1]

theorem trailing_fst (hs : s.At c) (bit : ℕ) :
    (s.trailing bit).1 % 4294967296 = ((c.reach bit : ℤ) - c.bit) % 4294967296 := by
  unfold HoleSearch.trailing Cursor.reach
  cases hstorage : c.storage with
  | none => simp [hs.inBitfield, hstorage]
  | some storage =>
      simp only [hs.inBitfield, hstorage, Option.isSome_some, if_true, i32_emod, hs.bit,
        (hs.storage _ _ hstorage).1, Nat.cast_min]

/-- The storage of the last bitfield ends between its last bit and the member, at a byte when
it ends before the member. -/
theorem reach_spec (hc : c.Sound) {bit : ℕ} (hle : c.bit ≤ bit) :
    c.bit ≤ c.reach bit ∧ c.reach bit ≤ bit ∧ (c.reach bit = bit ∨ c.reach bit % 8 = 0) := by
  unfold Cursor.reach
  cases hstorage : c.storage with
  | none => exact ⟨le_rfl, hle, Or.inr (hc.aligned hstorage)⟩
  | some storage =>
      obtain ⟨stop, width⟩ := storage
      obtain ⟨hstop, haligned, -⟩ := hc.storage _ _ hstorage
      simp only
      omega

/-- The free bytes and bits in front of a member fill the bits from the cursor up to it. -/
theorem free_spec (hc : c.Sound) (hm : m.Placed) (hle : c.bit ≤ m.bitOffset) :
    c.bit + (8 * (c.free m).1 + (c.free m).2) = m.bitOffset := by
  obtain ⟨hfrom, hto, haligned⟩ := reach_spec hc hle
  simp only [Cursor.free]
  split
  · rename_i hbit
    obtain ⟨-, hunit, -⟩ := hm.bitfield hbit
    split <;> simp only <;> omega
  · rename_i hbit
    have hfield := hm.field (by simpa using hbit)
    simp only
    omega

theorem byteHoles_eq (hc : c.Sound) (hm : m.Placed) (hle : c.bit ≤ m.bitOffset) :
    HoleSearch.byteHoles (c.reach m.bitOffset) m = (c.free m).1 := by
  obtain ⟨hfrom, hto, haligned⟩ := reach_spec hc hle
  have hend := hm.endBit
  unfold PackMember.endBit at hend
  simp only [HoleSearch.byteHoles, Cursor.free]
  split
  · rename_i hbit
    obtain ⟨-, hunit, -⟩ := hm.bitfield hbit
    have hstart : u32 ((m.byteOffset : ℤ) * 8) = m.byteOffset * 8 := by
      exact_mod_cast u32_of_lt (by omega : m.byteOffset * 8 < 4294967296)
    rw [hstart]
    split
    · rename_i hlt
      rw [if_pos (by omega), i32_of_nat (by omega) (by omega)]
      simp only
      omega
    · rename_i hlt
      rw [if_neg (by omega)]
      rfl
  · rename_i hbit
    rw [i32_of_nat (by omega) (by omega)]
    simp only
    omega

theorem bitHoles_emod (hs : s.At c) (hc : c.Sound) (hm : m.Placed)
    (hle : c.bit ≤ m.bitOffset) :
    s.bitHoles m % 4294967296 = ((c.free m).2 : ℤ) % 4294967296 := by
  obtain ⟨hfrom, hto, -⟩ := reach_spec hc hle
  have htrailing := trailing_fst hs m.bitOffset
  have hend := hm.endBit
  unfold PackMember.endBit at hend
  simp only [HoleSearch.bitHoles, Cursor.free, trailing_snd hs]
  split
  · rename_i hbit
    obtain ⟨-, hunit, -⟩ := hm.bitfield hbit
    have hstart : u32 ((m.byteOffset : ℤ) * 8) = m.byteOffset * 8 := by
      exact_mod_cast u32_of_lt (by omega : m.byteOffset * 8 < 4294967296)
    simp only [hstart, i32_emod]
    split
    · rename_i hlt
      rw [if_pos (by omega)]
      simp only
      omega
    · rename_i hlt
      rw [if_neg (by omega)]
      simp only
      omega
  · simp only
    omega

theorem sound_after (hc : c.Sound) (hm : m.Placed) : (c.after m).Sound := by
  by_cases hbit : m.bitfieldSize ≠ 0
  · obtain ⟨hsize, -, hend⟩ := hm.bitfield hbit
    have hstorage := hm.storage hbit
    refine ⟨hm.endBit, ?_, fun hnone => by simp [Cursor.after, hbit] at hnone⟩
    intro stop width hwidth
    simp only [Cursor.after, if_pos hbit, Option.some.injEq] at hwidth ⊢
    unfold Cursor.widen at hwidth
    split at hwidth
    · rename_i stop' width' hlast
      obtain ⟨-, haligned, hlt⟩ := hc.storage _ _ hlast
      split at hwidth
      · obtain ⟨rfl, rfl⟩ := Prod.mk.inj hwidth
        omega
      · obtain ⟨rfl, rfl⟩ := Prod.mk.inj hwidth
        omega
    · obtain ⟨rfl, rfl⟩ := Prod.mk.inj hwidth
      omega
  · have hfield := hm.field (by simpa using hbit)
    refine ⟨hm.endBit, fun stop width hwidth => by simp [Cursor.after, hbit] at hwidth, ?_⟩
    intro _
    simp only [Cursor.after, PackMember.endBit, PackMember.bits, if_neg hbit]
    omega

/-- The end and the width of the bitfield that the search keeps are those of its storage. -/
theorem bitfield_eq (hs : s.At c) (hm : m.Placed) (hbit : m.bitfieldSize ≠ 0) :
    s.bitfield m = Cursor.widen m c.storage := by
  obtain ⟨hsize, hunit, hend⟩ := hm.bitfield hbit
  have hstorage := hm.storage hbit
  have hcur : u32 ((m.byteOffset : ℤ) * 8 + m.bitSize) = 8 * m.byteOffset + m.bitSize := by
    rw [show (m.byteOffset : ℤ) * 8 + m.bitSize = ((8 * m.byteOffset + m.bitSize : ℕ) : ℤ) by
      push_cast; ring]
    exact u32_of_lt hstorage
  have hwide : ¬8 * m.byteOffset + m.bitSize < m.endBit := by omega
  simp only [HoleSearch.bitfield, if_pos hbit, bitEnd_eq hm, hcur, if_neg hwide]
  unfold Cursor.widen
  cases hlast : c.storage with
  | none =>
      have hbits : m.bitfieldSize ≤ m.endBit - m.bitOffset := by
        simp only [PackMember.endBit, PackMember.bits, if_pos hbit]
        omega
      rw [if_pos (Or.inr (by rw [hs.narrow hlast]; omega))]
  | some storage =>
      obtain ⟨hstop, hwidth⟩ := hs.storage _ _ hlast
      simp only [hstop, hwidth]

theorem at_after (hs : s.At c) (hm : m.Placed) (hseen : m.isUnseen = false) :
    (s.step m).At (c.after m) := by
  have hstep : s.step m = ⟨(s.bitfield m).1, (s.bitfield m).2, HoleSearch.bitEnd m,
      m.bitfieldSize ≠ 0, (s.step m).nrHoles⟩ := by
    unfold PackMember.isUnseen at hseen
    simp [HoleSearch.step, hseen]
  rw [hstep]
  by_cases hbit : m.bitfieldSize ≠ 0
  · refine ⟨bitEnd_eq hm, by simp [Cursor.after, hbit], ?_, fun hnone => by
      simp [Cursor.after, hbit] at hnone⟩
    intro stop width hwidth
    simp only [Cursor.after, if_pos hbit, Option.some.injEq] at hwidth
    rw [bitfield_eq hs hm hbit, hwidth]
    exact ⟨rfl, rfl⟩
  · refine ⟨bitEnd_eq hm, by simp [Cursor.after, hbit], fun stop width hwidth => by
      simp [Cursor.after, hbit] at hwidth, ?_⟩
    intro _
    simp only [HoleSearch.bitfield, if_neg hbit]

end Search

/-- The members are placed, behind the cursor, in ascending order and disjoint. -/
def Cursor.Ascends (c : Cursor) (ms : List PackMember) : Prop :=
  (∀ m ∈ ms, m.Placed ∧ c.bit ≤ m.bitOffset) ∧ ms.Pairwise fun a b => a.endBit ≤ b.bitOffset

section Search

variable {s : HoleSearch} {c : Cursor} {m : PackMember} {ms : List PackMember}

theorem ascends_tail (h : c.Ascends (m :: ms)) : (c.after m).Ascends ms := by
  obtain ⟨hmem, hpair⟩ := h
  obtain ⟨hhead, htail⟩ := List.pairwise_cons.mp hpair
  exact ⟨fun m' hm' => ⟨(hmem m' (List.mem_cons_of_mem m hm')).1, hhead m' hm'⟩, htail⟩

/-- The free bytes and bits and the members fill the bits from one cursor to the next. -/
theorem frees_spec (hc : c.Sound) (h : c.Ascends ms) :
    c.bit + (8 * ((c.frees ms).map Prod.fst).sum + ((c.frees ms).map Prod.snd).sum +
      (ms.map PackMember.bits).sum) = (ms.foldl Cursor.after c).bit := by
  induction ms generalizing c with
  | nil => simp [Cursor.frees]
  | cons m ms ih =>
      obtain ⟨hm, hle⟩ := h.1 m List.mem_cons_self
      have hfree := free_spec hc hm hle
      have hrest := ih (sound_after hc hm) (ascends_tail h)
      simp only [Cursor.frees, List.map_cons, List.sum_cons, List.foldl_cons]
      rw [← hrest]
      simp only [Cursor.after, PackMember.endBit]
      omega

theorem sound_foldl (hc : c.Sound) (h : c.Ascends ms) : (ms.foldl Cursor.after c).Sound := by
  induction ms generalizing c with
  | nil => exact hc
  | cons m ms ih => exact ih (sound_after hc (h.1 m List.mem_cons_self).1) (ascends_tail h)

/-- Members that the search does not look at change nothing. -/
theorem step_unseen (h : m.isUnseen = true) : s.step m = s := by
  unfold PackMember.isUnseen at h
  simp [HoleSearch.step, h]

/-- After the members the search is at the cursor that has passed them. -/
theorem at_foldl (hs : s.At c) (hc : c.Sound)
    (h : c.Ascends (ms.filter fun m => !m.isUnseen)) :
    (ms.foldl HoleSearch.step s).At ((ms.filter fun m => !m.isUnseen).foldl Cursor.after c) := by
  induction ms generalizing s c with
  | nil => exact hs
  | cons m ms ih =>
      cases hseen : m.isUnseen with
      | true =>
          simp only [List.filter_cons, hseen, Bool.not_true, Bool.false_eq_true, if_false,
            List.foldl_cons, step_unseen hseen] at h ⊢
          exact ih hs hc h
      | false =>
          simp only [List.filter_cons, hseen, Bool.not_false, if_true, List.foldl_cons] at h ⊢
          have hm := (h.1 m List.mem_cons_self).1
          exact ih (at_after hs hm hseen) (sound_after hc hm) (ascends_tail h)

/-- The gaps that the search finds are the free space, in 32 bits. -/
theorem gaps_spec (hs : s.At c) (hc : c.Sound)
    (h : c.Ascends (ms.filter fun m => !m.isUnseen)) :
    List.Forall₂ (fun (g : ℤ × ℤ) (f : ℕ × ℕ) =>
        g.1 = f.1 ∧ g.2 % 4294967296 = (f.2 : ℤ) % 4294967296)
      (s.gaps ms) (c.frees (ms.filter fun m => !m.isUnseen)) := by
  induction ms generalizing s c with
  | nil => exact .nil
  | cons m ms ih =>
      cases hseen : m.isUnseen with
      | true =>
          simp only [List.filter_cons, hseen, Bool.not_true, Bool.false_eq_true, if_false,
            HoleSearch.gaps, if_true] at h ⊢
          exact ih hs hc h
      | false =>
          simp only [List.filter_cons, hseen, Bool.not_false, if_true, HoleSearch.gaps,
            Bool.false_eq_true, if_false] at h ⊢
          obtain ⟨hm, hle⟩ := h.1 m List.mem_cons_self
          refine .cons ⟨?_, bitHoles_emod hs hc hm hle⟩
            (ih (at_after hs hm hseen) (sound_after hc hm) (ascends_tail h))
          simp only [trailing_snd hs]
          exact byteHoles_eq hc hm hle

end Search

/-! ## The account -/

theorem sum_headD_tail (l : List ℕ) : l.headD 0 + l.tail.sum = l.sum := by
  cases l <;> simp

theorem sum_mod_le (n : ℕ) (l : List ℕ) : (l.map (· % n)).sum ≤ l.sum := by
  induction l with
  | nil => simp
  | cons x l ih =>
      have hx := Nat.mod_le x n
      simp only [List.map_cons, List.sum_cons]
      omega

/-- Remainders add up to the same sum only if they are the numbers themselves. -/
theorem sum_mod_eq_iff {n : ℕ} (hn : 0 < n) (l : List ℕ) :
    (l.map (· % n)).sum = l.sum ↔ ∀ x ∈ l, x < n := by
  induction l with
  | nil => simp
  | cons x l ih =>
      have hx := Nat.mod_le x n
      have hl := sum_mod_le n l
      simp only [List.map_cons, List.sum_cons, List.forall_mem_cons, ← ih]
      constructor
      · intro h
        have hmod : x % n = x := by omega
        exact ⟨hmod ▸ Nat.mod_lt x hn, by omega⟩
      · rintro ⟨hlt, hsum⟩
        rw [Nat.mod_eq_of_lt hlt, hsum]

namespace PackType

variable {ty : PackType}

theorem ascends_seen (h : ty.WellPlaced) (hstorage : ty.StorageFits) :
    Cursor.start.Ascends ty.seen := by
  refine ⟨fun m hm => ⟨⟨?_, h.field m hm, h.bitfield m hm, hstorage m hm⟩, Nat.zero_le _⟩,
    h.ascending⟩
  have hinside := h.inside m hm
  have hsize := h.size
  omega

theorem sound_start : Cursor.start.Sound :=
  ⟨by decide, fun _ _ h => by simp [Cursor.start] at h, fun _ => rfl⟩

theorem at_start (ty : PackType) :
    (⟨u32 (ty.size * 8), 0, 0, false, 0⟩ : HoleSearch).At Cursor.start :=
  ⟨rfl, rfl, fun _ _ h => by simp [Cursor.start] at h, fun _ => rfl⟩

theorem foldl_bit_le (h : ty.WellPlaced) :
    (ty.seen.foldl Cursor.after Cursor.start).bit ≤ ty.size * 8 := by
  have hlast : ∀ (ms : List PackMember) (c : Cursor), c.bit ≤ ty.size * 8 →
      (∀ m ∈ ms, m.endBit ≤ 8 * ty.size) → (ms.foldl Cursor.after c).bit ≤ ty.size * 8 := by
    intro ms
    induction ms with
    | nil => exact fun c hc _ => hc
    | cons m ms ih =>
        intro c _ hms
        refine ih (c.after m) ?_ fun m' hm' => hms m' (List.mem_cons_of_mem m hm')
        have hm := hms m List.mem_cons_self
        simp only [Cursor.after]
        omega
  exact hlast ty.seen Cursor.start (Nat.zero_le _) h.inside

/-- The free bytes and bits at the end fill the bits from the last member to the size. -/
theorem freeTail_spec (h : ty.WellPlaced) (hstorage : ty.StorageFits) :
    (ty.seen.foldl Cursor.after Cursor.start).bit + (8 * ty.freeTail.1 + ty.freeTail.2) =
      8 * ty.size := by
  have hsound := sound_foldl sound_start (ascends_seen h hstorage)
  have hle := foldl_bit_le h
  unfold freeTail Cursor.tail
  cases hlast : (ty.seen.foldl Cursor.after Cursor.start).storage with
  | none =>
      have haligned := hsound.aligned hlast
      simp only
      omega
  | some storage =>
      obtain ⟨hfrom, hto, haligned⟩ := reach_spec hsound hle
      simp only
      omega

/-- The free bytes and bits, and the bits of the members, add up to the size. -/
theorem free_total (h : ty.WellPlaced) (hstorage : ty.StorageFits) :
    8 * (ty.frees.map Prod.fst).sum + (ty.frees.map Prod.snd).sum +
      (ty.seen.map PackMember.bits).sum + (8 * ty.freeTail.1 + ty.freeTail.2) = 8 * ty.size := by
  have hmembers := frees_spec sound_start (ascends_seen h hstorage)
  have htail := freeTail_spec h hstorage
  unfold frees
  simp only [Cursor.start] at hmembers htail ⊢
  omega

theorem padding_eq (h : ty.WellPlaced) (hstorage : ty.StorageFits) :
    ty.padding = ty.freeTail.1 % 65536 ∧ ty.bitPadding = ty.freeTail.2 % 256 := by
  have hasc := ascends_seen h hstorage
  have hat : ty.findHoles.At (ty.seen.foldl Cursor.after Cursor.start) :=
    at_foldl (at_start ty) sound_start hasc
  have hsound := sound_foldl sound_start hasc
  have hle := foldl_bit_le h
  have hsize := h.size
  have hbits : u32 ((ty.size : ℤ) * 8) = ty.size * 8 := by
    exact_mod_cast u32_of_lt (by omega : ty.size * 8 < 4294967296)
  obtain ⟨hfrom, hto, -⟩ := reach_spec hsound hle
  unfold padding bitPadding freeTail Cursor.tail
  cases hlast : (ty.seen.foldl Cursor.after Cursor.start).storage with
  | none =>
      simp only [hat.inBitfield, hlast, Option.isSome_none, Bool.false_eq_true, if_false, hat.bit]
      refine ⟨?_, trivial⟩
      unfold u32
      omega
  | some storage =>
      obtain ⟨stop, width⟩ := storage
      have hreach : (ty.seen.foldl Cursor.after Cursor.start).reach (ty.size * 8) =
          min (ty.size * 8) stop := by
        simp only [Cursor.reach, hlast]
      rw [hreach] at hfrom hto
      simp only [hat.inBitfield, hlast, Option.isSome_some, if_true, hat.bit, hbits,
        (hat.storage _ _ hlast).1, hreach]
      constructor
      · unfold u32
        omega
      · omega

/-- The byte gaps are the free bytes, and the bit gaps are the free bits modulo 256. -/
theorem classHoles_eq (h : ty.WellPlaced) (hstorage : ty.StorageFits) :
    ty.holeGaps.map Prod.fst = ty.frees.map (fun f => (f.1 : ℤ)) ∧
      ty.holeGaps.map (fun g => (g.2 % 256).toNat) = (ty.frees.map Prod.snd).map (· % 256) := by
  have hgaps := gaps_spec (at_start ty) sound_start (ascends_seen h hstorage)
  change List.Forall₂ _ ty.holeGaps ty.frees at hgaps
  generalize ty.holeGaps = gaps at hgaps ⊢
  generalize ty.frees = frees at hgaps ⊢
  induction hgaps with
  | nil => exact ⟨rfl, rfl⟩
  | cons hg _ ih =>
      obtain ⟨hbytes, hbits⟩ := hg
      simp only [List.map_cons, ih.1, ih.2, hbytes, true_and, List.cons.injEq, and_true]
      omega

theorem preHole_eq (h : ty.WellPlaced) (hstorage : ty.StorageFits) :
    ty.classHoles.preHole = (ty.frees.map Prod.fst).headD 0 % 65536 ∧
      ty.classHoles.holes.sum = ((ty.frees.map Prod.fst).tail.sum : ℕ) ∧
      ∀ hole ∈ ty.classHoles.holes, 0 ≤ hole := by
  obtain ⟨hbytes, -⟩ := classHoles_eq h hstorage
  have hholes : ty.classHoles.holes = (ty.frees.map Prod.fst).tail.map Nat.cast := by
    change ty.holeGaps.tail.map Prod.fst = _
    rw [List.map_tail, hbytes, List.map_tail, List.map_map]
    rfl
  refine ⟨?_, ?_, ?_⟩
  · change (ty.holeGaps.map fun g => (g.1 % 65536).toNat).headD 0 = _
    have hmap : (ty.holeGaps.map fun g => (g.1 % 65536).toNat) =
        (ty.frees.map Prod.fst).map (· % 65536) := by
      rw [show (fun g : ℤ × ℤ => (g.1 % 65536).toNat) =
        (fun n : ℤ => (n % 65536).toNat) ∘ Prod.fst from rfl, ← List.map_map, hbytes,
        List.map_map, List.map_map]
      refine List.map_congr_left fun f _ => ?_
      simp only [Function.comp_apply]
      omega
    rw [hmap]
    cases ty.frees <;> rfl
  · rw [hholes]
    exact (Nat.cast_list_sum _).symm
  · rw [hholes]
    intro hole hmem
    obtain ⟨n, -, rfl⟩ := List.mem_map.mp hmem
    exact Int.natCast_nonneg n

theorem bitHoles_sum (h : ty.WellPlaced) (hstorage : ty.StorageFits) :
    ty.classHoles.preBitHole + ty.classHoles.bitHoles.sum =
      ((ty.frees.map Prod.snd).map (· % 256)).sum := by
  rw [← (classHoles_eq h hstorage).2,
    ← sum_headD_tail (ty.holeGaps.map fun g => (g.2 % 256).toNat), ← List.map_tail]
  rfl

/-- The account is right when no field is too small for what is free, and only then. -/
theorem accounted_iff_fits (h : ty.WellPlaced) (hstorage : ty.StorageFits) :
    ty.Accounted ↔ ty.Fits := by
  have htotal := free_total h hstorage
  obtain ⟨hpadding, hbitPadding⟩ := padding_eq h hstorage
  obtain ⟨hpre, hholes, -⟩ := preHole_eq h hstorage
  have hbits := bitHoles_sum h hstorage
  have hsplit := sum_headD_tail (ty.frees.map Prod.fst)
  have hmod := sum_mod_le 256 (ty.frees.map Prod.snd)
  have hiff := sum_mod_eq_iff (by decide : 0 < 256) (ty.frees.map Prod.snd)
  unfold Accounted
  rw [hholes, hpre, show ty.classHoles.padding = _ from hpadding,
    show ty.classHoles.bitPadding = _ from hbitPadding]
  constructor
  · intro haccount
    refine ⟨hstorage, by omega, ?_, by omega, by omega⟩
    intro g hg
    exact hiff.mp (by omega) g.2 (List.mem_map_of_mem hg)
  · intro hfits
    have hall : ∀ x ∈ ty.frees.map Prod.snd, x < 256 := by
      intro x hx
      obtain ⟨g, hg, rfl⟩ := List.mem_map.mp hx
      exact hfits.bits g hg
    have hsum := hiff.mpr hall
    have hfirst := hfits.first
    have hpad := hfits.padding
    have hbitPad := hfits.bitPadding
    omega

section Printed

variable {ms : List PackMember} {holes : List ℤ}

theorem map_fst_memberHoles (ms : List PackMember) (holes : List ℤ) :
    (memberHoles ms holes).map Prod.fst = ms := by
  induction ms generalizing holes with
  | nil => rfl
  | cons m ms ih =>
      rw [memberHoles]
      split
      · rw [List.map_cons, ih]
      · rw [List.map_cons, ih]

/-- No hole is added to those of the members that the search looks at. -/
theorem sum_memberHoles (hlen : holes.length ≤ (ms.filter fun m => !m.isUnseen).length) :
    ((memberHoles ms holes).map Prod.snd).sum = holes.sum := by
  induction ms generalizing holes with
  | nil =>
      rw [List.eq_nil_of_length_eq_zero (Nat.le_zero.mp hlen)]
      rfl
  | cons m ms ih =>
      rw [memberHoles]
      cases hseen : m.isUnseen with
      | true =>
          simp only [List.filter_cons, hseen, Bool.not_true, Bool.false_eq_true, if_false] at hlen
          rw [if_pos rfl, List.map_cons, List.sum_cons, ih hlen, zero_add]
      | false =>
          simp only [List.filter_cons, hseen, Bool.not_false, if_true, List.length_cons] at hlen
          rw [if_neg Bool.false_ne_true, List.map_cons, List.sum_cons,
            ih (by rw [List.length_tail]; omega)]
          cases holes <;> simp

theorem memberHoles_nonneg (ms : List PackMember) (h : ∀ hole ∈ holes, 0 ≤ hole) :
    ∀ m ∈ memberHoles ms holes, 0 ≤ m.2 := by
  induction ms generalizing holes with
  | nil => simp [memberHoles]
  | cons m ms ih =>
      rw [memberHoles]
      split
      · exact List.forall_mem_cons.mpr ⟨le_rfl, ih h⟩
      · refine List.forall_mem_cons.mpr ⟨?_, ih fun hole hmem => h hole (List.mem_of_mem_tail hmem)⟩
        cases holes with
        | nil => exact le_rfl
        | cons hole holes => exact h hole List.mem_cons_self

theorem sum_filter_pos {l : List ℤ} (h : ∀ x ∈ l, 0 ≤ x) : (l.filter fun x => 0 < x).sum = l.sum := by
  induction l with
  | nil => rfl
  | cons x l ih =>
      obtain ⟨hx, hl⟩ := List.forall_mem_cons.mp h
      rw [List.filter_cons]
      split
      · rw [List.sum_cons, List.sum_cons, ih hl]
      · next hpos =>
          have hzero : x = 0 := le_antisymm (by simpa using hpos) hx
          rw [List.sum_cons, ih hl, hzero, zero_add]

/-- Without a negative hole the bytes and bits that are printed are those of the members. -/
theorem sum_printed {members : List (PackMember × ℤ)} (h : ∀ m ∈ members, 0 ≤ m.2) :
    (members.map fun m => printedBytes m.1 m.2).sum * 8 +
        ((members.map Prod.fst).map PackMember.bitfieldSize).sum =
      ((members.map Prod.fst).map PackMember.bits).sum := by
  induction members with
  | nil => rfl
  | cons m members ih =>
      obtain ⟨hm, hmembers⟩ := List.forall_mem_cons.mp h
      have hrest := ih hmembers
      simp only [List.map_cons, List.sum_cons, Nat.cast_add] at hrest ⊢
      have hone : printedBytes m.1 m.2 * 8 + m.1.bitfieldSize = m.1.bits := by
        unfold printedBytes PackMember.bits
        by_cases hbit : m.1.bitfieldSize = 0
        · rw [if_neg (not_not.mpr hbit), if_neg (fun hneg => absurd hneg.2 (not_lt.mpr hm)),
            if_neg (not_not.mpr hbit), hbit]
          push_cast
          ring
        · rw [if_pos hbit, if_pos hbit]
          ring
      omega

theorem sum_seen_add_unseen (ty : PackType) :
    (ty.seen.map PackMember.bits).sum + ty.unseenBits = (ty.members.map PackMember.bits).sum := by
  unfold seen unseenBits
  induction ty.members with
  | nil => rfl
  | cons m ms ih =>
      cases hseen : m.isUnseen with
      | true =>
          simp only [List.filter_cons, hseen, Bool.not_true, Bool.false_eq_true, if_false, if_true,
            List.map_cons, List.sum_cons] at ih ⊢
          omega
      | false =>
          simp only [List.filter_cons, hseen, Bool.not_false, if_true, Bool.false_eq_true, if_false,
            List.map_cons, List.sum_cons] at ih ⊢
          omega

end Printed

theorem length_gaps (s : HoleSearch) (ms : List PackMember) :
    (s.gaps ms).length = (ms.filter fun m => !m.isUnseen).length := by
  induction ms generalizing s with
  | nil => rfl
  | cons m ms ih =>
      cases hseen : m.isUnseen with
      | true =>
          rw [HoleSearch.gaps, if_pos hseen, ih, List.filter_cons_of_neg (by simp [hseen])]
      | false =>
          rw [HoleSearch.gaps, if_neg (by simp [hseen]), List.length_cons, ih,
            List.filter_cons_of_pos (by simp [hseen]), List.length_cons]

/-- When the account is right, the difference is the bits of the members that the search does
not look at, in 32 bits. -/
theorem sizeDiff_eq (h : ty.WellPlaced) (hstorage : ty.StorageFits) (haccount : ty.Accounted) :
    ty.sizeDiff = i32 (-ty.unseenBits) := by
  obtain ⟨-, -, hnonneg⟩ := preHole_eq h hstorage
  have hmembers := memberHoles_nonneg ty.members hnonneg
  have hlen : ty.classHoles.holes.length ≤ (ty.members.filter fun m => !m.isUnseen).length := by
    change (ty.holeGaps.tail.map _).length ≤ _
    rw [List.length_map, List.length_tail, holeGaps, length_gaps]
    omega
  have hholes := sum_memberHoles hlen
  have hprinted := sum_printed hmembers
  rw [map_fst_memberHoles] at hprinted
  have htotal := sum_seen_add_unseen ty
  unfold Accounted at haccount
  unfold sizeDiff
  dsimp only
  rw [sum_filter_pos (List.forall_mem_map.mpr hmembers), hholes]
  congr 1
  omega

theorem i32_neg_eq_zero_iff {n : ℕ} : i32 (-n) = 0 ↔ n % 4294967296 = 0 := by
  unfold i32 u32
  split <;> omega

/-- An int, two bitfields of an int and a char. -/
def bitfieldStruct : PackType where
  members := [⟨1, false, false, false, 0, 0, 4, 32, 0⟩, ⟨1, false, false, false, 32, 4, 4, 32, 3⟩,
    ⟨1, false, false, false, 40, 4, 4, 32, 5⟩, ⟨2, false, false, false, 64, 8, 1, 8, 0⟩]
  size := 12
  alignment := 0

theorem wellPlaced_bitfieldStruct : bitfieldStruct.WellPlaced := by
  refine ⟨by decide, ?_, ?_, by decide, by decide⟩
  · decide
  · decide

theorem fits_bitfieldStruct : bitfieldStruct.Fits :=
  ⟨by unfold StorageFits; decide, by decide, by decide, by decide, by decide⟩

/-- A char aligned to 2^17 bytes. -/
def alignedStruct : PackType := ⟨[⟨1, false, false, false, 0, 0, 1, 8, 0⟩], 131072, 131072⟩

/-- A pointer, and a virtual base class of eight bytes behind it. -/
def virtualBaseStruct : PackType where
  members := [⟨1, false, false, false, 0, 0, 8, 64, 0⟩, ⟨2, true, true, false, 64, 8, 8, 64, 0⟩]
  size := 16
  alignment := 0

end PackType

end Pahole
