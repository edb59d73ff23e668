import Mathlib.Tactic.Ring
import Pahole.Dwarves.Packed

/-!
# Where bitfields are

DWARF has several ways to say where a bitfield is.  `class_member__cache_byte_size` brings
them to one: the bytes of an aligned unit of storage, and an offset in it of eight bits with
a sign.
-/

namespace Pahole

/-- `(int8_t)x` -/
def i8 (x : ℤ) : ℤ := (x + 128) % 256 - 128

/-- The type of a bitfield: what `tag__size` says, and the bits that are looked for when that
is nothing. -/
structure StorageType where
  size : ℕ
  bitSize : ℕ

def StorageType.bytes (type : StorageType) : ℕ :=
  if type.size = 0 then (type.bitSize + 7) / 8 else type.size

/-- The attributes of a `DW_TAG_member` that has `DW_AT_bit_size`.  What is absent is zero,
the data bit offset apart. -/
structure DwarfBitfield where
  dataBitOffset : Option ℕ
  dataMemberLocation : ℕ
  bitOffset : ℤ
  byteSize : ℕ
  bitSize : ℕ
  type : StorageType

/-- `struct class_member`, as far as bitfields are concerned. -/
structure BitfieldMember where
  bitOffset : ℕ
  bitSize : ℕ
  byteOffset : ℕ
  byteSize : ℕ
  bitfieldOffset : ℤ
  bitfieldSize : ℕ
  hasBitOffset : Bool

/-- `class_member__new` -/
def classMemberNew (die : DwarfBitfield) : BitfieldMember :=
  match die.dataBitOffset with
  | some offset => ⟨u32 offset, 0, 0, die.byteSize, 0, die.bitSize % 256, true⟩
  | none =>
      let byteOffset := u32 die.dataMemberLocation
      ⟨u32 (byteOffset * 8), 0, byteOffset, die.byteSize, i8 die.bitOffset, die.bitSize % 256,
        false⟩

namespace BitfieldMember

variable (member : BitfieldMember)

/-- "Try to figure out byte size, if it's not directly provided in DWARF" -/
def figureOutSize (type : StorageType) : BitfieldMember :=
  let byteSize :=
    if member.byteSize ≠ 0 then member.byteSize
    else if type.size ≠ 0 then type.size
    else (type.bitSize + 7) / 8 * 8
  { member with byteSize := byteSize, bitSize := u32 (byteSize * 8) }

/-- The offset from the start of the storage, whichever offset DWARF has. -/
def adjust (littleEndian : Bool) : BitfieldMember :=
  if member.hasBitOffset then
    let byteOffset := member.bitOffset / 8
    { member with
      byteOffset := byteOffset
      bitfieldOffset := i8 ((member.bitOffset : ℤ) - byteOffset * 8) }
  else
    let bitfieldOffset :=
      if littleEndian then i8 (member.bitSize - member.bitfieldOffset - member.bitfieldSize)
      else member.bitfieldOffset
    { member with
      bitfieldOffset := bitfieldOffset
      bitOffset := u32 (member.byteOffset * 8 + bitfieldOffset) }

/-- "make sure bitfield offset is non-negative" -/
def makeNonNegative : BitfieldMember :=
  if member.bitfieldOffset < 0 then
    let bitfieldOffset := i8 (member.bitfieldOffset + member.bitSize)
    let byteOffset := u32 ((member.byteOffset : ℤ) - member.byteSize)
    { member with
      bitfieldOffset := bitfieldOffset
      byteOffset := byteOffset
      bitOffset := u32 (byteOffset * 8 + bitfieldOffset) }
  else member

/-- "align on underlying base type natural alignment boundary" -/
def align : BitfieldMember :=
  let bitfieldOffset := i8 (member.bitfieldOffset + (member.byteOffset % member.byteSize * 8 : ℕ))
  let byteOffset := member.bitOffset / member.bitSize * member.bitSize / 8
  if member.bitSize ≤ u32 bitfieldOffset then
    { member with
      bitfieldOffset := i8 (bitfieldOffset - member.bitSize)
      byteOffset := u32 ((byteOffset : ℤ) + member.byteSize) }
  else { member with bitfieldOffset := bitfieldOffset, byteOffset := byteOffset }

/-- "silly" bitfields become plain fields. -/
def fixupSilly (fixupSillyBitfields : Bool) : BitfieldMember :=
  if fixupSillyBitfields ∧ member.byteSize * 8 = member.bitfieldSize ∧
      member.bitfieldOffset = 0 then
    { member with bitfieldSize := 0 }
  else member

/-- `class_member__cache_byte_size`, of a member that is not static. -/
def cacheByteSize (littleEndian fixupSillyBitfields : Bool) (type : StorageType) :
    BitfieldMember :=
  if member.bitfieldSize = 0 then
    let byteSize := if member.byteSize ≠ 0 then member.byteSize else type.size
    { member with byteSize := byteSize, bitSize := u32 (byteSize * 8) }
  else
    let sized := member.figureOutSize type
    if sized.byteSize = 0 then { sized with bitfieldOffset := 0 }
    else
      (sized.adjust littleEndian).makeNonNegative.align.fixupSilly fixupSillyBitfields

end BitfieldMember

namespace DwarfBitfield

variable (die : DwarfBitfield) (littleEndian fixupSillyBitfields : Bool)

/-- The member that the loader makes of it. -/
def load : BitfieldMember :=
  (classMemberNew die).cacheByteSize littleEndian fixupSillyBitfields die.type

/-! ## The offsets in DWARF -/

/-- The bytes of the storage. -/
def storageBytes : ℕ := if die.byteSize ≠ 0 then die.byteSize else die.type.bytes

/-- The offset of the first bit from the byte location.  In little endian `DW_AT_bit_offset`
counts from the other end. -/
def offsetInStorage : ℤ :=
  if littleEndian then 8 * (die.storageBytes : ℤ) - die.bitOffset - die.bitSize
  else die.bitOffset

/-- The first bit of the bitfield in the struct. -/
def firstBit : ℤ :=
  match die.dataBitOffset with
  | some offset => offset
  | none => 8 * (die.dataMemberLocation : ℤ) + die.offsetInStorage littleEndian

/-- A bitfield in a struct, whose size has 32 bits.  Its type is an integer type, of less than
2^31 bits. -/
structure InStruct (structSize : ℕ) : Prop where
  size : structSize < 4294967296
  bitSize : 0 < die.bitSize
  storage : 0 < die.storageBytes
  storageBits : 8 * die.storageBytes < 2147483648
  location : die.dataMemberLocation < 4294967296
  first : 0 ≤ die.firstBit littleEndian
  last : die.firstBit littleEndian + die.bitSize ≤ 8 * (structSize : ℤ)

/-- The member is in an aligned unit of its storage, its bit offset is that of the first bit
that DWARF gives, and its offset in the unit is below the bits of the unit. -/
structure Normalised : Prop where
  byteSize : (die.load littleEndian fixupSillyBitfields).byteSize = die.storageBytes
  aligned : (die.load littleEndian fixupSillyBitfields).byteOffset %
    (die.load littleEndian fixupSillyBitfields).byteSize = 0
  bitOffset : ((die.load littleEndian fixupSillyBitfields).bitOffset : ℤ) =
    8 * ((die.load littleEndian fixupSillyBitfields).byteOffset : ℤ) +
      (die.load littleEndian fixupSillyBitfields).bitfieldOffset
  nonneg : 0 ≤ (die.load littleEndian fixupSillyBitfields).bitfieldOffset
  inStorage : (die.load littleEndian fixupSillyBitfields).bitfieldOffset <
    8 * ((die.load littleEndian fixupSillyBitfields).byteSize : ℤ)
  first : ((die.load littleEndian fixupSillyBitfields).bitOffset : ℤ) = die.firstBit littleEndian

/-- Whether the offset, in eight bits, has a minus sign. -/
def isNegative : Bool := 128 ≤ die.offsetInStorage littleEndian % 256

/-- The storage that is taken: the one before the byte location when the offset is negative. -/
def takenByte : ℕ :=
  if die.isNegative littleEndian then u32 ((die.dataMemberLocation : ℤ) - die.storageBytes)
  else die.dataMemberLocation

/-- The offset in the storage that is taken. -/
def takenOffset : ℤ :=
  if die.isNegative littleEndian then
    die.offsetInStorage littleEndian + 8 * (die.storageBytes : ℤ)
  else die.offsetInStorage littleEndian

/-- The first bit of the bitfield in its aligned unit of storage. -/
def bitInUnit : ℤ := die.firstBit littleEndian % (8 * (die.storageBytes : ℤ))

/-- The offsets on the way fit in eight bits with a sign, and the aligned unit at the byte
location is the one that the bitfield starts in. -/
structure Fits : Prop where
  size : die.byteSize ≠ 0 ∨ die.type.size ≠ 0
  first : die.firstBit littleEndian < 4294967296
  inUnit : die.bitInUnit littleEndian < 128
  offset : die.dataBitOffset = none →
    (die.takenOffset littleEndian + 128) % 4294967296 < 256
  unit : die.dataBitOffset = none →
    (die.takenOffset littleEndian + 8 * (die.takenByte littleEndian % die.storageBytes : ℕ) -
      die.bitInUnit littleEndian) % 256 = 0

/-- A size of a multiple of 256 bits is lost, and the member is a plain one at its byte
location. -/
structure FitsPlain : Prop where
  size : die.byteSize ≠ 0 ∨ die.type.size ≠ 0
  location : die.dataBitOffset = none → die.dataMemberLocation < 536870912 ∧
    die.dataMemberLocation % die.storageBytes = 0 ∧ die.bitOffset % 256 = 0 ∧
    die.offsetInStorage littleEndian = 0
  start : ∀ offset, die.dataBitOffset = some offset → offset = 0

/-- `FitsPlain` for a size that is a multiple of 256 bits, which is zero in the `uint8_t` of the
member, and `Fits` for any other. -/
def LoadsWell : Prop :=
  if die.bitSize % 256 = 0 then die.FitsPlain littleEndian else die.Fits littleEndian

end DwarfBitfield

/-! ## The offset in eight bits -/

theorem i8_eq_iff (x y : ℤ) : i8 x = y ↔ -128 ≤ y ∧ y < 128 ∧ (x - y) % 256 = 0 := by
  unfold i8
  omega

theorem i8_range (x : ℤ) : -128 ≤ i8 x ∧ i8 x < 128 := by
  unfold i8
  omega

namespace BitfieldMember

/-- After the alignment the member is in its aligned unit if and only if the sum of offsets, in
eight bits, is the offset in the unit. -/
theorem align_spec {member : BitfieldMember} {bytes : ℕ} (hbytes : 0 < bytes)
    (hsize : member.byteSize = bytes) (hbits : member.bitSize = 8 * bytes)
    (hlt : 8 * bytes < 2147483648) (hbit : member.bitOffset < 4294967296) :
    (member.align.byteOffset % bytes = 0 ∧
        (member.bitOffset : ℤ) = 8 * (member.align.byteOffset : ℤ) + member.align.bitfieldOffset ∧
        0 ≤ member.align.bitfieldOffset ∧ member.align.bitfieldOffset < 8 * (bytes : ℤ)) ↔
      i8 (member.bitfieldOffset + (member.byteOffset % bytes * 8 : ℕ)) =
        ((member.bitOffset % (8 * bytes) : ℕ) : ℤ) := by
  set unit := member.bitOffset / (8 * bytes) with hunit
  have hdiv : 8 * bytes * unit + member.bitOffset % (8 * bytes) = member.bitOffset :=
    Nat.div_add_mod _ _
  have hmod : member.bitOffset % (8 * bytes) < 8 * bytes := Nat.mod_lt _ (by omega)
  have hstart : unit * (8 * bytes) / 8 = bytes * unit := by
    rw [show unit * (8 * bytes) = 8 * (bytes * unit) by ring]
    exact Nat.mul_div_cancel_left _ (by decide)
  have hprod : 8 * bytes * unit = 8 * (bytes * unit) := by ring
  have hle : 8 * (bytes * unit) ≤ member.bitOffset := by omega
  obtain ⟨hlow, hhigh⟩ :=
    i8_range (member.bitfieldOffset + (member.byteOffset % bytes * 8 : ℕ))
  set offset := i8 (member.bitfieldOffset + (member.byteOffset % bytes * 8 : ℕ)) with hoffset
  have halign : member.align =
      if 8 * bytes ≤ u32 offset then
        { member with
          bitfieldOffset := i8 (offset - (8 * bytes : ℕ))
          byteOffset := u32 (((bytes * unit : ℕ) : ℤ) + bytes) }
      else { member with bitfieldOffset := offset, byteOffset := bytes * unit } := by
    unfold align
    simp only [hsize, hbits, ← hunit, hstart, ← hoffset]
  rw [halign]
  split
  · rename_i hover
    have hwrap : offset < 0 ∨ 8 * (bytes : ℤ) ≤ offset := by
      unfold u32 at hover
      omega
    have hnext : u32 (((bytes * unit : ℕ) : ℤ) + bytes) = bytes * unit + bytes := by
      exact_mod_cast u32_of_lt (by omega : bytes * unit + bytes < 4294967296)
    simp only [hnext]
    constructor
    · rintro ⟨-, heq, hnonneg, -⟩
      omega
    · intro heq
      omega
  · rename_i hunder
    have hinside : 0 ≤ offset ∧ offset < 8 * (bytes : ℤ) := by
      unfold u32 at hunder
      omega
    simp only [Nat.mul_mod_right, true_and]
    omega

end BitfieldMember

/-! ## Loading -/

namespace DwarfBitfield

variable {die : DwarfBitfield} {littleEndian silly : Bool} {structSize : ℕ}

/-- Plain fields do not change the properties of a member. -/
theorem fixupSilly_fields (member : BitfieldMember) (silly : Bool) :
    (member.fixupSilly silly).byteSize = member.byteSize ∧
      (member.fixupSilly silly).byteOffset = member.byteOffset ∧
      (member.fixupSilly silly).bitOffset = member.bitOffset ∧
      (member.fixupSilly silly).bitfieldOffset = member.bitfieldOffset := by
  unfold BitfieldMember.fixupSilly
  split <;> exact ⟨rfl, rfl, rfl, rfl⟩

theorem align_fields (member : BitfieldMember) :
    member.align.byteSize = member.byteSize ∧ member.align.bitOffset = member.bitOffset := by
  simp only [BitfieldMember.align]
  split <;> exact ⟨rfl, rfl⟩

/-- The member when its size is known. -/
def sized (die : DwarfBitfield) : BitfieldMember := (classMemberNew die).figureOutSize die.type

/-- The member before it is aligned. -/
def placed (die : DwarfBitfield) (littleEndian : Bool) : BitfieldMember :=
  (die.sized.adjust littleEndian).makeNonNegative

theorem sized_byteSize (die : DwarfBitfield) :
    die.sized.byteSize =
      if die.byteSize ≠ 0 then die.byteSize
      else if die.type.size ≠ 0 then die.type.size else (die.type.bitSize + 7) / 8 * 8 := by
  unfold sized BitfieldMember.figureOutSize classMemberNew
  cases die.dataBitOffset <;> rfl

theorem placed_sizes (die : DwarfBitfield) (littleEndian : Bool) :
    (die.placed littleEndian).byteSize = die.sized.byteSize ∧
      (die.placed littleEndian).bitSize = die.sized.bitSize := by
  have hadjust : (die.sized.adjust littleEndian).byteSize = die.sized.byteSize ∧
      (die.sized.adjust littleEndian).bitSize = die.sized.bitSize := by
    unfold BitfieldMember.adjust
    split <;> exact ⟨rfl, rfl⟩
  unfold placed BitfieldMember.makeNonNegative
  split <;> exact hadjust

theorem load_eq (hbits : die.bitSize % 256 ≠ 0) (hsize : die.sized.byteSize ≠ 0) :
    die.load littleEndian silly = (die.placed littleEndian).align.fixupSilly silly := by
  have hnew : (classMemberNew die).bitfieldSize = die.bitSize % 256 := by
    unfold classMemberNew
    cases die.dataBitOffset <;> rfl
  unfold load BitfieldMember.cacheByteSize
  rw [if_neg (by rw [hnew]; exact hbits)]
  exact if_neg hsize

/-- A size that is guessed from the bits of the type is eight times too large. -/
theorem sized_byteSize_eq_iff (h : 0 < die.storageBytes) :
    die.sized.byteSize = die.storageBytes ↔ die.byteSize ≠ 0 ∨ die.type.size ≠ 0 := by
  rw [sized_byteSize]
  unfold storageBytes StorageType.bytes at *
  by_cases hbyte : die.byteSize = 0
  · by_cases htype : die.type.size = 0
    · simp only [hbyte, htype, ne_eq, not_true_eq_false, if_false, if_true, or_self,
        iff_false] at h ⊢
      omega
    · simp [hbyte, htype]
  · simp [hbyte]

theorem sized_bitSize (h : die.InStruct littleEndian structSize)
    (hsize : die.byteSize ≠ 0 ∨ die.type.size ≠ 0) :
    die.sized.bitSize = 8 * die.storageBytes := by
  have hdef : die.sized.bitSize = u32 (die.sized.byteSize * 8) := rfl
  have hlt := h.storageBits
  rw [hdef, (sized_byteSize_eq_iff h.storage).mpr hsize]
  unfold u32
  omega

/-- The member is normalised when the bit is the one of DWARF before the alignment, and the
alignment finds its unit. -/
theorem normalised_iff_placed (h : die.InStruct littleEndian structSize)
    (hbits : die.bitSize % 256 ≠ 0) (hsize : die.byteSize ≠ 0 ∨ die.type.size ≠ 0)
    (hbit : (die.placed littleEndian).bitOffset < 4294967296) :
    die.Normalised littleEndian silly ↔
      ((die.placed littleEndian).bitOffset : ℤ) = die.firstBit littleEndian ∧
        i8 ((die.placed littleEndian).bitfieldOffset +
          ((die.placed littleEndian).byteOffset % die.storageBytes * 8 : ℕ)) =
            die.bitInUnit littleEndian := by
  have hbytes := (sized_byteSize_eq_iff h.storage).mpr hsize
  have hload : die.load littleEndian silly = (die.placed littleEndian).align.fixupSilly silly :=
    load_eq hbits (by have := h.storage; omega)
  obtain ⟨hplaced, hplacedBits⟩ := placed_sizes die littleEndian
  obtain ⟨hfix, hfixOffset, hfixBit, hfixBitfield⟩ :=
    fixupSilly_fields (die.placed littleEndian).align silly
  obtain ⟨halignSize, halignBit⟩ := align_fields (die.placed littleEndian)
  have hwidth := sized_bitSize h hsize
  have hspec := BitfieldMember.align_spec h.storage (hplaced.trans hbytes)
    (hplacedBits.trans hwidth) h.storageBits hbit
  constructor
  · rintro ⟨-, haligned, hoffset, hnonneg, hinside, hfirst⟩
    rw [hload] at haligned hoffset hnonneg hinside hfirst
    rw [hfix, hfixOffset, halignSize, hplaced, hbytes] at haligned
    rw [hfixBit, hfixOffset, hfixBitfield, halignBit] at hoffset
    rw [hfixBitfield] at hnonneg
    rw [hfixBitfield, hfix, halignSize, hplaced, hbytes] at hinside
    rw [hfixBit, halignBit] at hfirst
    refine ⟨hfirst, ?_⟩
    rw [hspec.mp ⟨haligned, hoffset, hnonneg, hinside⟩, bitInUnit, ← hfirst]
    push_cast
    rfl
  · rintro ⟨hfirst, hunit⟩
    have hmod : die.bitInUnit littleEndian =
        (((die.placed littleEndian).bitOffset % (8 * die.storageBytes) : ℕ) : ℤ) := by
      rw [bitInUnit, ← hfirst]
      push_cast
      rfl
    obtain ⟨haligned, hoffset, hnonneg, hinside⟩ := hspec.mpr (hunit.trans hmod)
    refine ⟨?_, ?_, ?_, ?_, ?_, ?_⟩
    · rw [hload, hfix, halignSize, hplaced, hbytes]
    · rw [hload, hfix, hfixOffset, halignSize, hplaced, hbytes]
      exact haligned
    · rw [hload, hfixBit, hfixOffset, hfixBitfield, halignBit]
      exact hoffset
    · rw [hload, hfixBitfield]
      exact hnonneg
    · rw [hload, hfixBitfield, hfix, halignSize, hplaced, hbytes]
      exact hinside
    · rw [hload, hfixBit, halignBit]
      exact hfirst

theorem placed_some {offset : ℕ} (h : die.dataBitOffset = some offset) (littleEndian : Bool) :
    (die.placed littleEndian).bitOffset = u32 offset ∧
      (die.placed littleEndian).byteOffset = u32 offset / 8 ∧
      (die.placed littleEndian).bitfieldOffset = (u32 offset % 8 : ℕ) := by
  have hbit : die.sized.bitOffset = u32 offset := by
    simp only [sized, BitfieldMember.figureOutSize, classMemberNew, h]
  have hhas : die.sized.hasBitOffset = true := by
    simp only [sized, BitfieldMember.figureOutSize, classMemberNew, h]
  have hadjust : die.sized.adjust littleEndian =
      { die.sized with
        byteOffset := u32 offset / 8, bitfieldOffset := ((u32 offset % 8 : ℕ) : ℤ) } := by
    have hoffset : i8 ((u32 offset : ℤ) - (u32 offset / 8 : ℕ) * 8) = (u32 offset % 8 : ℕ) := by
      rw [i8_eq_iff]
      omega
    simp only [BitfieldMember.adjust, hhas, if_true, hbit]
    simp only [hoffset]
  have hnonneg : ¬((u32 offset % 8 : ℕ) : ℤ) < 0 := by omega
  simp only [placed, BitfieldMember.makeNonNegative, hadjust, if_neg hnonneg, hbit]
  exact ⟨trivial, trivial, trivial⟩

theorem placed_none (h : die.dataBitOffset = none) (hlocation : die.dataMemberLocation < 4294967296)
    (hbytes : die.sized.byteSize = die.storageBytes)
    (hbits : die.sized.bitSize = 8 * die.storageBytes) (littleEndian : Bool) :
    (die.placed littleEndian).bitOffset =
        u32 (die.takenByte littleEndian * 8 + i8 (die.takenOffset littleEndian)) ∧
      (die.placed littleEndian).byteOffset = die.takenByte littleEndian ∧
      (die.placed littleEndian).bitfieldOffset = i8 (die.takenOffset littleEndian) := by
  have hbyte : die.sized.byteOffset = die.dataMemberLocation := by
    simp only [sized, BitfieldMember.figureOutSize, classMemberNew, h]
    exact u32_of_lt hlocation
  have hfields : die.sized.hasBitOffset = false ∧ die.sized.bitfieldOffset = i8 die.bitOffset ∧
      die.sized.bitfieldSize = die.bitSize % 256 := by
    simp only [sized, BitfieldMember.figureOutSize, classMemberNew, h, and_self]
  obtain ⟨hhas, hoffset, hsize⟩ := hfields
  have hadjust : die.sized.adjust littleEndian =
      { die.sized with
        bitfieldOffset := i8 (die.offsetInStorage littleEndian)
        bitOffset := u32 (die.dataMemberLocation * 8 + i8 (die.offsetInStorage littleEndian)) } := by
    have hstored : (if littleEndian = true then
        i8 (die.sized.bitSize - die.sized.bitfieldOffset - die.sized.bitfieldSize)
        else die.sized.bitfieldOffset) = i8 (die.offsetInStorage littleEndian) := by
      unfold offsetInStorage
      cases littleEndian with
      | true =>
          simp only [if_true, hbits, hoffset, hsize]
          unfold i8
          omega
      | false => exact hoffset
    simp only [BitfieldMember.adjust, hhas, Bool.false_eq_true, if_false, hstored, hbyte]
  have hnegative : die.isNegative littleEndian = true ↔
      i8 (die.offsetInStorage littleEndian) < 0 := by
    unfold isNegative i8
    rw [decide_eq_true_iff]
    omega
  simp only [placed, BitfieldMember.makeNonNegative, hadjust, takenByte, takenOffset]
  by_cases hneg : die.isNegative littleEndian = true
  · have hwrap : i8 (i8 (die.offsetInStorage littleEndian) + die.sized.bitSize) =
        i8 (die.offsetInStorage littleEndian + 8 * (die.storageBytes : ℤ)) := by
      rw [hbits]
      unfold i8
      omega
    simp only [if_pos (hnegative.mp hneg), if_pos hneg, hbyte, hbytes, hwrap]
    exact ⟨trivial, trivial, trivial⟩
  · have hpos : ¬i8 (die.offsetInStorage littleEndian) < 0 := fun hlt => hneg (hnegative.mpr hlt)
    simp only [if_neg hpos, if_neg hneg, hbyte]
    exact ⟨trivial, trivial, trivial⟩

theorem placed_bitOffset_lt (h : die.InStruct littleEndian structSize)
    (hsize : die.byteSize ≠ 0 ∨ die.type.size ≠ 0) :
    (die.placed littleEndian).bitOffset < 4294967296 := by
  have hlt : ∀ x : ℤ, u32 x < 4294967296 := by
    intro x
    unfold u32
    omega
  cases hdata : die.dataBitOffset with
  | some offset =>
      rw [(placed_some hdata littleEndian).1]
      exact hlt _
  | none =>
      have hbytes := (sized_byteSize_eq_iff h.storage).mpr hsize
      rw [(placed_none hdata h.location hbytes (sized_bitSize h hsize) littleEndian).1]
      exact hlt _

theorem bitInUnit_range (h : die.InStruct littleEndian structSize) :
    0 ≤ die.bitInUnit littleEndian :=
  Int.emod_nonneg _ (by have := h.storage; omega)

/-- The loader finds the bit that DWARF says, if the offsets fit. -/
theorem placed_firstBit_iff (h : die.InStruct littleEndian structSize)
    (hsize : die.byteSize ≠ 0 ∨ die.type.size ≠ 0) :
    ((die.placed littleEndian).bitOffset : ℤ) = die.firstBit littleEndian ↔
      die.firstBit littleEndian < 4294967296 ∧
        (die.dataBitOffset = none → (die.takenOffset littleEndian + 128) % 4294967296 < 256) := by
  have hfirst := h.first
  cases hdata : die.dataBitOffset with
  | some offset =>
      rw [(placed_some hdata littleEndian).1]
      simp only [firstBit, hdata, reduceCtorEq, false_implies, and_true]
      unfold u32
      omega
  | none =>
      have hbytes := (sized_byteSize_eq_iff h.storage).mpr hsize
      rw [(placed_none hdata h.location hbytes (sized_bitSize h hsize) littleEndian).1]
      have hstart : (8 * (die.takenByte littleEndian : ℤ) + die.takenOffset littleEndian -
          die.firstBit littleEndian) % 4294967296 = 0 := by
        simp only [firstBit, hdata, takenByte, takenOffset]
        split
        · unfold u32
          omega
        · omega
      simp only [true_implies]
      unfold u32 i8
      omega

/-- The alignment finds the unit of the bitfield, if the offsets fit. -/
theorem placed_unit_iff (h : die.InStruct littleEndian structSize)
    (hsize : die.byteSize ≠ 0 ∨ die.type.size ≠ 0)
    (hlt : die.firstBit littleEndian < 4294967296) :
    i8 ((die.placed littleEndian).bitfieldOffset +
        ((die.placed littleEndian).byteOffset % die.storageBytes * 8 : ℕ)) =
          die.bitInUnit littleEndian ↔
      die.bitInUnit littleEndian < 128 ∧ (die.dataBitOffset = none →
        (die.takenOffset littleEndian +
          8 * (die.takenByte littleEndian % die.storageBytes : ℕ) -
            die.bitInUnit littleEndian) % 256 = 0) := by
  have hnonneg := bitInUnit_range h
  rw [i8_eq_iff]
  cases hdata : die.dataBitOffset with
  | some offset =>
      obtain ⟨-, hbyte, hbitfield⟩ := placed_some hdata littleEndian
      have hoffset : u32 offset = offset := by
        have hfirst : die.firstBit littleEndian = offset := by
          simp only [firstBit, hdata]
        exact_mod_cast u32_of_lt (by omega : offset < 4294967296)
      have hunit : die.bitInUnit littleEndian =
          ((offset % 8 + 8 * (offset / 8 % die.storageBytes) : ℕ) : ℤ) := by
        rw [← Nat.mod_mul, bitInUnit]
        simp only [firstBit, hdata]
        push_cast
        rfl
      rw [hbyte, hbitfield, hoffset]
      simp only [reduceCtorEq, false_implies, and_true]
      omega
  | none =>
      have hbytes := (sized_byteSize_eq_iff h.storage).mpr hsize
      obtain ⟨-, hbyte, hbitfield⟩ :=
        placed_none hdata h.location hbytes (sized_bitSize h hsize) littleEndian
      rw [hbyte, hbitfield]
      simp only [true_implies]
      unfold i8
      omega

theorem load_byteSize (h : die.InStruct littleEndian structSize) (hbits : die.bitSize % 256 ≠ 0)
    (heq : (die.load littleEndian silly).byteSize = die.storageBytes) :
    die.byteSize ≠ 0 ∨ die.type.size ≠ 0 := by
  rw [← sized_byteSize_eq_iff h.storage]
  by_cases hzero : die.sized.byteSize = 0
  · have hnew : (classMemberNew die).bitfieldSize = die.bitSize % 256 := by
      unfold classMemberNew
      cases die.dataBitOffset <;> rfl
    have hload : (die.load littleEndian silly).byteSize = die.sized.byteSize := by
      unfold load BitfieldMember.cacheByteSize
      rw [if_neg (by rw [hnew]; exact hbits)]
      have hthen : ((classMemberNew die).figureOutSize die.type).byteSize = 0 := hzero
      simp only [hthen, if_true]
      exact hthen.symm
    rw [← hload, heq]
  · rw [load_eq hbits hzero, (fixupSilly_fields _ silly).1, (align_fields _).1,
      (placed_sizes die littleEndian).1] at heq
    exact heq

/-- A bitfield whose size is lost is loaded as a plain field. -/
theorem load_plain (hbits : die.bitSize % 256 = 0) :
    (die.load littleEndian silly).byteSize =
        (if die.byteSize ≠ 0 then die.byteSize else die.type.size) ∧
      (die.load littleEndian silly).byteOffset = (classMemberNew die).byteOffset ∧
      (die.load littleEndian silly).bitOffset = (classMemberNew die).bitOffset ∧
      (die.load littleEndian silly).bitfieldOffset = (classMemberNew die).bitfieldOffset := by
  unfold load BitfieldMember.cacheByteSize classMemberNew
  cases die.dataBitOffset <;> simp [hbits]

theorem plain_byteSize_iff (hstorage : 0 < die.storageBytes) :
    (if die.byteSize ≠ 0 then die.byteSize else die.type.size) = die.storageBytes ↔
      die.byteSize ≠ 0 ∨ die.type.size ≠ 0 := by
  unfold storageBytes StorageType.bytes at *
  by_cases hbyte : die.byteSize = 0
  · by_cases htype : die.type.size = 0
    · simp only [hbyte, htype, ne_eq, not_true_eq_false, if_false, if_true, or_self,
        iff_false] at hstorage ⊢
      omega
    · simp [hbyte, htype]
  · simp [hbyte]

theorem normalised_iff_plain (h : die.InStruct littleEndian structSize)
    (hbits : die.bitSize % 256 = 0) :
    die.Normalised littleEndian silly ↔ die.FitsPlain littleEndian := by
  have hstorage := h.storage
  have hsize := plain_byteSize_iff hstorage
  obtain ⟨hloadSize, hloadByte, hloadBit, hloadBitfield⟩ :=
    @load_plain die littleEndian silly hbits
  cases hdata : die.dataBitOffset with
  | some offset =>
      have hnew : classMemberNew die = ⟨u32 offset, 0, 0, die.byteSize, 0, die.bitSize % 256,
          true⟩ := by
        simp only [classMemberNew, hdata]
      rw [hnew] at hloadByte hloadBit hloadBitfield
      have hfirst : die.firstBit littleEndian = offset := by
        simp only [firstBit, hdata]
      constructor
      · intro hnormal
        have hbyte := hnormal.byteSize
        have hoffset := hnormal.bitOffset
        have hbit := hnormal.first
        rw [hloadSize] at hbyte
        rw [hloadBit, hloadByte, hloadBitfield] at hoffset
        rw [hloadBit, hfirst] at hbit
        refine ⟨hsize.mp hbyte, fun hnone => ?_, fun offset' heq => ?_⟩
        · rw [hdata] at hnone
          exact absurd hnone (by simp)
        · obtain rfl := Option.some.inj (hdata.symm.trans heq)
          simp only at hoffset hbit
          omega
      · intro hfits
        have hzero := hfits.start offset hdata
        subst hzero
        have hbyte := hloadSize.trans (hsize.mpr hfits.size)
        refine ⟨hbyte, ?_, ?_, ?_, ?_, ?_⟩
        · rw [hloadByte]
          exact Nat.zero_mod _
        · rw [hloadBit, hloadByte, hloadBitfield]
          rfl
        · rw [hloadBitfield]
        · rw [hloadBitfield, hbyte]
          simp only
          omega
        · rw [hloadBit, hfirst]
          rfl
  | none =>
      have hnew : classMemberNew die = ⟨u32 ((die.dataMemberLocation : ℤ) * 8), 0,
          die.dataMemberLocation, die.byteSize, i8 die.bitOffset, die.bitSize % 256, false⟩ := by
        simp only [classMemberNew, hdata, u32_of_lt h.location]
      rw [hnew] at hloadByte hloadBit hloadBitfield
      have hfirst : die.firstBit littleEndian =
          8 * (die.dataMemberLocation : ℤ) + die.offsetInStorage littleEndian := by
        simp only [firstBit, hdata]
      constructor
      · intro hnormal
        have hbyte := hnormal.byteSize
        have haligned := hnormal.aligned
        have hoffset := hnormal.bitOffset
        have hnonneg := hnormal.nonneg
        have hbit := hnormal.first
        rw [hbyte, hloadByte] at haligned
        rw [hloadBit, hloadByte, hloadBitfield] at hoffset
        rw [hloadBitfield] at hnonneg
        rw [hloadBit, hfirst] at hbit
        rw [hloadSize] at hbyte
        simp only at hoffset hnonneg hbit haligned
        unfold u32 at hoffset hbit
        unfold i8 at hoffset hnonneg
        refine ⟨hsize.mp hbyte, fun _ => ⟨by omega, haligned, by omega, by omega⟩,
          fun offset heq => ?_⟩
        rw [hdata] at heq
        exact absurd heq (by simp)
      · intro hfits
        obtain ⟨hlt, haligned, hzero, hstart⟩ := hfits.location hdata
        have hbyte := hloadSize.trans (hsize.mpr hfits.size)
        have hbit : u32 ((die.dataMemberLocation : ℤ) * 8) = die.dataMemberLocation * 8 := by
          exact_mod_cast u32_of_lt (by omega : die.dataMemberLocation * 8 < 4294967296)
        have hoffset : i8 die.bitOffset = 0 := by
          rw [i8_eq_iff]
          omega
        refine ⟨hbyte, ?_, ?_, ?_, ?_, ?_⟩
        · rw [hbyte, hloadByte]
          exact haligned
        · rw [hloadBit, hloadByte, hloadBitfield]
          simp only [hbit, hoffset]
          omega
        · rw [hloadBitfield]
          exact hoffset.ge
        · rw [hloadBitfield, hbyte]
          simp only [hoffset]
          omega
        · rw [hloadBit, hfirst, hstart]
          simp only [hbit]
          omega

/-- The loader puts a bitfield into an aligned unit of its storage at the bit that DWARF gives
if and only if `LoadsWell`: the offsets computed on the way fit the fields that hold them. -/
theorem normalised_iff (h : die.InStruct littleEndian structSize) :
    die.Normalised littleEndian silly ↔ die.LoadsWell littleEndian := by
  unfold LoadsWell
  by_cases hbits : die.bitSize % 256 = 0
  · rw [if_pos hbits]
    exact normalised_iff_plain h hbits
  · rw [if_neg hbits]
    constructor
    · intro hnormal
      have hsize := load_byteSize h hbits hnormal.byteSize
      obtain ⟨hfirst, hunit⟩ :=
        (normalised_iff_placed h hbits hsize (placed_bitOffset_lt h hsize)).mp hnormal
      obtain ⟨hlt, hoffset⟩ := (placed_firstBit_iff h hsize).mp hfirst
      obtain ⟨hinUnit, hsame⟩ := (placed_unit_iff h hsize hlt).mp hunit
      exact ⟨hsize, hlt, hinUnit, hoffset, hsame⟩
    · intro hfits
      refine (normalised_iff_placed h hbits hfits.size (placed_bitOffset_lt h hfits.size)).mpr
        ⟨(placed_firstBit_iff h hfits.size).mpr ⟨hfits.first, hfits.offset⟩, ?_⟩
      exact (placed_unit_iff h hfits.size hfits.first).mpr ⟨hfits.inUnit, hfits.unit⟩

/-- The bits 5 to 7 of an int at byte 4, little endian. -/
def intBitfield : DwarfBitfield := ⟨none, 4, 24, 4, 3, ⟨4, 32⟩⟩

theorem normalised_intBitfield : intBitfield.Normalised true false := by
  have hstruct : intBitfield.InStruct true 8 :=
    ⟨by decide, by decide, by decide, by decide, by decide, by decide, by decide⟩
  refine (normalised_iff hstruct).mpr ?_
  unfold LoadsWell
  rw [if_neg (by decide)]
  exact ⟨by decide, by decide, by decide, fun _ => by decide, fun _ => by decide⟩

/-- Five bits of an int that is at byte 2 of a packed struct, after twenty others. -/
def packedBitfield : DwarfBitfield := ⟨none, 2, 7, 4, 5, ⟨4, 32⟩⟩

theorem not_normalised_packedBitfield :
    packedBitfield.InStruct true 6 ∧ ¬packedBitfield.Normalised true false := by
  refine ⟨⟨by decide, by decide, by decide, by decide, by decide, by decide, by decide⟩, ?_⟩
  intro h
  exact absurd h.bitOffset (by decide)

end DwarfBitfield

end Pahole
