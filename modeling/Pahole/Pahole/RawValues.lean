import Pahole.Pahole.Prettify
import Pahole.Support.SignedBits

/-!
# Values of members in the records of a file

`base_type__value` of `pahole.c` reads the storage unit of a member and extends its sign
to 64 bits, whatever the type of the member is.  Printing takes a bit field out of it,
without a sign; the enumerator lookup and the filter take the whole unit.
-/

namespace Pahole.RawValues

open Pahole.Prettify SignedBits

/-- The fields of `struct class_member` that its value is read with, and the kind of its type.
-/
structure RawMember where
  byteOffset : ℕ
  byteSize : ℕ
  bitfieldOffset : ℕ
  bitfieldSize : ℕ
  isSigned : Bool
  /-- `tag__is_base_type`; the type is an enumeration otherwise -/
  isBaseType : Bool
  byteSize_eq : byteSize = 1 ∨ byteSize = 2 ∨ byteSize = 4 ∨ byteSize = 8
  fits : bitfieldOffset + bitfieldSize ≤ 8 * byteSize

/-- `struct enumerator`; `isEnumerator` is of its tag. -/
structure Enumerator where
  name : String
  value : ℕ
  isEnumerator : Bool
  deriving DecidableEq

/-- The text printed for a member. -/
inductive Shown where
  | enumeratorName (name : String)
  /-- `%PRIi64` -/
  | decimal (value : ℤ)
  /-- `%#PRIx64` -/
  | hex (value : ℕ)
  | hexdump (contents : List UInt8)
  deriving DecidableEq

/-! ## Reading values -/

/-- `base_type__value` of a member of a record, as a `uint64_t`. -/
def RawMember.baseTypeValue (member : RawMember) (bytes : List UInt8) : ℕ :=
  word (Prettify.baseTypeValue bytes member.byteOffset member.byteSize)

/-- The loop that makes the mask: `mask |= 1` for each bit, `mask <<= 1` but for the
last one. -/
def maskLoop : (bits mask : ℕ) → ℕ
  | 0, mask => mask
  | 1, mask => mask ||| 1
  | bits + 2, mask => maskLoop (bits + 1) ((mask ||| 1) <<< 1 % 2 ^ 64)

/-- `class_member__bitfield_value` -/
def RawMember.bitfieldValue (member : RawMember) (bytes : List UInt8) : ℕ :=
  let value := member.baseTypeValue bytes
  let mask := (maskLoop member.bitfieldSize 0 <<< member.bitfieldOffset) % 2 ^ 64
  (value &&& mask) >>> member.bitfieldOffset

/-- `enumeration__lookup_entry_from_value` -/
def enumerationLookupEntryFromValue (enumeration : List Enumerator) (value : ℕ) :
    Option Enumerator :=
  enumeration.find? fun entry => entry.isEnumerator && entry.value == value

/-- `enumerations__lookup_entry_from_value`, whose name is `enumerations__lookup_value`. -/
def enumerationsLookupEntryFromValue (enumerations : List (List Enumerator)) (value : ℕ) :
    Option Enumerator :=
  enumerations.findSome? fun enumeration => enumerationLookupEntryFromValue enumeration value

/-- `fprintf__value` -/
def fprintfValue (hexFmt : Bool) (value : ℕ) : Shown :=
  if hexFmt then .hex value else .decimal (signed 64 value)

/-- `base_type__fprintf_enum_value` -/
def fprintfEnumValue (hexFmt : Bool) (enumerations : List (List Enumerator)) (value : ℕ) :
    Shown :=
  match enumerationsLookupEntryFromValue enumerations value with
  | some entry => .enumeratorName entry.name
  | none => fprintfValue hexFmt value

/-- The branches of `__class__fprintf_value` for a base type, an enumeration or a bit
field; `typeEnum` is given for the member that `type=` names. -/
def RawMember.fprintf (member : RawMember) (hexFmt : Bool)
    (typeEnum : Option (List (List Enumerator))) (bytes : List UInt8) : Shown :=
  match typeEnum with
  | some (enumeration :: enumerations) =>
      fprintfEnumValue hexFmt (enumeration :: enumerations) (member.baseTypeValue bytes)
  | _ =>
      if member.bitfieldSize ≠ 0 then fprintfValue hexFmt (member.bitfieldValue bytes)
      else if member.isBaseType then fprintfValue hexFmt (member.baseTypeValue bytes)
      else .hexdump ((bytes.drop member.byteOffset).take member.byteSize)

/-- `strtoll` of an integer constant, which stays within what a `long long` holds. -/
def strtoll (constant : ℤ) : ℤ := max (-2 ^ 63) (min constant (2 ^ 63 - 1))

/-- The right operand that `class_member_filter__parse` reads. -/
inductive RightOperand where
  | constant (value : ℤ)
  | symbol (entry : Enumerator)

/-- `filter->right` -/
def RightOperand.right : RightOperand → ℕ
  | .constant value => word (strtoll value)
  | .symbol entry => entry.value

/-- `type__filter_value`, which is true of the records to leave out. -/
def RawMember.filterValue (member : RawMember) (operand : RightOperand)
    (bytes : List UInt8) : Bool :=
  member.baseTypeValue bytes != operand.right

/-! ## The values in C -/

/-- The storage unit of a member. -/
def RawMember.unit (member : RawMember) (bytes : List UInt8) : ℕ :=
  littleEndian ((bytes.drop member.byteOffset).take member.byteSize)

/-- The bits of a member. -/
def RawMember.field (member : RawMember) (bytes : List UInt8) : ℕ :=
  member.unit bytes / 2 ^ member.bitfieldOffset % 2 ^ member.bitfieldSize

/-- The C value of a member. -/
def RawMember.cValue (member : RawMember) (bytes : List UInt8) : ℤ :=
  if member.bitfieldSize = 0 then
    if member.isSigned then signed (8 * member.byteSize) (member.unit bytes)
    else member.unit bytes
  else if member.isSigned then signed member.bitfieldSize (member.field bytes)
  else member.field bytes

/-- The first enumerator with a value. -/
def enumeratorOf (enumerations : List (List Enumerator)) (value : ℤ) : Option Enumerator :=
  enumerations.flatten.find? fun entry => entry.isEnumerator && entry.value == word value

/-- A value as it is to be printed. -/
def showValue (hexFmt : Bool) (value : ℤ) : Shown :=
  if hexFmt then .hex (word value) else .decimal value

/-- The text for a member with a value. -/
def RawMember.expected (member : RawMember) (hexFmt : Bool)
    (typeEnum : Option (List (List Enumerator))) (bytes : List UInt8) (value : ℤ) : Shown :=
  match typeEnum with
  | some (enumeration :: enumerations) =>
      match enumeratorOf (enumeration :: enumerations) value with
      | some entry => .enumeratorName entry.name
      | none => showValue hexFmt value
  | _ =>
      if member.bitfieldSize ≠ 0 ∨ member.isBaseType then showValue hexFmt value
      else .hexdump ((bytes.drop member.byteOffset).take member.byteSize)

/-- The value is the right operand. -/
def RightOperand.Is (value : ℤ) : RightOperand → Prop
  | .constant k => value = k
  | .symbol entry => word value = entry.value

/-- The member is printed as `value`, the enumerator looked up is that of `value`, and the
filter keeps exactly the records with `value`. -/
structure RawMember.DecodesTo (member : RawMember) (bytes : List UInt8) (value : ℤ) :
    Prop where
  printed : ∀ hexFmt typeEnum,
    member.fprintf hexFmt typeEnum bytes = member.expected hexFmt typeEnum bytes value
  looked : ∀ enumerations,
    enumerationsLookupEntryFromValue enumerations (member.baseTypeValue bytes) =
      enumeratorOf enumerations value
  filtered : ∀ operand : RightOperand,
    member.filterValue operand bytes = false ↔ operand.Is value

/-! ## The mask -/

theorem or_one_of_even {k : ℕ} : (2 * k) ||| 1 = 2 * k + 1 :=
  (Nat.two_pow_add_eq_or_of_lt (i := 1) Nat.one_lt_two k).symm

/-- With `done` bits set and moved on, the loop sets the rest. -/
theorem maskLoop_eq {bits done : ℕ} (h : done + (bits + 1) ≤ 64) :
    maskLoop (bits + 1) (2 * (2 ^ done - 1)) = 2 ^ (done + (bits + 1)) - 1 := by
  have hpos : 0 < 2 ^ done := Nat.two_pow_pos done
  have hset : 2 * (2 ^ done - 1) ||| 1 = 2 ^ (done + 1) - 1 := by
    rw [or_one_of_even, pow_succ]
    omega
  induction bits generalizing done with
  | zero => rw [maskLoop, hset]
  | succ bits ih =>
      have hlt : 2 ^ (done + 1 + 1) ≤ 2 ^ 64 := Nat.pow_le_pow_right (by norm_num) (by omega)
      have hshift : (2 ^ (done + 1) - 1) <<< 1 % 2 ^ 64 = 2 * (2 ^ (done + 1) - 1) := by
        rw [Nat.shiftLeft_eq, Nat.mod_eq_of_lt] <;> omega
      rw [maskLoop, hset, hshift, ih (by omega) (Nat.two_pow_pos _) ?_]
      · congr 2
        omega
      · rw [or_one_of_even, pow_succ 2 (done + 1)]
        omega

theorem maskLoop_zero {bits : ℕ} (h : bits ≤ 64) : maskLoop bits 0 = 2 ^ bits - 1 := by
  cases bits with
  | zero => rfl
  | succ bits =>
      have heq : maskLoop (bits + 1) (2 * (2 ^ 0 - 1)) = 2 ^ (0 + (bits + 1)) - 1 :=
        maskLoop_eq (by omega)
      simpa using heq

section Values

variable {member : RawMember} {bytes : List UInt8}

theorem RawMember.unit_lt : member.unit bytes < 2 ^ (8 * member.byteSize) :=
  lt_of_lt_of_le littleEndian_lt
    (Nat.pow_le_pow_right (by norm_num) (Nat.mul_le_mul_left 8 (List.length_take_le _ _)))

theorem RawMember.bits_pos : 0 < 8 * member.byteSize := by
  have := member.byteSize_eq
  omega

theorem RawMember.bits_le : 8 * member.byteSize ≤ 64 := by
  have := member.byteSize_eq
  omega

/-- The value of the storage unit, with its sign extended. -/
def RawMember.extended (member : RawMember) (bytes : List UInt8) : ℤ :=
  signed (8 * member.byteSize) (member.unit bytes)

theorem RawMember.baseTypeValue_eq :
    member.baseTypeValue bytes = word (member.extended bytes) := by
  have hsize : member.byteSize = 4 ∨ member.byteSize = 8 ∨ member.byteSize = 1 ∨
      member.byteSize = 2 := by
    have := member.byteSize_eq
    omega
  unfold RawMember.baseTypeValue Prettify.baseTypeValue
  rw [if_pos hsize]
  rfl

theorem RawMember.extended_bounds :
    -2 ^ 63 ≤ member.extended bytes ∧ member.extended bytes < 2 ^ 63 :=
  signed_bounds RawMember.bits_pos RawMember.bits_le RawMember.unit_lt

/-- The value of a bitfield member is its field of the unit. -/
theorem RawMember.bitfieldValue_eq : member.bitfieldValue bytes = member.field bytes := by
  have hfits := member.fits
  have hle : 8 * member.byteSize ≤ 64 := RawMember.bits_le
  have hmask : (2 ^ member.bitfieldSize - 1) <<< member.bitfieldOffset < 2 ^ 64 := by
    rw [Nat.shiftLeft_eq]
    calc (2 ^ member.bitfieldSize - 1) * 2 ^ member.bitfieldOffset
        < 2 ^ member.bitfieldSize * 2 ^ member.bitfieldOffset :=
          Nat.mul_lt_mul_of_pos_right (Nat.sub_lt (Nat.two_pow_pos _) Nat.one_pos)
            (Nat.two_pow_pos _)
      _ = 2 ^ (member.bitfieldSize + member.bitfieldOffset) := (pow_add 2 _ _).symm
      _ ≤ 2 ^ 64 := Nat.pow_le_pow_right (by norm_num) (by omega)
  unfold RawMember.bitfieldValue RawMember.field RawMember.unit
  rw [maskLoop_zero (by omega), Nat.mod_eq_of_lt hmask, Nat.shiftRight_and_distrib,
    Nat.shiftLeft_shiftRight, Nat.and_two_pow_sub_one_eq_mod, Nat.shiftRight_eq_div_pow,
    RawMember.baseTypeValue_eq]
  exact field_word_signed hle RawMember.unit_lt hfits

theorem RawMember.field_lt : member.field bytes < 2 ^ member.bitfieldSize :=
  Nat.mod_lt _ (Nat.two_pow_pos _)

end Values

/-! ## Lookups and filters -/

section Lookups

theorem enumerationsLookup_word {enumerations : List (List Enumerator)} {value : ℤ} :
    enumerationsLookupEntryFromValue enumerations (word value) =
      enumeratorOf enumerations value :=
  List.find?_flatten.symm

/-- The filter with a constant keeps the constant, but for what `strtoll` saturates to. -/
theorem strtoll_filter_iff {v : ℤ} (hv : -2 ^ 63 ≤ v ∧ v < 2 ^ 63) :
    (∀ k, word v = word (strtoll k) ↔ v = k) ↔ v ≠ 2 ^ 63 - 1 ∧ v ≠ -2 ^ 63 := by
  have hclamp : ∀ k, -2 ^ 63 ≤ strtoll k ∧ strtoll k < 2 ^ 63 := by
    intro k
    unfold strtoll
    omega
  have hword : ∀ k, word v = word (strtoll k) ↔ v = strtoll k := fun k =>
    word_eq_word_iff hv (hclamp k)
  constructor
  · intro h
    constructor
    · rintro rfl
      have hk := (h (2 ^ 63)).mp ((hword _).mpr (by decide))
      omega
    · rintro rfl
      have hk := (h (-2 ^ 63 - 1)).mp ((hword _).mpr (by decide))
      omega
  · intro h k
    rw [hword, strtoll]
    omega

end Lookups

/-! ## Right values -/

section Decoding

variable {member : RawMember} {bytes : List UInt8} {value : ℤ}

theorem fprintfValue_word (h : -2 ^ 63 ≤ value ∧ value < 2 ^ 63) {hexFmt : Bool} :
    fprintfValue hexFmt (word value) = showValue hexFmt value := by
  unfold fprintfValue showValue
  rw [signed_word h]

theorem filterValue_eq_false {operand : RightOperand} :
    member.filterValue operand bytes = false ↔ word (member.extended bytes) = operand.right := by
  unfold RawMember.filterValue
  rw [bne_eq_false_iff_eq, RawMember.baseTypeValue_eq]

theorem filtered_iff (h : member.extended bytes = value) :
    (∀ operand : RightOperand, member.filterValue operand bytes = false ↔ operand.Is value) ↔
      value ≠ 2 ^ 63 - 1 ∧ value ≠ -2 ^ 63 := by
  have hbounds : -2 ^ 63 ≤ value ∧ value < 2 ^ 63 := h ▸ RawMember.extended_bounds
  rw [← strtoll_filter_iff hbounds]
  constructor
  · intro hall k
    have hk := hall (.constant k)
    rwa [filterValue_eq_false, h] at hk
  · intro hall operand
    rw [filterValue_eq_false, h]
    cases operand with
    | constant k => exact hall k
    | symbol entry => exact Iff.rfl

/-- If the filter keeps a record for `value` only, `value` is what is read. -/
theorem extended_eq_of_filtered
    (h : ∀ operand : RightOperand,
      member.filterValue operand bytes = false ↔ operand.Is value) :
    member.extended bytes = value := by
  have hbounds : -2 ^ 63 ≤ member.extended bytes ∧ member.extended bytes < 2 ^ 63 :=
    RawMember.extended_bounds
  have hclamp : strtoll (member.extended bytes) = member.extended bytes := by
    unfold strtoll
    omega
  have hself : member.filterValue (.constant (member.extended bytes)) bytes = false := by
    rw [filterValue_eq_false, RightOperand.right, hclamp]
  exact ((h _).mp hself).symm

/-- A member that is read as `value` is printed as `value`. -/
theorem fprintf_eq_expected (h : member.extended bytes = value)
    (hfield : member.bitfieldSize ≠ 0 → signed 64 (member.field bytes) = value)
    {hexFmt : Bool} {typeEnum : Option (List (List Enumerator))} :
    member.fprintf hexFmt typeEnum bytes = member.expected hexFmt typeEnum bytes value := by
  have hbounds : -2 ^ 63 ≤ value ∧ value < 2 ^ 63 := h ▸ RawMember.extended_bounds
  have hshown : fprintfValue hexFmt (member.baseTypeValue bytes) = showValue hexFmt value := by
    rw [RawMember.baseTypeValue_eq, h, fprintfValue_word hbounds]
  unfold RawMember.fprintf RawMember.expected
  split
  · unfold fprintfEnumValue
    rw [hshown, RawMember.baseTypeValue_eq, h, enumerationsLookup_word]
  · by_cases hbits : member.bitfieldSize = 0
    · rw [hshown]
      simp [hbits]
    · have hle : 2 ^ member.bitfieldSize ≤ 2 ^ 64 := by
        have hfits := member.fits
        have hunit : 8 * member.byteSize ≤ 64 := RawMember.bits_le
        exact Nat.pow_le_pow_right (by norm_num) (by omega)
      have hfieldWord : word value = member.field bytes := by
        rw [← hfield hbits]
        exact word_signed_self (lt_of_lt_of_le RawMember.field_lt hle)
      rw [if_pos hbits, if_pos (Or.inl hbits), RawMember.bitfieldValue_eq, ← hfieldWord,
        fprintfValue_word hbounds]

theorem decodesTo_iff :
    member.DecodesTo bytes value ↔
      member.extended bytes = value ∧
        (member.bitfieldSize ≠ 0 → signed 64 (member.field bytes) = value) ∧
        value ≠ 2 ^ 63 - 1 ∧ value ≠ -2 ^ 63 := by
  constructor
  · intro h
    have heq : member.extended bytes = value := extended_eq_of_filtered h.filtered
    refine ⟨heq, fun hbits => ?_, (filtered_iff heq).mp h.filtered⟩
    have hshown := h.printed false none
    unfold RawMember.fprintf RawMember.expected at hshown
    rw [if_pos hbits, if_pos (Or.inl hbits), RawMember.bitfieldValue_eq] at hshown
    exact Shown.decimal.inj hshown
  · rintro ⟨heq, hfield, hextreme⟩
    refine ⟨fun hexFmt typeEnum => fprintf_eq_expected heq hfield, fun enumerations => ?_,
      (filtered_iff heq).mpr hextreme⟩
    rw [RawMember.baseTypeValue_eq, heq, enumerationsLookup_word]

/-- The storage unit, read with a sign, is the value of the member, and it is neither of the
values that `strtoll` returns on overflow. -/
structure RawMember.ReadAsIs (member : RawMember) (bytes : List UInt8) : Prop where
  /-- for what fills its unit: signed, or small -/
  whole : member.bitfieldSize = 0 ∨ member.bitfieldSize = 64 →
    member.isSigned = true ∨ member.unit bytes < 2 ^ (8 * member.byteSize - 1)
  /-- for other bit fields: nothing else in the unit, and no sign -/
  part : member.bitfieldSize ≠ 0 → member.bitfieldSize ≠ 64 →
    member.unit bytes < 2 ^ (8 * member.byteSize - 1) ∧
      member.unit bytes = member.field bytes ∧
      (member.isSigned = true → member.field bytes < 2 ^ (member.bitfieldSize - 1))
  extreme : member.unit bytes ≠ 2 ^ 63 - 1 ∧ member.unit bytes ≠ 2 ^ 63

theorem extreme_iff :
    (member.extended bytes ≠ 2 ^ 63 - 1 ∧ member.extended bytes ≠ -2 ^ 63) ↔
      member.unit bytes ≠ 2 ^ 63 - 1 ∧ member.unit bytes ≠ 2 ^ 63 := by
  have hlt : member.unit bytes < 2 ^ (8 * member.byteSize) := RawMember.unit_lt
  unfold RawMember.extended signed
  rcases member.byteSize_eq with hsize | hsize | hsize | hsize <;> rw [hsize] at hlt ⊢ <;>
    norm_num at hlt ⊢ <;> split <;> omega

/-- The field of a bitfield of 64 bits is its whole unit. -/
theorem field_eq_unit (bytes : List UInt8) (h : member.bitfieldSize = 64) :
    8 * member.byteSize = 64 ∧ member.field bytes = member.unit bytes := by
  have hfits := member.fits
  have hle : 8 * member.byteSize ≤ 64 := RawMember.bits_le
  have hbits : 8 * member.byteSize = 64 := by omega
  have hoffset : member.bitfieldOffset = 0 := by omega
  have hlt : member.unit bytes < 2 ^ (8 * member.byteSize) := RawMember.unit_lt
  refine ⟨hbits, ?_⟩
  rw [hbits] at hlt
  rw [RawMember.field, h, hoffset, pow_zero, Nat.div_one, Nat.mod_eq_of_lt hlt]

/-- Sign extension gives the value of the whole unit exactly for signed members and for values
below the sign bit. -/
theorem extended_eq_whole_iff (member : RawMember) (bytes : List UInt8) :
    member.extended bytes =
        (if member.isSigned then signed (8 * member.byteSize) (member.unit bytes)
          else (member.unit bytes : ℤ)) ↔
      member.isSigned = true ∨ member.unit bytes < 2 ^ (8 * member.byteSize - 1) := by
  unfold RawMember.extended
  cases member.isSigned with
  | true => simp
  | false => simp [signed_eq_self_iff]

/-- A bit field that is narrower than 64 bits, as the two ways of reading it have it. -/
theorem part_iff (bytes : List UInt8) (hbits : member.bitfieldSize ≠ 0)
    (hwidth : member.bitfieldSize ≠ 64) :
    (member.extended bytes = member.cValue bytes ∧
        signed 64 (member.field bytes) = member.cValue bytes) ↔
      member.unit bytes < 2 ^ (8 * member.byteSize - 1) ∧
        member.unit bytes = member.field bytes ∧
        (member.isSigned = true → member.field bytes < 2 ^ (member.bitfieldSize - 1)) := by
  have hfits := member.fits
  have hle : 8 * member.byteSize ≤ 64 := RawMember.bits_le
  have hsmall : member.field bytes < 2 ^ (64 - 1) :=
    lt_of_lt_of_le RawMember.field_lt (Nat.pow_le_pow_right (by norm_num) (by omega))
  have hcValue : (member.field bytes : ℤ) = member.cValue bytes ↔
      (member.isSigned = true → member.field bytes < 2 ^ (member.bitfieldSize - 1)) := by
    unfold RawMember.cValue
    rw [if_neg hbits]
    cases member.isSigned with
    | true =>
        rw [if_pos rfl, eq_comm, signed_eq_self_iff]
        simp
    | false => simp
  rw [signed_of_lt hsmall, hcValue]
  constructor
  · rintro ⟨hext, hsign⟩
    rw [← hcValue.mpr hsign, RawMember.extended,
      signed_eq_natCast_iff RawMember.unit_lt] at hext
    exact ⟨hext.1, hext.2, hsign⟩
  · rintro ⟨hlt, heq, hsign⟩
    refine ⟨?_, hsign⟩
    rw [← hcValue.mpr hsign, RawMember.extended, signed_of_lt hlt, heq]

/-- The value that is read is the C value exactly for these storage units. -/
theorem reads_iff :
    (member.extended bytes = member.cValue bytes ∧
        (member.bitfieldSize ≠ 0 → signed 64 (member.field bytes) = member.cValue bytes)) ↔
      (member.bitfieldSize = 0 ∨ member.bitfieldSize = 64 →
          member.isSigned = true ∨ member.unit bytes < 2 ^ (8 * member.byteSize - 1)) ∧
        (member.bitfieldSize ≠ 0 → member.bitfieldSize ≠ 64 →
          member.unit bytes < 2 ^ (8 * member.byteSize - 1) ∧
            member.unit bytes = member.field bytes ∧
            (member.isSigned = true → member.field bytes < 2 ^ (member.bitfieldSize - 1))) := by
  by_cases hbits : member.bitfieldSize = 0
  · have hwhole := extended_eq_whole_iff member bytes
    rw [RawMember.cValue, if_pos hbits, hwhole]
    simp [hbits]
  · by_cases hwidth : member.bitfieldSize = 64
    · obtain ⟨hsize, hfield⟩ := field_eq_unit bytes hwidth
      have hwhole := extended_eq_whole_iff member bytes
      have hsame : signed 64 (member.field bytes) = member.extended bytes := by
        rw [RawMember.extended, hsize, hfield]
      have hcValue : member.cValue bytes =
          if member.isSigned then signed (8 * member.byteSize) (member.unit bytes)
          else (member.unit bytes : ℤ) := by
        rw [RawMember.cValue, if_neg hbits, hfield, hwidth, hsize]
      rw [hsame, hcValue, hwhole]
      simp [hwidth]
    · have hpart := part_iff bytes hbits hwidth
      constructor
      · rintro ⟨hext, hfield⟩
        exact ⟨fun h => absurd h (by simp [hbits, hwidth]),
          fun _ _ => hpart.mp ⟨hext, hfield hbits⟩⟩
      · rintro ⟨-, h⟩
        obtain ⟨hext, hfield⟩ := hpart.mpr (h hbits hwidth)
        exact ⟨hext, fun _ => hfield⟩

end Decoding

/-- A member is printed, looked up and filtered by its C value if and only if its storage unit,
read with a sign, is that value. -/
theorem decodesTo_cValue_iff (member : RawMember) (bytes : List UInt8) :
    member.DecodesTo bytes (member.cValue bytes) ↔ member.ReadAsIs bytes := by
  constructor
  · intro h
    obtain ⟨hext, hfield, hextreme⟩ := decodesTo_iff.mp h
    obtain ⟨hwhole, hpart⟩ := reads_iff.mp ⟨hext, hfield⟩
    rw [← hext] at hextreme
    exact ⟨hwhole, hpart, extreme_iff.mp hextreme⟩
  · intro h
    obtain ⟨hext, hfield⟩ := reads_iff.mpr ⟨h.whole, h.part⟩
    refine decodesTo_iff.mpr ⟨hext, hfield, ?_⟩
    rw [← hext]
    exact extreme_iff.mpr h.extreme

/-- `unsigned int b : 4`, after another bit field of four bits. -/
def upperBits : RawMember where
  byteOffset := 0
  byteSize := 4
  bitfieldOffset := 4
  bitfieldSize := 4
  isSigned := false
  isBaseType := true
  byteSize_eq := by decide
  fits := by decide

/-- `b` is 5, and `filter=b==5` leaves the record out. -/
theorem decodesTo_cValue_false :
    ¬upperBits.DecodesTo [0x53, 0, 0, 0] (upperBits.cValue [0x53, 0, 0, 0]) := by
  intro h
  have hkept := (h.filtered (.constant 5)).mpr
    (show upperBits.cValue [0x53, 0, 0, 0] = 5 by decide)
  exact absurd hkept (by decide)

/-- An `unsigned int`. -/
def unsignedInt : RawMember where
  byteOffset := 0
  byteSize := 4
  bitfieldOffset := 0
  bitfieldSize := 0
  isSigned := false
  isBaseType := true
  byteSize_eq := by decide
  fits := by decide

/-- The largest `unsigned int` is printed as -1. -/
example : unsignedInt.fprintf false none [0xff, 0xff, 0xff, 0xff] = .decimal (-1) := by decide

end Pahole.RawValues
