import Pahole.Pahole.Prettify
import Pahole.Support.SignedBits

/-!
# Members of the header by their paths

`type_instance__int_value` of `pahole.c` reads the member of a header that a dotted path
leads to.  It puts the terminator of a component in place of the first dot of the path
only: from the second component on, a name is looked up together with all that follows.
-/

namespace Pahole.HeaderPaths

open Prettify SignedBits

/-! ## Types of members -/

/-- `struct class_member`, but for its type.  A name is an identifier. -/
structure Member where
  name : Option (List Char)
  byteOffset : ℕ
  byteSize : ℕ
  bitfieldOffset : ℕ
  bitfieldSize : ℕ
  noDot : ∀ n ∈ name, '.' ∉ n
  fits : bitfieldOffset + bitfieldSize ≤ 8 * byteSize

/-- The type of a member, as far as paths go into it: what `cu__type` has for its id, if
it has anything. -/
inductive Tag where
  /-- a structure, a class or a union, with its data members -/
  | composite (members : List (Member × Option Tag))
  | enumeration
  | typedef (type : Option Tag)
  | base (isSigned : Bool)
  /-- what has no list where `struct type` has `namespace.tags`: a pointer, an array, a
  qualifier -/
  | other

/-- The data members of a structure, with their types. -/
abbrev Members := List (Member × Option Tag)

/-- `type__find_member_by_name` -/
def findMemberByName (members : Members) (name : List Char) : Option (Member × Option Tag) :=
  members.find? fun member => member.1.name == some name

/-- The list at `namespace.tags` of a tag that is taken for a `struct type`, without what
is not a data member.  That of a base type is its `node`, which is empty. -/
def Tag.tags : Tag → Option Members
  | .composite members => some members
  | .enumeration => some []
  | .typedef _ => some []
  | .base _ => some []
  | .other => none

/-- `tag__is_base_type`, with the signedness. -/
def Tag.baseType : Tag → Option Bool
  | .base isSigned => some isSigned
  | .typedef (some type) => type.baseType
  | _ => none

/-- `struct type_instance` -/
structure TypeInstance where
  members : Members
  bytes : List UInt8
  size_lt : bytes.length < 2 ^ 32

/-! ## Reading a member -/

/-- The result of a lookup. -/
inductive Lookup where
  | value (v : ℤ)
  /-- bytes that are not of the instance are read -/
  | outside
  /-- a NULL tag, or one that is no `struct type`, is dereferenced -/
  | invalid
  deriving DecidableEq

/-- `byte_offset += member->byte_offset`, as an `int`. -/
def addOffset (byteOffset : ℤ) (memberOffset : ℕ) : ℤ :=
  signed 32 ((byteOffset + memberOffset) % 2 ^ 32).toNat

/-- `base_type__value(&instance->instance[byte_offset], member->byte_size)` -/
def TypeInstance.valueAt (inst : TypeInstance) (byteOffset : ℤ) (size : ℕ) : Lookup :=
  if size = 4 ∨ size = 8 ∨ size = 1 ∨ size = 2 then
    if 0 ≤ byteOffset ∧ byteOffset + size ≤ inst.bytes.length then
      .value (baseTypeValue inst.bytes byteOffset.toNat size)
    else .outside
  else .value 0

/-- The end of `type_instance__int_value`, with a member. -/
def TypeInstance.readMember (inst : TypeInstance) (member : Member × Option Tag)
    (byteOffset : ℤ) : Lookup :=
  match member.2 with
  | none => .invalid
  | some type =>
      match type.baseType with
      | none => .value (-1)
      | some _ => inst.valueAt byteOffset member.1.byteSize

/-- Names, with the dots between them. -/
def dotted (names : List (List Char)) : List Char := ['.'].intercalate names

/-- The loop over the components, and the lookup after it.  `memberName` is looked up in
`members`, and `sep_mutable` is right before `next`, behind which there are `rest`. -/
def TypeInstance.walk (inst : TypeInstance) (members : Members) (byteOffset : ℤ)
    (memberName next : List Char) (rest : List (List Char)) : Lookup :=
  match findMemberByName members memberName with
  | none => .value (-1)
  | some (_, none) => .value (-1)
  | some (member, some type) =>
      match type.tags with
      | none => .invalid
      | some tags =>
          let byteOffset := addOffset byteOffset member.byteOffset
          match rest with
          | [] =>
              match findMemberByName tags next with
              | none => .value (-1)
              | some last => inst.readMember last (addOffset byteOffset last.1.byteOffset)
          | after :: rest =>
              inst.walk tags byteOffset (dotted (next :: after :: rest)) after rest

/-- `type_instance__int_value` -/
def TypeInstance.intValue (inst : TypeInstance) (memberName : List Char) : Lookup :=
  match findMemberByName inst.members memberName with
  | some member => inst.readMember member (addOffset 0 member.1.byteOffset)
  | none =>
      match memberName.splitOn '.' with
      | first :: next :: rest => inst.walk inst.members 0 first next rest
      | _ => .value (-1)

/-! ## Resolving a path -/

/-- A member of a base type, and where it is in the header. -/
structure Leaf where
  byteOffset : ℕ
  member : Member
  isSigned : Bool

/-- The members of the structure that a type is a name of. -/
def Tag.nested : Tag → Option Members
  | .composite members => some members
  | .typedef (some type) => type.nested
  | _ => none

/-- The components of a path lead through nested structures to a member of a base type. -/
def resolve : Members → List (List Char) → Option Leaf
  | _, [] => none
  | members, [name] =>
      (findMemberByName members name).bind fun found =>
        (found.2.bind Tag.baseType).map fun isSigned =>
          { byteOffset := found.1.byteOffset, member := found.1, isSigned := isSigned }
  | members, name :: next :: names =>
      (findMemberByName members name).bind fun found =>
        (found.2.bind Tag.nested).bind fun inner =>
          (resolve inner (next :: names)).map fun leaf =>
            { leaf with byteOffset := found.1.byteOffset + leaf.byteOffset }

/-- The storage unit of a leaf. -/
def Leaf.unit (leaf : Leaf) (bytes : List UInt8) : ℕ :=
  littleEndian ((bytes.drop leaf.byteOffset).take leaf.member.byteSize)

/-- The bits of a leaf that is a bit field. -/
def Leaf.field (leaf : Leaf) (bytes : List UInt8) : ℕ :=
  leaf.unit bytes / 2 ^ leaf.member.bitfieldOffset % 2 ^ leaf.member.bitfieldSize

/-- The C value of a leaf. -/
def Leaf.value (leaf : Leaf) (bytes : List UInt8) : ℤ :=
  if leaf.member.bitfieldSize = 0 then
    if leaf.isSigned then signed (8 * leaf.member.byteSize) (leaf.unit bytes)
    else leaf.unit bytes
  else if leaf.isSigned then signed leaf.member.bitfieldSize (leaf.field bytes)
  else leaf.field bytes

/-- The value that is stored in the instance, if the leaf is in it. -/
def Leaf.stored (leaf : Leaf) (bytes : List UInt8) : Option ℤ :=
  if leaf.byteOffset + leaf.member.byteSize ≤ bytes.length then some (leaf.value bytes)
  else none

/-- A path that resolves gives the stored value, one that does not gives -1, and an unsigned
member never gives -1. -/
structure TypeInstance.LooksUp (inst : TypeInstance) (path : List Char) : Prop where
  resolved : ∀ leaf, resolve inst.members (path.splitOn '.') = some leaf →
    ∃ v, leaf.stored inst.bytes = some v ∧ inst.intValue path = .value v
  unresolved : resolve inst.members (path.splitOn '.') = none →
    inst.intValue path = .value (-1)
  distinct : ∀ leaf, resolve inst.members (path.splitOn '.') = some leaf →
    leaf.isSigned = false → inst.intValue path ≠ .value (-1)

/-! ## The path that the code follows -/

/-- A member of the header or of one structure right in it, with where it is. -/
def nestedOnce (members : Members) : List (List Char) → Option (ℕ × Member × Option Tag)
  | [name] => (findMemberByName members name).map fun found => (found.1.byteOffset, found)
  | [name, inner] =>
      (findMemberByName members name).bind fun found =>
        match found.2 with
        | some (.composite members) =>
            (findMemberByName members inner).map fun last =>
              (found.1.byteOffset + last.1.byteOffset, last)
        | _ => none
  | _ => none

/-- The first of several components names a member whose type has members. -/
def Enters (members : Members) : List (List Char) → Prop
  | name :: _ :: _ =>
      ∀ member type, findMemberByName members name = some (member, some type) →
        type.tags ≠ none
  | _ => True

/-- A leaf whose storage unit, read as a signed number of its size, is its value. -/
structure Leaf.ReadsAsIs (leaf : Leaf) (bytes : List UInt8) : Prop where
  inside : leaf.byteOffset + leaf.member.byteSize ≤ bytes.length
  /-- of another size than that of an integer type, only 0 is read -/
  odd : leaf.member.byteSize ∉ [1, 2, 4, 8] → leaf.value bytes = 0
  offset : leaf.member.byteSize ∈ [1, 2, 4, 8] → leaf.byteOffset < 2 ^ 31
  whole : leaf.member.byteSize ∈ [1, 2, 4, 8] → leaf.member.bitfieldSize = 0 →
    leaf.isSigned = true ∨ leaf.unit bytes < 2 ^ (8 * leaf.member.byteSize - 1)
  unsignedField : leaf.member.byteSize ∈ [1, 2, 4, 8] → leaf.member.bitfieldSize ≠ 0 →
    leaf.isSigned = false →
    leaf.unit bytes < 2 ^ (8 * leaf.member.byteSize - 1) ∧ leaf.unit bytes = leaf.field bytes
  signedField : leaf.member.byteSize ∈ [1, 2, 4, 8] → leaf.member.bitfieldSize ≠ 0 →
    leaf.isSigned = true →
    leaf.unit bytes =
      extend leaf.member.bitfieldSize (8 * leaf.member.byteSize) (leaf.field bytes)

/-- The paths that the code follows to their end. -/
structure TypeInstance.Follows (inst : TypeInstance) (names : List (List Char)) : Prop where
  entered : Enters inst.members names
  typed : ∀ offset member, nestedOnce inst.members names ≠ some (offset, member, none)
  read : ∀ leaf, resolve inst.members names = some leaf →
    (nestedOnce inst.members names).isSome → leaf.ReadsAsIs inst.bytes
  /-- a path that is not followed, but leads to what is returned for those -/
  missed : ∀ leaf, resolve inst.members names = some leaf →
    nestedOnce inst.members names = none → leaf.stored inst.bytes = some (-1)

section Names

variable {members : Members} {name next : List Char} {rest : List (List Char)}

theorem dotted_cons_cons : dotted (name :: next :: rest) = name ++ '.' :: dotted (next :: rest) := by
  unfold dotted
  rw [List.intercalate_cons_cons, List.append_assoc]
  rfl

theorem dotted_singleton : dotted [name] = name := List.intercalate_singleton

@[simp] theorem findMemberByName_nil : findMemberByName [] name = none := rfl

/-- A path of several names is the name of no member. -/
theorem findMemberByName_dotted :
    findMemberByName members (dotted (name :: next :: rest)) = none := by
  unfold findMemberByName
  rw [List.find?_eq_none]
  intro member _ hname
  have hmem : dotted (name :: next :: rest) ∈ member.1.name := eq_of_beq hname
  apply member.1.noDot _ hmem
  rw [dotted_cons_cons]
  exact List.mem_append_right _ List.mem_cons_self

theorem dotted_splitOn {path : List Char} : dotted (path.splitOn '.') = path :=
  List.intercalate_splitOn '.'

end Names

section Walks

variable {inst : TypeInstance} {members : Members} {offset : ℤ} {name next : List Char}
  {rest : List (List Char)}

/-- From the second component of a longer path on nothing is found. -/
theorem walk_long {after : List Char} (h : ∀ member type,
    findMemberByName members name = some (member, some type) → type.tags ≠ none) :
    inst.walk members offset name next (after :: rest) = .value (-1) := by
  unfold TypeInstance.walk
  cases hfind : findMemberByName members name with
  | none => rfl
  | some found =>
      obtain ⟨member, type⟩ := found
      cases type with
      | none => rfl
      | some type =>
          cases htags : type.tags with
          | none => exact absurd htags (h member type hfind)
          | some tags =>
              dsimp only
              rw [htags]
              dsimp only
              unfold TypeInstance.walk
              rw [findMemberByName_dotted]

theorem walk_invalid {member : Member} {type : Tag}
    (hfind : findMemberByName members name = some (member, some type))
    (htags : type.tags = none) :
    inst.walk members offset name next rest = .invalid := by
  unfold TypeInstance.walk
  rw [hfind]
  dsimp only
  rw [htags]

theorem addOffset_addOffset {a b : ℕ} : addOffset (addOffset 0 a) b = addOffset 0 (a + b) := by
  unfold addOffset signed
  split <;> split <;> split <;> omega

/-- Of a path of two components, the code follows what is in a structure. -/
theorem walk_last (h : ∀ member type,
    findMemberByName members name = some (member, some type) → type.tags ≠ none) :
    inst.walk members 0 name next [] =
      (nestedOnce members [name, next]).elim (.value (-1)) fun found =>
        inst.readMember found.2 (addOffset 0 found.1) := by
  unfold TypeInstance.walk nestedOnce
  cases hfind : findMemberByName members name with
  | none => simp [hfind]
  | some found =>
      obtain ⟨member, type⟩ := found
      cases type with
      | none => simp [hfind]
      | some type =>
          have htags := h member type hfind
          cases type with
          | composite inner =>
              cases hlast : findMemberByName inner next with
              | none => simp [hfind, Tag.tags, hlast]
              | some last => simp [hfind, Tag.tags, hlast, addOffset_addOffset]
          | enumeration => simp [hfind, Tag.tags]
          | typedef type => simp [hfind, Tag.tags]
          | base isSigned => simp [hfind, Tag.tags]
          | other => exact absurd rfl htags

/-- The lookup of a path that starts with a member whose type has members reads the member found
with one level of nesting. -/
theorem intValue_eq {path : List Char} (h : Enters inst.members (path.splitOn '.')) :
    inst.intValue path =
      (nestedOnce inst.members (path.splitOn '.')).elim (.value (-1)) fun found =>
        inst.readMember found.2 (addOffset 0 found.1) := by
  have hpath : dotted (path.splitOn '.') = path := dotted_splitOn
  unfold TypeInstance.intValue
  cases hsplit : path.splitOn '.' with
  | nil => exact absurd hsplit (List.splitOn_ne_nil _ _)
  | cons name names =>
      rw [hsplit] at h hpath
      cases names with
      | nil =>
          rw [dotted_singleton] at hpath
          subst hpath
          cases hfind : findMemberByName inst.members name with
          | none => simp [nestedOnce, hfind]
          | some found => simp [nestedOnce, hfind]
      | cons next rest =>
          have hnone : findMemberByName inst.members path = none := by
            rw [← hpath]
            exact findMemberByName_dotted
          rw [hnone]
          cases rest with
          | nil => exact walk_last h
          | cons after rest => exact walk_long h

/-- The lookup of a path that does not enter the members is invalid. -/
theorem intValue_invalid {path : List Char} (h : ¬Enters inst.members (path.splitOn '.')) :
    inst.intValue path = .invalid := by
  have hpath : dotted (path.splitOn '.') = path := dotted_splitOn
  unfold TypeInstance.intValue
  cases hsplit : path.splitOn '.' with
  | nil => exact absurd hsplit (List.splitOn_ne_nil _ _)
  | cons name names =>
      rw [hsplit] at h hpath
      cases names with
      | nil => exact absurd trivial h
      | cons next rest =>
          have hnone : findMemberByName inst.members path = none := by
            rw [← hpath]
            exact findMemberByName_dotted
          rw [hnone]
          unfold Enters at h
          push Not at h
          obtain ⟨member, type, hfind, htags⟩ := h
          exact walk_invalid hfind htags

end Walks

section Reads

variable {inst : TypeInstance} {leaf : Leaf} {bytes : List UInt8}

theorem Leaf.unit_lt : leaf.unit bytes < 2 ^ (8 * leaf.member.byteSize) :=
  lt_of_lt_of_le littleEndian_lt
    (Nat.pow_le_pow_right (by norm_num) (Nat.mul_le_mul_left 8 (List.length_take_le _ _)))

theorem Leaf.field_lt : leaf.field bytes < 2 ^ leaf.member.bitfieldSize :=
  Nat.mod_lt _ (Nat.two_pow_pos _)

theorem Leaf.value_nonneg (h : leaf.isSigned = false) : 0 ≤ leaf.value bytes := by
  unfold Leaf.value
  rw [h]
  split <;> simp

/-- An offset below 2^31 added to 0 is unchanged. -/
theorem addOffset_of_lt {n : ℕ} (h : n < 2 ^ 31) : addOffset 0 n = n := by
  unfold addOffset signed
  split <;> omega

theorem addOffset_of_le {n : ℕ} (h : 2 ^ 31 ≤ n) (h' : n < 2 ^ 32) : addOffset 0 n < 0 := by
  unfold addOffset signed
  split <;> omega

/-- The storage unit as a signed number is the value exactly for these units. -/
theorem signed_unit_eq_value_iff (leaf : Leaf) (bytes : List UInt8) :
    signed (8 * leaf.member.byteSize) (leaf.unit bytes) = leaf.value bytes ↔
      (leaf.member.bitfieldSize = 0 →
          leaf.isSigned = true ∨ leaf.unit bytes < 2 ^ (8 * leaf.member.byteSize - 1)) ∧
        (leaf.member.bitfieldSize ≠ 0 → leaf.isSigned = false →
          leaf.unit bytes < 2 ^ (8 * leaf.member.byteSize - 1) ∧
            leaf.unit bytes = leaf.field bytes) ∧
        (leaf.member.bitfieldSize ≠ 0 → leaf.isSigned = true →
          leaf.unit bytes =
            extend leaf.member.bitfieldSize (8 * leaf.member.byteSize) (leaf.field bytes)) := by
  have hfits := leaf.member.fits
  unfold Leaf.value
  by_cases hbits : leaf.member.bitfieldSize = 0
  · cases hsign : leaf.isSigned with
    | false => simp [hbits, signed_eq_self_iff]
    | true => simp [hbits]
  · cases hsign : leaf.isSigned with
    | false => simp [hbits, signed_eq_natCast_iff Leaf.unit_lt]
    | true =>
        have hunit : leaf.unit bytes < 2 ^ (8 * leaf.member.byteSize) := Leaf.unit_lt
        have hfield : leaf.field bytes < 2 ^ leaf.member.bitfieldSize := Leaf.field_lt
        have hsame := signed_eq_signed_iff (Nat.pos_of_ne_zero hbits)
          (Nat.le_of_add_left_le hfits) hunit hfield
        simp [hbits, hsame]

/-- Reading at a leaf returns the stored value if and only if the leaf reads as it is. -/
theorem valueAt_eq_stored_iff (inst : TypeInstance) (leaf : Leaf) :
    (∃ v, leaf.stored inst.bytes = some v ∧
        inst.valueAt (addOffset 0 leaf.byteOffset) leaf.member.byteSize = .value v) ↔
      leaf.ReadsAsIs inst.bytes := by
  have hsize := inst.size_lt
  have hunit := signed_unit_eq_value_iff leaf inst.bytes
  by_cases hinside : leaf.byteOffset + leaf.member.byteSize ≤ inst.bytes.length
  · have hstored : leaf.stored inst.bytes = some (leaf.value inst.bytes) := if_pos hinside
    rw [hstored]
    simp only [Option.some_inj, exists_eq_left']
    unfold TypeInstance.valueAt
    by_cases hint : leaf.member.byteSize ∈ [1, 2, 4, 8]
    · have hcases : leaf.member.byteSize = 4 ∨ leaf.member.byteSize = 8 ∨
          leaf.member.byteSize = 1 ∨ leaf.member.byteSize = 2 := by
        simp only [List.mem_cons, List.not_mem_nil, or_false] at hint
        omega
      rw [if_pos hcases]
      by_cases hlt : leaf.byteOffset < 2 ^ 31
      · have hread : baseTypeValue inst.bytes leaf.byteOffset leaf.member.byteSize =
            signed (8 * leaf.member.byteSize) (leaf.unit inst.bytes) := if_pos hcases
        rw [addOffset_of_lt hlt, if_pos (by omega), Int.toNat_natCast, hread,
          Lookup.value.injEq, hunit]
        constructor
        · rintro ⟨hwhole, hunsigned, hsigned⟩
          exact ⟨hinside, fun h => absurd hint h, fun _ => hlt, fun _ => hwhole,
            fun _ => hunsigned, fun _ => hsigned⟩
        · intro h
          exact ⟨h.whole hint, h.unsignedField hint, h.signedField hint⟩
      · have hneg := addOffset_of_le (not_lt.mp hlt) (by omega)
        rw [if_neg (by omega)]
        constructor
        · intro h
          cases h
        · exact fun h => absurd (h.offset hint) hlt
    · have hcases : ¬(leaf.member.byteSize = 4 ∨ leaf.member.byteSize = 8 ∨
          leaf.member.byteSize = 1 ∨ leaf.member.byteSize = 2) := by
        simp only [List.mem_cons, List.not_mem_nil, or_false] at hint
        omega
      rw [if_neg hcases, Lookup.value.injEq, eq_comm]
      constructor
      · intro h
        exact ⟨hinside, fun _ => h, fun h => absurd h hint, fun h => absurd h hint,
          fun h => absurd h hint, fun h => absurd h hint⟩
      · exact fun h => h.odd hint
  · have hstored : leaf.stored inst.bytes = none := if_neg hinside
    rw [hstored]
    constructor
    · rintro ⟨v, h, -⟩
      cases h
    · exact fun h => absurd h.inside hinside

/-- A path that the code follows resolves if its last member is of a base type. -/
theorem resolve_of_nestedOnce {members : Members} {names : List (List Char)} {offset : ℕ}
    {member : Member} {type : Option Tag}
    (h : nestedOnce members names = some (offset, member, type)) :
    resolve members names = (type.bind Tag.baseType).map fun isSigned =>
      { byteOffset := offset, member := member, isSigned := isSigned } := by
  match names with
  | [] => cases h
  | [name] =>
      obtain ⟨found, hfind, hfound⟩ := Option.map_eq_some_iff.mp h
      obtain ⟨rfl, rfl⟩ := Prod.mk.inj hfound
      simp [resolve, hfind]
  | [name, inner] =>
      obtain ⟨found, hfind, hinner⟩ := Option.bind_eq_some_iff.mp h
      obtain ⟨outer, outerType⟩ := found
      match outerType, hinner with
      | some (.composite tags), hinner =>
          obtain ⟨last, hlast, hfound⟩ := Option.map_eq_some_iff.mp hinner
          obtain ⟨rfl, rfl⟩ := Prod.mk.inj hfound
          simp [resolve, hfind, hlast, Tag.nested, Function.comp_def]
  | _ :: _ :: _ :: _ => cases h

end Reads

section Lookups

variable {inst : TypeInstance} {path : List Char}

theorem stored_nonneg {leaf : Leaf} {bytes : List UInt8} {v : ℤ}
    (h : leaf.stored bytes = some v) (hsign : leaf.isSigned = false) : 0 ≤ v := by
  unfold Leaf.stored at h
  split at h
  · rw [← Option.some.inj h]
    exact Leaf.value_nonneg hsign
  · cases h

/-- A lookup is right if it gives the stored value of the leaf, or -1 without a leaf. -/
theorem LooksUp.of_resolved
    (hresolved : ∀ leaf, resolve inst.members (path.splitOn '.') = some leaf →
      ∃ v, leaf.stored inst.bytes = some v ∧ inst.intValue path = .value v)
    (hunresolved : resolve inst.members (path.splitOn '.') = none →
      inst.intValue path = .value (-1)) : inst.LooksUp path := by
  refine ⟨hresolved, hunresolved, fun leaf hleaf hsign hmistaken => ?_⟩
  obtain ⟨v, hstored, hvalue⟩ := hresolved leaf hleaf
  have hnonneg := stored_nonneg hstored hsign
  rw [hvalue, Lookup.value.injEq] at hmistaken
  omega

/-- The lookup of a path that is followed to a member is right if and only if it `Follows` the
path. -/
theorem looksUp_of_nestedOnce {offset : ℕ} {member : Member} {type : Option Tag}
    (henter : Enters inst.members (path.splitOn '.'))
    (hnested : nestedOnce inst.members (path.splitOn '.') = some (offset, member, type)) :
    inst.LooksUp path ↔ inst.Follows (path.splitOn '.') := by
  have hvalue : inst.intValue path = inst.readMember (member, type) (addOffset 0 offset) := by
    rw [intValue_eq henter, hnested]
    rfl
  have hresolve := resolve_of_nestedOnce hnested
  have hmissed : ∀ leaf, resolve inst.members (path.splitOn '.') = some leaf →
      nestedOnce inst.members (path.splitOn '.') = none →
      leaf.stored inst.bytes = some (-1) := by
    intro leaf _ hnone
    rw [hnested] at hnone
    cases hnone
  cases type with
  | none =>
      constructor
      · intro h
        have hfail := h.unresolved hresolve
        rw [hvalue] at hfail
        cases hfail
      · exact fun h => absurd hnested (h.typed offset member)
  | some type =>
      have htyped : ∀ offset member,
          nestedOnce inst.members (path.splitOn '.') ≠ some (offset, member, none) := by
        intro offset' member' h
        rw [hnested] at h
        cases h
      cases hbase : type.baseType with
      | none =>
          have hnone : resolve inst.members (path.splitOn '.') = none := by
            rw [hresolve, Option.bind_some, hbase]
            rfl
          have hread : inst.intValue path = .value (-1) := by
            rw [hvalue]
            unfold TypeInstance.readMember
            dsimp only
            rw [hbase]
          have hvacuous : ∀ {leaf}, resolve inst.members (path.splitOn '.') ≠ some leaf := by
            intro leaf h
            rw [hnone] at h
            cases h
          exact iff_of_true
            (LooksUp.of_resolved (fun leaf h => absurd h hvacuous) fun _ => hread)
            ⟨henter, htyped, fun leaf h => absurd h hvacuous, hmissed⟩
      | some isSigned =>
          let leaf : Leaf := { byteOffset := offset, member := member, isSigned := isSigned }
          have hleaf : resolve inst.members (path.splitOn '.') = some leaf := by
            rw [hresolve, Option.bind_some, hbase]
            rfl
          have hread : inst.intValue path =
              inst.valueAt (addOffset 0 leaf.byteOffset) leaf.member.byteSize := by
            rw [hvalue]
            unfold TypeInstance.readMember
            dsimp only
            rw [hbase]
          have hiff := valueAt_eq_stored_iff inst leaf
          rw [← hread] at hiff
          constructor
          · intro h
            refine ⟨henter, htyped, fun leaf' h' _ => ?_, hmissed⟩
            obtain rfl : leaf = leaf' := Option.some.inj (hleaf.symm.trans h')
            exact hiff.mp (h.resolved leaf hleaf)
          · intro h
            refine LooksUp.of_resolved (fun leaf' h' => ?_) fun h' => ?_
            · obtain rfl : leaf = leaf' := Option.some.inj (hleaf.symm.trans h')
              exact hiff.mpr (h.read leaf hleaf (by simp [hnested]))
            · rw [hleaf] at h'
              cases h'

/-- The lookup of a path that is not followed to a member is right if and only if it `Follows`
the path. -/
theorem looksUp_of_missed (henter : Enters inst.members (path.splitOn '.'))
    (hnested : nestedOnce inst.members (path.splitOn '.') = none) :
    inst.LooksUp path ↔ inst.Follows (path.splitOn '.') := by
  have hvalue : inst.intValue path = .value (-1) := by
    rw [intValue_eq henter, hnested]
    rfl
  constructor
  · intro h
    refine ⟨henter, fun offset member hsome => ?_, fun leaf _ hsome => ?_, fun leaf hleaf _ => ?_⟩
    · rw [hnested] at hsome
      cases hsome
    · rw [hnested] at hsome
      cases hsome
    · obtain ⟨v, hstored, hval⟩ := h.resolved leaf hleaf
      rw [hvalue, Lookup.value.injEq] at hval
      rw [hstored, hval]
  · intro h
    exact LooksUp.of_resolved (fun leaf hleaf => ⟨-1, h.missed leaf hleaf hnested, hvalue⟩)
      fun _ => hvalue

end Lookups

/-- A path gives the stored value, or -1 where it does not resolve, if and only if the code
follows it to its end, or stops before where it does not resolve. -/
theorem looksUp_iff (inst : TypeInstance) (path : List Char) :
    inst.LooksUp path ↔ inst.Follows (path.splitOn '.') := by
  by_cases henter : Enters inst.members (path.splitOn '.')
  · cases hnested : nestedOnce inst.members (path.splitOn '.') with
    | none => exact looksUp_of_missed henter hnested
    | some found => exact looksUp_of_nestedOnce henter hnested
  · have hinvalid := intValue_invalid henter
    constructor
    · intro h
      cases hresolve : resolve inst.members (path.splitOn '.') with
      | none =>
          have hvalue := h.unresolved hresolve
          rw [hinvalid] at hvalue
          cases hvalue
      | some leaf =>
          obtain ⟨v, -, hvalue⟩ := h.resolved leaf hresolve
          rw [hinvalid] at hvalue
          cases hvalue
    · exact fun h => absurd h.entered henter

/-- A member of the header of the failing lookup. -/
def plainMember (name : String) (byteOffset byteSize : ℕ) : Member where
  name := some (name.toList.filter (· ≠ '.'))
  byteOffset := byteOffset
  byteSize := byteSize
  bitfieldOffset := 0
  bitfieldSize := 0
  noDot := by simp
  fits := Nat.zero_le _

/-- `struct header { int magic; struct { struct { unsigned int offset; } data; } feat; }` -/
def nestedHeader : TypeInstance where
  members :=
    [(plainMember "magic" 0 4, some (.base true)),
      (plainMember "feat" 4 4, some (.composite
        [(plainMember "data" 0 4, some (.composite
          [(plainMember "offset" 0 4, some (.base false))]))]))]
  bytes := [1, 0, 0, 0, 16, 0, 0, 0]
  size_lt := by decide

/-- `feat.data.offset` is 16, and the lookup fails. -/
theorem looksUp_false : ¬nestedHeader.LooksUp "feat.data.offset".toList := by
  intro h
  have hresolve : resolve nestedHeader.members ("feat.data.offset".toList.splitOn '.') =
      some { byteOffset := 4, member := plainMember "offset" 0 4, isSigned := false } := rfl
  obtain ⟨v, hstored, hvalue⟩ := h.resolved _ hresolve
  have hfails : nestedHeader.intValue "feat.data.offset".toList = .value (-1) := by decide
  have hsixteen : Leaf.stored
      { byteOffset := 4, member := plainMember "offset" 0 4, isSigned := false }
      nestedHeader.bytes = some 16 := by decide
  rw [hsixteen] at hstored
  rw [hfails, ← Option.some.inj hstored] at hvalue
  exact absurd hvalue (by decide)

end Pahole.HeaderPaths
