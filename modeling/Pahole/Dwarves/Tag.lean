import Mathlib.Tactic

/-!
# Tags and the types table

The data model of `dwarves.h`.  A CU keeps its types in a table indexed by
`type_id_t`.  Entry 0 stands for void, and an entry may be `NULL`, which the
loader uses for slots it has given up (alternate partial units that were
pruned, for instance).

`struct tag` is a C base "class": what a tag carries besides its `type` depends
on its `DW_TAG`.  Here that is an inductive type with one constructor for each
family of tags.
-/

namespace Pahole

/-- `type_id_t`, an index into the types table. -/
abbrev TypeId := ℕ

/-- `enum base_type_float_type`, with `none` for zero. -/
inductive FloatType where
  | none
  | single
  | double
  | cmplx
  | cmplxDbl
  | cmplxLdbl
  | ldbl
  | intvl
  | intvlDbl
  | intvlLdbl
  | imgry
  | imgryDbl
  | imgryLdbl
  deriving DecidableEq, Repr

/-- `struct base_type`. -/
structure BaseType where
  name : Option String
  bitSize : ℕ
  nameHasEncoding : Bool
  isSigned : Bool
  isBool : Bool
  isVarargs : Bool
  floatType : FloatType
  deriving DecidableEq, Repr

/-- `struct llvm_annotation`: a value and the component it is attached to. -/
structure LlvmAnnotation where
  value : String
  componentIdx : ℤ
  deriving DecidableEq, Repr

/-- The kinds of entries of a class's tag list that the walks over members tell apart. -/
inductive MemberTag where
  | member
  | inheritance
  | other
  deriving DecidableEq, Repr

/-- `struct class_member`. -/
structure ClassMember where
  tag : MemberTag
  name : Option String
  type : TypeId
  bitOffset : ℕ
  bitSize : ℕ
  byteOffset : ℕ
  byteSize : ℕ
  bitfieldOffset : ℤ
  bitfieldSize : ℕ
  isStatic : Bool
  hasBitOffset : Bool
  deriving DecidableEq, Repr

/-- `struct parameter`. -/
structure Parameter where
  name : Option String
  type : TypeId
  trueSigMemberName : Option String
  idx : ℕ
  hasLoc : Bool
  optimized : Bool
  locReg : ℤ
  locReg2 : ℤ
  locOffset : ℤ
  locValue : ℕ
  locSize : ℕ
  hasConstValue : Bool
  locConstValue : Bool
  locStack : Bool
  locDeref : Bool
  locAddr : Bool
  locSigned : Bool
  deriving DecidableEq, Repr

/-- `struct ftype`.  `nr_parms` is the length of `parms`. -/
structure Ftype where
  type : TypeId
  parms : List Parameter
  byteSize : ℕ
  unspecParms : Bool
  optimizedParms : Bool
  unexpectedReg : Bool
  inconsistentProto : Bool
  uncertainParmLoc : Bool
  reorderedParm : Bool
  signatureChanged : Bool
  deriving DecidableEq, Repr

/-- An entry of an enumeration: an enumerator, or a tag that is not one. -/
structure Enumerator where
  isEnumerator : Bool
  name : String
  value : ℕ
  deriving DecidableEq, Repr

inductive AggregateKind where
  | structType
  | unionType
  | classType
  deriving DecidableEq, Repr

/-- The part of `struct type` that structs, unions and classes use. -/
structure Aggregate where
  kind : AggregateKind
  name : Option String
  type : TypeId
  size : ℕ
  declaration : Bool
  members : List ClassMember
  annots : List LlvmAnnotation
  deriving DecidableEq, Repr

/-- The part of `struct type` that enumerations use; `size` is in bits. -/
structure Enumeration where
  name : Option String
  type : TypeId
  size : ℕ
  isSigned : Bool
  enumerators : List Enumerator
  deriving DecidableEq, Repr

/-- `tag__is_modifier` -/
inductive Modifier where
  | const
  | volatile
  | restrict
  | atomic
  deriving DecidableEq, Repr

/-- `struct tag`, for the tags that live in a types table. -/
inductive Tag where
  | baseType (bt : BaseType)
  | pointer (type : TypeId)
  | reference (type : TypeId)
  | modifier (kind : Modifier) (type : TypeId)
  | typedef (name : Option String) (type : TypeId) (annots : List LlvmAnnotation)
  /-- `DW_TAG_LLVM_annotation` and `DW_TAG_GNU_annotation` -/
  | llvmAnnotationType (value : String) (type : TypeId)
  | aggregate (ty : Aggregate)
  /-- `dimensions` is the length of `nrEntries` -/
  | array (type : TypeId) (nrEntries : List ℕ)
  | enumeration (ty : Enumeration)
  | subroutine (ftype : Ftype)
  | unspecified
  /-- every other `DW_TAG`, none of which BTF can express -/
  | unsupported (tag : ℕ) (type : TypeId)
  deriving DecidableEq, Repr

namespace Tag

/-- `tag->type` -/
def type : Tag → TypeId
  | .baseType _ => 0
  | .pointer t => t
  | .reference t => t
  | .modifier _ t => t
  | .typedef _ t _ => t
  | .llvmAnnotationType _ t => t
  | .aggregate ty => ty.type
  | .array t _ => t
  | .enumeration ty => ty.type
  | .subroutine ft => ft.type
  | .unspecified => 0
  | .unsupported _ t => t

end Tag

/-- `type__for_each_data_member` -/
def Aggregate.dataMembers (ty : Aggregate) : List ClassMember :=
  ty.members.filter fun m => m.tag = .member

/-- `nr_members`, which leaves static members out. -/
def Aggregate.nrMembers (ty : Aggregate) : ℕ :=
  ty.members.countP fun m => m.tag ≠ .other ∧ ¬m.isStatic

/-- `struct ptr_table`, as the table of types. -/
abbrev TypesTable := List (Option Tag)

namespace TypesTable

/-- `cu__type`: entry 0 is void, and ids outside the table have no type. -/
def type? (tbl : TypesTable) (id : TypeId) : Option Tag :=
  if id = 0 then none else (tbl[id]?).join

/-- The entries that `cu__for_each_type` visits, from core id `cid` on. -/
def entriesFrom : ℕ → List (Option Tag) → List (ℕ × Tag)
  | _, [] => []
  | cid, none :: rest => entriesFrom (cid + 1) rest
  | cid, some t :: rest => (cid, t) :: entriesFrom (cid + 1) rest

/-- `cu__for_each_type` -/
def entries (tbl : TypesTable) : List (ℕ × Tag) := entriesFrom 1 tbl.tail

theorem mem_entriesFrom {cid id : ℕ} {t : Tag} {rest : List (Option Tag)} :
    (id, t) ∈ entriesFrom cid rest ↔ cid ≤ id ∧ rest[id - cid]? = some (some t) := by
  induction rest generalizing cid with
  | nil => simp [entriesFrom]
  | cons entry rest ih =>
      have htail : (id, t) ∈ entriesFrom (cid + 1) rest ↔
          cid + 1 ≤ id ∧ (entry :: rest)[id - cid]? = some (some t) := by
        rw [ih]
        refine and_congr_right fun hle => ?_
        obtain ⟨k, rfl⟩ := Nat.exists_eq_add_of_le hle
        have h1 : cid + 1 + k - cid = k + 1 := by omega
        have h2 : cid + 1 + k - (cid + 1) = k := by omega
        rw [h1, h2, List.getElem?_cons_succ]
      have hhead : cid ≤ id ∧ (entry :: rest)[id - cid]? = some (some t) ↔
          (id = cid ∧ entry = some t) ∨
            (cid + 1 ≤ id ∧ (entry :: rest)[id - cid]? = some (some t)) := by
        rcases Nat.lt_trichotomy id cid with h | rfl | h
        · simp
          omega
        · simp
        · have hne : id ≠ cid := by omega
          have hle : cid ≤ id := by omega
          have hlt : cid + 1 ≤ id := by omega
          simp [hne, hle, hlt]
      rw [hhead, ← htail]
      cases entry with
      | none => simp [entriesFrom]
      | some t' =>
          simp only [entriesFrom, List.mem_cons, Prod.mk.injEq, Option.some.injEq]
          constructor
          · rintro (⟨rfl, rfl⟩ | h)
            · exact Or.inl ⟨rfl, rfl⟩
            · exact Or.inr h
          · rintro (⟨rfl, rfl⟩ | h)
            · exact Or.inl ⟨rfl, rfl⟩
            · exact Or.inr h

theorem mem_entries {tbl : TypesTable} {id : ℕ} {t : Tag} :
    (id, t) ∈ tbl.entries ↔ tbl.type? id = some t := by
  unfold entries type?
  rw [mem_entriesFrom]
  cases tbl with
  | nil => cases id <;> simp
  | cons e rest =>
      cases id with
      | zero => simp
      | succ n =>
          simp only [List.tail_cons, Nat.le_add_left, Nat.add_sub_cancel, true_and,
            Nat.add_eq_zero_iff, one_ne_zero, and_false, ↓reduceIte,
            List.getElem?_cons_succ]
          cases rest[n]? with
          | none => simp
          | some o => cases o <;> simp

/-- The first entry of a table comes after holes only. -/
theorem entriesFrom_eq_cons {cid id : ℕ} {t : Tag} {rest : List (Option Tag)}
    {xs : List (ℕ × Tag)} (h : entriesFrom cid rest = (id, t) :: xs) :
    ∃ holes rest', rest = holes ++ some t :: rest' ∧ (∀ e ∈ holes, e = none) ∧
      id = cid + holes.length ∧ xs = entriesFrom (id + 1) rest' := by
  induction rest generalizing cid with
  | nil => simp [entriesFrom] at h
  | cons e rest ih =>
      cases e with
      | none =>
          obtain ⟨holes, rest', hrest, hholes, hid, hxs⟩ := ih h
          refine ⟨none :: holes, rest', by simp [hrest], by simpa using hholes, ?_, hxs⟩
          simp only [List.length_cons]
          omega
      | some t' =>
          simp only [entriesFrom, List.cons.injEq, Prod.mk.injEq] at h
          obtain ⟨⟨rfl, rfl⟩, hxs⟩ := h
          exact ⟨[], rest, rfl, by simp, by simp, hxs.symm⟩

/-- The entries before an entry are those of the part of the table before it. -/
theorem entriesFrom_eq_append {cid id : ℕ} {t : Tag} {rest : List (Option Tag)}
    {xs ys : List (ℕ × Tag)} (h : entriesFrom cid rest = xs ++ (id, t) :: ys) :
    ∃ pre rest', rest = pre ++ some t :: rest' ∧ xs = entriesFrom cid pre ∧
      id = cid + pre.length := by
  induction rest generalizing cid xs with
  | nil => simp [entriesFrom] at h
  | cons e rest ih =>
      cases e with
      | none =>
          obtain ⟨pre, rest', hrest, hxs, hid⟩ := ih h
          refine ⟨none :: pre, rest', by simp [hrest], hxs, ?_⟩
          simp only [List.length_cons]
          omega
      | some t' =>
          cases xs with
          | nil =>
              simp only [entriesFrom, List.nil_append, List.cons.injEq, Prod.mk.injEq] at h
              obtain ⟨⟨rfl, rfl⟩, -⟩ := h
              exact ⟨[], rest, rfl, rfl, by simp⟩
          | cons x xs =>
              simp only [entriesFrom, List.cons_append, List.cons.injEq] at h
              obtain ⟨rfl, h⟩ := h
              obtain ⟨pre, rest', hrest, hxs, hid⟩ := ih h
              refine ⟨some t' :: pre, rest', by simp [hrest], by simp [entriesFrom, hxs], ?_⟩
              simp only [List.length_cons]
              omega

end TypesTable

end Pahole
