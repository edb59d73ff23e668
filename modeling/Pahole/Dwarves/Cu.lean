import Pahole.Dwarves.Tag

/-!
# Compilation units

What the encoder reads of a `struct cu` besides the types table: functions,
variables, inline expansions, and the ELF file they come from.  Also the lookups
over the types table that `dwarves.c` offers.
-/

namespace Pahole

/-- A symbol of an ELF symbol table. -/
structure ElfSym where
  name : Option String
  addr : ℕ
  /-- `STT_FUNC` -/
  isFunc : Bool
  /-- `STT_OBJECT` -/
  isObject : Bool
  secIdx : ℕ
  deriving DecidableEq, Repr

/-- The data that the encoder reads from an `Elf *` and from the `Dwfl_Module` opened on it. -/
structure Elf where
  /-- Identifies the ELF file. -/
  id : ℕ
  /-- The symbols, unless `elf_symtab__new` fails. -/
  symtab : Option (List ElfSym)
  /-- `ET_DYN` -/
  isDyn : Bool
  /-- `dwfl_module_address_section`: a section and the offset in it. -/
  addressSection : ℕ → Option (ℕ × ℕ)

/-- `struct function` -/
structure Function where
  proto : Ftype
  name : Option String
  addr : ℕ
  declaration : Bool
  external : Bool
  annots : List LlvmAnnotation
  deriving DecidableEq, Repr

/-- The fields of `struct variable` that a specification supplies. -/
structure VariableSpec where
  name : Option String
  type : TypeId
  external : Bool
  annots : List LlvmAnnotation
  deriving DecidableEq, Repr

/-- `struct variable` -/
structure Variable where
  own : VariableSpec
  addr : ℕ
  declaration : Bool
  artificial : Bool
  topLevel : Bool
  /-- `scope == VSCOPE_GLOBAL` -/
  scopeGlobal : Bool
  spec : Option VariableSpec
  deriving DecidableEq, Repr

/-- The variable that the name, type, linkage and annotations are taken from. -/
def Variable.described (var : Variable) : VariableSpec := var.spec.getD var.own

/-- `struct inline_expansion` -/
structure InlineExpansion where
  name : Option String
  addr : ℕ
  parms : List Parameter
  function : Option Function
  deriving DecidableEq, Repr

/-- `struct cu`.  The lists hold the entries that are not `NULL`. -/
structure Cu where
  addrSize : ℕ
  types : TypesTable
  functions : List Function
  vars : List Variable
  inlines : List InlineExpansion
  nrRegisterParams : ℕ
  /-- The `is_packed` that `class__infer_packed_attributes` gives a class. -/
  isPacked : TypeId → Bool
  elf : Option Elf
  /-- The loader gives a variable the id of a type there is, or zero. -/
  varTypes : ∀ var ∈ vars, var.described.type ≠ 0 →
    (types.type? var.described.type).isSome

/-! ## Lookups -/

/-- `base_type_fp_type_str` -/
def FloatType.str : FloatType → String
  | .none => ""
  | .single => "single"
  | .double => "double"
  | .cmplx => "complex"
  | .cmplxDbl => "complex double"
  | .cmplxLdbl => "complex long double"
  | .ldbl => "long double"
  | .intvl => "interval"
  | .intvlDbl => "interval double"
  | .intvlLdbl => "interval long double"
  | .imgry => "imaginary"
  | .imgryDbl => "imaginary double"
  | .imgryLdbl => "imaginary long double"

/-- `base_type__name`, into a buffer of 64 bytes.  `snprintf` prints a `NULL` name
as `(null)`. -/
def BaseType.fullName (bt : BaseType) : Option String :=
  if bt.nameHasEncoding then bt.name
  else
    let name := bt.name.getD "(null)"
    let text :=
      if bt.floatType ≠ .none then bt.floatType.str ++ " " ++ name
      else (if bt.isBool then "bool " else "") ++ (if bt.isVarargs then "... " else "") ++ name
    some (String.ofList (text.toList.take 63))

/-- `cu__find_base_type_by_name` -/
def TypesTable.findBaseTypeByName (tbl : TypesTable) (name : String) : Option TypeId :=
  (tbl.entries.find? fun
    | (_, .baseType bt) => bt.fullName = some name
    | _ => false).map Prod.fst

theorem TypesTable.findBaseTypeByName_mem {tbl : TypesTable} {name : String} {id : TypeId}
    (h : tbl.findBaseTypeByName name = some id) :
    ∃ bt, tbl.type? id = some (.baseType bt) := by
  unfold findBaseTypeByName at h
  rw [Option.map_eq_some_iff] at h
  obtain ⟨⟨id', t⟩, hfind, rfl⟩ := h
  have hmem := List.mem_of_find?_eq_some hfind
  have hname := List.find?_some hfind
  cases t with
  | baseType bt => exact ⟨bt, mem_entries.mp hmem⟩
  | _ => simp at hname

/-- `(size_t)-1` -/
def sizeMax : ℕ := 18446744073709551615

/-- `array_type__nr_entries` -/
def arrayNrEntries (nrEntries : List ℕ) : ℕ := nrEntries.prod % (sizeMax + 1)

/-- `tag__has_type_loop` -/
def Tag.hasTypeLoop (tag type : Tag) : Bool := tag.type = type.type

/-- `tag__size`.  References are followed at most `fuel` times; the code has no such
bound, but does not return from a cycle that `tag__has_type_loop` misses.  A
modifier of void is read as a `struct type` there, and has no size here. -/
def tagSize (addrSize : ℕ) (tbl : TypesTable) : (fuel : ℕ) → Tag → ℕ
  | fuel, tag =>
      let follow := fun type : TypeId =>
        match fuel with
        | 0 => sizeMax
        | fuel + 1 =>
            match tbl.type? type with
            | none => sizeMax
            | some t => if tag.hasTypeLoop t then sizeMax else tagSize addrSize tbl fuel t
      match tag with
      | .pointer _ | .reference _ => addrSize
      | .baseType bt => bt.bitSize / 8
      | .enumeration ty => ty.size / 8
      | .subroutine ft => if ft.byteSize ≠ 0 then ft.byteSize else addrSize
      | .aggregate ty =>
          if ty.type = 0 then
            if ty.size = 1 ∧ ty.nrMembers = 0 then 0 else ty.size
          else follow ty.type
      | .array type nrEntries =>
          if type = 0 then 0
          else if (tbl.type? type).all tag.hasTypeLoop then sizeMax
          else follow type * arrayNrEntries nrEntries % (sizeMax + 1)
      | .modifier _ type | .typedef _ type _ | .llvmAnnotationType _ type
      | .unsupported _ type =>
          if type = 0 then 0 else follow type
      | .unspecified => 0

/-- `tag__size` of the type of an id, for an id that has one. -/
def Cu.typeSize (cu : Cu) (id : TypeId) : ℕ :=
  match cu.types.type? id with
  | some t => tagSize cu.addrSize cu.types cu.types.length t
  | none => sizeMax

/-- `tag__is_struct` for the tags of the table that carry a `struct class` -/
def Tag.structName? : Tag → Option (Option String)
  | .aggregate ty => if ty.kind = .unionType then none else some ty.name
  | _ => none

end Pahole
