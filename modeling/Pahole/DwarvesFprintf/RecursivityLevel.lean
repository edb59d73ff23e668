import Pahole.Dwarves.Tag
import Pahole.Support.Bracketed

/-!
# Recursivity levels

Where pointers are expanded, `type__fprintf` raises the `recursivity_level` of the type
that it has come to, so that the type is not expanded inside itself, and lowers it again
on its way out.  `tag__fprintf` does so where types are expanded.  This is the part of
`dwarves_fprintf.c` that decides which levels are raised and which calls are made before
they are lowered; what is printed does not matter to it.

Two returns of `type__fprintf` do not go by the common exit: both are from a type whose
type has the same type.
-/

namespace Pahole.Fprintf

open Bracketed

/-! ## Options and tags -/

/-- A `struct tag *`. -/
abbrev TagPtr := ℕ

/-- The parts of `struct conf_fprintf` that decide what is printed inside a type. -/
structure ConfFprintf where
  expandPointers : Bool
  expandTypes : Bool
  showOnlyDataMembers : Bool

/-- A member of a class or a union.  `bitHole` says that there is a bit hole in front of
it that is to be printed as a bit field without a name. -/
structure Member where
  type : TypeId
  nameLen : ℕ
  bitHole : Bool

/-- A tag on the list of a class. -/
inductive ClassEntry where
  /-- a data member or an ancestor -/
  | member (m : Member)
  | other (tag : TagPtr)

/-- A `struct tag`, with what printing goes by. -/
inductive Tag where
  | pointer (type : TypeId)
  | typedef (type : TypeId) (nameLen : ℕ)
  | const (type : TypeId)
  | atomic (type : TypeId)
  /-- `DW_TAG_LLVM_annotation` and `DW_TAG_GNU_annotation` -/
  | annotated (type : TypeId)
  /-- `zeroSized` is about the first dimension -/
  | array (type : TypeId) (zeroSized : Bool)
  | subroutine (type : TypeId)
  /-- a class or a struct, or a `DW_TAG_interface_type`; `forcedPaddings` is how often
  the type of the last member is printed as padding -/
  | class (interface named : Bool) (type : TypeId) (entries : List ClassEntry)
      (forcedPaddings : ℕ)
  | union (named : Bool) (type : TypeId) (members : List Member)
  | enumeration (named : Bool) (type : TypeId)
  /-- variables and constants, with the length of the name if there is one -/
  | variable (type : TypeId) (nameLen : Option ℕ)
  | namespace (type : TypeId) (tags : List TagPtr)
  | other (type : TypeId)

/-- `tag->type` -/
def Tag.type : Tag → TypeId
  | .pointer type | .typedef type _ | .const type | .atomic type | .annotated type
  | .array type _ | .subroutine type | .class _ _ type _ _ | .union _ type _
  | .enumeration _ type | .variable type _ | .namespace type _ | .other type => type

/-- The tags, and where the types are.  `cu__type` has no type for the id 0. -/
structure Cu where
  tag : TagPtr → Tag
  typeAt : TypeId → Option TagPtr

/-- `cu__type` -/
def Cu.type (cu : Cu) (id : TypeId) : Option TagPtr := if id = 0 then none else cu.typeAt id

/-- `tag__has_type_loop` -/
def Cu.hasTypeLoop (cu : Cu) (tag type : TagPtr) : Bool := (cu.tag tag).type = (cu.tag type).type

/-- A call of `type__fprintf`, with the length of `name`, or of `tag__fprintf`. -/
inductive Call where
  | type (type : Option TagPtr) (nameLen : ℕ)
  | tag (tag : TagPtr)

/-! ## Classes, unions and arrays -/

/-- `tag__is_struct`, `tag__is_union` or `tag__is_enumeration` -/
def Tag.isStructLike : Tag → Bool
  | .class .. | .union .. | .enumeration .. => true
  | _ => false

/-- `class_member__fprintf`, for a member whose type is found. -/
def classMemberFprintf (cu : Cu) (m : Member) (type : TagPtr) : Call :=
  .type (some type) (if (cu.tag type).isStructLike then 0 else m.nameLen)

/-- The calls of `__class__fprintf` for a tag on the list. -/
def classEntryFprintf (cu : Cu) (conf : ConfFprintf) : ClassEntry → List Call
  | .other tag => if conf.showOnlyDataMembers then [] else [.tag tag]
  | .member m =>
      match cu.type m.type with
      | none => []
      | some type =>
          (if m.bitHole then [.type (some type) 0] else []) ++ [classMemberFprintf cu m type]

/-- The type of the last member, if there is one. -/
def lastMember? (entries : List ClassEntry) : Option Member :=
  (entries.filterMap fun
    | .member m => some m
    | .other _ => none).getLast?

/-- `__class__fprintf` -/
def classFprintf (cu : Cu) (conf : ConfFprintf) (entries : List ClassEntry)
    (forcedPaddings : ℕ) : List Call :=
  entries.flatMap (classEntryFprintf cu conf) ++
    match lastMember? entries with
    | none => []
    | some last => List.replicate forcedPaddings (.type (cu.type last.type) 0)

/-- `union__fprintf` -/
def unionFprintf (cu : Cu) (members : List Member) : List Call :=
  members.filterMap fun m => (cu.type m.type).map (classMemberFprintf cu m)

/-- `union_decl__fprintf` -/
def unionDeclFprintf (cu : Cu) (conf : ConfFprintf) (named : Bool) (members : List Member) :
    List Call :=
  if named ∧ ¬conf.expandTypes then [] else unionFprintf cu members

/-- `array_type__fprintf` -/
def arrayTypeFprintf (cu : Cu) (type : TypeId) (zeroSized : Bool) (nameLen : ℕ) : List Call :=
  match cu.type type with
  | none => []
  | some element =>
      match zeroSized, cu.tag element with
      | true, .const inner => [.type (cu.type inner) nameLen]
      | _, _ => [.type (some element) nameLen]

/-! ## Types -/

/-- The result of a loop that follows pointers or typedefs. -/
inductive Followed where
  | at (type : TagPtr) (count : ℕ)
  /-- `goto out_type_not_found` -/
  | notFound
  /-- the return from a type loop -/
  | loop

/-- The loop over pointers, with `nr_indirections`. -/
def followPointers (cu : Cu) : (fuel : ℕ) → TagPtr → (nrIndirections : ℕ) → Option Followed
  | 0, _, _ => none
  | fuel + 1, type, nrIndirections =>
      match cu.tag type with
      | .pointer id =>
          if id = 0 then some (.at type nrIndirections)
          else
            match cu.type id with
            | none => some .notFound
            | some ttype =>
                if cu.hasTypeLoop type ttype then some .loop
                else followPointers cu fuel ttype (nrIndirections + 1)
      | _ => some (.at type nrIndirections)

/-- The loop over typedefs. -/
def followTypedefs (cu : Cu) : (fuel : ℕ) → TagPtr → Option Followed
  | 0, _ => none
  | fuel + 1, type =>
      match cu.tag type with
      | .typedef id _ =>
          match cu.type id with
          | none => some .notFound
          | some typeType =>
              if cu.hasTypeLoop type typeType then some .loop else followTypedefs cu fuel typeType
      | _ => some (.at type 0)

/-- `skip_tag_annotations` -/
def skipTagAnnotations (cu : Cu) : (fuel : ℕ) → TypeId → Option TypeId
  | 0, _ => none
  | fuel + 1, id =>
      if id = 0 then some id
      else
        match cu.type id with
        | none => some id
        | some type =>
            match cu.tag type with
            | .annotated next => if next = id then some id else skipTagAnnotations cu fuel next
            | _ => some id

/-- The cases of the `switch` for classes, unions and enumerations. -/
def structLikeFprintf (cu : Cu) (conf : ConfFprintf) (expandTypes : Bool) : Tag → List Call
  | .class interface named _ entries forcedPaddings =>
      if interface ∨ (named ∧ ¬expandTypes) then [] else classFprintf cu conf entries forcedPaddings
  | .union named _ members => unionDeclFprintf cu conf named members
  | _ => []

/-- `type__name(tag__type(tag)) == NULL` -/
def Tag.isUnnamed : Tag → Bool
  | .class _ named _ _ _ | .union named _ _ | .enumeration named _ => !named
  | _ => false

/-- The result of the `switch`. -/
inductive Switched where
  | calls (calls : List Call)
  | loop

/-- The `switch`, which is gone back to with `goto next_type` and `goto inner_struct`. -/
def switchFprintf (cu : Cu) (conf : ConfFprintf) (expandTypes : Bool) (nameLen : ℕ) :
    (fuel : ℕ) → TagPtr → Option Switched
  | 0, _ => none
  | fuel + 1, type =>
      let nextType := fun id : TypeId =>
        (cu.type id).elim (some (.calls [])) (switchFprintf cu conf expandTypes nameLen fuel)
      match cu.tag type with
      | .pointer id =>
          (skipTagAnnotations cu (fuel + 1) id).bind fun ptypeId =>
            match cu.type ptypeId with
            | none => some (.calls [])
            | some ptype =>
                if cu.hasTypeLoop type ptype then some .loop
                else if (cu.tag ptype).isStructLike ∧ (cu.tag ptype).isUnnamed then
                  some (.calls (structLikeFprintf cu conf expandTypes (cu.tag ptype)))
                else some (.calls [])
      | .const id | .atomic id | .annotated id => nextType id
      | .array id zeroSized => some (.calls (arrayTypeFprintf cu id zeroSized nameLen))
      | tag => some (.calls (structLikeFprintf cu conf expandTypes tag))

/-- `type__fprintf` from where `type_expanded` is known. -/
def expandedFprintf (cu : Cu) (conf : ConfFprintf) (fuel : ℕ) (typeExpanded : Option TagPtr)
    (expandTypes : Bool) (nameLen : ℕ) (type : TagPtr) : Option (Plan TagPtr Call) :=
  (if expandTypes then followTypedefs cu fuel type else some (.at type 0)).bind fun followed =>
    match followed with
    | .notFound => some { raised := typeExpanded, calls := [], early := false }
    | .loop => some { raised := typeExpanded, calls := [], early := true }
    | .at type _ =>
        (switchFprintf cu conf expandTypes nameLen fuel type).map fun switched =>
          match switched with
          | .calls calls => { raised := typeExpanded, calls := calls, early := false }
          | .loop => { raised := typeExpanded, calls := [], early := true }

/-- `sizeof(namebf)` -/
def sizeofNamebf : ℕ := 256

/-- `type__fprintf` -/
def typeFprintf (cu : Cu) (conf : ConfFprintf) (fuel : ℕ) (levels : Levels TagPtr)
    (type : Option TagPtr) (nameLen : ℕ) : Option (Plan TagPtr Call) :=
  match type with
  | none => some { raised := none, calls := [], early := false }
  | some type =>
      if conf.expandPointers then
        (followPointers cu fuel type 0).bind fun followed =>
          match followed with
          | .notFound => some { raised := none, calls := [], early := false }
          | .loop => some { raised := none, calls := [], early := true }
          | .at type nrIndirections =>
              if nrIndirections > 0 ∧ nameLen + nrIndirections ≥ sizeofNamebf then
                some { raised := none, calls := [], early := false }
              else
                expandedFprintf cu conf fuel (some type)
                  (nrIndirections ≠ 0 ∧ levels type = 0) (nameLen + nrIndirections) type
      else expandedFprintf cu conf fuel none conf.expandTypes nameLen type

/-! ## Tags -/

/-- `typedef__fprintf` -/
def typedefFprintf (cu : Cu) (conf : ConfFprintf) (nameLen : ℕ) :
    (fuel : ℕ) → TypeId → Option (List Call)
  | 0, _ => none
  | fuel + 1, id =>
      match cu.type id with
      | none => some []
      | some tagType =>
          match cu.tag tagType with
          | .atomic next => typedefFprintf cu conf nameLen fuel next
          | .array element zeroSized => some (arrayTypeFprintf cu element zeroSized nameLen)
          | tag => some (structLikeFprintf cu conf conf.expandTypes tag)

/-- `tag__fprintf` -/
def tagFprintf (cu : Cu) (conf : ConfFprintf) (fuel : ℕ) (tag : TagPtr) :
    Option (Plan TagPtr Call) :=
  let plan := fun calls : List Call =>
    { raised := if conf.expandTypes then some tag else none, calls := calls, early := false }
  match cu.tag tag with
  | .array element zeroSized => some (plan (arrayTypeFprintf cu element zeroSized 5))
  | .typedef id nameLen => (typedefFprintf cu conf nameLen fuel id).map plan
  | .class _ _ _ entries forcedPaddings => some (plan (classFprintf cu conf entries forcedPaddings))
  | .namespace _ tags => some (plan (tags.map .tag))
  | .union _ _ members => some (plan (unionFprintf cu members))
  | .variable id (some nameLen) =>
      some (plan ((cu.type id).toList.map fun type => .type (some type) nameLen))
  | _ => some (plan [])

/-- The plan of a call. -/
def planFprintf (cu : Cu) (conf : ConfFprintf) (fuel : ℕ) (levels : Levels TagPtr) :
    Call → Option (Plan TagPtr Call)
  | .type type nameLen => typeFprintf cu conf fuel levels type nameLen
  | .tag tag => tagFprintf cu conf fuel tag

/-- A whole call of `type__fprintf`: the levels afterwards, and what has been done by all
calls in it. -/
def printType (cu : Cu) (conf : ConfFprintf) (fuel : ℕ) (type : Option TagPtr) (nameLen : ℕ)
    (levels : Levels TagPtr) : Option (Levels TagPtr × List (Plan TagPtr Call)) :=
  run (planFprintf cu conf fuel) fuel (.type type nameLen) levels

end Pahole.Fprintf
