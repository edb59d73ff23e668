import Pahole.Dwarves.Cu
import Pahole.Support.Walks

/-!
# Walks over type references

`tag__is_base_type`, `tag__is_array`, `tag__follow_typedef`,
`tag__strip_typedefs_and_modifiers`, `tag__size` and `__tag__name` follow the `type`
of a tag, and of what they find there, through the types table.  Each is given here
with a bound on the depth of its calls, as the code has none, and `none` stands for a
walk that the bound cuts off.

Nothing in the code keeps a table from having cycles.  `tag__size` and `__tag__name`
notice a type that refers to itself, but no longer cycle; the others notice none.
-/

namespace Pahole

/-- The tag a reference leads to, if there is one. -/
def TypesTable.refs (tbl : TypesTable) (id : TypeId) : List Tag := (tbl.type? id).toList

theorem TypesTable.mem_refs {tbl : TypesTable} {id : TypeId} {tag : Tag} :
    tag ∈ tbl.refs id ↔ tbl.type? id = some tag := by
  simp [refs]

/-- A types table has finitely many tags. -/
theorem TypesTable.finite_tags (tbl : TypesTable) : {tag | ∃ id, tbl.type? id = some tag}.Finite := by
  have hsub : {tag | ∃ id, tbl.type? id = some tag} ⊆ {tag | some tag ∈ tbl} := by
    rintro tag ⟨id, h⟩
    unfold type? at h
    split at h
    · exact absurd h (by simp)
    · rw [Option.join_eq_some_iff] at h
      exact List.mem_of_getElem? h
  refine Set.Finite.subset ?_ hsub
  refine (List.finite_toSet (tbl.filterMap id)).subset fun tag htag => ?_
  simpa using htag

/-! ## Chains of one kind of reference -/

/-- `tag__is_base_type` -/
def tagIsBaseType (tbl : TypesTable) : (depth : ℕ) → Tag → Option Bool
  | 0, _ => none
  | depth + 1, tag =>
      match tag with
      | .baseType _ => some true
      | .typedef _ type _ =>
          match tbl.type? type with
          | none => some false
          | some t => tagIsBaseType tbl depth t
      | _ => some false

/-- The tags that `tag__is_base_type` calls itself for. -/
def baseTypeRefs (tbl : TypesTable) : Tag → List Tag
  | .typedef _ type _ => tbl.refs type
  | _ => []

/-- `tag__is_array` -/
def tagIsArray (tbl : TypesTable) : (depth : ℕ) → Tag → Option Bool
  | 0, _ => none
  | depth + 1, tag =>
      match tag with
      | .array _ _ => some true
      | .modifier .const type | .typedef _ type _ =>
          match tbl.type? type with
          | none => some false
          | some t => tagIsArray tbl depth t
      | _ => some false

/-- The tags that `tag__is_array` calls itself for. -/
def arrayRefs (tbl : TypesTable) : Tag → List Tag
  | .modifier .const type | .typedef _ type _ => tbl.refs type
  | _ => []

/-- `tag__is_typedef` -/
def Tag.isTypedef : Tag → Bool
  | .typedef _ _ _ => true
  | _ => false

/-- `tag__is_modifier` -/
def Tag.isModifier : Tag → Bool
  | .modifier _ _ => true
  | _ => false

/-- `tag__follow_typedef`, which returns a tag or `NULL`. -/
def tagFollowTypedef (tbl : TypesTable) : (depth : ℕ) → Tag → Option (Option Tag)
  | 0, _ => none
  | depth + 1, tag =>
      match tbl.type? tag.type with
      | none => some none
      | some type => if type.isTypedef then tagFollowTypedef tbl depth type else some (some type)

/-- The tags that `tag__follow_typedef` calls itself for. -/
def typedefRefs (tbl : TypesTable) (tag : Tag) : List Tag :=
  (tbl.refs tag.type).filter Tag.isTypedef

/-- `tag__strip_typedefs_and_modifiers`.  Its loop is a recursion here, `tag` being
the tag whose type it looks at next. -/
def tagStripTypedefsAndModifiers (tbl : TypesTable) :
    (depth : ℕ) → Tag → Option (Option Tag)
  | 0, _ => none
  | depth + 1, tag =>
      match tbl.type? tag.type with
      | none => some none
      | some type =>
          if type.isTypedef || type.isModifier then
            tagStripTypedefsAndModifiers tbl depth type
          else some (some type)

/-- The tags whose type `tag__strip_typedefs_and_modifiers` goes on to. -/
def strippedRefs (tbl : TypesTable) (tag : Tag) : List Tag :=
  (tbl.refs tag.type).filter fun type => type.isTypedef || type.isModifier

theorem tagIsBaseType_isSome {tbl : TypesTable} {depth : ℕ} {tag : Tag} :
    (tagIsBaseType tbl depth tag).isSome ↔ Walk.Within (baseTypeRefs tbl) depth tag := by
  induction depth generalizing tag with
  | zero => simp [tagIsBaseType]
  | succ depth ih =>
      rw [Walk.within_succ]
      cases tag with
      | typedef name type annots =>
          cases htype : tbl.type? type with
          | none => simp [tagIsBaseType, baseTypeRefs, TypesTable.refs, htype]
          | some t => simp [tagIsBaseType, baseTypeRefs, TypesTable.refs, htype, ih]
      | _ => simp [tagIsBaseType, baseTypeRefs]

theorem tagIsArray_isSome {tbl : TypesTable} {depth : ℕ} {tag : Tag} :
    (tagIsArray tbl depth tag).isSome ↔ Walk.Within (arrayRefs tbl) depth tag := by
  induction depth generalizing tag with
  | zero => simp [tagIsArray]
  | succ depth ih =>
      rw [Walk.within_succ]
      cases tag with
      | typedef name type annots =>
          cases htype : tbl.type? type with
          | none => simp [tagIsArray, arrayRefs, TypesTable.refs, htype]
          | some t => simp [tagIsArray, arrayRefs, TypesTable.refs, htype, ih]
      | modifier kind type =>
          cases kind with
          | const =>
              cases htype : tbl.type? type with
              | none => simp [tagIsArray, arrayRefs, TypesTable.refs, htype]
              | some t => simp [tagIsArray, arrayRefs, TypesTable.refs, htype, ih]
          | _ => simp [tagIsArray, arrayRefs]
      | _ => simp [tagIsArray, arrayRefs]

theorem tagFollowTypedef_isSome {tbl : TypesTable} {depth : ℕ} {tag : Tag} :
    (tagFollowTypedef tbl depth tag).isSome ↔ Walk.Within (typedefRefs tbl) depth tag := by
  induction depth generalizing tag with
  | zero => simp [tagFollowTypedef]
  | succ depth ih =>
      rw [Walk.within_succ]
      cases htype : tbl.type? tag.type with
      | none => simp [tagFollowTypedef, typedefRefs, TypesTable.refs, htype]
      | some type =>
          by_cases htypedef : type.isTypedef
          · simp [tagFollowTypedef, typedefRefs, TypesTable.refs, htype, htypedef, ih]
          · simp [tagFollowTypedef, typedefRefs, TypesTable.refs, htype, htypedef]

theorem tagStripTypedefsAndModifiers_isSome {tbl : TypesTable} {depth : ℕ} {tag : Tag} :
    (tagStripTypedefsAndModifiers tbl depth tag).isSome ↔
      Walk.Within (strippedRefs tbl) depth tag := by
  induction depth generalizing tag with
  | zero => simp [tagStripTypedefsAndModifiers]
  | succ depth ih =>
      rw [Walk.within_succ]
      cases htype : tbl.type? tag.type with
      | none => simp [tagStripTypedefsAndModifiers, strippedRefs, TypesTable.refs, htype]
      | some type =>
          by_cases hstrip : type.isTypedef || type.isModifier
          · simp only [tagStripTypedefsAndModifiers, htype, hstrip, ↓reduceIte, ih]
            simp [strippedRefs, TypesTable.refs, htype, hstrip]
          · simp only [tagStripTypedefsAndModifiers, htype, hstrip]
            simp [strippedRefs, TypesTable.refs, htype, hstrip]

/-! ## Sizes -/

/-- `DW_TAG_string_type` -/
def dwTagStringType : ℕ := 0x12

/-- The size of a tag that refers to no type. -/
def Tag.ownSize : Tag → ℕ
  | .aggregate ty => if ty.size = 1 ∧ ty.nrMembers = 0 then 0 else ty.size
  | _ => 0

/-- The size of an array, from that of its type. -/
def Tag.scaleSize (tag : Tag) (size : ℕ) : ℕ :=
  match tag with
  | .array _ nrEntries => size * arrayNrEntries nrEntries % (sizeMax + 1)
  | _ => size

/-- The tags whose size `tag__size` takes from their `type`. -/
def Tag.sizedByType : Tag → Bool
  | .baseType _ | .pointer _ | .reference _ | .enumeration _ | .subroutine _ => false
  | .unsupported kind _ => kind ≠ dwTagStringType
  | _ => true

section Size

variable (stringEntries : Tag → ℕ)

/-- `tag__size` for the tags that have a size of their own. -/
def Tag.directSize (addrSize : ℕ) : Tag → ℕ
  | .baseType bt => bt.bitSize / 8
  | .enumeration ty => ty.size / 8
  | .subroutine ft => if ft.byteSize ≠ 0 then ft.byteSize else addrSize
  | .unsupported kind type => stringEntries (.unsupported kind type)
  | _ => addrSize

/-- `tag__size` -/
def tagSizeWalk (addrSize : ℕ) (tbl : TypesTable) : (depth : ℕ) → Tag → Option ℕ
  | 0, _ => none
  | depth + 1, tag =>
      if tag.sizedByType then
        if tag.type = 0 then some (tag.scaleSize tag.ownSize)
        else
          match tbl.type? tag.type with
          | none => some sizeMax
          | some type =>
              if tag.hasTypeLoop type then some sizeMax
              else (tagSizeWalk addrSize tbl depth type).map tag.scaleSize
      else some (tag.directSize stringEntries addrSize)

/-- The tags that `tag__size` calls itself for. -/
def sizeRefs (tbl : TypesTable) (tag : Tag) : List Tag :=
  if tag.sizedByType then (tbl.refs tag.type).filter fun type => !tag.hasTypeLoop type else []

theorem tagSizeWalk_isSome {addrSize : ℕ} {tbl : TypesTable} {depth : ℕ} {tag : Tag} :
    (tagSizeWalk stringEntries addrSize tbl depth tag).isSome ↔
      Walk.Within (sizeRefs tbl) depth tag := by
  induction depth generalizing tag with
  | zero => simp [tagSizeWalk]
  | succ depth ih =>
      rw [Walk.within_succ]
      by_cases hsized : tag.sizedByType
      · by_cases hzero : tag.type = 0
        · simp [tagSizeWalk, sizeRefs, hsized, hzero, TypesTable.refs, TypesTable.type?]
        · cases htype : tbl.type? tag.type with
          | none => simp [tagSizeWalk, sizeRefs, hsized, hzero, TypesTable.refs, htype]
          | some type =>
              by_cases hloop : tag.hasTypeLoop type
              · simp [tagSizeWalk, sizeRefs, hsized, hzero, TypesTable.refs, htype, hloop]
              · simp [tagSizeWalk, sizeRefs, hsized, hzero, TypesTable.refs, htype, hloop, ih]
      · simp [tagSizeWalk, sizeRefs, hsized]

/-- `tag__size` of a member, whose size may be cached. -/
def memberSizeWalk (addrSize : ℕ) (tbl : TypesTable) (depth : ℕ) (member : ClassMember) :
    Option ℕ :=
  if member.isStatic then some 0
  else if member.byteSize ≠ 0 then some member.byteSize
  else if member.type = 0 then some 0
  else
    match tbl.type? member.type with
    | none => some sizeMax
    | some type =>
        if member.type = type.type then some sizeMax
        else tagSizeWalk stringEntries addrSize tbl depth type

/-- The tag that the size of a member is taken from. -/
def memberSizeRefs (tbl : TypesTable) (member : ClassMember) : List Tag :=
  if member.isStatic || member.byteSize ≠ 0 then []
  else (tbl.refs member.type).filter fun type => member.type ≠ type.type

theorem memberSizeWalk_isSome {addrSize : ℕ} {tbl : TypesTable} {depth : ℕ}
    {member : ClassMember} :
    (memberSizeWalk stringEntries addrSize tbl depth member).isSome ↔
      ∀ tag ∈ memberSizeRefs tbl member, Walk.Within (sizeRefs tbl) depth tag := by
  unfold memberSizeWalk memberSizeRefs
  by_cases hstatic : member.isStatic
  · simp [hstatic]
  by_cases hcached : member.byteSize = 0
  · by_cases hzero : member.type = 0
    · simp [hstatic, hcached, hzero, TypesTable.refs, TypesTable.type?]
    · cases htype : tbl.type? member.type with
      | none => simp [hstatic, hcached, hzero, TypesTable.refs, htype]
      | some type =>
          by_cases hloop : member.type = type.type
          · simp [hstatic, hcached, hzero, TypesTable.refs, htype, ← hloop]
          · simp [hstatic, hcached, hzero, TypesTable.refs, htype, hloop, tagSizeWalk_isSome]
  · simp [hstatic, hcached]

end Size

/-! ## Names -/

/-- The part of `struct conf_fprintf` that the names of types depend on. -/
structure NameConf where
  skipEmittingModifier : Bool
  noParmNames : Bool
  classesAsStructs : Bool
  /-- `cu->language == DW_LANG_C_plus_plus` -/
  cplusplus : Bool

/-- The string in a buffer of `len` bytes after `snprintf`. -/
def snprintf (len : ℕ) (text : String) : String := String.ofList (text.toList.take (len - 1))

/-- The string in a buffer of `len` bytes after `strncpy`, or after `fmemopen` and `fclose`. -/
def strncpy (len : ℕ) (text : String) : String := String.ofList (text.toList.take len)

/-- `tag__id_not_found_snprintf` -/
def idNotFound (fn : String) (line : ℕ) (id : TypeId) : String :=
  let hex := if id = 0 then "0" else "0x" ++ String.ofList (Nat.toDigits 16 id)
  "<ERROR(" ++ fn ++ ":" ++ toString line ++ "): " ++ hex ++ " not found!>"

/-- `dwarf_tag_name`, for the tags that the walks over names ask it about. -/
def Tag.dwarfTagName : Tag → String
  | .pointer _ => "pointer_type"
  | .reference _ => "reference_type"
  | .modifier .const _ => "const_type"
  | .modifier .volatile _ => "volatile_type"
  | .modifier .restrict _ => "restrict_type"
  | .modifier .atomic _ => "atomic_type"
  | .array _ _ => "array_type"
  | .unspecified => "unspecified_type"
  | .llvmAnnotationType _ _ => "LLVM_annotation"
  | _ => "ptr_to_member_type"

/-- The text that `tag__has_type_loop` prints. -/
def typeLoopText (fn : String) (line : ℕ) (tag : Tag) : String :=
  "<ERROR(" ++ fn ++ ":" ++ toString line ++ "): detected type loop: type=" ++
    toString tag.type ++ ", tag=" ++ tag.dwarfTagName ++ ">"

/-- `tag__prefix` -/
def Tag.namePrefix (conf : NameConf) : Tag → String
  | .enumeration _ => "enum "
  | .aggregate ty =>
      match ty.kind with
      | .structType => if !conf.classesAsStructs && conf.cplusplus then "class " else "struct "
      | .classType => if conf.classesAsStructs then "struct " else "class "
      | .unionType => "union "
  | _ => ""

/-- `type__name(tag__type(tag))` -/
def Tag.typeName? : Tag → Option String
  | .aggregate ty => ty.name
  | .enumeration ty => ty.name
  | .typedef name _ _ => name
  | _ => none

/-- `DW_TAG_ptr_to_member_type` -/
def dwTagPtrToMemberType : ℕ := 0x1f

/-- The step of `ftype__fprintf_parms` for a parameter. -/
inductive ParmAction where
  /-- print an error and return -/
  | stop (text : String)
  /-- print a text, with the name of the parameter or without -/
  | print (text : String) (named : Bool)
  /-- print the name of the type -/
  | name (type : Tag)
  | prototype (ftype : Ftype) (inlined isPointer isPrototype : Bool)

/-- `ftype__fprintf_parms`, for one parameter. -/
def parmAction (tbl : TypesTable) (pos : Parameter) : ParmAction :=
  match tbl.type? pos.type with
  | none => .print ("<ERROR: type " ++ toString pos.type ++ " not found>") true
  | some type =>
      match type with
      | .pointer pointee =>
          if pointee = 0 then .name type
          else
            match tbl.type? pointee with
            | none =>
                .print ("<ERROR(ftype__fprintf_parms:1277): " ++ toString pointee ++
                  " not found!>\n") false
            | some ptype =>
                if type.hasTypeLoop ptype then
                  .stop (typeLoopText "ftype__fprintf_parms" 1280 type ++ "\n")
                else
                  match ptype with
                  | .subroutine ft => .prototype ft false true true
                  | _ => .name type
      | .subroutine ft => .prototype ft true false false
      | _ => .name type

/-- The text that closes the list of parameters. -/
def parmsEnd (ftype : Ftype) (firstParm : Bool) : String :=
  if firstParm then "void)" else if ftype.unspecParms then ", ...)" else ")"

/-- `conf->no_parm_names ? NULL : parameter__name(pos)` -/
def parmName (conf : NameConf) (pos : Parameter) : Option String :=
  if conf.noParmNames then none else pos.name

/-- The loop of `ftype__fprintf_parms` with an indentation of 0.  `name` is the call
of `tag__name` and `prototype` that of `ftype__fprintf`. -/
def ftypeFprintfParms (tbl : TypesTable) (conf : NameConf) (name : Tag → Option String)
    (prototype : Ftype → Option String → Bool → Bool → Bool → Option String)
    (ftype : Ftype) : (firstParm : Bool) → List Parameter → Option String
  | firstParm, [] => some (parmsEnd ftype firstParm)
  | firstParm, pos :: parms =>
      let sep := if firstParm then "" else ", "
      let suffix := (parmName conf pos).elim "" (" " ++ ·)
      let rest := ftypeFprintfParms tbl conf name prototype ftype false parms
      match parmAction tbl pos with
      | .stop text => some (sep ++ text)
      | .print text named =>
          rest.map fun others => sep ++ text ++ (if named then suffix else "") ++ others
      | .name type =>
          (name type).bind fun stype => rest.map fun others => sep ++ stype ++ suffix ++ others
      | .prototype ft inlined isPointer isPrototype =>
          (prototype ft (parmName conf pos) inlined isPointer isPrototype).bind fun text =>
            rest.map fun others => sep ++ text ++ others

/-- The text of `ftype__fprintf` before the parameters, with the name of the type that is
returned. -/
def ftypeHead (stype : String) (name : Option String) (inlined isPointer isPrototype : Bool) :
    String :=
  (if inlined then "inline " else "") ++ stype ++ " " ++ (if isPrototype then "(" else "") ++
    (if isPointer then "*" else "") ++ name.getD "" ++ (if isPrototype then ")" else "") ++ "("

/-- The texts of a modifier before and after the name of a type. -/
def Tag.modifierTexts (conf : NameConf) (tag : Tag) : String × String :=
  if conf.skipEmittingModifier then ("", "")
  else
    match tag with
    | .modifier .volatile _ => ("volatile ", "")
    | .modifier .const _ => ("const ", "")
    | .modifier .restrict _ => ("", " restrict")
    | .modifier .atomic _ => ("_Atomic ", "")
    | _ => ("", "")

/-- The name of a modified type, given that of the type. -/
def Tag.modifiedName (conf : NameConf) (tag : Tag) (text : String) : String :=
  (tag.modifierTexts conf).1 ++ text ++ (tag.modifierTexts conf).2 ++
    (if conf.noParmNames then "" else " ")

/-- The tag that `tag__ptr_name` names before the star, and what it puts between: the
`const` of a constant pointer stands there. -/
def pointedTag (tbl : TypesTable) (conf : NameConf) (type : Tag) : Tag × String :=
  match type with
  | .modifier .const next =>
      match tbl.type? next with
      | some (.pointer t) =>
          (.pointer t, if conf.skipEmittingModifier then "" else "const ")
      | _ => (type, "")
  | _ => (type, "")

/-- `tag__ptr_name`.  `name` is the call of `__tag__name`. -/
def tagPtrName (tbl : TypesTable) (conf : NameConf) (name : Tag → ℕ → Option String)
    (tag : Tag) (len : ℕ) (ptrSuffix : String) : Option String :=
  if tag.type = 0 then some (snprintf len ("void " ++ ptrSuffix))
  else
    match tbl.type? tag.type with
    | none =>
        some (snprintf len (idNotFound "tag__ptr_name" 564 tag.type ++ " " ++ ptrSuffix))
    | some type =>
        if tag.hasTypeLoop type then some (snprintf len (typeLoopText "tag__ptr_name" 566 tag))
        else
          let pointed := pointedTag tbl conf type
          (name pointed.1 1024).map fun text =>
            snprintf len (text ++ " " ++ pointed.2 ++ ptrSuffix)

section Name

variable (tbl : TypesTable) (conf : NameConf)
variable (containingType : Tag → TypeId)

/-- The suffix of a `DW_TAG_ptr_to_member_type`. -/
def memberPtrSuffix (tag : Tag) : String :=
  match tbl.type? (containingType tag) with
  | some type => snprintf 512 (type.typeName?.getD "(null)" ++ "::*")
  | none => snprintf 512 (idNotFound "__tag__name" 630 (containingType tag) ++ "::*")

mutual

/-- `__tag__name` into a buffer of `len` bytes; `tag__name` is the same on a tag. -/
def tagName : (depth : ℕ) → Tag → (len : ℕ) → Option String
  | 0, _, _ => none
  | depth + 1, tag, len =>
      match tag with
      | .baseType bt =>
          some (strncpy len
            (if bt.name.isSome then bt.fullName.getD "" else "nameless base type!"))
      | .pointer _ => tagPtrName tbl conf (tagName depth) tag len "*"
      | .reference _ => tagPtrName tbl conf (tagName depth) tag len "&"
      | .modifier _ _ | .unspecified =>
          match tbl.type? tag.type with
          | none =>
              if tag.type ≠ 0 then some (snprintf len (idNotFound "__tag__name" 645 tag.type))
              else some (snprintf len (tag.modifiedName conf "void"))
          | some type =>
              if tag.hasTypeLoop type then
                some (snprintf len (typeLoopText "__tag__name" 646 tag))
              else (tagName depth type 128).map fun text => snprintf len (tag.modifiedName conf text)
      | .array _ _ =>
          match tbl.type? tag.type with
          | none => some (snprintf len (idNotFound "__tag__name" 667 tag.type))
          | some type =>
              if tag.hasTypeLoop type then
                some (snprintf len (typeLoopText "__tag__name" 668 tag))
              else tagName depth type len
      | .subroutine ft => (ftypeFprintf depth ft none false false true).map (strncpy len)
      | .llvmAnnotationType _ _ =>
          match tbl.type? tag.type with
          | none =>
              if tag.type ≠ 0 then some (snprintf len (idNotFound "__tag__name" 692 tag.type))
              else some (strncpy len "void")
          | some type =>
              if tag.hasTypeLoop type then
                some (snprintf len (typeLoopText "__tag__name" 693 tag))
              else tagName depth type len
      | .unsupported kind _ =>
          if kind = dwTagPtrToMemberType then
            tagPtrName tbl conf (tagName depth) tag len (memberPtrSuffix tbl containingType tag)
          else some (snprintf len "")
      | _ => some (snprintf len (tag.namePrefix conf ++ tag.typeName?.getD ""))

/-- `ftype__fprintf` with a `type_spacing` of 0. -/
def ftypeFprintf : (depth : ℕ) → Ftype → (name : Option String) →
    (inlined isPointer isPrototype : Bool) → Option String
  | 0, _, _, _, _, _ => none
  | depth + 1, ftype, name, inlined, isPointer, isPrototype =>
      let stype :=
        match tbl.type? ftype.type with
        | none => some (strncpy 128 "void")
        | some type => tagName depth type 128
      stype.bind fun stype =>
        (ftypeFprintfParms tbl conf (fun type => tagName depth type 128) (ftypeFprintf depth)
          ftype true ftype.parms).map fun parms =>
            ftypeHead stype name inlined isPointer isPrototype ++ parms

end

/-- A call that a walk over names makes. -/
inductive NameCall where
  | name (tag : Tag)
  | prototype (ftype : Ftype)

/-- The calls that `ftype__fprintf_parms` makes. -/
def parmCalls : List Parameter → List NameCall
  | [] => []
  | pos :: parms =>
      match parmAction tbl pos with
      | .stop _ => []
      | .print _ _ => parmCalls parms
      | .name type => .name type :: parmCalls parms
      | .prototype ft _ _ _ => .prototype ft :: parmCalls parms

/-- The types that `__tag__name` goes on to from a reference that does not end at
once. -/
def unloopedRefs (tag : Tag) : List Tag :=
  (tbl.refs tag.type).filter fun type => !tag.hasTypeLoop type

/-- The calls that `__tag__name` and `ftype__fprintf` make. -/
def nameCalls : NameCall → List NameCall
  | .name tag =>
      match tag with
      | .pointer _ | .reference _ =>
          (unloopedRefs tbl tag).map fun type => .name (pointedTag tbl conf type).1
      | .modifier _ _ | .unspecified | .array _ _ | .llvmAnnotationType _ _ =>
          (unloopedRefs tbl tag).map .name
      | .subroutine ft => [.prototype ft]
      | .unsupported kind _ =>
          if kind = dwTagPtrToMemberType then
            (unloopedRefs tbl tag).map fun type => .name (pointedTag tbl conf type).1
          else []
      | _ => []
  | .prototype ftype =>
      (tbl.refs ftype.type).map .name ++ parmCalls tbl ftype.parms

variable {tbl conf}

/-- Two calls, both of which have to return. -/
theorem isSome_bind_map {α β γ : Type} {x : Option α} {y : Option β} {text : α → β → γ} :
    (x.bind fun a => y.map (text a)).isSome ↔ x.isSome ∧ y.isSome := by
  cases x <;> simp

theorem ftypeFprintfParms_isSome {name : Tag → Option String}
    {prototype : Ftype → Option String → Bool → Bool → Bool → Option String}
    {done : NameCall → Prop} (hname : ∀ type, (name type).isSome ↔ done (.name type))
    (hproto : ∀ ft own inlined isPointer isPrototype,
      (prototype ft own inlined isPointer isPrototype).isSome ↔ done (.prototype ft))
    {ftype : Ftype} {firstParm : Bool} {parms : List Parameter} :
    (ftypeFprintfParms tbl conf name prototype ftype firstParm parms).isSome ↔
      ∀ call ∈ parmCalls tbl parms, done call := by
  induction parms generalizing firstParm with
  | nil => simp [ftypeFprintfParms, parmCalls]
  | cons pos parms ih =>
      unfold ftypeFprintfParms parmCalls
      cases parmAction tbl pos with
      | stop text => simp
      | print text named => simpa using ih
      | name type =>
          rw [List.forall_mem_cons, ← hname, ← @ih false]
          exact isSome_bind_map
      | prototype ft inlined isPointer isPrototype =>
          rw [List.forall_mem_cons, ← @ih false,
            ← hproto ft (parmName conf pos) inlined isPointer isPrototype]
          exact isSome_bind_map

theorem tagPtrName_isSome {name : Tag → ℕ → Option String} {done : NameCall → Prop}
    (hname : ∀ type len, (name type len).isSome ↔ done (.name type))
    {tag : Tag} {len : ℕ} {ptrSuffix : String} :
    (tagPtrName tbl conf name tag len ptrSuffix).isSome ↔
      ∀ call ∈ (unloopedRefs tbl tag).map fun type => NameCall.name (pointedTag tbl conf type).1,
        done call := by
  unfold tagPtrName unloopedRefs TypesTable.refs
  by_cases hzero : tag.type = 0
  · simp [hzero, TypesTable.type?]
  · cases htype : tbl.type? tag.type with
    | none => simp [hzero]
    | some type =>
        by_cases hloop : tag.hasTypeLoop type
        · simp [hzero, hloop]
        · simp [hzero, hloop, hname]

/-- A tag is named after its type exactly when all calls for the references that it follows
return. -/
theorem unlooped_isSome {done : NameCall → Prop} {tag : Tag} {name : Option String}
    (hnone : tbl.type? tag.type = none → name.isSome)
    (hloop : ∀ type, tbl.type? tag.type = some type → tag.hasTypeLoop type = true → name.isSome)
    (hcall : ∀ type, tbl.type? tag.type = some type → tag.hasTypeLoop type = false →
      (name.isSome ↔ done (.name type))) :
    name.isSome ↔ ∀ call ∈ (unloopedRefs tbl tag).map NameCall.name, done call := by
  unfold unloopedRefs TypesTable.refs
  cases htype : tbl.type? tag.type with
  | none => simp [hnone htype]
  | some type =>
      cases hself : tag.hasTypeLoop type with
      | true => simp [hself, hloop type htype hself]
      | false => simp [hself, hcall type htype hself]

/-- `tag__name` and `ftype__fprintf` return within the depth that their calls need. -/
theorem names_isSome (depth : ℕ) :
    (∀ tag len, (tagName tbl conf containingType depth tag len).isSome ↔
      Walk.Within (nameCalls tbl conf) depth (.name tag)) ∧
    (∀ ft own inlined isPointer isPrototype,
      (ftypeFprintf tbl conf containingType depth ft own inlined isPointer isPrototype).isSome ↔
        Walk.Within (nameCalls tbl conf) depth (.prototype ft)) := by
  induction depth with
  | zero => simp [tagName, ftypeFprintf]
  | succ depth ih =>
      obtain ⟨hname, hproto⟩ := ih
      refine ⟨fun tag len => ?_, fun ft own inlined isPointer isPrototype => ?_⟩
      · rw [Walk.within_succ]
        cases tag with
        | pointer _ | reference _ =>
            unfold tagName nameCalls
            exact tagPtrName_isSome hname
        | modifier _ _ | unspecified | llvmAnnotationType _ _ =>
            refine unlooped_isSome (fun hnone => ?_) (fun t ht hloop => ?_) fun t ht hloop => ?_
            · simp only [tagName, hnone]
              split <;> rfl
            · simp [tagName, ht, hloop]
            · simp [tagName, ht, hloop, hname]
        | array _ _ =>
            refine unlooped_isSome (fun hnone => ?_) (fun t ht hloop => ?_) fun t ht hloop => ?_
            · simp [tagName, hnone]
            · simp [tagName, ht, hloop]
            · simp [tagName, ht, hloop, hname]
        | subroutine ft => simp [tagName, nameCalls, hproto]
        | unsupported kind type =>
            by_cases hkind : kind = dwTagPtrToMemberType
            · simp only [tagName, nameCalls, hkind, ↓reduceIte]
              exact tagPtrName_isSome hname
            · simp [tagName, nameCalls, hkind]
        | _ => simp [tagName, nameCalls]
      · rw [Walk.within_succ]
        have hparms := @ftypeFprintfParms_isSome tbl conf
          (fun type => tagName tbl conf containingType depth type 128)
          (ftypeFprintf tbl conf containingType depth) (Walk.Within (nameCalls tbl conf) depth)
          (fun type => hname type 128) hproto ft true ft.parms
        have hcalls : nameCalls tbl conf (.prototype ft) =
            (tbl.refs ft.type).map .name ++ parmCalls tbl ft.parms := rfl
        unfold ftypeFprintf
        rw [isSome_bind_map, hparms, hcalls, List.forall_mem_append]
        refine and_congr_left fun _ => ?_
        cases htype : tbl.type? ft.type with
        | none => simp [TypesTable.refs, htype]
        | some type => simp [TypesTable.refs, htype, hname]

/-- The type or prototype that a call is for is an entry of the table. -/
def NameCall.InTable (tbl : TypesTable) : NameCall → Prop
  | .name type => ∃ id, tbl.type? id = some type
  | .prototype ft => ∃ id, tbl.type? id = some (.subroutine ft)

theorem finite_inTable (tbl : TypesTable) : {call | NameCall.InTable tbl call}.Finite := by
  have hinj : Function.Injective Tag.subroutine := fun _ _ h => Tag.subroutine.inj h
  have hproto : (Set.preimage Tag.subroutine {tag | ∃ id, tbl.type? id = some tag}).Finite :=
    tbl.finite_tags.preimage hinj.injOn
  refine ((tbl.finite_tags.image .name).union (hproto.image .prototype)).subset ?_
  rintro call hcall
  cases call with
  | name type => exact Or.inl ⟨type, hcall, rfl⟩
  | prototype ft => exact Or.inr ⟨ft, hcall, rfl⟩

/-- The type or prototype that a parameter is printed with is an entry of the table. -/
def ParmAction.InTable (tbl : TypesTable) : ParmAction → Prop
  | .stop _ | .print _ _ => True
  | .name type => ∃ id, tbl.type? id = some type
  | .prototype ft _ _ _ => ∃ id, tbl.type? id = some (.subroutine ft)

theorem inTable_parmAction (pos : Parameter) : (parmAction tbl pos).InTable tbl := by
  unfold parmAction
  split
  · trivial
  · rename_i type htype
    split
    · split
      · exact ⟨pos.type, htype⟩
      · split
        · trivial
        · rename_i ptype hptype
          split
          · trivial
          · split
            · exact ⟨_, hptype⟩
            · exact ⟨pos.type, htype⟩
    · exact ⟨pos.type, htype⟩
    · exact ⟨pos.type, htype⟩

/-- Every call for a parameter is for a tag of the table. -/
theorem inTable_of_mem_parmCalls {parms : List Parameter} {call : NameCall}
    (h : call ∈ parmCalls tbl parms) : call.InTable tbl := by
  induction parms with
  | nil => exact absurd h (by simp [parmCalls])
  | cons pos parms ih =>
      have hpos := @inTable_parmAction tbl pos
      unfold parmCalls at h
      cases haction : parmAction tbl pos with
      | stop text => simp [haction] at h
      | print text named =>
          simp only [haction] at h
          exact ih h
      | name type =>
          simp only [haction, List.mem_cons] at h
          rcases h with rfl | h
          · rw [haction] at hpos
            exact hpos
          · exact ih h
      | prototype ft inlined isPointer isPrototype =>
          simp only [haction, List.mem_cons] at h
          rcases h with rfl | h
          · rw [haction] at hpos
            exact hpos
          · exact ih h

theorem inTable_pointedTag {id : TypeId} {type : Tag} (h : tbl.type? id = some type) :
    (NameCall.name (pointedTag tbl conf type).1).InTable tbl := by
  unfold pointedTag
  split
  · split
    · exact ⟨_, ‹_›⟩
    · exact ⟨id, h⟩
  · exact ⟨id, h⟩

theorem exists_of_mem_unloopedRefs {tag type : Tag} (h : type ∈ unloopedRefs tbl tag) :
    ∃ id, tbl.type? id = some type :=
  ⟨tag.type, TypesTable.mem_refs.mp (List.mem_of_mem_filter h)⟩

/-- A prototype that is not in the table is called for only by its own tag. -/
theorem inTable_of_mem_nameCalls {caller call : NameCall}
    (h : call ∈ nameCalls tbl conf caller) :
    call.InTable tbl ∨ ∃ ft, caller = .name (.subroutine ft) ∧ call = .prototype ft := by
  have hpointed : ∀ tag, call ∈ (unloopedRefs tbl tag).map
      (fun type => NameCall.name (pointedTag tbl conf type).1) → call.InTable tbl := by
    intro tag hcall
    obtain ⟨type, htype, rfl⟩ := List.mem_map.mp hcall
    obtain ⟨id, hid⟩ := exists_of_mem_unloopedRefs htype
    exact inTable_pointedTag hid
  have hrefs : ∀ tag, call ∈ (unloopedRefs tbl tag).map NameCall.name → call.InTable tbl := by
    intro tag hcall
    obtain ⟨type, htype, rfl⟩ := List.mem_map.mp hcall
    exact exists_of_mem_unloopedRefs htype
  cases caller with
  | name tag =>
      cases tag with
      | pointer _ | reference _ => exact Or.inl (hpointed _ h)
      | modifier _ _ | unspecified | array _ _ | llvmAnnotationType _ _ =>
          exact Or.inl (hrefs _ h)
      | subroutine ft => exact Or.inr ⟨ft, rfl, List.mem_singleton.mp h⟩
      | unsupported kind type =>
          by_cases hkind : kind = dwTagPtrToMemberType
          · simp only [nameCalls, hkind, ↓reduceIte] at h
            exact Or.inl (hpointed _ h)
          · simp [nameCalls, hkind] at h
      | _ => simp [nameCalls] at h
  | prototype ft =>
      rcases List.mem_append.mp h with hret | hparm
      · obtain ⟨type, htype, rfl⟩ := List.mem_map.mp hret
        exact Or.inl ⟨ft.type, TypesTable.mem_refs.mp htype⟩
      · exact Or.inl (inTable_of_mem_parmCalls hparm)

/-- The walk over a name returns unless its calls can come back to one of them. -/
theorem names_return_iff {tag : Tag} :
    (∃ depth, ∀ len, (tagName tbl conf containingType depth tag len).isSome) ↔
      ¬Walk.Cyclic (nameCalls tbl conf) (.name tag) := by
  have hwithin : ∀ depth, (∀ len, (tagName tbl conf containingType depth tag len).isSome) ↔
      Walk.Within (nameCalls tbl conf) depth (.name tag) := by
    intro depth
    have hiff := (@names_isSome tbl conf containingType depth).1 tag
    exact ⟨fun h => (hiff 0).mp (h 0), fun h len => (hiff len).mpr h⟩
  let own : Set NameCall := {call | ∃ ft, tag = .subroutine ft ∧ call = .prototype ft}
  have hown : own.Finite := by
    refine Set.Subsingleton.finite ?_
    rintro _ ⟨ft, hft, rfl⟩ _ ⟨ft', hft', rfl⟩
    rw [Tag.subroutine.inj (hft.symm.trans hft')]
  have hfin := ((finite_inTable tbl).union hown).insert (NameCall.name tag)
  refine (exists_congr hwithin).trans (Walk.exists_within_iff hfin (Or.inl rfl) ?_)
  intro caller hcaller call hcall
  rcases inTable_of_mem_nameCalls hcall with hin | ⟨ft, rfl, rfl⟩
  · exact Or.inr (Or.inl hin)
  · rcases hcaller with heq | ⟨id, hid⟩ | ⟨ft', hft', heq⟩
    · exact Or.inr (Or.inr ⟨ft, (NameCall.name.inj heq).symm, rfl⟩)
    · exact Or.inr (Or.inl ⟨id, hid⟩)
    · exact absurd heq (by simp)

end Name

/-! ## When the walks return -/

/-- A walk over tags returns unless its references can come back to a tag. -/
theorem refs_return_iff {tbl : TypesTable} {refs : Tag → List Tag} {tag : Tag}
    (hrefs : ∀ tag, ∀ t ∈ refs tag, t ∈ tbl.refs tag.type) :
    (∃ depth, Walk.Within refs depth tag) ↔ ¬Walk.Cyclic refs tag := by
  refine Walk.exists_within_iff (tbl.finite_tags.insert tag) (Or.inl rfl) ?_
  intro caller _ t ht
  exact Or.inr ⟨caller.type, TypesTable.mem_refs.mp (hrefs caller t ht)⟩

theorem mem_refs_of_mem_baseTypeRefs {tbl : TypesTable} {tag t : Tag}
    (h : t ∈ baseTypeRefs tbl tag) : t ∈ tbl.refs tag.type := by
  cases tag with
  | typedef _ _ _ => exact h
  | _ => exact absurd h (by simp [baseTypeRefs])

theorem mem_refs_of_mem_arrayRefs {tbl : TypesTable} {tag t : Tag}
    (h : t ∈ arrayRefs tbl tag) : t ∈ tbl.refs tag.type := by
  cases tag with
  | typedef _ _ _ => exact h
  | modifier kind type =>
      cases kind with
      | const => exact h
      | _ => exact absurd h (by simp [arrayRefs])
  | _ => exact absurd h (by simp [arrayRefs])

theorem mem_refs_of_mem_sizeRefs {tbl : TypesTable} {tag t : Tag} (h : t ∈ sizeRefs tbl tag) :
    t ∈ tbl.refs tag.type := by
  unfold sizeRefs at h
  split at h
  · exact List.mem_of_mem_filter h
  · exact absurd h (by simp)

/-- A member has the size of its type when none is cached, and is no further away from
a cycle than that. -/
theorem memberSize_returns_iff {stringEntries : Tag → ℕ} {addrSize : ℕ} {tbl : TypesTable}
    {member : ClassMember} :
    (∃ depth, (memberSizeWalk stringEntries addrSize tbl depth member).isSome) ↔
      ∀ tag ∈ memberSizeRefs tbl member, ¬Walk.Cyclic (sizeRefs tbl) tag := by
  have hsize : ∀ tag, (∃ depth, Walk.Within (sizeRefs tbl) depth tag) ↔
      ¬Walk.Cyclic (sizeRefs tbl) tag :=
    fun tag => refs_return_iff fun _ _ => mem_refs_of_mem_sizeRefs
  simp only [memberSizeWalk_isSome, ← hsize]
  exact ⟨fun ⟨depth, h⟩ tag htag => ⟨depth, h tag htag⟩, Walk.exists_within⟩

/-- Each of the six walks over the types table returns from every type if and only if the
references that it follows have no cycle, where `tag__size` and `__tag__name` do not follow a
reference of a type to itself. -/
theorem walks_return_iff (tbl : TypesTable) (addrSize : ℕ) (conf : NameConf)
    (stringEntries : Tag → ℕ) (containingType : Tag → TypeId) (tag : Tag)
    (member : ClassMember) :
    ((∃ depth, (tagIsBaseType tbl depth tag).isSome) ↔
      ¬Walk.Cyclic (baseTypeRefs tbl) tag) ∧
    ((∃ depth, (tagIsArray tbl depth tag).isSome) ↔ ¬Walk.Cyclic (arrayRefs tbl) tag) ∧
    ((∃ depth, (tagFollowTypedef tbl depth tag).isSome) ↔
      ¬Walk.Cyclic (typedefRefs tbl) tag) ∧
    ((∃ depth, (tagStripTypedefsAndModifiers tbl depth tag).isSome) ↔
      ¬Walk.Cyclic (strippedRefs tbl) tag) ∧
    ((∃ depth, (tagSizeWalk stringEntries addrSize tbl depth tag).isSome) ↔
      ¬Walk.Cyclic (sizeRefs tbl) tag) ∧
    ((∃ depth, (memberSizeWalk stringEntries addrSize tbl depth member).isSome) ↔
      ∀ type ∈ memberSizeRefs tbl member, ¬Walk.Cyclic (sizeRefs tbl) type) ∧
    ((∃ depth, ∀ len, (tagName tbl conf containingType depth tag len).isSome) ↔
      ¬Walk.Cyclic (nameCalls tbl conf) (.name tag)) := by
  refine ⟨?_, ?_, ?_, ?_, ?_, memberSize_returns_iff, names_return_iff containingType⟩
  · rw [exists_congr fun _ => tagIsBaseType_isSome]
    exact refs_return_iff fun _ _ => mem_refs_of_mem_baseTypeRefs
  · rw [exists_congr fun _ => tagIsArray_isSome]
    exact refs_return_iff fun _ _ => mem_refs_of_mem_arrayRefs
  · rw [exists_congr fun _ => tagFollowTypedef_isSome]
    exact refs_return_iff fun _ _ => List.mem_of_mem_filter
  · rw [exists_congr fun _ => tagStripTypedefsAndModifiers_isSome]
    exact refs_return_iff fun _ _ => List.mem_of_mem_filter
  · rw [exists_congr fun _ => tagSizeWalk_isSome stringEntries]
    exact refs_return_iff fun _ _ => mem_refs_of_mem_sizeRefs

/-- Two typedefs of each other, and two modifiers of each other. -/
def mutualTypes : TypesTable :=
  [none, some (.typedef (some "a") 2 []), some (.typedef (some "b") 1 []),
    some (.modifier .const 4), some (.modifier .volatile 3)]

/-- `conf_fprintf__defaults`, for a C program -/
def defaultNameConf : NameConf where
  skipEmittingModifier := false
  noParmNames := false
  classesAsStructs := false
  cplusplus := false

/-- On a cycle of two tags none of the walks returns. -/
theorem walks_not_return_mutualTypes :
    (¬∃ depth, (tagIsBaseType mutualTypes depth (.typedef (some "a") 2 [])).isSome) ∧
    (¬∃ depth, (tagIsArray mutualTypes depth (.typedef (some "a") 2 [])).isSome) ∧
    (¬∃ depth, (tagFollowTypedef mutualTypes depth (.typedef (some "a") 2 [])).isSome) ∧
    (¬∃ depth,
      (tagStripTypedefsAndModifiers mutualTypes depth (.typedef (some "a") 2 [])).isSome) ∧
    (¬∃ depth, (tagSizeWalk (fun _ => 0) 8 mutualTypes depth
      (.typedef (some "a") 2 [])).isSome) ∧
    ¬∃ depth, ∀ len, (tagName mutualTypes defaultNameConf (fun _ => 0) depth
      (.modifier .const 4) len).isSome := by
  have hmutual : ∀ refs : Tag → List Tag,
      .typedef (some "b") 1 [] ∈ refs (.typedef (some "a") 2 []) →
      .typedef (some "a") 2 [] ∈ refs (.typedef (some "b") 1 []) →
      ¬∃ depth, Walk.Within refs depth (.typedef (some "a") 2 []) :=
    fun _ hab hba => Walk.not_exists_within (Walk.Cyclic.of_mutual hab hba)
  refine ⟨?_, ?_, ?_, ?_, ?_, ?_⟩
  · rw [exists_congr fun _ => tagIsBaseType_isSome]
    exact hmutual _ (by decide) (by decide)
  · rw [exists_congr fun _ => tagIsArray_isSome]
    exact hmutual _ (by decide) (by decide)
  · rw [exists_congr fun _ => tagFollowTypedef_isSome]
    exact hmutual _ (by decide) (by decide)
  · rw [exists_congr fun _ => tagStripTypedefsAndModifiers_isSome]
    exact hmutual _ (by decide) (by decide)
  · rw [exists_congr fun _ => tagSizeWalk_isSome fun _ => 0]
    exact hmutual _ (by decide) (by decide)
  · rw [names_return_iff, not_not]
    have hconst : NameCall.name (.modifier .volatile 3) ∈
        nameCalls mutualTypes defaultNameConf (.name (.modifier .const 4)) :=
      List.mem_map_of_mem (by decide)
    have hvolatile : NameCall.name (.modifier .const 4) ∈
        nameCalls mutualTypes defaultNameConf (.name (.modifier .volatile 3)) :=
      List.mem_map_of_mem (by decide)
    exact Walk.Cyclic.of_mutual hconst hvolatile

end Pahole
