import Pahole.BtfEncoder.EncodeTag
import Pahole.Dwarves.TypeWalks
import Pahole.Support.CutShort

/-!
# Emitting C definitions

`dwarves_emit.c` writes out the definition of a type after the definitions and declarations
that it needs.  The procedures call each other for the types that a type refers to, and share
lists of what has been written, which also serve for the types of other CUs.
-/

namespace Pahole

open CutShort

/-- A type of one of the CUs that are kept. -/
structure CuType where
  cu : ℕ
  id : TypeId
  deriving DecidableEq, Repr

/-- The kinds of `struct type`, by their `DW_TAG`. -/
inductive TypeKind where
  | typedef
  | enumeration
  | aggregate (kind : AggregateKind)
  deriving DecidableEq, Repr

def Tag.typeKind? : Tag → Option TypeKind
  | .typedef .. => some .typedef
  | .enumeration _ => some .enumeration
  | .aggregate ty => some (.aggregate ty.kind)
  | _ => none

/-- `type__can_have_shadow_definition` -/
def TypeKind.canHaveShadowDefinition : TypeKind → Bool
  | .enumeration => true
  | .aggregate _ => true
  | _ => false

/-- A piece of output. -/
inductive Emitted where
  | text (s : String)
  | fwdDecl (isUnion : Bool) (name : String)
  | atomicTypedef (name text : String)
  /-- `typedef__fprintf` -/
  | typedef (ref : CuType) (name : Option String)
  /-- `enumeration__fprintf` or `tag__fprintf`, with `conf.prefix` and `conf.suffix` -/
  | definition (ref : CuType) (name : Option String) (pre suf : Option String)
  deriving DecidableEq, Repr

/-- `struct type_emissions`, what the types of the CUs remember of it, and what has been
written. -/
structure Emissions where
  /-- `type__name`, which may change -/
  names : CuType → Option String
  definitionEmitted : CuType → Bool
  fwdDeclEmitted : CuType → Bool
  definitions : List CuType
  baseTypeDefinitions : List CuType
  fwdDecls : List CuType
  written : List Emitted

abbrev EmitM := Prog Emissions

section Lists

variable (cus : ℕ → TypesTable)

/-- `cu__type` -/
def typeAt (ref : CuType) : Option Tag := (cus ref.cu).type? ref.id

/-- `type__tag(type)->tag` -/
def kindAt (ref : CuType) : Option TypeKind := (typeAt cus ref).bind Tag.typeKind?

/-- `__base_type__name` -/
def baseTypeNameAt (ref : CuType) : Option String :=
  match typeAt cus ref with
  | some (.baseType bt) => bt.name
  | _ => none

/-- `type_emissions__init` -/
def typeEmissionsInit : Emissions where
  names := fun ref => (typeAt cus ref).bind Tag.typeName?
  definitionEmitted := fun _ => false
  fwdDeclEmitted := fun _ => false
  definitions := []
  baseTypeDefinitions := []
  fwdDecls := []
  written := []

namespace Emissions

/-- The type is marked as emitted. -/
def mark (e : Emissions) (ref : CuType) : Emissions :=
  { e with definitionEmitted := Function.update e.definitionEmitted ref true }

/-- `type_emissions__add_definition` -/
def addDefinition (e : Emissions) (ref : CuType) : Emissions :=
  { e.mark ref with
    definitions := e.definitions.erase ref ++ [ref]
    fwdDecls := e.fwdDecls.erase ref }

/-- A forward declaration is not needed any more. -/
def markFwdDecl (e : Emissions) (ref : CuType) : Emissions :=
  { e with fwdDeclEmitted := Function.update e.fwdDeclEmitted ref true }

/-- `type_emissions__add_fwd_decl`: a type in one of the lists stays there. -/
def addFwdDecl (e : Emissions) (ref : CuType) : Emissions :=
  { e.markFwdDecl ref with
    fwdDecls := if ref ∈ e.definitions ∨ ref ∈ e.fwdDecls then e.fwdDecls
      else e.fwdDecls ++ [ref] }

/-- `base_type_emissions__add_definition` -/
def addBaseTypeDefinition (e : Emissions) (ref : CuType) : Emissions :=
  { e.mark ref with baseTypeDefinitions := e.baseTypeDefinitions.erase ref ++ [ref] }

/-- `type_emissions__find_definition` -/
def findDefinition (e : Emissions) (kind : TypeKind) : Option String → Option CuType
  | none => none
  | some name => e.definitions.find? fun pos =>
      kindAt cus pos = some kind ∧ e.names pos = some name

/-- `type_emissions__find_shadow_definition` -/
def findShadowDefinition (e : Emissions) (kind : TypeKind) : Option String → Option CuType
  | none => none
  | some name => e.definitions.find? fun pos =>
      kindAt cus pos ≠ some kind ∧ e.names pos = some name ∧
        (kindAt cus pos).any TypeKind.canHaveShadowDefinition

/-- `type_emissions__find_fwd_decl` -/
def findFwdDecl (e : Emissions) : Option String → Option CuType
  | none => none
  | some name => e.fwdDecls.find? fun pos => e.names pos = some name

/-- `base_type_emissions__find_definition` -/
def baseTypeFindDefinition (e : Emissions) : Option String → Option CuType
  | none => none
  | some name => e.baseTypeDefinitions.find? fun pos => baseTypeNameAt cus pos = some name

/-- A type of another kind has the name, so the type gets a suffix. -/
def disambiguate (e : Emissions) (ref : CuType) : Emissions :=
  { e with names := Function.update e.names ref ((e.names ref).map (· ++ "__1")) }

end Emissions

end Lists

def Emissions.write (e : Emissions) (x : Emitted) : Emissions := { e with written := e.written ++ [x] }

def writeOut (x : Emitted) : EmitM PUnit := modify (Emissions.write · x)

/-! ## Base types -/

/-- `base_type__stdint2simple` -/
def baseTypeStdint2simple (name : String) : String :=
  if name = "int32_t" then "int"
  else if name = "int16_t" then "short"
  else if name = "int8_t" then "char"
  else if name = "int64_t" then "long"
  else name

/-- The text that `base_type__emit_definitions` writes between `_Atomic` and the name. -/
def nonAtomicType (nonAtomicName : List Char) : String :=
  let rest := String.ofList (nonAtomicName.drop 1)
  if nonAtomicName[0]? = some 's' ∧ nonAtomicName[1]? ≠ some 'i' ∧ nonAtomicName[1]? ≠ some 'h' then
    " signed " ++ rest
  else if nonAtomicName[0]? = some 'l' ∧ nonAtomicName[1]? = some 'l' then " long long"
  else if nonAtomicName[0]? = some 'u' then
    if nonAtomicName[1]? = some 'l' then
      if nonAtomicName[2]? = some 'l' then " unsigned long long" else " unsigned long"
    else " unsigned " ++ baseTypeStdint2simple rest
  else if nonAtomicName[0]? = some 'b' then " _Bool"
  else " " ++ baseTypeStdint2simple (String.ofList nonAtomicName)

/-! ## The procedures -/

/-- The calls of the procedures for each other. -/
inductive EmitCall where
  /-- `tag__emit_definitions`, from `next_indirection` on, for the type with the id -/
  | tag (cu : ℕ) (pointer : Bool) (type : TypeId)
  | typedef (ref : CuType)
  | ftype (cu : ℕ) (ftype : Ftype)
  | type (ref : CuType)

section Procedures

variable (cus : ℕ → TypesTable) (skipEmittingAtomicTypedefs : Bool)

/-- `type__emit` -/
def typeEmit (ref : CuType) (pre suf : Option String) : EmitM PUnit := do
  let e ← get
  provided (e.names ref ≠ none ∨ suf ≠ none ∨ pre ≠ none) do
    writeOut (.definition ref (e.names ref) pre suf)
    writeOut (.text "\n")

/-- `base_type__emit_definitions` -/
def baseTypeEmitDefinitions (ref : CuType) (name : String) : EmitM Bool := do
  let e ← get
  if e.definitionEmitted ref then pure false
  else if ¬"atomic_".toList <+: name.toList then pure false
  else if (e.baseTypeFindDefinition cus (some name)).isSome then
    modify (Emissions.mark · ref)
    pure false
  else
    writeOut (.atomicTypedef name
      ("typedef _Atomic" ++ nonAtomicType (name.toList.drop 7) ++ " " ++ name ++ ";\n"))
    modify (Emissions.addBaseTypeDefinition · ref)
    pure true

/-- `enumeration__emit_definitions` -/
def enumerationEmitDefinitions (ref : CuType) (etype : Enumeration) (suffix : Option String) :
    EmitM Bool := do
  let e ← get
  if e.definitionEmitted ref then pure false
  else if (e.findDefinition cus .enumeration (e.names ref)).isSome then
    modify (Emissions.mark · ref)
    pure false
  else
    writeOut (.definition ref (e.names ref) none suffix)
    writeOut (.text ";\n")
    provided (etype.values ≠ []) (modify (Emissions.addDefinition · ref))
    pure true

/-- `type__emit_fwd_decl` -/
def typeEmitFwdDecl (ref : CuType) (isUnion : Bool) : EmitM Bool := do
  let e ← get
  if e.fwdDeclEmitted ref then pure false
  else match e.names ref with
    | none => pure false
    | some name =>
        if (e.findFwdDecl (some name)).isSome then
          modify (Emissions.markFwdDecl · ref)
          pure false
        else
          writeOut (.fwdDecl isUnion name)
          modify (Emissions.addFwdDecl · ref)
          pure true

variable (rec : EmitCall → EmitM Bool)

/-- `type__emit_definitions`, and `type__emit` if that returns true. -/
def emitAggregate (ref : CuType) : EmitM PUnit := do
  let printed ← rec (.type ref)
  provided printed (typeEmit ref none none)

/-- The `switch` of `typedef__emit_definitions`, and whether it goes to `out`. -/
def typedefEmitTarget (cu : ℕ) (name : Option String) (type : TypeId) : EmitM Bool :=
  match typeAt cus ⟨cu, type⟩ with
  | some (.modifier .atomic t) => do let _ ← rec (.tag cu false t); pure false
  | some (.array t _) => do let _ ← rec (.tag cu false t); pure false
  | some (.typedef ..) => do let _ ← rec (.typedef ⟨cu, type⟩); pure false
  | some (.pointer t) =>
      match typeAt cus ⟨cu, t⟩ with
      | some (.typedef ..) => do let _ ← rec (.typedef ⟨cu, t⟩); pure false
      | some (.subroutine ftype) => do let _ ← rec (.ftype cu ftype); pure false
      | _ => pure false
  | some (.subroutine ftype) => do let _ ← rec (.ftype cu ftype); pure false
  | some (.enumeration etype) => do
      let e ← get
      if e.names ⟨cu, type⟩ = none then
        writeOut (.text "typedef ")
        let _ ← enumerationEmitDefinitions cus ⟨cu, type⟩ etype name
        pure true
      else
        let _ ← enumerationEmitDefinitions cus ⟨cu, type⟩ etype none
        pure false
  | some (.aggregate ty) =>
      if ty.kind = .classType then pure false
      else do
        let e ← get
        if e.names ⟨cu, type⟩ = none then
          let _ ← rec (.type ⟨cu, type⟩)
          typeEmit ⟨cu, type⟩ (some "typedef") name
          pure true
        else
          emitAggregate rec ⟨cu, type⟩
          pure false
  | _ => pure false

/-- `typedef__emit_definitions` -/
def typedefEmitDefinitions (ref : CuType) (type : TypeId) : EmitM Bool := do
  let e ← get
  if e.definitionEmitted ref then pure false
  else if (e.findDefinition cus .typedef (e.names ref)).isSome then
    modify (Emissions.mark · ref)
    pure false
  else
    let out ← typedefEmitTarget cus rec ref.cu (e.names ref) type
    let e ← get
    provided (¬out ∧ ¬e.definitionEmitted ref) do
      writeOut (.typedef ref (e.names ref))
      writeOut (.text ";\n")
    modify (Emissions.addDefinition · ref)
    pure true

/-- `tag__emit_definitions`, from `next_indirection` on. -/
def tagEmitDefinitions (cu : ℕ) (pointer : Bool) (type : TypeId) : EmitM Bool :=
  match typeAt cus ⟨cu, type⟩ with
  | some (.baseType bt) =>
      if skipEmittingAtomicTypedefs then pure false
      else match bt.name with
        | some name => baseTypeEmitDefinitions cus ⟨cu, type⟩ name
        | none => pure false
  | some (.pointer t) => rec (.tag cu true t)
  | some (.reference t) => rec (.tag cu true t)
  | some (.array t _) => rec (.tag cu pointer t)
  | some (.modifier .const t) => rec (.tag cu pointer t)
  | some (.modifier .volatile t) => rec (.tag cu pointer t)
  | some (.modifier .atomic t) => rec (.tag cu pointer t)
  | some (.typedef ..) => rec (.typedef ⟨cu, type⟩)
  | some (.enumeration etype) => do
      let e ← get
      if e.names ⟨cu, type⟩ = none then pure false
      else enumerationEmitDefinitions cus ⟨cu, type⟩ etype none
  | some (.aggregate ty) =>
      if ty.kind = .classType then pure false
      else if pointer then do
        let e ← get
        provided (e.names ⟨cu, type⟩ = none) do
          let _ ← rec (.type ⟨cu, type⟩)
        typeEmitFwdDecl ⟨cu, type⟩ (ty.kind = .unionType)
      else do
        emitAggregate rec ⟨cu, type⟩
        pure true
  | some (.subroutine ftype) => rec (.ftype cu ftype)
  | _ => pure false

/-- `ftype__emit_definitions` -/
def ftypeEmitDefinitions (cu : ℕ) (ftype : Ftype) : EmitM Bool := do
  let printed ← rec (.tag cu false ftype.type)
  let printed ← ftype.parms.foldlM (fun printed pos => do
    let also ← rec (.tag cu false pos.type)
    pure (also || printed)) printed
  provided printed (writeOut (.text "\n"))
  pure printed

/-- `type__for_each_member` -/
def Tag.membersOf : Tag → List ClassMember
  | .aggregate ty => ty.members.filter fun m => m.tag ≠ .other
  | _ => []

/-- The rest of `type__emit_definitions`, from its `type_emissions__add_definition` on. -/
def emitMembers (ref : CuType) (tag : Tag) : EmitM Bool := do
  modify (Emissions.addDefinition · ref)
  (tag.membersOf).forM fun pos => do
    let printed ← rec (.tag ref.cu false pos.type)
    provided printed (writeOut (.text "\n"))
  pure true

/-- `type__emit_definitions` -/
def typeEmitDefinitions (ref : CuType) (tag : Tag) (kind : TypeKind) : EmitM Bool := do
  let e ← get
  if e.definitionEmitted ref then pure false
  else if (e.findDefinition cus kind (e.names ref)).isSome then
    modify (Emissions.mark · ref)
    pure false
  else if kind = .typedef then rec (.typedef ref)
  else if kind.canHaveShadowDefinition ∧ (e.findShadowDefinition cus kind (e.names ref)).isSome then
    modify (Emissions.disambiguate · ref)
    let e ← get
    if (e.findDefinition cus kind (e.names ref)).isSome then
      modify (Emissions.mark · ref)
      pure false
    else emitMembers rec ref tag
  else emitMembers rec ref tag

/-- The procedure that is called. -/
def emitBody : EmitCall → EmitM Bool
  | .tag cu pointer type => tagEmitDefinitions cus skipEmittingAtomicTypedefs rec cu pointer type
  | .typedef ref =>
      match typeAt cus ref with
      | some (.typedef _ type _) => typedefEmitDefinitions cus rec ref type
      | _ => pure false
  | .ftype cu ftype => ftypeEmitDefinitions rec cu ftype
  | .type ref =>
      match typeAt cus ref with
      | some tag =>
          match tag.typeKind? with
          | some kind => typeEmitDefinitions cus rec ref tag kind
          | none => pure false
      | none => pure false

end Procedures

/-- A call of one of the procedures, with calls of each other to a depth. -/
def emitDefinitions (cus : ℕ → TypesTable) (skipEmittingAtomicTypedefs : Bool) :
    ℕ → EmitCall → EmitM Bool :=
  unroll (emitBody cus skipEmittingAtomicTypedefs)

/-- `cu__find_first_typedef_of_type` -/
def TypesTable.findFirstTypedefOfType (types : TypesTable) (type : TypeId) : Option Tag :=
  if type = 0 then none
  else (types.entries.find? fun (_, pos) => pos.isTypedef ∧ pos.type = type).map Prod.snd

/-- `class_formatter` of `pahole.c`, with `--compile`. -/
def classFormatter (cus : ℕ → TypesTable) (skipEmittingAtomicTypedefs nestedAnonInclude : Bool)
    (depth : ℕ) (ref : CuType) : EmitM PUnit := do
  let e ← get
  let typedefAlias :=
    if e.names ref = none then (cus ref.cu).findFirstTypedefOfType ref.id else none
  if e.names ref = none ∧ typedefAlias = none ∧ ¬nestedAnonInclude then pure ⟨⟩
  else
    let printed ← emitDefinitions cus skipEmittingAtomicTypedefs depth (.type ref)
    provided printed do
      let e ← get
      writeOut (.definition ref (e.names ref) (typedefAlias.map fun _ => "typedef")
        (typedefAlias.bind Tag.typeName?))
      writeOut (.text ";")
    writeOut (.text "\n")

end Pahole
