import Pahole.Libctf.Load
import Pahole.Support.ByteOrder

/-!
# Loading the sections of CTF in either byte order

`ctf__load` tells from the magic number whether the fields of a CTF section are in the
other byte order, and the getters swap them if they are.  The types and the functions are
read with the getters.  The records of the data objects are not: `ctf__load_objects` takes
the type of each from the memory.
-/

namespace Pahole.CtfLoader

open ByteOrder Libctf

/-- The errors of `ctf__load` and `ctf__load_sections`, and reading behind the end of the
section, which nothing checks. -/
inductive LoadError where
  | inval | nomem | notsup | symtab | behindEnd
  deriving DecidableEq

abbrev Load := ReadM LoadError

/-- `ctf__get16` -/
def ctfGet16 (p : ℕ) : Load ℕ := BitVec.toNat <$> ReadM.get16 .behindEnd p

/-- `ctf__get32` -/
def ctfGet32 (p : ℕ) : Load ℕ := BitVec.toNat <$> ReadM.get32 .behindEnd p

/-! ## The header -/

/-- `sizeof(struct ctf_header)` -/
def headerSize : ℕ := 36

def ctfObjectOff : Load ℕ := ctfGet32 16
def ctfFuncOff : Load ℕ := ctfGet32 20
def ctfTypeOff : Load ℕ := ctfGet32 24
def ctfStrOff : Load ℕ := ctfGet32 28
def ctfStrLen : Load ℕ := ctfGet32 32

/-- `hp->ctf_parent_label` and `hp->ctf_parent_name`, compared to zero. -/
def ctfParentLabel : Load Bool := ReadM.nonzero32 .behindEnd 4
def ctfParentName : Load Bool := ReadM.nonzero32 .behindEnd 8

/-! ## Names -/

/-- The characters up to a NUL, or to the end. -/
def cString : (length : ℕ) → (p : ℕ) → Load (List Char)
  | 0, _ => pure []
  | length + 1, p => do
      let c ← ReadM.byte .behindEnd p
      if c = 0 then pure []
      else do
        let rest ← cString length (p + 1)
        pure (Char.ofNat c.toNat :: rest)

/-- `ctf__string` -/
def ctfString (ref : ℕ) : Load (Option String) :=
  let off := ref % 2 ^ 31
  if ref / 2 ^ 31 % 2 ≠ 0 then pure (some "(external ref)")
  else do
    let strLen ← ctfStrLen
    if strLen ≤ off then pure (some "(ref out-of-bounds)")
    else do
      let strOff ← ctfStrOff
      let size ← ReadM.size
      if size ≤ (off + strOff) % 2 ^ 32 then pure (some "(string table truncated)")
      else do
        let name := headerSize + strOff + off
        let c ← ReadM.byte .behindEnd name
        if c = 0 then pure none
        else do
          let chars ← cString (size - name) name
          pure (some (String.ofList chars))

/-- The name at the start of a record. -/
def ctfName (tp : ℕ) : Load (Option String) := do
  let ref ← ctfGet32 tp
  ctfString ref

/-! ## Functions -/

/-- The fields of an ELF symbol that the loader reads. -/
structure ElfSymbol where
  name : String
  stName : ℕ
  value : ℕ
  size : ℕ
  type : ℕ
  visibility : ℕ
  shndx : ℕ
  isGlobal : Bool

namespace ElfSymbol

/-- `elf_sym__is_local_function` -/
def isLocalFunction (sym : ElfSymbol) : Bool := sym.type = 2 ∧ sym.stName ≠ 0 ∧ sym.shndx ≠ 0

/-- `elf_sym__is_local_object` -/
def isLocalObject (sym : ElfSymbol) : Bool := sym.type = 1 ∧ sym.stName ≠ 0 ∧ sym.shndx ≠ 0

/-- `ctf__ignore_symtab_function` -/
def ctfIgnoreSymtabFunction (sym : ElfSymbol) : Bool :=
  !sym.isLocalFunction || sym.visibility ≠ 0 || sym.size = 0 ||
    "__libc_csu_".toList.isPrefixOf sym.name.toList

/-- `ctf__ignore_symtab_object` -/
def ctfIgnoreSymtabObject (sym : ElfSymbol) : Bool :=
  !sym.isLocalObject || sym.size = 0 || sym.visibility ≠ 0 || sym.name.toList.contains '.'

end ElfSymbol

/-- The fields of `struct ftype` that `ctf__load_ftype` fills in. -/
structure Ftype where
  type : ℕ
  parms : List ℕ
  unspecParms : Bool
  deriving DecidableEq

/-- `struct function`, as it is loaded. -/
structure Function where
  name : String
  addr : ℕ
  size : ℕ
  external : Bool
  proto : Ftype
  deriving DecidableEq

/-- The types that `ctf__load_ftype` reads. -/
def loadArgs : (vlen : ℕ) → (args : ℕ) → Load (List ℕ)
  | 0, _ => pure []
  | vlen + 1, args => do
      let type ← ctfGet16 args
      let rest ← loadArgs vlen (args + 2)
      pure (type :: rest)

/-- `ctf__load_ftype` -/
def ctfLoadFtype (type vlen args : ℕ) : Load Ftype := do
  let types ← loadArgs vlen args
  pure ⟨type, types.filter (· ≠ 0), types.contains 0⟩

/-- The length of types that are kept to 32 bits. -/
def argsLength (vlen : ℕ) : ℕ := 2 * (vlen + vlen % 2)

/-- The loop of `ctf__load_funcs`, with `function__new`. -/
def loadFunctions : List ElfSymbol → (ptr : ℕ) → Load (List Function)
  | [], _ => pure []
  | sym :: syms, ptr =>
      if sym.ctfIgnoreSymtabFunction then loadFunctions syms ptr
      else do
        let val ← ctfGet16 ptr
        if ctfGetKind val ≠ 5 then ReadM.fail .nomem
        else do
          let type ← ctfGet16 (ptr + 2)
          let proto ← ctfLoadFtype type (ctfGetVlen val) (ptr + 4)
          let rest ← loadFunctions syms (ptr + 4 + argsLength (ctfGetVlen val))
          pure (⟨sym.name, sym.value, sym.size % 2 ^ 32, sym.isGlobal, proto⟩ :: rest)

/-- `ctf__load_funcs` -/
def ctfLoadFuncs (symtab : List ElfSymbol) : Load (List Function) := do
  let off ← ctfFuncOff
  loadFunctions symtab (headerSize + off)

/-! ## Types -/

/-- `struct class_member`, as it is loaded. -/
structure Member where
  name : Option String
  type : ℕ
  bitOffset : ℕ
  deriving DecidableEq

/-- The tag that is added to the CU for a record of the type section. -/
inductive LoadedType where
  | baseType (name : Option String) (bitSize : ℕ) (isSigned isBool isVarargs : Bool)
      (floatType : ℕ)
  | arrayType (type nrEntries : ℕ)
  | subroutineType (proto : Ftype)
  | structureType (name : Option String) (size : ℕ) (members : List Member)
  | unionType (name : Option String) (size : ℕ) (members : List Member)
  | enumerationType (name : Option String) (size : ℕ) (entries : List (Option String × ℕ))
  | declaration (name : Option String) (size : ℕ)
  | typedef (name : Option String) (size type : ℕ)
  | pointerType (type : ℕ)
  | volatileType (type : ℕ)
  | constType (type : ℕ)
  | restrictType (type : ℕ)
  | unknown
  deriving DecidableEq

/-- The members of `create_short_members`. -/
def createShortMembers : (vlen : ℕ) → (mp : ℕ) → Load (List Member)
  | 0, _ => pure []
  | vlen + 1, mp => do
      let type ← ctfGet16 (mp + 4)
      let name ← ctfName mp
      let offset ← ctfGet16 (mp + 6)
      let rest ← createShortMembers vlen (mp + 8)
      pure (⟨name, type, offset⟩ :: rest)

/-- The members of `create_full_members`. -/
def createFullMembers : (vlen : ℕ) → (mp : ℕ) → Load (List Member)
  | 0, _ => pure []
  | vlen + 1, mp => do
      let type ← ctfGet16 (mp + 4)
      let name ← ctfName mp
      let high ← ctfGet32 (mp + 8)
      let low ← ctfGet32 (mp + 12)
      let rest ← createFullMembers vlen (mp + 16)
      pure (⟨name, type, ((high <<< 16) % 2 ^ 32) ||| low⟩ :: rest)

/-- The enumerators of `create_new_enumeration`. -/
def createEnumerators : (vlen : ℕ) → (ep : ℕ) → Load (List (Option String × ℕ))
  | 0, _ => pure []
  | vlen + 1, ep => do
      let name ← ctfName ep
      let value ← ctfGet32 (ep + 4)
      let rest ← createEnumerators vlen (ep + 8)
      pure ((name, value) :: rest)

/-- `create_new_base_type`, with one-bit fields for the attributes. -/
def createNewBaseType (tp ptr : ℕ) : Load (LoadedType × ℕ) := do
  let eval ← ctfGet32 ptr
  let name ← ctfName tp
  let attrs := eval >>> 24
  pure (.baseType name (eval &&& 0xffff) ((attrs &&& 0x1) % 2 = 1) ((attrs &&& 0x4) % 2 = 1)
    ((attrs &&& 0x8) % 2 = 1) 0, 4)

/-- `create_new_base_type_float` -/
def createNewBaseTypeFloat (tp ptr : ℕ) : Load (LoadedType × ℕ) := do
  let name ← ctfName tp
  let eval ← ctfGet32 ptr
  pure (.baseType name (eval &&& 0xffff) false false false (eval % 16), 4)

/-- `create_new_array` -/
def createNewArray (ptr : ℕ) : Load (LoadedType × ℕ) := do
  let nrEntries ← ctfGet32 (ptr + 4)
  let type ← ctfGet16 ptr
  pure (.arrayType type nrEntries, 8)

/-- `create_new_subroutine_type` -/
def createNewSubroutineType (tp vlen ptr : ℕ) : Load (LoadedType × ℕ) := do
  let type ← ctfGet16 (tp + 6)
  let proto ← ctfLoadFtype type vlen ptr
  pure (.subroutineType proto, argsLength vlen)

/-- The members of a struct or union, and the length of one. -/
def createMembers (size vlen ptr : ℕ) : Load (List Member × ℕ) :=
  if size ≥ ctfShortMemberLimit then do
    let members ← createFullMembers vlen ptr
    pure (members, 16)
  else do
    let members ← createShortMembers vlen ptr
    pure (members, 8)

/-- `create_new_class` and `create_new_union`, where `type__init` stores the size in 32
bits. -/
def createNewClass (tag : Option String → ℕ → List Member → LoadedType)
    (tp size vlen ptr : ℕ) : Load (LoadedType × ℕ) := do
  let name ← ctfName tp
  let members ← createMembers size vlen ptr
  pure (tag name (size % 2 ^ 32) members.1, vlen * members.2)

/-- `create_new_enumeration` -/
def createNewEnumeration (tp size vlen ptr : ℕ) : Load (LoadedType × ℕ) := do
  let name ← ctfName tp
  let entries ← createEnumerators vlen ptr
  pure (.enumerationType name (if size % 2 ^ 16 ≠ 0 then size % 2 ^ 16 else 32) entries, vlen * 8)

/-- `create_new_forward_decl` -/
def createNewForwardDecl (tp size : ℕ) : Load (LoadedType × ℕ) := do
  let name ← ctfName tp
  pure (.declaration name (size % 2 ^ 32), 0)

/-- `create_new_typedef` -/
def createNewTypedef (tp size : ℕ) : Load (LoadedType × ℕ) := do
  let name ← ctfName tp
  let type ← ctfGet16 (tp + 6)
  pure (.typedef name (size % 2 ^ 32) type, 0)

/-- `create_new_tag` -/
def createNewTag (tag : ℕ → LoadedType) (tp : ℕ) : Load (LoadedType × ℕ) := do
  let type ← ctfGet16 (tp + 6)
  pure (tag type, 0)

/-- The call of `ctf__load_types` for a kind, with the length of the data read at `ptr`. -/
def createNew (kind : CtfKind) (tp size vlen ptr : ℕ) : Load (LoadedType × ℕ) :=
  match kind with
  | .int => createNewBaseType tp ptr
  | .flt => createNewBaseTypeFloat tp ptr
  | .arr => createNewArray ptr
  | .func => createNewSubroutineType tp vlen ptr
  | .str => createNewClass .structureType tp size vlen ptr
  | .union => createNewClass .unionType tp size vlen ptr
  | .enum => createNewEnumeration tp size vlen ptr
  | .fwd => createNewForwardDecl tp size
  | .typedef => createNewTypedef tp size
  | .volatile => createNewTag .volatileType tp
  | .ptr => createNewTag .pointerType tp
  | .const => createNewTag .constType tp
  | .restrict => createNewTag .restrictType tp
  | .unkn => pure (.unknown, 0)

/-- The size of a record, and where it goes on. -/
def ctfSize (tp : ℕ) : Load (ℕ × ℕ) := do
  let baseSize ← ctfGet16 (tp + 6)
  if baseSize = 0xffff then do
    let high ← ctfGet32 (tp + 8)
    let low ← ctfGet32 (tp + 12)
    pure ((high <<< 32) ||| low, tp + 16)
  else pure (baseSize, tp + 8)

/-- The loop of `ctf__load_types`.  A round goes on by eight bytes or more, so that there are
no more of them than bytes. -/
def loadTypes : (rounds : ℕ) → (tp stop typeIndex : ℕ) → Load (List (ℕ × LoadedType))
  | 0, tp, stop, _ => if tp < stop then ReadM.fail .behindEnd else pure []
  | rounds + 1, tp, stop, typeIndex =>
      if tp < stop then do
        let val ← ctfGet16 (tp + 4)
        let size ← ctfSize tp
        match CtfKind.ofCode (ctfGetKind val) with
        | none => ReadM.fail .inval
        | some kind => do
            let new ← createNew kind tp size.1 (ctfGetVlen val) size.2
            let rest ← loadTypes rounds (size.2 + new.2) stop (typeIndex + 1)
            pure ((typeIndex, new.1) :: rest)
      else pure []

/-- `ctf__load_types` -/
def ctfLoadTypes : Load (List (ℕ × LoadedType)) := do
  let typeOff ← ctfTypeOff
  let strOff ← ctfStrOff
  let parentName ← ctfParentName
  let parentLabel ← ctfParentLabel
  let size ← ReadM.size
  loadTypes size (headerSize + typeOff) (headerSize + strOff)
    (if parentName || parentLabel then 0x8001 else 1)

/-! ## Data objects -/

/-- `struct variable`, as it is loaded. -/
structure Variable where
  name : String
  addr : ℕ
  external : Bool
  type : ℕ
  deriving DecidableEq

/-- The loop of `ctf__load_objects` over the records, which are read as they are. -/
def objectTypes : List ElfSymbol → (objp : ℕ) → Load (List (ElfSymbol × BitVec 16))
  | [], _ => pure []
  | sym :: syms, objp =>
      if sym.ctfIgnoreSymtabObject then objectTypes syms objp
      else do
        let type ← ReadM.raw16 .behindEnd objp
        let rest ← objectTypes syms (objp + 2)
        pure ((sym, type) :: rest)

/-- `variable__new`, for the objects that are not void. -/
def variableNew (object : ElfSymbol × BitVec 16) : Option Variable :=
  if object.2 = 0 then none
  else some ⟨object.1.name, object.1.value, object.1.isGlobal, object.2.toNat⟩

/-- The records of the data objects. -/
def ctfObjects (symtab : List ElfSymbol) : Load (List (ElfSymbol × BitVec 16)) := do
  let off ← ctfObjectOff
  objectTypes symtab (headerSize + off)

/-- `ctf__load_objects` -/
def ctfLoadObjects (symtab : List ElfSymbol) : Load (List Variable) := do
  let objects ← ctfObjects symtab
  pure (objects.filterMap variableNew)

/-! ## The sections -/

/-- The functions, types and variables loaded into the CU. -/
structure Loaded where
  functions : List Function
  types : List (ℕ × LoadedType)
  vars : List Variable
  deriving DecidableEq

/-- `ctf__load_sections` -/
def ctfLoadSections (symtab : Option (List ElfSymbol)) : Load Loaded :=
  match symtab with
  | none => ReadM.fail .symtab
  | some symtab => do
      let functions ← ctfLoadFuncs symtab
      let types ← ctfLoadTypes
      let vars ← ctfLoadObjects symtab
      pure ⟨functions, types, vars⟩

/-- `ctf__decompress`, where `inflate` gives what a whole stream inflates to. -/
def ctfDecompress (inflate : List Byte → Option (List Byte)) (img : Image) :
    Except LoadError Image := do
  let strOff ← (ctfStrOff img).1
  let strLen ← (ctfStrLen img).1
  match inflate (img.bytes.drop headerSize) with
  | none => .error .inval
  | some out =>
      if out.length = (strOff + strLen) % 2 ^ 32 then
        .ok { img with bytes := img.bytes.take headerSize ++ out }
      else .error .inval

/-- Whether the fields are in the other order, from `ctf_magic`. -/
def magicSwapped? (magic : BitVec 16) : Option Bool :=
  if magic = 0xcff1 then some false else if magic = 0xf1cf then some true else none

/-- `ctf__load` -/
def ctfLoad (inflate : List Byte → Option (List Byte)) (host : Host) (data : List Byte) :
    Except LoadError Image :=
  match data[2]? with
  | none => .error .behindEnd
  | some version =>
      if version ≠ 2 then .error .notsup
      else
        match ((Image.mk host data false).raw16 0).bind magicSwapped? with
        | none => .error .inval
        | some swapped =>
            match data[3]? with
            | none => .error .behindEnd
            | some flags =>
                if flags &&& 1 = 0 then .ok ⟨host, data, swapped⟩
                else ctfDecompress inflate ⟨host, data, swapped⟩

/-- `ctf__load_file`, up to what it does with the CU. -/
def ctfLoadFile (inflate : List Byte → Option (List Byte)) (host : Host)
    (symtab : Option (List ElfSymbol)) (data : List Byte) : Except LoadError Loaded := do
  let img ← ctfLoad inflate host data
  (ctfLoadSections symtab img).1

end Pahole.CtfLoader
