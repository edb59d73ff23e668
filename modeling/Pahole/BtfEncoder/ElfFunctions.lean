import Pahole.BtfEncoder.State
import Pahole.Support.BinarySearch
import Pahole.Support.Qsort

/-!
# The ELF functions of a file

`elf_functions__collect` turns the function symbols of an ELF file into a table of
functions, one for each name without its `.`-suffix, that the encoder looks names
up in.
-/

namespace Pahole

/-- The part of a name from its first `.` on, if it has one (`strchr`). -/
def dotSuffix? (name : String) : Option (List Char) :=
  match name.toList.dropWhile (· ≠ '.') with
  | [] => none
  | suffix => some suffix

/-- `strstr`, whether it finds anything. -/
def strstr (haystack : List Char) (needle : String) : Bool :=
  haystack.tails.any fun tail => needle.toList.isPrefixOf tail

/-- `str_contains_suffix` -/
def strContainsSuffix (name : String) (suffixes : List String) : Bool :=
  match dotSuffix? name with
  | none => false
  | some suffix => suffixes.any (strstr suffix)

/-- `str_contains_non_fn_suffix` -/
def strContainsNonFnSuffix (name : String) : Bool :=
  strContainsSuffix name [".cold", ".part"]

/-- `str_contains_optimized_fn_suffix` -/
def strContainsOptimizedFnSuffix (name : String) : Bool :=
  strContainsSuffix name [".constprop", ".isra"]

/-- `strcmp`, up to sign. -/
def strcmp (a b : String) : ℤ := if a = b then 0 else if a < b then -1 else 1

/-- The loop of `elf_function__has_ambiguous_address`, with the address of the
symbol before. -/
def ambiguousFrom (addr : ℕ) : List ElfFunctionSym → Bool
  | [] => false
  | sym :: syms =>
      if addr ≠ 0 ∧ addr ≠ sym.addr then true else ambiguousFrom sym.addr syms

namespace ElfFunction

/-- `elf_function__has_ambiguous_address` -/
def hasAmbiguousAddress (func : ElfFunction) : Bool :=
  if func.syms.length ≤ 1 then false else ambiguousFrom 0 func.syms

/-- `elf_function__push_sym`.  The count is kept in a `uint16_t`; once it has come
round to zero the array is taken for one that is not there yet. -/
def pushSym (func : ElfFunction) (sym : ElfFunctionSym) : ElfFunction :=
  { func with syms := if func.syms.length + 1 < 65536 then func.syms ++ [sym] else [] }

end ElfFunction

namespace ElfFunctions

/-- The entry that `elf_functions__collect` makes for a symbol. -/
def entryOf (sym : ElfSym) : Option ElfFunction :=
  if sym.isFunc then
    match sym.name with
    | none => none
    | some name =>
        if strContainsNonFnSuffix name then none
        else some
          { name := String.ofList (name.toList.takeWhile (· ≠ '.'))
            syms := [⟨name, sym.addr⟩]
            ambiguousAddr := false
            kfunc := false
            kfuncFlags := 0 }
  else none

/-- `elf_function__name_cmp` -/
def nameCmp (a b : ElfFunction) : ℤ := strcmp a.name b.name

/-- The loop of `elf_functions__collect` that merges the sorted entries of one name,
with `a` the entry that gathers the symbols.  The flag is set when the next name
is reached. -/
def dedup (a : ElfFunction) : List ElfFunction → List ElfFunction
  | [] => [a]
  | b :: rest =>
      if a.name = b.name then dedup (b.syms.head?.elim a a.pushSym) rest
      else { a with ambiguousAddr := a.hasAmbiguousAddress } :: dedup b rest

/-- `elf_functions__collect` -/
def collect (qsort : Qsort) (symtab : List ElfSym) : List ElfFunction :=
  match qsort.sort nameCmp (symtab.filterMap entryOf) with
  | [] => []
  | a :: rest => dedup a rest

/-- `elf_functions__new` -/
def new (qsort : Qsort) (elf : Elf) : Option ElfFunctions :=
  elf.symtab.map fun symtab => ⟨elf.id, symtab, collect qsort symtab⟩

end ElfFunctions

namespace Encoder

/-- `elf_functions__find` -/
def findElfFunctions (enc : Encoder) (elf : ℕ) : Option ElfFunctions :=
  enc.elfFunctionsList.find? fun funcs => funcs.elf = elf

/-- The function behind an `elf_function *`. -/
def elfFunction? (enc : Encoder) (ptr : ElfPtr) : Option ElfFunction :=
  (enc.findElfFunctions ptr.table).bind fun funcs => funcs.entries[ptr.entry]?

/-- `btf_encoder__elf_functions`: the table of the CU's ELF file, and the encoder with
it in its list. -/
def elfFunctions (qsort : Qsort) (enc : Encoder) (elf : Option Elf) :
    Option (ElfFunctions × Encoder) :=
  match elf with
  | none => none
  | some elf =>
      match enc.findElfFunctions elf.id with
      | some funcs => some (funcs, enc)
      | none =>
          (ElfFunctions.new qsort elf).map fun funcs =>
            (funcs, { enc with elfFunctionsList := funcs :: enc.elfFunctionsList })

end Encoder

/-- `btf_encoder__find_function` -/
def ElfFunctions.findFunction (funcs : ElfFunctions) (name : String) : Option ElfPtr :=
  (bsearch (fun func => strcmp name func.name) funcs.entries).map (ElfPtr.mk funcs.elf)

end Pahole
