import Pahole.BtfEncoder.FunctionTable
import Pahole.Pahole.Prettify
import Pahole.Support.Delimited
import Pahole.Support.KeyedUpdates

/-!
# Collecting the kfuncs

`btf_encoder__collect_kfuncs` marks the functions that the `.BTF_ids` section lists in
the sets for kfuncs.  It goes through the symbols twice, for the ranges of the sets and
for the functions in them.  Which symbols are those of the section it decides by
`st_shndx`, a field that is too small for the index of a section beyond the first 65279:
such symbols have `SHN_XINDEX` there, and their index in a table of its own.
-/

namespace Pahole

open Prettify (littleEndian)
open Delimited KeyedUpdates

def btfIdFuncPfx : String := "__BTF_ID__func__"

def btfIdSet8Pfx : String := "__BTF_ID__set8__"

/-- `BTF_IDS_SECTION` -/
def btfIdsSection : String := ".BTF_ids"

/-- `SHN_LORESERVE` -/
def shnLoreserve : ℕ := 0xff00

/-- `SHN_XINDEX` -/
def shnXindex : ℕ := 0xffff

/-- A `GElf_Sym`, the string that `st_name` leads to, and what the table of extended
section indexes has for the symbol. -/
structure GElfSym where
  name : Option String
  stShndx : ℕ
  stValue : ℕ
  stSize : ℕ
  xindex : ℕ
  extended : stShndx = shnXindex → shnLoreserve ≤ xindex

/-- The section that a symbol is defined in. -/
def GElfSym.section? (sym : GElfSym) : Option ℕ :=
  if sym.stShndx = shnXindex then some sym.xindex
  else if shnLoreserve ≤ sym.stShndx then none
  else some sym.stShndx

/-- The sections of a file. -/
inductive ElfScn where
  | symtab (syms : List GElfSym)
  | other (name : String) (shAddr : ℕ) (data : List UInt8)

/-- The `.BTF_ids` section: `idlist_shndx`, `idlist_addr` and `idlist`. -/
structure IdList where
  shndx : ℕ
  addr : ℕ
  data : List UInt8

/-- The result of the loop over the sections: the symbols and the contents of `.BTF_ids`. -/
structure LocatedScns where
  symbols : Option (List GElfSym)
  idlist : Option IdList

/-- The loop over the sections, from section `i` on. -/
def locateScns (i : ℕ) (found : LocatedScns) : List ElfScn → LocatedScns
  | [] => found
  | .symtab syms :: scns => locateScns (i + 1) { found with symbols := some syms } scns
  | .other name addr data :: scns =>
      if name = btfIdsSection then
        locateScns (i + 1) { found with idlist := some ⟨i, addr, data⟩ } scns
      else locateScns (i + 1) found scns

namespace IdList

/-- The offset of an address, a `ptrdiff_t`. -/
def off (ids : IdList) (addr : ℕ) : ℤ := Int.bmod ((addr : ℤ) - ids.addr) (2 ^ 64)

/-- The place of the eight bytes at an address, unless they are out of bounds. -/
def place? (ids : IdList) (addr : ℕ) : Option ℕ :=
  if ids.off addr < 0 ∨ ids.data.length < (ids.off addr).toNat + 8 then none
  else some (ids.off addr).toNat

/-- The `flags` of the `btf_id_set8` or the `btf_id_and_flag` in a place. -/
def flags (ids : IdList) (place : ℕ) : ℕ := littleEndian ((ids.data.drop (place + 4)).take 4)

end IdList

/-- `is_sym_kfunc_set` -/
def isSymKfuncSet (ids : IdList) (sym : GElfSym) (name : String) : Bool :=
  btfIdSet8Pfx.toList.isPrefixOf name.toList &&
    (ids.place? sym.stValue).any fun place => (ids.flags place).testBit 0

/-- `strrchr` -/
def strrchr (s : List Char) (c : Char) : Option ℕ := lastIdxOf? c s

/-- `get_func_name` -/
def getFuncName (sym : String) : Option String :=
  if btfIdFuncPfx.toList.isPrefixOf sym.toList then
    let func := sym.toList.drop btfIdFuncPfx.length
    if strstr func "__" then
      (strrchr func '_').bind fun last =>
        if func[last - 1]? = some '_' then some (String.ofList (func.take (last - 1))) else none
    else none
  else none

/-- `struct btf_kfunc_set_range` -/
structure KfuncSetRange where
  start : ℕ
  stop : ℕ

/-- The range of a symbol, if it is one of a kfunc set. -/
def GElfSym.kfuncSetRange? (ids : IdList) (sym : GElfSym) : Option KfuncSetRange :=
  if sym.stShndx = ids.shndx then
    (sym.name.filter (isSymKfuncSet ids sym)).map fun _ =>
      ⟨sym.stValue, (sym.stValue + sym.stSize) % 2 ^ 64⟩
  else none

/-- The first loop over the symbols. -/
def collectRanges (ids : IdList) (symbols : List GElfSym) : List KfuncSetRange :=
  symbols.filterMap (GElfSym.kfuncSetRange? ids)

/-- An address is in a range. -/
def KfuncSetRange.contains (range : KfuncSetRange) (addr : ℕ) : Bool :=
  decide (range.start ≤ addr) && decide (addr < range.stop)

/-- Marks a function as a kfunc, with its flags. -/
def ElfFunction.setKfunc (flags : ℕ) (func : ElfFunction) : ElfFunction :=
  { func with kfunc := true, kfuncFlags := flags }

/-- Mark a function by its name, if the table has it. -/
def ElfFunctions.markKfunc (funcs : ElfFunctions) (name : String) (flags : ℕ) : ElfFunctions :=
  match funcs.findFunction name with
  | none => funcs
  | some ptr => { funcs with entries := funcs.entries.modify ptr.entry (ElfFunction.setKfunc flags) }

/-- The second loop over the symbols.  A function outside the section is an error. -/
def injectKfuncs (ids : IdList) (ranges : List KfuncSetRange) (funcs : ElfFunctions) :
    List GElfSym → Option ElfFunctions
  | [] => some funcs
  | sym :: symbols =>
      if sym.stShndx = ids.shndx then
        match sym.name.bind getFuncName with
        | none => injectKfuncs ids ranges funcs symbols
        | some func =>
            if ranges.any fun range => range.contains sym.stValue then
              match ids.place? sym.stValue with
              | none => none
              | some place =>
                  injectKfuncs ids ranges (funcs.markKfunc func (ids.flags place)) symbols
            else injectKfuncs ids ranges funcs symbols
      else injectKfuncs ids ranges funcs symbols

/-- `btf_encoder__collect_kfuncs`.  The table of the encoder is not used any more once
an error is returned. -/
def ElfFunctions.collectKfuncs (funcs : ElfFunctions) (scns : List ElfScn) :
    Option ElfFunctions :=
  let found := locateScns 1 ⟨none, none⟩ scns
  match found.symbols, found.idlist with
  | some symbols, some ids => injectKfuncs ids (collectRanges ids symbols) funcs symbols
  | _, _ => some funcs

/-! ## The kfuncs of a file -/

/-- A non-empty string of digits: the last part of the name of a symbol for a BTF id. -/
def IsNumber (number : String) : Prop := number ≠ "" ∧ ∀ c ∈ number.toList, c.isDigit

/-- A symbol is one of `.BTF_ids` for a set8 whose flags mark it as a kfunc set. -/
structure IsKfuncSet (ids : IdList) (set : GElfSym) : Prop where
  inSection : set.section? = some ids.shndx
  named : ∃ name, set.name = some (btfIdSet8Pfx ++ name)
  marked : Odd (ids.flags (set.stValue - ids.addr))

/-- A symbol of `.BTF_ids` lies in the range of a kfunc set. -/
structure InKfuncSet (ids : IdList) (symbols : List GElfSym) (sym : GElfSym) : Prop where
  inSection : sym.section? = some ids.shndx
  within : ∃ set ∈ symbols, IsKfuncSet ids set ∧
    set.stValue ≤ sym.stValue ∧ sym.stValue < set.stValue + set.stSize

/-- The symbol has a name of the form `__BTF_ID__func__<func>__<number>`. -/
def GElfSym.Names (sym : GElfSym) (func : String) : Prop :=
  ∃ number, IsNumber number ∧ sym.name = some (btfIdFuncPfx ++ func ++ "__" ++ number)

/-- A function of the table is a kfunc exactly when a symbol in the range of a kfunc set names
it, its flags are those at such a symbol, and `get_func_name` recovers the function from every
name of the form `__BTF_ID__func__<func>__<number>`. -/
structure CollectsKfuncs (ids : IdList) (symbols : List GElfSym) (funcs : ElfFunctions) : Prop where
  kfunc : ∀ func ∈ funcs.entries, func.kfunc = true ↔
    ∃ sym ∈ symbols, InKfuncSet ids symbols sym ∧ sym.Names func.name
  flags : ∀ func ∈ funcs.entries, func.kfunc = true →
    ∃ sym ∈ symbols, InKfuncSet ids symbols sym ∧ sym.Names func.name ∧
      func.kfuncFlags = ids.flags (sym.stValue - ids.addr)
  recovered : ∀ func number, IsNumber number →
    getFuncName (btfIdFuncPfx ++ func ++ "__" ++ number) = some func

/-- The name of the symbol begins with `__BTF_ID__set8__` or `__BTF_ID__func__`. -/
def GElfSym.IsBtfId (sym : GElfSym) : Prop :=
  ∃ name, sym.name = some (btfIdSet8Pfx ++ name) ∨ sym.name = some (btfIdFuncPfx ++ name)

/-- The symbols are those of a `.BTF_ids` section: its sets and the functions in them are
in bounds, and no other section or reserved index has symbols for BTF ids that are
taken for its own. -/
structure BtfIdsFit (ids : IdList) (symbols : List GElfSym) : Prop where
  small : ids.data.length < 2 ^ 63
  top : ids.addr + ids.data.length < 2 ^ 64
  sets : ∀ set ∈ symbols, set.section? = some ids.shndx →
    (∃ name, set.name = some (btfIdSet8Pfx ++ name)) →
      ids.addr ≤ set.stValue ∧ set.stValue + 8 ≤ ids.addr + ids.data.length ∧
        set.stValue + set.stSize ≤ ids.addr + ids.data.length
  funcs : ∀ sym ∈ symbols, InKfuncSet ids symbols sym →
    (∃ name, sym.name = some (btfIdFuncPfx ++ name)) →
      (∃ func, sym.Names func) ∧ sym.stValue + 8 ≤ ids.addr + ids.data.length
  own : ∀ sym ∈ symbols, sym.IsBtfId → sym.stShndx = ids.shndx → sym.section? = some ids.shndx

/-- An index below `SHN_LORESERVE`, or `SHN_XINDEX`. -/
def FitsStShndx (shndx : ℕ) : Prop := shndx < shnLoreserve ∨ shndx = shnXindex

/-! ## The names of the symbols -/

section Names

variable {pfx s func number sym : String} {haystack w t : List Char} {c : Char}

theorem isPrefixOf_toList_iff :
    pfx.toList.isPrefixOf s.toList = true ↔ ∃ name, s = pfx ++ name := by
  rw [List.isPrefixOf_iff_prefix]
  constructor
  · rintro ⟨t, ht⟩
    refine ⟨String.ofList t, String.toList_injective ?_⟩
    rw [String.toList_append, String.toList_ofList, ht]
  · rintro ⟨name, rfl⟩
    exact ⟨name.toList, String.toList_append.symm⟩

theorem strstr_iff {needle : String} :
    strstr haystack needle = true ↔ needle.toList <:+: haystack := by
  rw [strstr, List.any_eq_true, List.infix_iff_prefix_suffix]
  constructor
  · rintro ⟨t, ht, hpre⟩
    exact ⟨t, List.isPrefixOf_iff_prefix.mp hpre, (List.mem_tails t haystack).mp ht⟩
  · rintro ⟨t, hpre, ht⟩
    exact ⟨t, (List.mem_tails t haystack).mpr ht, List.isPrefixOf_iff_prefix.mpr hpre⟩

/-- `__` does not occur in a string whose only underscore is the first character. -/
theorem not_strstr_of_one (h : '_' ∉ t) : ¬strstr ('_' :: t) "__" = true := by
  intro hstr
  have hcount := (strstr_iff.mp hstr).sublist.count_le '_'
  have hneedle : List.count '_' "__".toList = 2 := by decide
  rw [hneedle, List.count_cons_self, List.count_eq_zero_of_not_mem h] at hcount
  omega

/-- In a string with `__`, a character comes before the last underscore. -/
theorem exists_of_strstr (h : strstr haystack "__" = true) :
    ∃ w c t, haystack = w ++ c :: '_' :: t ∧ '_' ∉ t := by
  have hmem : '_' ∈ haystack := by
    apply (strstr_iff.mp h).subset
    decide
  obtain ⟨u, t, rfl, hnot⟩ := exists_append_of_mem_last hmem
  rcases List.eq_nil_or_concat u with rfl | ⟨w, c, rfl⟩
  · exact absurd h (not_strstr_of_one hnot)
  · exact ⟨w, c, t, by simp, hnot⟩

theorem strrchr_append (h : '_' ∉ t) : strrchr (w ++ c :: '_' :: t) '_' = some (w.length + 1) := by
  have hlist : w ++ c :: '_' :: t = (w ++ [c]) ++ '_' :: t := by simp
  rw [strrchr, hlist, lastIdxOf?_append h, List.length_append, List.length_singleton]

theorem drop_pfx : (pfx ++ s).toList.drop pfx.length = s.toList := by
  rw [String.toList_append, ← String.length_toList, List.drop_left]

theorem getFuncName_append (hs : s.toList = w ++ c :: '_' :: t) (h : '_' ∉ t)
    (hstr : strstr s.toList "__" = true) :
    getFuncName (btfIdFuncPfx ++ s) = if c = '_' then some (String.ofList w) else none := by
  have hpre : btfIdFuncPfx.toList.isPrefixOf (btfIdFuncPfx ++ s).toList = true :=
    isPrefixOf_toList_iff.mpr ⟨s, rfl⟩
  have hplace : (w ++ c :: '_' :: t)[w.length]? = some c := by simp
  have hcut : (w ++ c :: '_' :: t).take w.length = w := List.take_left
  rw [getFuncName, if_pos hpre, drop_pfx]
  dsimp only
  rw [if_pos hstr, hs, strrchr_append h, Option.bind_some, Nat.add_sub_cancel, hplace, hcut]
  simp only [Option.some.injEq]

/-- The name is cut before the last underscore, which has another one before it. -/
theorem getFuncName_iff : getFuncName sym = some func ↔
    ∃ tag, '_' ∉ tag ∧ sym.toList = btfIdFuncPfx.toList ++ (func.toList ++ '_' :: '_' :: tag) := by
  constructor
  · intro h
    have hpre : btfIdFuncPfx.toList.isPrefixOf sym.toList = true := by
      by_contra hnot
      rw [getFuncName, if_neg hnot] at h
      cases h
    obtain ⟨s, rfl⟩ := isPrefixOf_toList_iff.mp hpre
    have hstr : strstr s.toList "__" = true := by
      by_contra hnot
      rw [getFuncName, if_pos hpre, drop_pfx] at h
      dsimp only at h
      rw [if_neg hnot] at h
      cases h
    obtain ⟨w, c, t, hs, hnot⟩ := exists_of_strstr hstr
    rw [getFuncName_append hs hnot hstr] at h
    by_cases hc : c = '_'
    · rw [if_pos hc, Option.some.injEq] at h
      subst h hc
      exact ⟨t, hnot, by rw [String.toList_append, hs, String.toList_ofList]⟩
    · rw [if_neg hc] at h
      cases h
  · rintro ⟨tag, hnot, hsym⟩
    obtain rfl : sym = btfIdFuncPfx ++ String.ofList (func.toList ++ '_' :: '_' :: tag) := by
      apply String.toList_injective
      rw [hsym, String.toList_append, String.toList_ofList]
    have hstr : strstr (func.toList ++ '_' :: '_' :: tag) "__" = true :=
      strstr_iff.mpr ⟨func.toList, tag, by simp⟩
    rw [← String.toList_ofList (l := func.toList ++ '_' :: '_' :: tag)] at hstr
    rw [getFuncName_append (String.toList_ofList) hnot hstr, if_pos rfl, String.ofList_toList]

/-- The name is found between the prefix and the last `__`, also if it ends with underscores. -/
theorem getFuncName_number (h : IsNumber number) :
    getFuncName (btfIdFuncPfx ++ func ++ "__" ++ number) = some func := by
  apply getFuncName_iff.mpr
  refine ⟨number.toList, fun hmem => ?_, ?_⟩
  · have hdigit := h.2 '_' hmem
    revert hdigit
    decide
  · simp only [String.toList_append, List.append_assoc]
    rfl

end Names

/-! ## The symbols of the section -/

section Symbols

variable {ids : IdList} {symbols : List GElfSym} {sym set : GElfSym} {addr : ℕ} {func : String}

/-- Where the index fits, `st_shndx` has it for the symbols of the section. -/
theorem stShndx_eq_iff (hshndx : FitsStShndx ids.shndx)
    (hown : sym.stShndx = ids.shndx → sym.section? = some ids.shndx) :
    sym.stShndx = ids.shndx ↔ sym.section? = some ids.shndx := by
  refine ⟨hown, fun hsec => ?_⟩
  rw [GElfSym.section?] at hsec
  by_cases hext : sym.stShndx = shnXindex
  · rw [if_pos hext, Option.some.injEq] at hsec
    have hlarge := sym.extended hext
    rw [hsec] at hlarge
    rcases hshndx with hlt | heq
    · exact absurd hlarge (not_le.mpr hlt)
    · exact hext.trans heq.symm
  · rw [if_neg hext] at hsec
    split at hsec
    · cases hsec
    · exact Option.some.inj hsec

/-- When the section index `shndx` does not fit in `st_shndx`, no symbol with that `st_shndx`
resolves to it. -/
theorem section?_ne (hshndx : ¬FitsStShndx ids.shndx) (h : sym.stShndx = ids.shndx) :
    sym.section? ≠ some ids.shndx := by
  obtain ⟨hlarge, hext⟩ := not_or.mp hshndx
  rw [← h] at hlarge hext
  rw [GElfSym.section?, if_neg hext, if_pos (not_lt.mp hlarge)]
  exact (Option.some_ne_none _).symm

theorem place?_eq (hfit : BtfIdsFit ids symbols) (hlow : ids.addr ≤ addr)
    (hhigh : addr + 8 ≤ ids.addr + ids.data.length) :
    ids.place? addr = some (addr - ids.addr) := by
  have hsmall := hfit.small
  have hoff : ids.off addr = ((addr - ids.addr : ℕ) : ℤ) := by
    rw [IdList.off, Int.bmod_eq_of_le_mul_two (by omega) (by omega)]
    omega
  rw [IdList.place?, hoff, Int.toNat_natCast, if_neg (by omega)]

theorem isSymKfuncSet_iff (hfit : BtfIdsFit ids symbols) (hset : set ∈ symbols)
    (hsec : set.section? = some ids.shndx) {name : String} (hname : set.name = some name) :
    isSymKfuncSet ids set name = true ↔ IsKfuncSet ids set := by
  rw [isSymKfuncSet, Bool.and_eq_true, isPrefixOf_toList_iff]
  constructor
  · rintro ⟨⟨rest, rfl⟩, hflags⟩
    obtain ⟨hlow, hhigh, -⟩ := hfit.sets set hset hsec ⟨rest, hname⟩
    rw [place?_eq hfit hlow hhigh, Option.any_some, Nat.testBit_zero, decide_eq_true_eq] at hflags
    exact ⟨hsec, ⟨rest, hname⟩, Nat.odd_iff.mpr hflags⟩
  · intro hkfunc
    obtain ⟨rest, hrest⟩ := hkfunc.named
    obtain ⟨hlow, hhigh, -⟩ := hfit.sets set hset hsec ⟨rest, hrest⟩
    refine ⟨⟨rest, Option.some.inj (hname.symm.trans hrest)⟩, ?_⟩
    rw [place?_eq hfit hlow hhigh, Option.any_some, Nat.testBit_zero, decide_eq_true_eq]
    exact Nat.odd_iff.mp hkfunc.marked

/-- A symbol for a BTF id that has the index in `st_shndx` is one of the section. -/
theorem stShndx_iff_of_isBtfId (hfit : BtfIdsFit ids symbols) (hshndx : FitsStShndx ids.shndx)
    (hsym : sym ∈ symbols) (hid : sym.IsBtfId) :
    sym.stShndx = ids.shndx ↔ sym.section? = some ids.shndx :=
  stShndx_eq_iff hshndx (hfit.own sym hsym hid)

/-- The symbols with a range are those of kfunc sets. -/
theorem kfuncSetRange?_eq_some_iff (hfit : BtfIdsFit ids symbols)
    (hshndx : FitsStShndx ids.shndx) (hset : set ∈ symbols) {range : KfuncSetRange} :
    set.kfuncSetRange? ids = some range ↔
      IsKfuncSet ids set ∧ range = ⟨set.stValue, set.stValue + set.stSize⟩ := by
  have htop := hfit.top
  rw [GElfSym.kfuncSetRange?]
  constructor
  · intro h
    split at h
    case isFalse => cases h
    next hraw =>
    obtain ⟨name, hfilter, hrange⟩ := Option.map_eq_some_iff.mp h
    obtain ⟨hname, hkfunc⟩ := Option.filter_eq_some_iff.mp hfilter
    obtain ⟨rest, hrest⟩ := isPrefixOf_toList_iff.mp (Bool.and_eq_true_iff.mp hkfunc).1
    have hnamed : set.name = some (btfIdSet8Pfx ++ rest) := hname.trans (congrArg some hrest)
    have hsec := hfit.own set hset ⟨rest, Or.inl hnamed⟩ hraw
    obtain ⟨-, -, hend⟩ := hfit.sets set hset hsec ⟨rest, hnamed⟩
    rw [Nat.mod_eq_of_lt (by omega)] at hrange
    exact ⟨(isSymKfuncSet_iff hfit hset hsec hname).mp hkfunc, hrange.symm⟩
  · rintro ⟨hkfunc, rfl⟩
    obtain ⟨rest, hrest⟩ := hkfunc.named
    have hraw := (stShndx_iff_of_isBtfId hfit hshndx hset ⟨rest, Or.inl hrest⟩).mpr hkfunc.inSection
    have hmarked := (isSymKfuncSet_iff hfit hset hkfunc.inSection hrest).mpr hkfunc
    obtain ⟨-, -, hend⟩ := hfit.sets set hset hkfunc.inSection ⟨rest, hrest⟩
    rw [if_pos hraw, hrest, Option.filter_some_pos hmarked, Option.map_some,
      Nat.mod_eq_of_lt (by omega)]

/-- An address is in a collected range if and only if it is in a kfunc set. -/
theorem any_contains_iff (hfit : BtfIdsFit ids symbols) (hshndx : FitsStShndx ids.shndx) :
    ((collectRanges ids symbols).any fun range => range.contains addr) = true ↔
      ∃ set ∈ symbols, IsKfuncSet ids set ∧
        set.stValue ≤ addr ∧ addr < set.stValue + set.stSize := by
  rw [List.any_eq_true]
  constructor
  · rintro ⟨range, hrange, hcontains⟩
    obtain ⟨set, hset, hsome⟩ := List.mem_filterMap.mp hrange
    obtain ⟨hkfunc, rfl⟩ := (kfuncSetRange?_eq_some_iff hfit hshndx hset).mp hsome
    obtain ⟨hstart, hstop⟩ := Bool.and_eq_true_iff.mp hcontains
    exact ⟨set, hset, hkfunc, of_decide_eq_true hstart, of_decide_eq_true hstop⟩
  · rintro ⟨set, hset, hkfunc, hstart, hstop⟩
    have hsome := (kfuncSetRange?_eq_some_iff hfit hshndx hset).mpr ⟨hkfunc, rfl⟩
    refine ⟨_, List.mem_filterMap.mpr ⟨set, hset, hsome⟩, ?_⟩
    exact Bool.and_eq_true_iff.mpr ⟨decide_eq_true hstart, decide_eq_true hstop⟩

end Symbols

/-! ## The two loops -/

section Loops

variable {ids : IdList} {symbols rest : List GElfSym} {sym : GElfSym} {funcs : ElfFunctions}
  {ranges : List KfuncSetRange} {name : String} {flags : ℕ} {func : ElfFunction}

/-- One round of the second loop: the name of a function whose symbol is in a range, and the
flags of its pair. -/
def GElfSym.kfunc? (ids : IdList) (ranges : List KfuncSetRange) (sym : GElfSym) :
    Option (String × ℕ) :=
  if sym.stShndx = ids.shndx ∧ ranges.any fun range => range.contains sym.stValue then
    (sym.name.bind getFuncName).bind fun func =>
      (ids.place? sym.stValue).map fun place => (func, ids.flags place)
  else none

/-- The functions are marked one after the other if none is out of bounds. -/
theorem injectKfuncs_eq
    (h : ∀ sym ∈ symbols, sym.stShndx = ids.shndx → (sym.name.bind getFuncName).isSome →
      (ranges.any fun range => range.contains sym.stValue) = true →
        (ids.place? sym.stValue).isSome) :
    injectKfuncs ids ranges funcs symbols =
      some ((symbols.filterMap (GElfSym.kfunc? ids ranges)).foldl
        (fun funcs up => funcs.markKfunc up.1 up.2) funcs) := by
  induction symbols generalizing funcs with
  | nil => rfl
  | cons sym symbols ih =>
      obtain ⟨hsym, hsymbols⟩ := List.forall_mem_cons.mp h
      rw [injectKfuncs]
      split
      case isFalse hraw =>
        have hnone : sym.kfunc? ids ranges = none := if_neg fun hboth => hraw hboth.1
        rw [ih hsymbols, List.filterMap_cons_none hnone]
      next hraw =>
      cases hname : sym.name.bind getFuncName with
      | none =>
          have hnone : sym.kfunc? ids ranges = none := by
            rw [GElfSym.kfunc?, hname]
            exact ite_self none
          dsimp only
          rw [ih hsymbols, List.filterMap_cons_none hnone]
      | some func =>
          dsimp only
          split
          case isFalse hany =>
            have hnone : sym.kfunc? ids ranges = none := if_neg fun hboth => hany hboth.2
            rw [ih hsymbols, List.filterMap_cons_none hnone]
          next hany =>
          have hsome : (sym.name.bind getFuncName).isSome := by rw [hname]; rfl
          obtain ⟨place, hplace⟩ := Option.isSome_iff_exists.mp (hsym hraw hsome hany)
          have hkfunc : sym.kfunc? ids ranges = some (func, ids.flags place) := by
            rw [GElfSym.kfunc?, if_pos ⟨hraw, hany⟩, hname, hplace]
            rfl
          rw [hplace]
          dsimp only
          rw [ih hsymbols, List.filterMap_cons_some hkfunc, List.foldl_cons]

/-- A table that is sorted by name. -/
def ElfFunctions.Sorted (funcs : ElfFunctions) : Prop :=
  funcs.entries.Pairwise fun func func' => func.name < func'.name

theorem name_setKfunc (flags : ℕ) (func : ElfFunction) :
    (func.setKfunc flags).name = func.name := rfl

theorem entries_markKfunc (hsorted : funcs.Sorted) :
    (funcs.markKfunc name flags).entries =
      funcs.entries.map (update ElfFunction.name ElfFunction.setKfunc (name, flags)) := by
  rw [ElfFunctions.markKfunc]
  cases hfind : funcs.findFunction name with
  | none =>
      dsimp only
      rw [map_update_of_forall_ne]
      intro func hfunc hname
      have hfound := (findFunction_isSome_iff hsorted).mpr ⟨func, hfunc, hname⟩
      rw [hfind] at hfound
      cases hfound
  | some ptr =>
      obtain ⟨func, hfunc, rfl⟩ := findFunction_named hfind
      exact modify_eq_map (hsorted.imp fun hlt => hlt.ne) hfunc

theorem sorted_markKfunc (hsorted : funcs.Sorted) : (funcs.markKfunc name flags).Sorted := by
  rw [ElfFunctions.Sorted, entries_markKfunc hsorted, List.pairwise_map]
  simp only [key_update name_setKfunc]
  exact hsorted

theorem entries_foldl_markKfunc {ups : List (String × ℕ)} (hsorted : funcs.Sorted) :
    (ups.foldl (fun funcs up => funcs.markKfunc up.1 up.2) funcs).entries =
      funcs.entries.map (updateAll ElfFunction.name ElfFunction.setKfunc ups) := by
  induction ups generalizing funcs with
  | nil => exact (List.map_id _).symm
  | cons up ups ih =>
      rw [List.foldl_cons, ih (sorted_markKfunc hsorted), entries_markKfunc hsorted, List.map_map]
      rfl

end Loops

/-! ## Marking the table -/

section Marked

variable {ids : IdList} {symbols : List GElfSym} {sym : GElfSym} {symtab : List ElfSym}
  {qsort : Qsort} {elf : ℕ} {name : String} {flags : ℕ} {ups : List (String × ℕ)}
  {a func : ElfFunction} {scns : List ElfScn} {table : ElfFunctions}

theorem getFuncName_of_names (h : sym.Names name) : sym.name.bind getFuncName = some name := by
  obtain ⟨number, hnumber, hname⟩ := h
  rw [hname, Option.bind_some, getFuncName_number hnumber]

/-- A symbol from which a function name is taken has the prefix `__BTF_ID__func__`. -/
theorem exists_name_of_getFuncName (h : sym.name.bind getFuncName = some name) :
    ∃ rest, sym.name = some (btfIdFuncPfx ++ rest) := by
  obtain ⟨s, hs, hfunc⟩ := Option.bind_eq_some_iff.mp h
  obtain ⟨tag, -, htag⟩ := getFuncName_iff.mp hfunc
  refine ⟨String.ofList (name.toList ++ '_' :: '_' :: tag), ?_⟩
  rw [hs, Option.some.injEq]
  apply String.toList_injective
  rw [htag, String.toList_append, String.toList_ofList]

/-- The pair of a function in a kfunc set is in bounds. -/
theorem place?_of_inKfuncSet (hfit : BtfIdsFit ids symbols) (hsym : sym ∈ symbols)
    (hin : InKfuncSet ids symbols sym) (hname : ∃ rest, sym.name = some (btfIdFuncPfx ++ rest)) :
    ids.place? sym.stValue = some (sym.stValue - ids.addr) := by
  obtain ⟨set, hset, hkfunc, hstart, -⟩ := hin.within
  obtain ⟨hlow, -, -⟩ := hfit.sets set hset hkfunc.inSection hkfunc.named
  exact place?_eq hfit (hlow.trans hstart) (hfit.funcs sym hsym hin hname).2

/-- A symbol that the second loop finds in one of the ranges collected is in a kfunc set. -/
theorem inKfuncSet_of_read (hfit : BtfIdsFit ids symbols) (hshndx : FitsStShndx ids.shndx)
    (hsym : sym ∈ symbols) (hraw : sym.stShndx = ids.shndx)
    (hname : ∃ rest, sym.name = some (btfIdFuncPfx ++ rest))
    (hany : ((collectRanges ids symbols).any fun range => range.contains sym.stValue) = true) :
    InKfuncSet ids symbols sym := by
  obtain ⟨rest, hrest⟩ := hname
  exact ⟨hfit.own sym hsym ⟨rest, Or.inr hrest⟩ hraw, (any_contains_iff hfit hshndx).mp hany⟩

theorem kfunc?_eq_some_iff (hfit : BtfIdsFit ids symbols) (hshndx : FitsStShndx ids.shndx)
    (hsym : sym ∈ symbols) :
    sym.kfunc? ids (collectRanges ids symbols) = some (name, flags) ↔
      InKfuncSet ids symbols sym ∧ sym.Names name ∧ flags = ids.flags (sym.stValue - ids.addr) := by
  rw [GElfSym.kfunc?]
  constructor
  · intro h
    split at h
    case isFalse => cases h
    next hread =>
    obtain ⟨func, hfunc, hplace⟩ := Option.bind_eq_some_iff.mp h
    have hname := exists_name_of_getFuncName hfunc
    have hin := inKfuncSet_of_read hfit hshndx hsym hread.1 hname hread.2
    rw [place?_of_inKfuncSet hfit hsym hin hname, Option.map_some, Option.some.injEq,
      Prod.mk.injEq] at hplace
    obtain ⟨rfl, rfl⟩ := hplace
    obtain ⟨func', hnames⟩ := (hfit.funcs sym hsym hin hname).1
    obtain rfl : func = func' := Option.some.inj (hfunc.symm.trans (getFuncName_of_names hnames))
    exact ⟨hin, hnames, rfl⟩
  · rintro ⟨hin, hnames, rfl⟩
    have hfunc := getFuncName_of_names hnames
    obtain ⟨rest, hrest⟩ := exists_name_of_getFuncName hfunc
    have hraw := (stShndx_iff_of_isBtfId hfit hshndx hsym ⟨rest, Or.inr hrest⟩).mpr hin.inSection
    have hany := (any_contains_iff hfit hshndx).mpr hin.within
    rw [if_pos ⟨hraw, hany⟩, hfunc, place?_of_inKfuncSet hfit hsym hin ⟨rest, hrest⟩]
    rfl

/-- Merging the symbols of a name leaves `kfunc` clear. -/
theorem kfunc_of_mem_dedup {syms : List ElfFunctionSym} (ha : a.kfunc = false)
    (hfunc : func ∈ ElfFunctions.dedup a (syms.map ElfFunction.single)) : func.kfunc = false := by
  induction syms generalizing a with
  | nil =>
      obtain rfl := List.mem_singleton.mp hfunc
      exact ha
  | cons sym syms ih =>
      by_cases h : a.name = sym.stem
      · rw [dedup_same h] at hfunc
        have hpushed : (a.pushSym sym).kfunc = false := ha
        exact ih hpushed hfunc
      · rw [dedup_next h] at hfunc
        rcases List.mem_cons.mp hfunc with rfl | hfunc
        · exact ha
        · have hsingle : (ElfFunction.single sym).kfunc = false := rfl
          exact ih hsingle hfunc

theorem kfunc_of_mem_collect (hfunc : func ∈ ElfFunctions.collect qsort symtab) :
    func.kfunc = false := by
  obtain ⟨syms, -, -, hcollect⟩ := exists_collect_eq qsort symtab
  rw [hcollect] at hfunc
  cases syms with
  | nil => cases hfunc
  | cons sym syms =>
      have hsingle : (ElfFunction.single sym).kfunc = false := rfl
      exact kfunc_of_mem_dedup hsingle hfunc

theorem sorted_collect : ElfFunctions.Sorted ⟨elf, symtab, ElfFunctions.collect qsort symtab⟩ := by
  obtain ⟨syms, -, hsorted, hcollect⟩ := exists_collect_eq qsort symtab
  rw [ElfFunctions.Sorted, hcollect]
  exact pairwise_mergedEntries hsorted

/-- A function that is marked has the flags of one of the updates with its name. -/
theorem exists_of_kfunc (ha : a.kfunc = false)
    (h : (updateAll ElfFunction.name ElfFunction.setKfunc ups a).kfunc = true) :
    ∃ up ∈ ups, up.1 = a.name ∧
      (updateAll ElfFunction.name ElfFunction.setKfunc ups a).kfuncFlags = up.2 := by
  by_cases hnamed : ∃ up ∈ ups, up.1 = a.name
  · obtain ⟨up, hup, hname, heq⟩ := exists_updateAll_eq name_setKfunc (fun _ _ _ => rfl) hnamed
    refine ⟨up, hup, hname, ?_⟩
    rw [heq]
    rfl
  · have hnone : ∀ up ∈ ups, up.1 ≠ a.name := fun up hup hname => hnamed ⟨up, hup, hname⟩
    rw [updateAll_of_forall_ne hnone, ha] at h
    cases h

theorem kfunc_of_mem {up : String × ℕ} (hup : up ∈ ups) (hname : up.1 = a.name) :
    (updateAll ElfFunction.name ElfFunction.setKfunc ups a).kfunc = true := by
  obtain ⟨_, _, _, heq⟩ := exists_updateAll_eq name_setKfunc (fun _ _ _ => rfl) ⟨up, hup, hname⟩
  rw [heq]
  rfl

/-- The two loops over the symbols return and mark exactly the kfuncs of `.BTF_ids`. -/
theorem exists_injectKfuncs (hfit : BtfIdsFit ids symbols) (hshndx : FitsStShndx ids.shndx)
    (hsorted : table.Sorted) (hclear : ∀ func ∈ table.entries, func.kfunc = false) :
    ∃ funcs, injectKfuncs ids (collectRanges ids symbols) table symbols = some funcs ∧
      CollectsKfuncs ids symbols funcs := by
  have hbounds : ∀ sym ∈ symbols, sym.stShndx = ids.shndx → (sym.name.bind getFuncName).isSome →
      ((collectRanges ids symbols).any fun range => range.contains sym.stValue) = true →
        (ids.place? sym.stValue).isSome := by
    intro sym hsym hraw hsome hany
    obtain ⟨func, hfunc⟩ := Option.isSome_iff_exists.mp hsome
    have hname := exists_name_of_getFuncName hfunc
    have hin := inKfuncSet_of_read hfit hshndx hsym hraw hname hany
    rw [place?_of_inKfuncSet hfit hsym hin hname]
    rfl
  refine ⟨_, injectKfuncs_eq hbounds, ?_, ?_, fun func number => getFuncName_number⟩
  · intro func hfunc
    rw [entries_foldl_markKfunc hsorted] at hfunc
    obtain ⟨a, ha, rfl⟩ := List.mem_map.mp hfunc
    rw [key_updateAll name_setKfunc]
    constructor
    · intro hkfunc
      obtain ⟨up, hup, hname, -⟩ := exists_of_kfunc (hclear a ha) hkfunc
      obtain ⟨sym, hsym, hsome⟩ := List.mem_filterMap.mp hup
      obtain ⟨hin, hnames, -⟩ := (kfunc?_eq_some_iff hfit hshndx hsym).mp hsome
      exact ⟨sym, hsym, hin, hname ▸ hnames⟩
    · rintro ⟨sym, hsym, hin, hnames⟩
      have hsome := (kfunc?_eq_some_iff hfit hshndx hsym).mpr ⟨hin, hnames, rfl⟩
      exact kfunc_of_mem (List.mem_filterMap.mpr ⟨sym, hsym, hsome⟩) rfl
  · intro func hfunc hkfunc
    rw [entries_foldl_markKfunc hsorted] at hfunc
    obtain ⟨a, ha, rfl⟩ := List.mem_map.mp hfunc
    obtain ⟨up, hup, hname, hflags⟩ := exists_of_kfunc (hclear a ha) hkfunc
    obtain ⟨sym, hsym, hsome⟩ := List.mem_filterMap.mp hup
    obtain ⟨hin, hnames, hpair⟩ := (kfunc?_eq_some_iff hfit hshndx hsym).mp hsome
    rw [key_updateAll name_setKfunc]
    exact ⟨sym, hsym, hin, hname ▸ hnames, hflags.trans hpair⟩

/-- If the index of `.BTF_ids` does not fit in `st_shndx`, the loops leave the table as it is.
-/
theorem injectKfuncs_of_not_fits (hfit : BtfIdsFit ids symbols) (hshndx : ¬FitsStShndx ids.shndx)
    (ranges : List KfuncSetRange) : injectKfuncs ids ranges table symbols = some table := by
  have hnone : ∀ sym ∈ symbols, sym.stShndx = ids.shndx → sym.name.bind getFuncName = none := by
    intro sym hsym hraw
    rw [Option.eq_none_iff_forall_ne_some]
    intro func hfunc
    obtain ⟨rest, hrest⟩ := exists_name_of_getFuncName hfunc
    exact section?_ne hshndx hraw (hfit.own sym hsym ⟨rest, Or.inr hrest⟩ hraw)
  have hunread : symbols.filterMap (GElfSym.kfunc? ids ranges) = [] := by
    rw [List.filterMap_eq_nil_iff]
    intro sym hsym
    rw [GElfSym.kfunc?]
    split
    · next hread =>
      rw [hnone sym hsym hread.1]
      rfl
    · rfl
  rw [injectKfuncs_eq, hunread]
  · rfl
  · intro sym hsym hraw hsome
    rw [hnone sym hsym hraw] at hsome
    cases hsome

theorem collectKfuncs_eq (hsymbols : (locateScns 1 ⟨none, none⟩ scns).symbols = some symbols)
    (hids : (locateScns 1 ⟨none, none⟩ scns).idlist = some ids) :
    table.collectKfuncs scns = injectKfuncs ids (collectRanges ids symbols) table symbols := by
  rw [ElfFunctions.collectKfuncs, hsymbols, hids]

/-- `btf_encoder__collect_kfuncs` marks the kfuncs exactly when `st_shndx` has room for the
index of `.BTF_ids`, or when there are none to be marked. -/
theorem collectKfuncs_iff (qsort : Qsort) (symtab : List ElfSym) (elf : ℕ)
    (hsymbols : (locateScns 1 ⟨none, none⟩ scns).symbols = some symbols)
    (hids : (locateScns 1 ⟨none, none⟩ scns).idlist = some ids) (hfit : BtfIdsFit ids symbols) :
    (∃ funcs, ElfFunctions.collectKfuncs ⟨elf, symtab, ElfFunctions.collect qsort symtab⟩ scns =
      some funcs ∧ CollectsKfuncs ids symbols funcs) ↔
        FitsStShndx ids.shndx ∨ ∀ func ∈ ElfFunctions.collect qsort symtab,
          ¬∃ sym ∈ symbols, InKfuncSet ids symbols sym ∧ sym.Names func.name := by
  rw [collectKfuncs_eq hsymbols hids]
  by_cases hshndx : FitsStShndx ids.shndx
  · refine ⟨fun _ => Or.inl hshndx, fun _ => ?_⟩
    exact exists_injectKfuncs hfit hshndx sorted_collect fun func => kfunc_of_mem_collect
  · rw [injectKfuncs_of_not_fits hfit hshndx]
    constructor
    · rintro ⟨funcs, heq, hcollects⟩
      obtain rfl := Option.some.inj heq
      refine Or.inr fun func hfunc hexists => ?_
      have hkfunc := (hcollects.kfunc func hfunc).mpr hexists
      rw [kfunc_of_mem_collect hfunc] at hkfunc
      cases hkfunc
    · intro hor
      have hnone := hor.resolve_left hshndx
      refine ⟨_, rfl, fun func hfunc => ?_, fun func hfunc hkfunc => ?_,
        fun func number => getFuncName_number⟩
      · rw [kfunc_of_mem_collect hfunc]
        exact ⟨fun h => absurd h (by decide), fun h => absurd h (hnone func hfunc)⟩
      · rw [kfunc_of_mem_collect hfunc] at hkfunc
        cases hkfunc

end Marked

/-! ## A file with many sections -/

/-- The `st_shndx` of a symbol in section `shndx`: `SHN_XINDEX` where the index is reserved. -/
def stShndxOf (shndx : ℕ) : ℕ := if shndx < shnLoreserve then shndx else shnXindex

theorem le_of_stShndxOf {shndx : ℕ} (h : stShndxOf shndx = shnXindex) : shnLoreserve ≤ shndx := by
  by_contra hlt
  rw [stShndxOf, if_pos (not_le.mp hlt)] at h
  rw [h] at hlt
  exact hlt (by decide)

/-- The symbol of a set8 in section `shndx`. -/
def setSym (shndx : ℕ) : GElfSym :=
  ⟨some "__BTF_ID__set8__s", stShndxOf shndx, 0, 16, shndx, le_of_stShndxOf⟩

/-- The symbol of the function `f` in it. -/
def funcSym (shndx : ℕ) : GElfSym :=
  ⟨some "__BTF_ID__func__f__1", stShndxOf shndx, 8, 4, shndx, le_of_stShndxOf⟩

def setWithF (shndx : ℕ) : List GElfSym := [setSym shndx, funcSym shndx]

/-- One pair, in a set with the flag for kfuncs. -/
def setData : List UInt8 := [1, 0, 0, 0, 1, 0, 0, 0, 0, 0, 0, 0, 4, 0, 0, 0]

/-- A file with `.BTF_ids` behind the symbols and `n` other sections. -/
def scnsWithF (n : ℕ) : List ElfScn :=
  .symtab (setWithF (n + 2)) ::
    (List.replicate n (.other ".text.f" 0 []) ++ [.other ".BTF_ids" 0 setData])

/-- A function `f`. -/
def symtabWithF : List ElfSym := [⟨some "f", 16, true, false, 1⟩]

section WithF

variable {n : ℕ} {sym : GElfSym}

theorem section?_of_stShndxOf (hraw : sym.stShndx = stShndxOf n) (hext : sym.xindex = n) :
    sym.section? = some n := by
  rw [GElfSym.section?, hraw, hext, stShndxOf]
  by_cases hlt : n < shnLoreserve
  · have hne : n ≠ shnXindex := fun heq => absurd (heq ▸ hlt) (by decide)
    rw [if_pos hlt, if_neg hne, if_neg (not_le.mpr hlt)]
  · rw [if_neg hlt, if_pos rfl]

theorem isKfuncSet_setSym : IsKfuncSet ⟨n, 0, setData⟩ (setSym n) where
  inSection := section?_of_stShndxOf rfl rfl
  named := ⟨"s", rfl⟩
  marked := ⟨0, rfl⟩

theorem names_funcSym : (funcSym n).Names "f" :=
  ⟨"1", ⟨by decide, fun c hc => (List.mem_singleton.mp hc) ▸ rfl⟩, rfl⟩

theorem inKfuncSet_funcSym : InKfuncSet ⟨n, 0, setData⟩ (setWithF n) (funcSym n) where
  inSection := section?_of_stShndxOf rfl rfl
  within := by
    refine ⟨setSym n, List.mem_cons_self, isKfuncSet_setSym, ?_, ?_⟩
    · exact Nat.zero_le 8
    · change 8 < 0 + 16
      decide

theorem btfIdsFit_setWithF : BtfIdsFit ⟨n, 0, setData⟩ (setWithF n) where
  small := (by decide : 16 < 2 ^ 63)
  top := (by decide : 0 + 16 < 2 ^ 64)
  sets := by
    intro set hset hsec hname
    rcases List.mem_cons.mp hset with rfl | hset
    · exact ⟨le_rfl, (by decide : 0 + 8 ≤ 0 + 16), (by decide : 0 + 16 ≤ 0 + 16)⟩
    · rw [List.mem_singleton.mp hset]
      exact ⟨Nat.zero_le _, (by decide : 8 + 8 ≤ 0 + 16), (by decide : 8 + 4 ≤ 0 + 16)⟩
  funcs := by
    intro sym hsym hin hname
    rcases List.mem_cons.mp hsym with rfl | hsym
    · obtain ⟨name, hname⟩ := hname
      have hpre := isPrefixOf_toList_iff.mpr ⟨name, Option.some.inj hname⟩
      exact absurd hpre (by decide)
    · rw [List.mem_singleton.mp hsym]
      exact ⟨⟨"f", names_funcSym⟩, (by decide : 8 + 8 ≤ 0 + 16)⟩
  own := by
    intro sym hsym hid hraw
    rcases List.mem_cons.mp hsym with rfl | hsym
    · exact section?_of_stShndxOf rfl rfl
    · rw [List.mem_singleton.mp hsym]
      exact section?_of_stShndxOf rfl rfl

theorem locateScns_replicate {i : ℕ} {found : LocatedScns} {rest : List ElfScn} :
    locateScns i found (List.replicate n (.other ".text.f" 0 []) ++ rest) =
      locateScns (i + n) found rest := by
  induction n generalizing i with
  | zero => rfl
  | succ n ih =>
      have hname : ".text.f" ≠ btfIdsSection := by decide
      rw [List.replicate_succ, List.cons_append, locateScns, if_neg hname, ih]
      congr 1
      omega

theorem locateScns_scnsWithF : locateScns 1 ⟨none, none⟩ (scnsWithF n) =
    ⟨some (setWithF (n + 2)), some ⟨n + 2, 0, setData⟩⟩ := by
  have hname : ".BTF_ids" = btfIdsSection := rfl
  have hshndx : 1 + 1 + n = n + 2 := by omega
  rw [scnsWithF, locateScns, locateScns_replicate, locateScns, if_pos hname, locateScns, hshndx]

theorem exists_entry_symtabWithF (qsort : Qsort) :
    ∃ func ∈ ElfFunctions.collect qsort symtabWithF, func.name = "f" := by
  obtain ⟨syms, hperm, -, hcollect⟩ := exists_collect_eq qsort symtabWithF
  have hsyms : functionSyms symtabWithF = [⟨"f", 16⟩] := by decide
  rw [hsyms] at hperm
  rw [hcollect]
  apply exists_mem_mergedEntries_iff.mpr
  refine ⟨⟨"f", 16⟩, hperm.mem_iff.mpr (List.mem_singleton.mpr rfl), ?_⟩
  decide

end WithF

/-- With `.BTF_ids` in section 2 the kfunc `f` is marked. -/
theorem collectKfuncs_scnsWithF :
    ∃ funcs, ElfFunctions.collectKfuncs
      ⟨0, symtabWithF, ElfFunctions.collect Qsort.stable symtabWithF⟩ (scnsWithF 0) = some funcs ∧
        CollectsKfuncs ⟨2, 0, setData⟩ (setWithF 2) funcs :=
  (collectKfuncs_iff Qsort.stable symtabWithF 0 (congrArg LocatedScns.symbols locateScns_scnsWithF)
    (congrArg LocatedScns.idlist locateScns_scnsWithF) btfIdsFit_setWithF).mpr
      (Or.inl (Or.inl (by decide)))

/-- With `.BTF_ids` in section 70000 the kfunc `f` is not marked. -/
theorem not_collectKfuncs_scnsWithF :
    BtfIdsFit ⟨70000, 0, setData⟩ (setWithF 70000) ∧
      ¬∃ qsort funcs, ElfFunctions.collectKfuncs
        ⟨0, symtabWithF, ElfFunctions.collect qsort symtabWithF⟩ (scnsWithF 69998) = some funcs ∧
          CollectsKfuncs ⟨70000, 0, setData⟩ (setWithF 70000) funcs := by
  have hfit : BtfIdsFit ⟨70000, 0, setData⟩ (setWithF 70000) := btfIdsFit_setWithF
  refine ⟨hfit, ?_⟩
  rintro ⟨qsort, funcs, hcollect, hcollects⟩
  have hlocated := locateScns_scnsWithF (n := 69998)
  have hlarge : ¬FitsStShndx 70000 := by
    rintro (h | h)
    · exact absurd h (by decide)
    · exact absurd h (by decide)
  rw [collectKfuncs_eq (congrArg LocatedScns.symbols hlocated)
    (congrArg LocatedScns.idlist hlocated), injectKfuncs_of_not_fits hfit hlarge] at hcollect
  obtain rfl := Option.some.inj hcollect
  obtain ⟨func, hfunc, hname⟩ := exists_entry_symtabWithF qsort
  have hkfunc := (hcollects.kfunc func hfunc).mpr ⟨funcSym 70000, by simp [setWithF],
    inKfuncSet_funcSym, hname ▸ names_funcSym⟩
  rw [kfunc_of_mem_collect hfunc] at hkfunc
  cases hkfunc

end Pahole
