import Pahole.CtfLoader.Sections

/-!
# CTF sections in the other byte order

The types and functions that are loaded are the same for a CTF section and the section with
its fields in the other order.  So are the variables exactly when the record of every data
object consists of two equal bytes.
-/

namespace Pahole.CtfLoader

open ByteOrder Libctf

/-! ## Sections in the other order -/

/-- The fields of `struct ctf_header`. -/
def headerFields : List Field :=
  [⟨0, 2⟩, ⟨2, 1⟩, ⟨3, 1⟩, ⟨4, 4⟩, ⟨8, 4⟩, ⟨12, 4⟩, ⟨16, 4⟩, ⟨20, 4⟩, ⟨24, 4⟩, ⟨28, 4⟩, ⟨32, 4⟩]

/-- The header and what follows it, inflated where it is compressed. -/
def contents (inflate : List Byte → Option (List Byte)) (data : List Byte) : Option (List Byte) :=
  match data[3]? with
  | none => none
  | some flags =>
      if flags &&& 1 = 0 then some data
      else (inflate (data.drop headerSize)).map (data.take headerSize ++ ·)

/-- The order of the fields of a section. -/
def orderOf (host : Host) (data : List Byte) : Option Bool :=
  ((Image.mk host data false).raw16 0).bind magicSwapped?

/-- The fields that are read of the contents of a section. -/
def fieldsOf (host : Host) (symtab : Option (List ElfSymbol)) (swapped : Bool)
    (bytes : List Byte) : List Field :=
  (ctfLoadSections symtab ⟨host, bytes, swapped⟩).2

/-- `data'` is `data` with the bytes of every field that the loader reads reversed, both
uncompressed to as many bytes. -/
structure SwappedSection (inflate : List Byte → Option (List Byte)) (host : Host)
    (symtab : Option (List ElfSymbol)) (data data' : List Byte) : Prop where
  header : ∀ f ∈ headerFields, SwappedAt data data' f
  absent : contents inflate data = none → contents inflate data' = none
  fields : ∀ bytes, contents inflate data = some bytes →
    ∃ bytes', contents inflate data' = some bytes' ∧ bytes'.length = bytes.length ∧
      ∀ swapped, orderOf host data = some swapped →
        ∀ f ∈ fieldsOf host symtab swapped bytes, SwappedAt bytes bytes' f

/-- The record of every data object consists of two equal bytes, where a section is loaded
up to them. -/
def ObjectBytesEqual (inflate : List Byte → Option (List Byte)) (host : Host)
    (symtab : Option (List ElfSymbol)) (data : List Byte) : Prop :=
  ∀ img syms functions types objects, ctfLoad inflate host data = .ok img → symtab = some syms →
    (ctfLoadFuncs syms img).1 = .ok functions → (ctfLoadTypes img).1 = .ok types →
    (ctfObjects syms img).1 = .ok objects →
    ∀ o ∈ objects, o.2.extractLsb' 8 8 = o.2.extractLsb' 0 8

/-! ## Types and functions -/

section Independent

open ByteOrder.Independent

variable {p tp ptr size vlen : ℕ}

theorem independent_ctfGet16 : Independent (ctfGet16 p) := map _ get16

theorem independent_ctfGet32 : Independent (ctfGet32 p) := map _ get32

theorem independent_cString {length : ℕ} : Independent (cString length p) := by
  induction length generalizing p with
  | zero => exact Independent.pure _
  | succ length ih =>
      refine byte.bind fun c => ite (Independent.pure _) ?_
      exact ih.bind fun _ => Independent.pure _

theorem independent_ctfString {ref : ℕ} : Independent (ctfString ref) := by
  refine ite (Independent.pure _) (independent_ctfGet32.bind fun strLen => ite (Independent.pure _) ?_)
  refine independent_ctfGet32.bind fun strOff => Independent.size.bind fun size =>
    ite (Independent.pure _) (byte.bind fun c => ite (Independent.pure _) ?_)
  exact independent_cString.bind fun _ => Independent.pure _

theorem independent_ctfName : Independent (ctfName tp) :=
  independent_ctfGet32.bind fun _ => independent_ctfString

theorem independent_loadArgs : Independent (loadArgs vlen p) := by
  induction vlen generalizing p with
  | zero => exact Independent.pure _
  | succ vlen ih =>
      exact independent_ctfGet16.bind fun _ => ih.bind fun _ => Independent.pure _

theorem independent_ctfLoadFtype {type : ℕ} : Independent (ctfLoadFtype type vlen p) :=
  independent_loadArgs.bind fun _ => Independent.pure _

theorem independent_loadFunctions {syms : List ElfSymbol} :
    Independent (loadFunctions syms ptr) := by
  induction syms generalizing ptr with
  | nil => exact Independent.pure _
  | cons sym syms ih =>
      refine ite ih (independent_ctfGet16.bind fun val => ite (Independent.fail _) ?_)
      exact independent_ctfGet16.bind fun _ => independent_ctfLoadFtype.bind fun _ =>
        ih.bind fun _ => Independent.pure _

theorem independent_ctfLoadFuncs {symtab : List ElfSymbol} : Independent (ctfLoadFuncs symtab) :=
  independent_ctfGet32.bind fun _ => independent_loadFunctions

theorem independent_createShortMembers : Independent (createShortMembers vlen p) := by
  induction vlen generalizing p with
  | zero => exact Independent.pure _
  | succ vlen ih =>
      exact independent_ctfGet16.bind fun _ => independent_ctfName.bind fun _ =>
        independent_ctfGet16.bind fun _ => ih.bind fun _ => Independent.pure _

theorem independent_createFullMembers : Independent (createFullMembers vlen p) := by
  induction vlen generalizing p with
  | zero => exact Independent.pure _
  | succ vlen ih =>
      exact independent_ctfGet16.bind fun _ => independent_ctfName.bind fun _ =>
        independent_ctfGet32.bind fun _ => independent_ctfGet32.bind fun _ =>
          ih.bind fun _ => Independent.pure _

theorem independent_createEnumerators : Independent (createEnumerators vlen p) := by
  induction vlen generalizing p with
  | zero => exact Independent.pure _
  | succ vlen ih =>
      exact independent_ctfName.bind fun _ => independent_ctfGet32.bind fun _ =>
        ih.bind fun _ => Independent.pure _

theorem independent_createMembers : Independent (createMembers size vlen ptr) :=
  ite (independent_createFullMembers.bind fun _ => Independent.pure _)
    (independent_createShortMembers.bind fun _ => Independent.pure _)

theorem independent_createNewClass {tag : Option String → ℕ → List Member → LoadedType} :
    Independent (createNewClass tag tp size vlen ptr) :=
  independent_ctfName.bind fun _ => independent_createMembers.bind fun _ => Independent.pure _

theorem independent_createNewTag {tag : ℕ → LoadedType} : Independent (createNewTag tag tp) :=
  independent_ctfGet16.bind fun _ => Independent.pure _

theorem independent_createNew {kind : CtfKind} : Independent (createNew kind tp size vlen ptr) := by
  cases kind with
  | int =>
      exact independent_ctfGet32.bind fun _ => independent_ctfName.bind fun _ => Independent.pure _
  | flt =>
      exact independent_ctfName.bind fun _ => independent_ctfGet32.bind fun _ => Independent.pure _
  | arr =>
      exact independent_ctfGet32.bind fun _ => independent_ctfGet16.bind fun _ => Independent.pure _
  | func =>
      exact independent_ctfGet16.bind fun _ =>
        independent_ctfLoadFtype.bind fun _ => Independent.pure _
  | str => exact independent_createNewClass
  | union => exact independent_createNewClass
  | enum =>
      exact independent_ctfName.bind fun _ =>
        independent_createEnumerators.bind fun _ => Independent.pure _
  | fwd => exact independent_ctfName.bind fun _ => Independent.pure _
  | typedef =>
      exact independent_ctfName.bind fun _ => independent_ctfGet16.bind fun _ => Independent.pure _
  | volatile => exact independent_createNewTag
  | ptr => exact independent_createNewTag
  | const => exact independent_createNewTag
  | restrict => exact independent_createNewTag
  | unkn => exact Independent.pure _

theorem independent_ctfSize : Independent (ctfSize tp) := by
  refine independent_ctfGet16.bind fun _ => ite ?_ (Independent.pure _)
  exact independent_ctfGet32.bind fun _ => independent_ctfGet32.bind fun _ => Independent.pure _

theorem independent_loadTypes {rounds stop typeIndex : ℕ} :
    Independent (loadTypes rounds tp stop typeIndex) := by
  induction rounds generalizing tp typeIndex with
  | zero => exact ite (Independent.fail _) (Independent.pure _)
  | succ rounds ih =>
      refine ite ?_ (Independent.pure _)
      refine independent_ctfGet16.bind fun val => independent_ctfSize.bind fun size => ?_
      cases CtfKind.ofCode (ctfGetKind val) with
      | none => exact Independent.fail _
      | some kind =>
          exact independent_createNew.bind fun _ => ih.bind fun _ => Independent.pure _

theorem independent_ctfLoadTypes : Independent ctfLoadTypes :=
  independent_ctfGet32.bind fun _ => independent_ctfGet32.bind fun _ =>
    nonzero32.bind fun _ => nonzero32.bind fun _ => Independent.size.bind fun _ =>
      independent_loadTypes

end Independent

/-! ## Data objects -/

section Objects

variable {syms : List ElfSymbol} {objp : ℕ}

/-- The record of an object in the other order. -/
def swapObject (object : ElfSymbol × BitVec 16) : ElfSymbol × BitVec 16 :=
  (object.1, swap16 object.2)

theorem corresponds_objectTypes :
    Corresponds (List.map swapObject) (objectTypes syms objp) (objectTypes syms objp) := by
  induction syms generalizing objp with
  | nil => exact Corresponds.pure _ _
  | cons sym syms ih =>
      rw [objectTypes.eq_2]
      by_cases hignore : sym.ctfIgnoreSymtabObject
      · rw [if_pos hignore]
        exact ih
      · rw [if_neg hignore]
        exact Corresponds.raw16.bind fun _ => ih.bind fun _ => Corresponds.pure _ _

theorem corresponds_ctfObjects :
    Corresponds (List.map swapObject) (ctfObjects syms) (ctfObjects syms) :=
  (Independent.iff_corresponds.mp independent_ctfGet32).bind fun _ => corresponds_objectTypes

theorem variableNew_of_eq {o : ElfSymbol × BitVec 16} (h : o.2 = 0) : variableNew o = none :=
  if_pos h

theorem variableNew_of_ne {o : ElfSymbol × BitVec 16} (h : o.2 ≠ 0) :
    variableNew o = some ⟨o.1.name, o.1.value, o.1.isGlobal, o.2.toNat⟩ :=
  if_neg h

/-- Objects that are loaded as the same variables have records that are the same in both
orders. -/
theorem filterMap_variableNew_eq_iff {objects : List (ElfSymbol × BitVec 16)} :
    (objects.map swapObject).filterMap variableNew = objects.filterMap variableNew ↔
      ∀ o ∈ objects, swap16 o.2 = o.2 := by
  have hzero (val : BitVec 16) : swap16 val = 0 ↔ val = 0 := by
    constructor
    · intro h
      rw [← swap16_swap16 val, h]
      decide
    · rintro rfl
      decide
  induction objects with
  | nil => simp
  | cons o objects ih =>
      rw [List.forall_mem_cons, List.map_cons]
      by_cases ho : o.2 = 0
      · have hswap : (swapObject o).2 = 0 := (hzero o.2).mpr ho
        rw [List.filterMap_cons_none (variableNew_of_eq hswap),
          List.filterMap_cons_none (variableNew_of_eq ho)]
        exact ih.trans ⟨fun h => ⟨hswap.trans ho.symm, h⟩, And.right⟩
      · have hswap : (swapObject o).2 ≠ 0 := fun h => ho ((hzero o.2).mp h)
        rw [List.filterMap_cons_some (variableNew_of_ne hswap),
          List.filterMap_cons_some (variableNew_of_ne ho), List.cons.injEq]
        refine and_congr ?_ ih
        rw [Variable.mk.injEq, BitVec.toNat_inj]
        simp [swapObject]

end Objects

/-! ## The sections -/

section Sections

variable {img img' : Image} {syms : List ElfSymbol}

/-- The sections of two images in different orders are loaded alike if and only if the record of
every data object, where these are loaded, is the same in both orders. -/
theorem ctfLoadSections_eq_iff (h : Swapped (ctfLoadSections (some syms) img).2 img img') :
    (ctfLoadSections (some syms) img').1 = (ctfLoadSections (some syms) img).1 ↔
      ∀ functions types objects, (ctfLoadFuncs syms img).1 = .ok functions →
        (ctfLoadTypes img).1 = .ok types → (ctfObjects syms img).1 = .ok objects →
        ∀ o ∈ objects, swap16 o.2 = o.2 := by
  rw [ctfLoadSections, ReadM.bind_apply] at h ⊢
  rw [ReadM.bind_apply]
  have hfuncs := (independent_ctfLoadFuncs : Independent (ctfLoadFuncs syms)) img img'
  cases hfuncsEq : ctfLoadFuncs syms img with
  | mk res fields =>
      rw [hfuncsEq] at h hfuncs
      cases res with
      | error e =>
          rw [hfuncs h]
          exact ⟨fun _ _ _ _ hok => (nomatch hok), fun _ => rfl⟩
      | ok functions =>
          rw [hfuncs h.left]
          replace h := h.right
          dsimp only at h ⊢
          rw [ReadM.bind_apply] at h ⊢
          rw [ReadM.bind_apply]
          have htypes := independent_ctfLoadTypes img img'
          cases htypesEq : ctfLoadTypes img with
          | mk res fields =>
              rw [htypesEq] at h htypes
              cases res with
              | error e =>
                  rw [htypes h]
                  exact ⟨fun _ _ _ _ _ hok => (nomatch hok), fun _ => rfl⟩
              | ok types =>
                  rw [htypes h.left]
                  replace h := h.right
                  dsimp only at h ⊢
                  rw [ReadM.bind_pure_snd, ctfLoadObjects, ReadM.bind_pure_snd] at h
                  rw [ReadM.bind_pure_fst, ReadM.bind_pure_fst, ctfLoadObjects,
                    ReadM.bind_pure_fst, ReadM.bind_pure_fst, corresponds_ctfObjects img img' h]
                  cases (ctfObjects syms img).1 with
                  | error e => exact ⟨fun _ _ _ _ _ _ hok => (nomatch hok), fun _ => rfl⟩
                  | ok objects =>
                      simp only [Except.map, Except.ok.injEq, Loaded.mk.injEq, true_and,
                        filterMap_variableNew_eq_iff]
                      exact ⟨fun heq _ _ _ _ _ hobjects => hobjects ▸ heq,
                        fun heq => heq functions types objects rfl rfl rfl⟩

end Sections

/-! ## Opening a section -/

section Opening

variable {inflate : List Byte → Option (List Byte)} {host : Host} {data data' : List Byte}
  {symtab : Option (List ElfSymbol)}

theorem magicSwapped?_swap16 (magic : BitVec 16) :
    magicSwapped? (swap16 magic) = (magicSwapped? magic).map not := by
  have heq (val : BitVec 16) : swap16 magic = val ↔ magic = swap16 val := by
    constructor
    · rintro rfl
      exact (swap16_swap16 magic).symm
    · rintro rfl
      exact swap16_swap16 val
  rw [magicSwapped?, magicSwapped?]
  simp only [heq]
  rw [(by decide : swap16 0xcff1 = 0xf1cf), (by decide : swap16 0xf1cf = 0xcff1)]
  by_cases h1 : magic = 0xcff1
  · subst h1
    decide
  · rw [if_neg h1, if_neg h1]
    split <;> rfl

theorem orderOf_swapped (h : SwappedAt data data' ⟨0, 2⟩) :
    orderOf host data' = (orderOf host data).map not := by
  have hraw : (Image.mk host data' false).raw16 0 =
      ((Image.mk host data false).raw16 0).map swap16 :=
    raw16_swapped rfl h
  rw [orderOf, orderOf, hraw]
  cases (Image.mk host data false).raw16 0 with
  | none => rfl
  | some magic => exact magicSwapped?_swap16 magic

theorem getElem?_of_swapped {i : ℕ} (h : SwappedAt data data' ⟨i, 1⟩) : data'[i]? = data[i]? :=
  h 0 Nat.zero_lt_one

theorem length_of_ctfStrLen {img : Image} {strLen : ℕ} (h : (ctfStrLen img).1 = .ok strLen) :
    headerSize ≤ img.bytes.length := by
  by_contra hlt
  have hnone : img.raw32 32 = none := by
    rw [raw32_eq_none_iff]
    rw [headerSize] at hlt
    omega
  have herror : ReadM.get32 LoadError.behindEnd 32 img = (.error .behindEnd, []) := by
    rw [ReadM.get32, hnone]
  change ((ReadM.get32 LoadError.behindEnd 32 >>= fun val => pure val.toNat) img).1 = _ at h
  rw [ReadM.bind_pure_fst, herror] at h
  cases h

theorem ctfGet32_swapped {swapped : Bool} {p : ℕ} (h : SwappedAt data data' ⟨p, 4⟩) :
    ctfGet32 p ⟨host, data', !swapped⟩ = ctfGet32 p ⟨host, data, swapped⟩ := by
  have hget : ReadM.get32 LoadError.behindEnd p ⟨host, data', !swapped⟩ =
      ReadM.get32 LoadError.behindEnd p ⟨host, data, swapped⟩ :=
    get32_swapped rfl rfl h
  change (ReadM.get32 LoadError.behindEnd p >>= fun val => pure val.toNat) _ =
    (ReadM.get32 LoadError.behindEnd p >>= fun val => pure val.toNat) _
  rw [ReadM.bind_apply, ReadM.bind_apply, hget]
  rfl

/-- Two files that are opened with the same error, or with images in different orders. -/
def OpenedAlike (symtab : Option (List ElfSymbol)) (opened opened' : Except LoadError Image) :
    Prop :=
  (∃ e, opened = .error e ∧ opened' = .error e) ∨
    ∃ img img', opened = .ok img ∧ opened' = .ok img' ∧
      Swapped (ctfLoadSections symtab img).2 img img'

theorem ctfDecompress_swapped {swapped : Bool} (h : SwappedSection inflate host symtab data data')
    (horder : orderOf host data = some swapped) {flags : Byte} (hflags : data[3]? = some flags)
    (hcompressed : flags &&& 1 ≠ 0) :
    OpenedAlike symtab (ctfDecompress inflate ⟨host, data, swapped⟩)
      (ctfDecompress inflate ⟨host, data', !swapped⟩) := by
  have hflags' : data'[3]? = some flags :=
    (getElem?_of_swapped (h.header ⟨3, 1⟩ (by decide))).trans hflags
  have hcontents : contents inflate data =
      (inflate (data.drop headerSize)).map (data.take headerSize ++ ·) := by
    rw [contents, hflags]
    exact if_neg hcompressed
  have hcontents' : contents inflate data' =
      (inflate (data'.drop headerSize)).map (data'.take headerSize ++ ·) := by
    rw [contents, hflags']
    exact if_neg hcompressed
  have hoff : ctfStrOff ⟨host, data', !swapped⟩ = ctfStrOff ⟨host, data, swapped⟩ :=
    ctfGet32_swapped (h.header ⟨28, 4⟩ (by decide))
  have hlen : ctfStrLen ⟨host, data', !swapped⟩ = ctfStrLen ⟨host, data, swapped⟩ :=
    ctfGet32_swapped (h.header ⟨32, 4⟩ (by decide))
  rw [ctfDecompress, ctfDecompress, hoff, hlen]
  cases hstrOff : (ctfStrOff ⟨host, data, swapped⟩).1 with
  | error e => exact Or.inl ⟨e, rfl, rfl⟩
  | ok strOff =>
      cases hstrLen : (ctfStrLen ⟨host, data, swapped⟩).1 with
      | error e => exact Or.inl ⟨e, rfl, rfl⟩
      | ok strLen =>
          have hsize : headerSize ≤ data.length := length_of_ctfStrLen hstrLen
          have hsize' : headerSize ≤ data'.length := length_of_ctfStrLen (hlen ▸ hstrLen)
          cases hout : inflate (data.drop headerSize) with
          | none =>
              have hnone := h.absent (by rw [hcontents, hout]; rfl)
              rw [hcontents', Option.map_eq_none_iff] at hnone
              rw [hnone]
              exact Or.inl ⟨.inval, rfl, rfl⟩
          | some out =>
              obtain ⟨bytes', hbytes', hlength, hfields⟩ :=
                h.fields (data.take headerSize ++ out) (by rw [hcontents, hout]; rfl)
              rw [hcontents', Option.map_eq_some_iff] at hbytes'
              obtain ⟨out', hout', rfl⟩ := hbytes'
              have hsame : out'.length = out.length := by
                rw [List.length_append, List.length_append, List.length_take_of_le hsize,
                  List.length_take_of_le hsize'] at hlength
                exact Nat.add_left_cancel hlength
              rw [hout']
              change OpenedAlike symtab (if out.length = _ then _ else _)
                (if out'.length = _ then _ else _)
              rw [hsame]
              split
              · exact Or.inr ⟨_, _, rfl, rfl, rfl, rfl, hlength, hfields swapped horder⟩
              · exact Or.inl ⟨.inval, rfl, rfl⟩

theorem ctfLoad_swapped (h : SwappedSection inflate host symtab data data') :
    OpenedAlike symtab (ctfLoad inflate host data) (ctfLoad inflate host data') := by
  have horder' : orderOf host data' = (orderOf host data).map not :=
    orderOf_swapped (h.header ⟨0, 2⟩ (by decide))
  have hversion := getElem?_of_swapped (h.header ⟨2, 1⟩ (by decide))
  have hflags := getElem?_of_swapped (h.header ⟨3, 1⟩ (by decide))
  rw [orderOf, orderOf] at horder'
  rw [ctfLoad, ctfLoad, hversion, horder', hflags]
  cases data[2]? with
  | none => exact Or.inl ⟨.behindEnd, rfl, rfl⟩
  | some version =>
      dsimp only
      split
      · exact Or.inl ⟨.notsup, rfl, rfl⟩
      · cases horder : ((Image.mk host data false).raw16 0).bind magicSwapped? with
        | none => exact Or.inl ⟨.inval, rfl, rfl⟩
        | some swapped =>
            cases hflagsEq : data[3]? with
            | none => exact Or.inl ⟨.behindEnd, rfl, rfl⟩
            | some flags =>
                dsimp only [Option.map_some]
                split
                · next hplain =>
                    have hcontents : contents inflate data = some data := by
                      rw [contents, hflagsEq]
                      exact if_pos hplain
                    have hcontents' : contents inflate data' = some data' := by
                      rw [contents, hflags, hflagsEq]
                      exact if_pos hplain
                    obtain ⟨bytes', hbytes', hlength, hfields⟩ := h.fields data hcontents
                    obtain rfl := Option.some.inj (hcontents'.symm.trans hbytes')
                    exact Or.inr ⟨_, _, rfl, rfl, rfl, rfl, hlength, hfields swapped horder⟩
                · next hcompressed => exact ctfDecompress_swapped h horder hflagsEq hcompressed

/-- A section and the same section in the other byte order are loaded alike if and only if the
record of every data object consists of two equal bytes. -/
theorem ctfLoadFile_eq_iff (h : SwappedSection inflate host symtab data data') :
    ctfLoadFile inflate host symtab data' = ctfLoadFile inflate host symtab data ↔
      ObjectBytesEqual inflate host symtab data := by
  rcases ctfLoad_swapped h with ⟨e, hload, hload'⟩ | ⟨img, img', hload, hload', hswapped⟩
  · rw [ctfLoadFile, ctfLoadFile, hload, hload']
    refine ⟨fun _ img _ _ _ _ himg => ?_, fun _ => rfl⟩
    rw [hload] at himg
    cases himg
  · have hsections : ctfLoadFile inflate host symtab data' = ctfLoadFile inflate host symtab data ↔
        (ctfLoadSections symtab img').1 = (ctfLoadSections symtab img).1 := by
      rw [ctfLoadFile, ctfLoadFile, hload, hload']
      rfl
    rw [hsections]
    cases symtab with
    | none => exact ⟨fun _ _ _ _ _ _ _ hnone => (nomatch hnone), fun _ => rfl⟩
    | some syms =>
        rw [ctfLoadSections_eq_iff hswapped]
        simp only [swap16_eq_self_iff]
        constructor
        · intro heven img₀ syms₀ functions types objects himg hsyms
          rw [hload] at himg
          cases himg
          cases hsyms
          exact heven functions types objects
        · intro heven functions types objects
          exact heven img syms functions types objects hload rfl

/-- The symbol of a data object. -/
def counter : ElfSymbol where
  name := "counter"
  stName := 1
  value := 4096
  size := 4
  type := 1
  visibility := 0
  shndx := 3
  isGlobal := true

/-- The symbol of a function. -/
def entryPoint : ElfSymbol where
  name := "main"
  stName := 9
  value := 8192
  size := 16
  type := 2
  visibility := 0
  shndx := 1
  isGlobal := true

/-- A section with the record of a data object, a function that takes an `int` and returns one,
and the type `int`, in the order of a host that has the least significant byte first. -/
def objectSection (low high : Byte) : List Byte :=
  [0xf1, 0xcf, 2, 0, 0, 0, 0, 0, 0, 0, 0, 0, 0, 0, 0, 0, 0, 0, 0, 0, 2, 0, 0, 0, 10, 0, 0, 0,
    22, 0, 0, 0, 5, 0, 0, 0] ++ [low, high] ++ [0x01, 0x28, 1, 0, 1, 0, 0, 0] ++
    [1, 0, 0, 0, 0x00, 0x08, 4, 0, 0x20, 0, 0, 0x01] ++ [0, 0x69, 0x6e, 0x74, 0]

/-- The section `objectSection` in the other byte order, with the two given bytes for its
object. -/
def objectSectionSwapped (low high : Byte) : List Byte :=
  [0xcf, 0xf1, 2, 0, 0, 0, 0, 0, 0, 0, 0, 0, 0, 0, 0, 0, 0, 0, 0, 0, 0, 0, 0, 2, 0, 0, 0, 10,
    0, 0, 0, 22, 0, 0, 0, 5] ++ [high, low] ++ [0x28, 0x01, 0, 1, 0, 1, 0, 0] ++
    [0, 0, 0, 1, 0x08, 0x00, 0, 4, 0x01, 0, 0, 0x20] ++ [0, 0x69, 0x6e, 0x74, 0]

theorem swappedSection_objectSection (high : Byte) (hhigh : high = 0 ∨ high = 1) :
    SwappedSection (fun _ => none) .little (some [counter, entryPoint]) (objectSection 1 high)
      (objectSectionSwapped 1 high) := by
  rcases hhigh with rfl | rfl
  all_goals
    refine ⟨by decide, fun h => (nomatch h), ?_⟩
    rintro _ ⟨⟩
    refine ⟨_, rfl, rfl, ?_⟩
    rintro _ ⟨⟩
    decide

/-- A section with one type, one function and one data object, whose record consists of two
equal bytes. -/
theorem ctfLoadFile_eq_iff_objectSection :
    ctfLoadFile (fun _ => none) .little (some [counter, entryPoint]) (objectSection 1 1) =
        .ok ⟨[⟨"main", 8192, 16, true, ⟨1, [1], false⟩⟩],
          [(1, .baseType (some "int") 32 true false false 0)], [⟨"counter", 4096, true, 257⟩]⟩ ∧
      ctfLoadFile (fun _ => none) .little (some [counter, entryPoint]) (objectSectionSwapped 1 1) =
        ctfLoadFile (fun _ => none) .little (some [counter, entryPoint]) (objectSection 1 1) := by
  refine ⟨by decide, (ctfLoadFile_eq_iff (swappedSection_objectSection 1 (Or.inr rfl))).mpr ?_⟩
  rintro img syms functions types objects ⟨⟩ ⟨⟩ - - ⟨⟩
  decide

/-- The type of an object is taken as it is: 1 in one order is 256 in the other. -/
theorem not_forall_ctfLoadFile_eq :
    ¬ ∀ inflate host symtab data data', SwappedSection inflate host symtab data data' →
      ctfLoadFile inflate host symtab data' = ctfLoadFile inflate host symtab data := by
  intro h
  have heq := h _ _ _ _ _ (swappedSection_objectSection 0 (Or.inl rfl))
  exact absurd heq (by decide)

end Opening

end Pahole.CtfLoader
