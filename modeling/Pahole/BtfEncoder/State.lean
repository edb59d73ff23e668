import Mathlib.Data.List.GetD
import Pahole.Btf.Libbpf
import Pahole.Dwarves.Cu

/-!
# The encoder's state and its type id map

The fields of `struct btf_encoder` that the encoding of a CU reads and writes,
and the prediction of BTF ids made before a CU is encoded:
`btf_encoder__precompute_btf_ids` fills `btf_id_map`, and
`btf_encoder__tag_type` reads it for every reference.

The functions return what the C code computes in `uint32_t`.  The last section
relates that to the number of ids that the entries of a types table take.
-/

namespace Pahole

/-! ## ELF functions and saved functions -/

/-- `struct elf_function_sym` -/
structure ElfFunctionSym where
  name : String
  addr : ℕ
  deriving DecidableEq, Repr

/-- `struct elf_function`; `sym_cnt` is the length of `syms`. -/
structure ElfFunction where
  name : String
  syms : List ElfFunctionSym
  ambiguousAddr : Bool
  kfunc : Bool
  kfuncFlags : ℕ
  deriving DecidableEq, Repr

/-- A `struct elf_function *`: an entry of one of the encoder's tables. -/
structure ElfPtr where
  table : ℕ
  entry : ℕ
  deriving DecidableEq, Repr

/-- `struct elf_functions`: the functions of one ELF file. -/
structure ElfFunctions where
  elf : ℕ
  symtab : List ElfSym
  entries : List ElfFunction
  deriving DecidableEq, Repr

/-- `struct btf_encoder_func_parm` -/
structure FuncParm where
  name : String
  typeId : ℕ
  deriving DecidableEq, Repr

/-- `struct loc_param`; `nvalues` is the length of `values`. -/
structure LocParam where
  flags : ℕ
  values : List ℕ
  size : ℕ
  deriving DecidableEq, Repr

/-- `struct loc`; `nparams` is the length of `params`. -/
structure Loc where
  name : String
  params : List LocParam
  funcId : ℤ
  locProtoId : ℤ
  sectionIdx : ℕ
  sectionOffset : ℕ
  deriving DecidableEq, Repr

/-- `struct btf_encoder_func_state` -/
structure FuncState where
  elf : Option ElfPtr
  sym : Option ElfFunctionSym
  loc : Option Loc
  addr : ℕ
  nrParms : ℕ
  optimizedParms : Bool
  unexpectedReg : Bool
  inconsistentProto : Bool
  uncertainParmLoc : Bool
  reorderedParm : Bool
  signatureChanged : Bool
  optimizedSymbol : Bool
  ambiguousAddr : Bool
  retTypeId : ℕ
  parms : List FuncParm
  annots : List LlvmAnnotation
  deriving DecidableEq, Repr

/-- `struct elf_secinfo`, with the entries of its `secinfo` buffer. -/
structure ElfSecinfo where
  addr : ℕ
  name : String
  sz : ℕ
  execinstr : Bool
  /-- `SHT_PROGBITS` or `SHT_NOBITS` -/
  holdsVariables : Bool
  included : Bool
  secinfo : List VarSecinfo
  deriving DecidableEq, Repr

/-- The errors that `btf_encoder__encode_cu` prints about BTF ids. -/
inductive Report where
  | errorEncoding (coreId : ℕ)
  | unexpectedEmit (coreId : ℕ)
  | idDrift (coreId : ℕ)
  deriving DecidableEq, Repr

/-- `struct btf_encoder`, less the BTF under construction. -/
structure Encoder where
  force : Bool
  genFloats : Bool
  skipEncodingDeclTag : Bool
  tagKfuncs : Bool
  encodeAttributes : Bool
  trueSignature : Bool
  encodeVars : Bool
  addrBase : ℕ
  hasIndexType : Bool
  needIndexType : Bool
  arrayIndexId : ℕ
  typeIdOff : ℕ
  typeIdNullAdj : Option (List ℕ)
  btfIdMap : Option (List ℕ)
  btfIdExtra : ℕ
  btfIdSkipped : ℕ
  secinfo : List ElfSecinfo
  funcStates : List FuncState
  locStates : List FuncState
  elfFunctionsList : List ElfFunctions
  /-- what went to `stderr` about ids, oldest first -/
  reports : List Report
  /-- for the proofs only: the functions that FUNCs were added for, oldest first -/
  funcsAdded : List ElfPtr
  deriving DecidableEq, Repr

/-! ## Predicting ids -/

/-- `tag__nr_btf_ids` -/
def Tag.nrBtfIds : Tag → ℕ
  | .unspecified => 0
  | .array _ nrEntries => if nrEntries.length < 1 then 1 else nrEntries.length
  | _ => 1

namespace Encoder

/-- The slot of `type_id_null_adj`, zero without one. -/
def nullAdjAt (enc : Encoder) (id : ℕ) : ℕ :=
  match enc.typeIdNullAdj with
  | some adj => adj.getD id 0
  | none => 0

/-- `btf_encoder__tag_type` -/
def tagType (enc : Encoder) (tagType : TypeId) : ℕ :=
  if tagType = 0 then 0
  else
    match enc.btfIdMap with
    | some map =>
        if tagType < map.length then map.getD tagType 0
        else u32 (enc.typeIdOff + tagType - enc.nullAdjAt tagType)
    | none => u32 (enc.typeIdOff + tagType - enc.nullAdjAt tagType)

/-- The number of `NULL` entries seen so far, entry by entry. -/
def nullCounts : List (Option Tag) → ℕ → List ℕ
  | [], _ => []
  | e :: rest, nulls =>
      let nulls := if e.isNone then nulls + 1 else nulls
      nulls :: nullCounts rest nulls

/-- `type_id_null_adj`, which is only kept when there are `NULL` entries. -/
def nullAdj (tbl : TypesTable) : Option (List ℕ) :=
  let nulls := tbl.tail.countP Option.isNone
  if 0 < nulls then some (0 :: nullCounts tbl.tail 0 ++ [nulls]) else none

/-- The loop of `btf_encoder__precompute_btf_ids` from core id `cid` on: the rest
of the map and the final `extra` and `skipped`. -/
def precomputeLoop (enc : Encoder) :
    List (Option Tag) → (cid extra skipped : ℕ) → List ℕ × ℕ × ℕ
  | [], _, extra, skipped => ([], extra, skipped)
  | none :: rest, cid, extra, skipped =>
      let (map, out) := precomputeLoop enc rest (cid + 1) extra skipped
      (0 :: map, out)
  | some t :: rest, cid, extra, skipped =>
      let nrIds := t.nrBtfIds
      if nrIds = 0 then
        let (map, out) := precomputeLoop enc rest (cid + 1) extra (skipped + 1)
        (0 :: map, out)
      else
        let base := u32 (enc.typeIdOff + cid - enc.nullAdjAt cid - skipped + extra)
        let (map, out) :=
          precomputeLoop enc rest (cid + 1) (extra + (nrIds - 1)) skipped
        (u32 (base + (nrIds - 1)) :: map, out)

/-- `btf_encoder__precompute_btf_ids` -/
def precomputeBtfIds (enc : Encoder) (tbl : TypesTable) : Encoder :=
  if tbl.length = 0 then enc
  else
    let (map, extra, skipped) := precomputeLoop enc tbl.tail 1 0 0
    { enc with
      btfIdMap := some (0 :: map)
      btfIdExtra := extra
      btfIdSkipped := skipped }

end Encoder

/-! ## The ids that the entries of a table take -/

/-- The number of BTF types that an entry of the table turns into. -/
def entryIds : Option Tag → ℕ
  | some t => t.nrBtfIds
  | none => 0

/-- The number of BTF types that a piece of the table turns into. -/
def idsOf (entries : List (Option Tag)) : ℕ := (entries.map entryIds).sum

/-- The id of the BTF type that stands for an entry, when the types of the table
get the ids after `off`: the last one of those the entry takes, and void for an
entry that takes none. -/
def btfIdOf (off : ℕ) (tbl : TypesTable) (id : TypeId) : ℕ :=
  match tbl.type? id with
  | some t =>
      if t.nrBtfIds = 0 then 0
      else off + idsOf (tbl.tail.take (id - 1)) + t.nrBtfIds
  | none => 0

@[simp] theorem idsOf_nil : idsOf [] = 0 := rfl

@[simp] theorem idsOf_cons (e : Option Tag) (entries : List (Option Tag)) :
    idsOf (e :: entries) = entryIds e + idsOf entries := by
  simp [idsOf]

@[simp] theorem idsOf_append (xs ys : List (Option Tag)) :
    idsOf (xs ++ ys) = idsOf xs + idsOf ys := by
  simp [idsOf]

theorem TypesTable.type?_split {tbl : TypesTable} {pre rest : List (Option Tag)}
    {e : Option Tag} (htail : tbl.tail = pre ++ e :: rest) :
    tbl.type? (pre.length + 1) = e := by
  cases tbl with
  | nil => simp at htail
  | cons e₀ tail =>
      simp only [List.tail_cons] at htail
      subst htail
      simp [TypesTable.type?]

theorem btfIdOf_split (off : ℕ) {tbl : TypesTable} {pre rest : List (Option Tag)}
    {e : Option Tag} (htail : tbl.tail = pre ++ e :: rest) :
    btfIdOf off tbl (pre.length + 1) =
      if entryIds e = 0 then 0 else off + idsOf pre + entryIds e := by
  unfold btfIdOf
  rw [TypesTable.type?_split htail, htail]
  cases e with
  | none => rfl
  | some t =>
      by_cases hskip : t.nrBtfIds = 0
      · simp [entryIds, hskip]
      · simp [entryIds, hskip]

namespace Encoder

theorem nullCounts_getD (entries : List (Option Tag)) (nulls k : ℕ)
    (hk : k < entries.length) :
    (nullCounts entries nulls).getD k 0 =
      nulls + (entries.take (k + 1)).countP Option.isNone := by
  induction entries generalizing nulls k with
  | nil => simp at hk
  | cons e rest ih =>
      cases k with
      | zero => cases e <;> simp [nullCounts]
      | succ k =>
          have hk' : k < rest.length := by simpa using hk
          simp only [nullCounts, List.getD_cons_succ, ih _ _ hk', List.take_succ_cons,
            List.countP_cons]
          cases e
          · simp
            omega
          · simp

theorem nullCounts_length (entries : List (Option Tag)) (nulls : ℕ) :
    (nullCounts entries nulls).length = entries.length := by
  induction entries generalizing nulls with
  | nil => rfl
  | cons e rest ih => simp [nullCounts, ih]

/-- The adjustment of an entry that is not `NULL` counts the `NULL` entries
before it, whether or not the adjustments were kept. -/
theorem nullAdjAt_split {enc : Encoder} {tbl : TypesTable}
    (hadj : enc.typeIdNullAdj = nullAdj tbl) {pre rest : List (Option Tag)} {t : Tag}
    (htail : tbl.tail = pre ++ some t :: rest) :
    enc.nullAdjAt (pre.length + 1) = pre.countP Option.isNone := by
  unfold nullAdjAt
  rw [hadj, nullAdj]
  by_cases hnulls : 0 < tbl.tail.countP Option.isNone
  · simp only [if_pos hnulls]
    have hlt : pre.length < tbl.tail.length := by simp [htail]
    rw [List.cons_append, List.getD_cons_succ, List.getD_append _ _ _ _
      (by rwa [nullCounts_length]), nullCounts_getD _ _ _ hlt, htail]
    simp [List.take_append, List.take_of_length_le]
  · simp only [if_neg hnulls]
    have hzero : tbl.tail.countP Option.isNone = 0 := by omega
    rw [htail, List.countP_append] at hzero
    omega

/-- The prediction loop writes the id of each entry; its counters are the ids, holes and skips
of the entries before. -/
theorem precomputeLoop_spec {enc : Encoder} {tbl : TypesTable}
    (hadj : enc.typeIdNullAdj = nullAdj tbl) (rest pre : List (Option Tag))
    (extra skipped : ℕ) (htail : tbl.tail = pre ++ rest)
    (hcount : extra + pre.length =
      idsOf pre + pre.countP Option.isNone + skipped) :
    let out := precomputeLoop enc rest (pre.length + 1) extra skipped
    out.1.length = rest.length ∧
      (∀ k, k < rest.length → out.1.getD k 0 =
        u32 (btfIdOf enc.typeIdOff tbl (pre.length + 1 + k))) ∧
      out.2.1 + tbl.tail.length =
        idsOf tbl.tail + tbl.tail.countP Option.isNone + out.2.2 := by
  induction rest generalizing pre extra skipped with
  | nil =>
      refine ⟨rfl, by simp, ?_⟩
      rw [htail]
      simpa [precomputeLoop] using hcount
  | cons e rest ih =>
      have hnext : tbl.tail = (pre ++ [e]) ++ rest := by simp [htail]
      have hid := btfIdOf_split enc.typeIdOff htail
      have step : ∀ head extra' skipped',
          precomputeLoop enc (e :: rest) (pre.length + 1) extra skipped =
            (head :: (precomputeLoop enc rest (pre.length + 2) extra' skipped').1,
              (precomputeLoop enc rest (pre.length + 2) extra' skipped').2) →
          head = u32 (btfIdOf enc.typeIdOff tbl (pre.length + 1)) →
          extra' + (pre.length + 1) = idsOf pre + entryIds e +
            (pre ++ [e]).countP Option.isNone + skipped' →
          let out := precomputeLoop enc (e :: rest) (pre.length + 1) extra skipped
          out.1.length = (e :: rest).length ∧
            (∀ k, k < (e :: rest).length → out.1.getD k 0 =
              u32 (btfIdOf enc.typeIdOff tbl (pre.length + 1 + k))) ∧
            out.2.1 + tbl.tail.length =
              idsOf tbl.tail + tbl.tail.countP Option.isNone + out.2.2 := by
        intro head extra' skipped' hloop hhead hcount'
        have hrec := ih (pre ++ [e]) extra' skipped' hnext (by simpa using hcount')
        simp only [List.length_append, List.length_singleton] at hrec
        rw [hloop]
        refine ⟨by simp [hrec.1], ?_, hrec.2.2⟩
        intro k hk
        cases k with
        | zero => simpa using hhead
        | succ k =>
            have := hrec.2.1 k (by simpa using hk)
            have hpos : pre.length + 1 + (k + 1) = pre.length + 1 + 1 + k := by omega
            rw [hpos, List.getD_cons_succ]
            exact this
      cases e with
      | none =>
          refine step 0 extra skipped rfl ?_ ?_
          · simp [hid, entryIds, u32]
          · simp [entryIds]
            omega
      | some t =>
          by_cases hskip : t.nrBtfIds = 0
          · refine step 0 extra (skipped + 1) ?_ ?_ ?_
            · simp [precomputeLoop, hskip]
            · simp [hid, entryIds, hskip, u32]
            · simp [entryIds, hskip]
              omega
          · have hnull := nullAdjAt_split hadj htail
            refine step _ (extra + (t.nrBtfIds - 1)) skipped ?_ rfl ?_
            · simp only [precomputeLoop, hskip, ↓reduceIte, hid, entryIds, hnull]
              congr 2
              unfold u32
              omega
            · simp [entryIds]
              omega

/-- The predicted map has an entry for every type id, with the id that `btfIdOf` gives. -/
theorem precomputeBtfIds_map (enc : Encoder) {tbl : TypesTable}
    (hadj : enc.typeIdNullAdj = nullAdj tbl) (hne : tbl ≠ []) :
    ∃ map, (precomputeBtfIds enc tbl).btfIdMap = some map ∧ map.length = tbl.length ∧
      ∀ id, id < tbl.length → map.getD id 0 = u32 (btfIdOf enc.typeIdOff tbl id) := by
  obtain ⟨hlen, hmap, -⟩ := precomputeLoop_spec hadj tbl.tail [] 0 0 rfl (by simp)
  have hpos : 0 < tbl.length := List.length_pos_iff.mpr hne
  refine ⟨0 :: (precomputeLoop enc tbl.tail 1 0 0).1, ?_, ?_, ?_⟩
  · rw [precomputeBtfIds, if_neg (by omega)]
  · simpa [hpos] using by simp at hlen; omega
  · intro id hid
    cases id with
    | zero => simp [btfIdOf, TypesTable.type?, u32]
    | succ id =>
        have hid' : id < tbl.tail.length := by simp; omega
        simpa [Nat.add_comm 1 id] using hmap id hid'

/-- The number of ids that the types of the table take, as the counters of the
prediction have it. -/
theorem precomputeBtfIds_counts (enc : Encoder) {tbl : TypesTable}
    (hadj : enc.typeIdNullAdj = nullAdj tbl) (hne : tbl ≠ []) :
    (precomputeBtfIds enc tbl).btfIdExtra + tbl.tail.length =
      idsOf tbl.tail + tbl.tail.countP Option.isNone +
        (precomputeBtfIds enc tbl).btfIdSkipped := by
  obtain ⟨-, -, hcount⟩ := precomputeLoop_spec hadj tbl.tail [] 0 0 rfl (by simp)
  have hpos : 0 < tbl.length := List.length_pos_iff.mpr hne
  rw [precomputeBtfIds, if_neg (by omega)]
  simpa using hcount

end Encoder

/-! ## A new encoder -/

/-- An encoder as `btf_encoder__new` makes it without any option, for a file without
sections of interest whose ELF functions have been collected. -/
def Encoder.plain : Encoder where
  force := false
  genFloats := false
  skipEncodingDeclTag := false
  tagKfuncs := false
  encodeAttributes := false
  trueSignature := false
  encodeVars := false
  addrBase := 0
  hasIndexType := false
  needIndexType := false
  arrayIndexId := 0
  typeIdOff := 0
  typeIdNullAdj := none
  btfIdMap := none
  btfIdExtra := 0
  btfIdSkipped := 0
  secinfo := []
  funcStates := []
  locStates := []
  elfFunctionsList := [⟨0, [], []⟩]
  reports := []
  funcsAdded := []

/-- A session over an empty BTF in which no call fails. -/
def quietSession : Btf Encoder where
  fails := fun _ => none
  made := 0
  failed := false
  table := ⟨0, [], Encoder.plain⟩

end Pahole
