import Pahole.BtfEncoder.EncodeCu

/-!
# The plan of a CU

The calls that `btf_encoder__encode_cu` makes as long as none fails, and the proof
that it makes them.  The fields of the encoder that the plan depends on are not
changed on the way; together they are the encoder's *frame*.
-/

namespace Pahole

open FallibleTable

/-! ## The frame of an encoder -/

/-- A section without the variables gathered for it. -/
def ElfSecinfo.emptied (sec : ElfSecinfo) : ElfSecinfo := { sec with secinfo := [] }

/-- The encoder less what encoding a CU adds to. -/
def Encoder.frame (enc : Encoder) : Encoder :=
  { enc with
    hasIndexType := false
    needIndexType := false
    secinfo := enc.secinfo.map ElfSecinfo.emptied
    funcStates := []
    locStates := [] }

section Frame

variable (enc : Encoder)

theorem frame_pushState (state : FuncState) : (enc.pushState state).frame = enc.frame := by
  unfold Encoder.pushState
  split <;> rfl

theorem frame_addVarSecinfo (shndx : ℕ) (si : VarSecinfo) :
    (enc.addVarSecinfo shndx si).frame = enc.frame := by
  have hmap : (enc.secinfo.modify shndx fun sec =>
      { sec with secinfo := sec.secinfo ++ [si] }).map ElfSecinfo.emptied =
      enc.secinfo.map ElfSecinfo.emptied := by
    apply List.ext_getElem?
    intro i
    rw [List.getElem?_map, List.getElem?_map, List.getElem?_modify]
    cases enc.secinfo[i]? with
    | none => rfl
    | some sec =>
        by_cases h : shndx = i
        · simp [h, ElfSecinfo.emptied]
        · simp [h]
  simp only [Encoder.frame, Encoder.addVarSecinfo, hmap]

theorem elfSectionFrom_emptied (addr i : ℕ) (secs : List ElfSecinfo) :
    elfSectionFrom addr i (secs.map ElfSecinfo.emptied) = elfSectionFrom addr i secs := by
  induction secs generalizing i with
  | nil => rfl
  | cons sec rest ih => simp only [List.map_cons, elfSectionFrom, ElfSecinfo.emptied, ih]

theorem getElfSection_frame (addr : ℕ) :
    enc.frame.getElfSection addr = enc.getElfSection addr := by
  simp only [Encoder.getElfSection, Encoder.frame, ← List.map_tail, elfSectionFrom_emptied]

theorem secinfo_frame (idx : ℕ) :
    enc.frame.secinfo[idx]? = enc.secinfo[idx]?.map ElfSecinfo.emptied :=
  List.getElem?_map

theorem varVerdict_frame (symtab : List ElfSym) (cu : Cu) (var : Variable) :
    enc.frame.varVerdict symtab cu var = enc.varVerdict symtab cu var := by
  unfold Encoder.varVerdict
  simp only [getElfSection_frame, secinfo_frame]
  cases enc.secinfo[enc.getElfSection var.addr]? with
  | none => rfl
  | some sec => rfl

theorem inlineAddrToSection_frame (elf : Elf) (addr : ℕ) :
    enc.frame.inlineAddrToSection elf addr = enc.inlineAddrToSection elf addr := by
  have hdwfl : enc.frame.dwflPlace elf addr = enc.dwflPlace elf addr := by
    simp only [Encoder.dwflPlace, secinfo_frame, Option.bind_map]
    rfl
  have hdyn : enc.frame.dynPlace elf addr = enc.dynPlace elf addr := by
    simp only [Encoder.dynPlace, getElfSection_frame, secinfo_frame, Option.bind_map]
    rfl
  simp only [Encoder.inlineAddrToSection, hdwfl, hdyn]

theorem inlineToSave_frame (elf : Option Elf) (ie : InlineExpansion) :
    enc.frame.inlineToSave elf ie = enc.inlineToSave elf ie := by
  unfold Encoder.inlineToSave
  simp only [inlineAddrToSection_frame]
  rfl

end Frame

/-! ## The plan -/

/-- The plan of the types. -/
def typesPlan (conf : ConfLoad) (enc : Encoder) (entries : List (ℕ × Tag)) :
    BtfPlan Encoder :=
  entries.flatMap fun (_, pos) => pos.plan enc.resolution enc.genFloats conf

/-- Whether an index type has to be made up after the types. -/
def Encoder.lacksIndexType (enc : Encoder) (entries : List (ℕ × Tag)) : Bool :=
  (enc.needIndexType || entries.any fun (_, pos) => pos.isArray) && !enc.hasIndexType

/-- The plan of the index type. -/
def indexTypePlan (lacking : Bool) : BtfPlan Encoder :=
  if lacking then
    callPlan .indexInt (.append (.int (some "int") 4 .signed)) ++
      [.set fun t => { t.client with hasIndexType := true }]
  else []

/-- The plan of the declaration tags of a type. -/
def typeDeclTagsPlan (enc : Encoder) (coreId : ℕ) (pos : Tag) : BtfPlan Encoder :=
  match enc.mappedId? coreId with
  | none => []
  | some btfTypeId =>
      pos.declTags.flatMap fun annot =>
        callPlan .typeDeclTag (.append (.declTag annot.value btfTypeId annot.componentIdx))

/-- The plan of the functions. -/
def functionsPlan (enc : Encoder) (fns : List (Function × ElfPtr)) : BtfPlan Encoder :=
  fns.flatMap fun (fn, func) => saveFuncPlan enc.trueSignature fn (some func) none

/-- The plan of one inline expansion. -/
def inlinePlan (enc : Encoder) (elf : Option Elf) (ie : InlineExpansion) :
    BtfPlan Encoder :=
  match enc.inlineToSave elf ie with
  | none => []
  | some (fn, loc) => saveFuncPlan enc.trueSignature fn none (some loc)

/-- The plan of the inline expansions. -/
def inlinesPlan (enc : Encoder) (elf : Option Elf) (ies : List InlineExpansion) :
    BtfPlan Encoder :=
  ies.flatMap (inlinePlan enc elf)

/-- The plan of one variable of the CU. -/
def cuVariablePlan (enc : Encoder) (symtab : List ElfSym) (cu : Cu) (var : Variable) :
    BtfPlan Encoder :=
  match enc.varVerdict symtab cu var with
  | .skip => []
  | .reject => [Step.abort]
  | .encode place => variablePlan enc.tagType var.described place

/-- The plan of the variables. -/
def variablesPlan (enc : Encoder) (symtab : List ElfSym) (cu : Cu) (vars : List Variable) :
    BtfPlan Encoder :=
  vars.flatMap (cuVariablePlan enc symtab cu)

/-- The calls for functions, inline expansions and variables, in this order. -/
def symbolsPlan (conf : ConfLoad) (enc : Encoder) (cu : Cu) (funcs : ElfFunctions) :
    BtfPlan Encoder :=
  functionsPlan enc (cu.functionsToSave funcs) ++
    (inlinesPlan enc cu.elf (if conf.btfGenInlines then cu.inlines else []) ++
      variablesPlan enc funcs.symtab cu (if enc.encodeVars then cu.vars else []))

/-- The declaration tags of the types. -/
def cuDeclTagsPlan (enc : Encoder) (cu : Cu) : BtfPlan Encoder :=
  cu.types.entries.flatMap fun (coreId, pos) => typeDeclTagsPlan enc coreId pos

/-- The plan of `btf_encoder__encode_cu`, for the encoder after its start. -/
def cuPlan (conf : ConfLoad) (enc : Encoder) (cu : Cu) (funcs : ElfFunctions) :
    BtfPlan Encoder :=
  typesPlan conf enc cu.types.entries ++
    (indexTypePlan (enc.lacksIndexType cu.types.entries) ++
      (cuDeclTagsPlan enc cu ++ symbolsPlan conf enc cu funcs))

/-! ## Types -/

section Types

variable {conf : ConfLoad} {enc : Encoder} {cnt : ℕ}

/-- Holes of a types table take no BTF ids. -/
theorem idsOf_holes {holes : List (Option Tag)} (h : ∀ e ∈ holes, e = none) :
    idsOf holes = 0 := by
  induction holes with
  | nil => rfl
  | cons e holes ih =>
      rw [idsOf_cons, ih fun e he => h e (by simp [he]), h e (by simp)]
      rfl

theorem Tag.val_of_skipped {tag : Tag} (h : tag.nrBtfIds = 0) (t : Table BtfType Encoder) :
    tag.val t = 0 := by
  cases tag with
  | unspecified => rfl
  | array type nrEntries =>
      simp only [Tag.nrBtfIds] at h
      split at h <;> omega
  | _ => simp [Tag.nrBtfIds] at h

theorem Tag.val_of_emitted {tag : Tag} (h : tag.nrBtfIds ≠ 0) (t : Table BtfType Encoder) :
    tag.val t = lastId t := by
  cases tag with
  | unspecified => simp [Tag.nrBtfIds] at h
  | _ => rfl

/-- Sets `need_index_type` if `b` holds. -/
def Encoder.noting (enc : Encoder) (b : Bool) : Encoder :=
  { enc with needIndexType := enc.needIndexType || b }

theorem noted_eq (enc : Encoder) (tag : Tag) : tag.noted enc = enc.noting tag.isArray := by
  cases tag <;> simp [Tag.noted, Tag.isArray, Encoder.noting]

theorem noting_noting (enc : Encoder) (a b : Bool) :
    (enc.noting a).noting b = enc.noting (a || b) := by
  simp [Encoder.noting, Bool.or_assoc]

/-- The id map gives, for every id of the types table, the id that its type gets when the types
of the CU are appended after `cnt`. -/
def Predicts (enc : Encoder) (tbl : TypesTable) (cnt : ℕ) : Prop :=
  ∃ map, enc.btfIdMap = some map ∧ map.length = tbl.length ∧
    ∀ id, id < tbl.length → map.getD id 0 = u32 (btfIdOf (u32 ((cnt : ℤ) - 1)) tbl id)

/-- Where the loop over the types stands when `xs` is still to come: every entry
before has taken its ids. -/
def TypesInv (enc : Encoder) (tbl : TypesTable) (cnt : ℕ) (xs : List (ℕ × Tag))
    (s : Btf Encoder) : Prop :=
  ∃ pre rest, tbl.tail = pre ++ rest ∧ xs = TypesTable.entriesFrom (pre.length + 1) rest ∧
    s.table.cnt = cnt + idsOf pre ∧
    s.table.client = enc.noting (pre.any (Option.any Tag.isArray))

/-- The start of a CU fills the map with the ids that the entries will take. -/
theorem predicts_startCu (enc : Encoder) (cnt : ℕ) (cu : Cu) (hne : cu.types ≠ []) :
    Predicts (enc.startCu cnt cu) cu.types cnt := by
  obtain ⟨map, hmap, hlen, hget⟩ := Encoder.precomputeBtfIds_map
    { enc with
      typeIdOff := u32 ((cnt : ℤ) - 1)
      typeIdNullAdj := Encoder.nullAdj cu.types } rfl hne
  refine ⟨map, ?_, hlen, hget⟩
  unfold Encoder.startCu
  dsimp only
  split
  · exact hmap
  · split <;> exact hmap

/-- The map has for an entry with types the id of the last one that is added for it. -/
theorem mapped_of_emitted {pre rest : List (Option Tag)} {pos : Tag} {tbl : TypesTable}
    (hpred : Predicts enc tbl cnt) (hcnt : 0 < cnt)
    (htail : tbl.tail = pre ++ some pos :: rest) (hskip : pos.nrBtfIds ≠ 0)
    (hfits : cnt + idsOf pre + pos.nrBtfIds ≤ intMax + 1) :
    ∃ map, enc.btfIdMap = some map ∧ pre.length + 1 < map.length ∧
      map.getD (pre.length + 1) 0 = cnt + idsOf pre + pos.nrBtfIds - 1 := by
  obtain ⟨map, hmap, hlen, hget⟩ := hpred
  have hlt : pre.length + 1 < tbl.length := by
    have := congrArg List.length htail
    simp at this
    omega
  refine ⟨map, hmap, by omega, ?_⟩
  have hoff : u32 ((cnt : ℤ) - 1) = cnt - 1 := by
    have hcast : ((cnt : ℤ) - 1) = ((cnt - 1 : ℕ) : ℤ) := by omega
    rw [hcast]
    refine u32_of_lt ?_
    simp only [intMax] at hfits
    omega
  have hid := btfIdOf_split (cnt - 1) htail
  rw [show entryIds (some pos) = pos.nrBtfIds from rfl, if_neg hskip] at hid
  rw [hget _ hlt, hoff, hid, u32_of_lt]
  · omega
  · simp only [intMax] at hfits
    omega

theorem makes_encodeCuType {xs : List (ℕ × Tag)} {id : ℕ} {pos : Tag} {s : Btf Encoder}
    {tbl : TypesTable} (hcnt : 0 < cnt) (hpred : Predicts enc tbl cnt)
    (hinv : TypesInv enc tbl cnt ((id, pos) :: xs) s) :
    Makes (encodeCuType conf id pos) s (pos.plan enc.resolution enc.genFloats conf)
        (fun _ => 0) ∧
      ∀ s', exec (stopsAt CallSite.reaction)
          (pos.plan enc.resolution enc.genFloats conf) s = (.done, s') →
        TypesInv enc tbl cnt xs s' := by
  obtain ⟨pre, rest, htail, hentries, hids, hclient⟩ := hinv
  obtain ⟨holes, rest', rfl, hholes, rfl, rfl⟩ :=
    TypesTable.entriesFrom_eq_cons hentries.symm
  have hsplit : tbl.tail = (pre ++ holes) ++ some pos :: rest' := by simp [htail]
  have hlen : (pre ++ holes).length + 1 = pre.length + 1 + holes.length := by
    simp
    omega
  have hres : s.table.client.resolution = enc.resolution := by
    rw [hclient]
    rfl
  have hfloats : s.table.client.genFloats = enc.genFloats := by
    rw [hclient]
    rfl
  have hpre : idsOf (pre ++ holes) = idsOf pre := by simp [idsOf_holes hholes]
  have hdone : ∀ s', exec (stopsAt CallSite.reaction)
      (pos.plan enc.resolution enc.genFloats conf) s = (.done, s') →
      s'.table.cnt = cnt + idsOf pre + pos.nrBtfIds ∧
        s'.table.client = pos.noted s.table.client := by
    intro s' hout
    have htable := (exec_done (Tag.heard_plan rfl rfl) hout).1
    rw [htable, Tag.cnt_run_plan _ (Tag.encodable_of_exec hout), Tag.client_run_plan, hids]
    exact ⟨rfl, rfl⟩
  refine ⟨?_, ?_⟩
  · have htag := makes_encodeTag conf pos s
    rw [hres, hfloats] at htag
    rw [← List.append_nil (pos.plan enc.resolution enc.genFloats conf)]
    refine Follows.bind_plan htag ?_ ?_ ?_
    · intro s' hout hrun hpos
      obtain ⟨hcnt', hclient'⟩ := hdone s' hout
      refine ⟨return 0, ?_, follows_return (le_refl 0) s'⟩
      simp only [encodeCuType, bind, EStateM.bind, hrun]
      by_cases hskip : pos.nrBtfIds = 0
      · rw [Tag.val_of_skipped hskip, if_pos rfl]
      · have hfits : s'.table.cnt ≤ intMax + 1 := by
          rcases exec_cnt hout with h | h
          · omega
          · exact h
        obtain ⟨map, hmap, hlt, hget⟩ := mapped_of_emitted hpred hcnt hsplit hskip
          (by rw [hpre]; omega)
        rw [hlen] at hlt hget
        rw [hpre, ← hcnt'] at hget
        have hmap' : s'.table.client.btfIdMap = some map := by
          rw [hclient', hclient, noted_eq]
          exact hmap
        have hlast : lastId s'.table = ((s'.table.cnt - 1 : ℕ) : ℤ) := by
          unfold lastId
          omega
        have hu32 : u32 (lastId s'.table) = s'.table.cnt - 1 := by
          rw [hlast]
          refine u32_of_lt ?_
          simp only [intMax] at hfits
          omega
        have hpos' : 0 < lastId s'.table := by
          unfold lastId
          omega
        have hexp : ¬s'.table.cnt - 1 = 0 := by omega
        rw [Tag.val_of_emitted hskip, if_neg (by omega), if_neg (by omega)]
        simp only [getTable, EStateM.bind, hmap', if_pos hlt, hget, hu32, hexp, ne_eq,
          not_true_eq_false, ↓reduceIte]
    · intro r s' hrun hr
      refine ⟨-1, ?_, by decide⟩
      have hne : r ≠ 0 := by omega
      simp only [encodeCuType, bind, EStateM.bind, hrun, if_neg hne, if_pos hr]
      rfl
    · intro crash s' hrun
      simp only [encodeCuType, bind, EStateM.bind, hrun]
  · intro s' hout
    obtain ⟨hcnt', hclient'⟩ := hdone s' hout
    refine ⟨(pre ++ holes) ++ [some pos], rest', by simp [htail], ?_, ?_, ?_⟩
    · rw [List.length_append, List.length_singleton, ← hlen]
    · rw [hcnt', idsOf_append, hpre]
      simp [entryIds]
      omega
    · have hnone : holes.any (Option.any Tag.isArray) = false := by
        rw [List.any_eq_false]
        intro e he
        simp [hholes e he]
      rw [hclient', hclient, noted_eq, noting_noting, List.any_append, List.any_append, hnone]
      simp

/-- The loop over the types makes the calls of its plan: the ids it gets are the
predicted ones, so the checks of ids are never what ends it. -/
theorem makes_cuTypes {s : Btf Encoder} {tbl : TypesTable}
    (hpred : tbl ≠ [] → Predicts enc tbl s.table.cnt) (hclient : s.table.client = enc) :
    Makes (forEach (fun (coreId, pos) => encodeCuType conf coreId pos) tbl.entries) s
      (typesPlan conf enc tbl.entries) fun _ => 0 := by
  have hcnt : 0 < s.table.cnt := by simp [Table.cnt]
  refine Follows.forEach_inv (v := fun _ _ => 0) (TypesInv enc tbl s.table.cnt) ?_ _ ?_
  · rintro ⟨id, pos⟩ xs s' hinv
    refine makes_encodeCuType hcnt (hpred ?_) hinv
    rintro rfl
    obtain ⟨pre, rest, htail, hentries, -⟩ := hinv
    obtain ⟨-, rfl⟩ : pre = [] ∧ rest = [] := by simpa using htail.symm
    simp [TypesTable.entriesFrom] at hentries
  · exact ⟨[], tbl.tail, rfl, rfl, rfl, by simp [hclient, Encoder.noting]⟩

end Types

/-! ## The rest of the CU -/

section Rest

variable {conf : ConfLoad} {enc : Encoder}

/-- The reactions of a function that reports every failure. -/
def reportsAll (_ : CallSite) : Reaction := .propagate

theorem reports_cuDeclTags {cu : Cu} {s : Btf Encoder}
    (hmap : s.table.client.btfIdMap = enc.btfIdMap) :
    Follows reportsAll (encodeCuDeclTags cu) s (cuDeclTagsPlan enc cu) fun _ => 0 := by
  refine Runs.getTable (Follows.forEach (v := fun _ _ => 0) ?_ _ s)
  rintro ⟨coreId, pos⟩ s'
  have hid : s.table.client.mappedId? coreId = enc.mappedId? coreId := by
    simp only [Encoder.mappedId?, hmap]
  simp only [hid, typeDeclTagsPlan]
  cases enc.mappedId? coreId with
  | none => exact follows_return (le_refl 0) s'
  | some btfTypeId =>
      refine Follows.forEach (v := fun _ => lastId) (fun annot s'' => ?_) _ s'
      exact follows_appendRead rfl (fun id h => by simp; omega) _ s''

theorem sites_cuDeclTags (enc : Encoder) (cu : Cu) :
    (cuDeclTagsPlan enc cu).Heard fun site =>
      reportsAll site = .propagate ∧ CallSite.reaction site = .drop := by
  refine heard_flatMap fun ⟨coreId, pos⟩ _ => ?_
  simp only [typeDeclTagsPlan]
  cases enc.mappedId? coreId with
  | none => exact heard_nil
  | some btfTypeId => exact heard_flatMap fun annot _ => heard_callPlan.mpr rfl

theorem cuDeclTags_ne_aborted (enc : Encoder) (cu : Cu) (stops : CallSite → Bool)
    (s s' : Btf Encoder) : exec stops (cuDeclTagsPlan enc cu) s ≠ (.aborted, s') := by
  refine exec_ne_aborted fun ok hmem => ?_
  simp only [cuDeclTagsPlan, List.mem_flatMap] at hmem
  obtain ⟨⟨coreId, pos⟩, -, hmem⟩ := hmem
  simp only [typeDeclTagsPlan] at hmem
  cases hid : enc.mappedId? coreId with
  | none => simp [hid] at hmem
  | some btfTypeId => simp [hid, callPlan] at hmem

theorem keeps_cuDeclTags (enc : Encoder) (cu : Cu) : (cuDeclTagsPlan enc cu).Keeps id := by
  refine keeps_flatMap fun ⟨coreId, pos⟩ _ => ?_
  simp only [typeDeclTagsPlan]
  cases enc.mappedId? coreId with
  | none => exact keeps_nil
  | some btfTypeId => exact keeps_flatMap fun annot _ => by simp [callPlan]

theorem keeps_saveFunc (trueSignature : Bool) (fn : Function) (func : Option ElfPtr)
    (loc : Option Loc) : (saveFuncPlan trueSignature fn func loc).Keeps Encoder.frame := by
  rw [saveFuncPlan, keeps_append]
  refine ⟨keeps_flatMap fun _ _ => by simp [callPlan], ?_⟩
  exact keeps_set.mpr ⟨fun t => frame_pushState t.client _, keeps_nil⟩

theorem keeps_declTags {β δ : Type} (view : β → δ) (k : ℕ) (annots : List LlvmAnnotation) :
    (declTagsPlan k annots : BtfPlan β).Keeps view := by
  induction annots generalizing k with
  | nil => exact keeps_nil
  | cons annot rest ih => exact keeps_call.mpr (ih (k + 1))

theorem keeps_variable (ref : TypeId → ℕ) (decl : VariableSpec) (place : VarPlace) :
    (variablePlan ref decl place).Keeps Encoder.frame := by
  rw [variablePlan, callPlan, List.cons_append, List.nil_append, keeps_call, keeps_append]
  exact ⟨keeps_declTags _ _ _, keeps_set.mpr
    ⟨fun t => frame_addVarSecinfo t.client _ _, keeps_nil⟩⟩

/-- A loop whose body keeps the frame, and follows its plan from any encoder of that
frame. -/
theorem makes_framed {γ : Type} {f : γ → BtfM Encoder ℤ} {g : γ → BtfPlan Encoder}
    (hbody : ∀ x s, s.table.client.frame = enc.frame →
      Makes (f x) s (g x) fun _ => 0)
    (hkeeps : ∀ x, (g x).Keeps Encoder.frame) (xs : List γ) {s : Btf Encoder}
    (hs : s.table.client.frame = enc.frame) :
    Makes (forEach f xs) s (xs.flatMap g) fun _ => 0 :=
  Follows.forEach_inv (fun _ s => s.table.client.frame = enc.frame)
    (fun x _ s h => ⟨hbody x s h, fun _ hout => (exec_keeps (hkeeps x) hout).trans h⟩) xs hs

theorem trueSignature_of_frame {enc' : Encoder} (h : enc'.frame = enc.frame) :
    enc'.trueSignature = enc.trueSignature := by
  change enc'.frame.trueSignature = enc.frame.trueSignature
  rw [h]

theorem tagType_of_frame {enc' : Encoder} (h : enc'.frame = enc.frame) :
    enc'.tagType = enc.tagType := by
  change enc'.frame.tagType = enc.frame.tagType
  rw [h]

theorem makes_functions (fns : List (Function × ElfPtr)) {s : Btf Encoder}
    (hs : s.table.client.frame = enc.frame) :
    Makes (forEach (fun (fn, func) => saveFunc fn (some func) none) fns) s
      (functionsPlan enc fns) fun _ => 0 := by
  refine makes_framed ?_ (fun ⟨fn, func⟩ => keeps_saveFunc _ fn _ _) fns hs
  rintro ⟨fn, func⟩ s' hs'
  have h := makes_saveFunc fn (some func) none s'
  rwa [trueSignature_of_frame hs'] at h

theorem keeps_functions (fns : List (Function × ElfPtr)) :
    (functionsPlan enc fns).Keeps Encoder.frame :=
  keeps_flatMap fun ⟨fn, _⟩ _ => keeps_saveFunc _ fn _ _

theorem keeps_inline (elf : Option Elf) (ie : InlineExpansion) :
    (inlinePlan enc elf ie).Keeps Encoder.frame := by
  unfold inlinePlan
  split
  · exact keeps_nil
  · exact keeps_saveFunc _ _ _ _

theorem makes_inlines (cu : Cu) (ies : List InlineExpansion) {s : Btf Encoder}
    (hs : s.table.client.frame = enc.frame) :
    Makes (forEach (addInlineExpansion cu) ies) s (inlinesPlan enc cu.elf ies)
      fun _ => 0 := by
  refine makes_framed (g := inlinePlan enc cu.elf) ?_ (keeps_inline cu.elf) ies hs
  intro ie s' hs'
  have hsave : s'.table.client.inlineToSave cu.elf ie = enc.inlineToSave cu.elf ie := by
    rw [← inlineToSave_frame, hs', inlineToSave_frame]
  refine Runs.getTable ?_
  simp only [hsave, inlinePlan]
  cases enc.inlineToSave cu.elf ie with
  | none => exact follows_return (le_refl 0) s'
  | some found =>
      obtain ⟨fn, loc⟩ := found
      have h := makes_saveFunc fn none (some loc) s'
      rwa [trueSignature_of_frame hs'] at h

theorem keeps_cuVariable (symtab : List ElfSym) (cu : Cu) (var : Variable) :
    (cuVariablePlan enc symtab cu var).Keeps Encoder.frame := by
  unfold cuVariablePlan
  split
  · exact keeps_nil
  · simp [Step.abort]
  · exact keeps_variable _ _ _

theorem makes_variables (symtab : List ElfSym) (cu : Cu) (vars : List Variable)
    {s : Btf Encoder} (hs : s.table.client.frame = enc.frame) :
    Makes (forEach (encodeCuVariable symtab cu) vars) s (variablesPlan enc symtab cu vars)
      fun _ => 0 := by
  refine makes_framed (g := cuVariablePlan enc symtab cu) ?_
    (keeps_cuVariable symtab cu) vars hs
  intro var s' hs'
  have hverdict : s'.table.client.varVerdict symtab cu var =
      enc.varVerdict symtab cu var := by
    rw [← varVerdict_frame, hs', varVerdict_frame]
  refine Runs.getTable ?_
  simp only [hverdict, cuVariablePlan]
  cases enc.varVerdict symtab cu var with
  | skip => exact follows_return (le_refl 0) s'
  | reject => exact follows_abort (by decide) s'
  | encode place =>
      have h := makes_encodeVariable var.described place s'
      rwa [tagType_of_frame hs'] at h

theorem keeps_inlines (elf : Option Elf) (ies : List InlineExpansion) :
    (inlinesPlan enc elf ies).Keeps Encoder.frame :=
  keeps_flatMap fun ie _ => keeps_inline elf ie

/-- The loops over functions, inline expansions and variables make the calls of `symbolsPlan`.
-/
theorem makes_symbols (cu : Cu) (funcs : ElfFunctions) {s : Btf Encoder}
    (hs : s.table.client.frame = enc.frame) :
    Makes (andThen (forEach (fun (fn, func) => saveFunc fn (some func) none)
        (cu.functionsToSave funcs)) fun _ =>
      andThen (forEach (addInlineExpansion cu) (if conf.btfGenInlines then cu.inlines else []))
        fun _ => do
      let enc := (← getTable).client
      andThen (forEach (encodeCuVariable funcs.symtab cu)
        (if enc.encodeVars then cu.vars else [])) fun _ =>
      return 1) s (symbolsPlan conf enc cu funcs) fun _ => 1 := by
  refine Follows.andThen (makes_functions _ hs) fun s₁ hout₁ _ => ?_
  have hs₁ := (exec_keeps (keeps_functions _) hout₁).trans hs
  refine Follows.andThen (makes_inlines cu _ hs₁) fun s₂ hout₂ _ => ?_
  have hs₂ := (exec_keeps (keeps_inlines _ _) hout₂).trans hs₁
  have hvars : s₂.table.client.encodeVars = enc.encodeVars := by
    change s₂.table.client.frame.encodeVars = enc.frame.encodeVars
    rw [hs₂]
  refine Runs.getTable ?_
  simp only [hvars]
  rw [← List.append_nil (variablesPlan _ _ _ _)]
  exact Follows.andThen (makes_variables _ cu _ hs₂) fun s₃ _ _ =>
    follows_return (by decide) s₃

end Rest

/-! ## The whole CU -/

theorem client_run_typesPlan (conf : ConfLoad) (enc : Encoder) (entries : List (ℕ × Tag))
    (t : Table BtfType Encoder) :
    ((typesPlan conf enc entries).run t).client =
      t.client.noting (entries.any fun (_, pos) => pos.isArray) := by
  induction entries generalizing t with
  | nil => simp [typesPlan, Encoder.noting]
  | cons e entries ih =>
      simp only [typesPlan, List.flatMap_cons, run_append] at ih ⊢
      rw [ih, Tag.client_run_plan, noted_eq, noting_noting, List.any_cons]

theorem heard_typesPlan {stops : CallSite → Bool} (htype : stops .type = true)
    (hproto : stops .funcProto = true) (conf : ConfLoad) (enc : Encoder)
    (entries : List (ℕ × Tag)) : (typesPlan conf enc entries).Heard stops :=
  heard_flatMap fun _ _ => Tag.heard_plan htype hproto

/-- The index type is added when it is lacking, and the rest follows its plan whether or not
that call fails. -/
theorem runs_addIndexType {p : BtfM Encoder ℤ} (enc : Encoder) {s : Btf Encoder}
    {plan : BtfPlan Encoder} {val : Table BtfType Encoder → ℤ} {lacking : Bool}
    (hlacking : lacking = (s.table.client.needIndexType && !s.table.client.hasIndexType))
    (hs : s.table.client.frame = enc.frame)
    (hp : ∀ s' : Btf Encoder, s'.table.client.frame = enc.frame →
      Runs true CallSite.reaction p s' plan val) :
    Runs true CallSite.reaction (do addIndexType; p) s (indexTypePlan lacking ++ plan)
      val := by
  cases hneed : s.table.client.needIndexType && !s.table.client.hasIndexType with
  | false =>
      rw [hneed] at hlacking
      subst hlacking
      refine Runs.of_eq (q := p) ?_ (hp s hs)
      have hcond : ¬(s.table.client.needIndexType = true ∧
          ¬s.table.client.hasIndexType = true) := by simpa using hneed
      simp only [bind, EStateM.bind, addIndexType, getTable, if_neg hcond]
      rfl
  | true =>
      rw [hneed] at hlacking
      subst hlacking
      have hcond : s.table.client.needIndexType = true ∧
          ¬s.table.client.hasIndexType = true := by simpa using hneed
      have hint : ∀ genFloats, addBaseType (β := Encoder) genFloats indexInt (some "int") =
          addLogged (.int (some "int") 4 .signed) := fun _ => addBaseType_eq _ _ _
      simp only [indexTypePlan, ↓reduceIte, callPlan, List.cons_append, List.nil_append]
      have hrest : ∀ s' : Btf Encoder, s'.table.client.frame = enc.frame →
          Runs true CallSite.reaction
            (do modifyClient fun enc => { enc with hasIndexType := true }; p) s'
            (.set (fun t => { t.client with hasIndexType := true }) :: plan) val :=
        fun s' hs' => Runs.set (q := p) rfl (hp _ hs')
      refine Runs.ignoring rfl ?_ ?_
      · intro hf
        refine ⟨_, ?_, hrest _ hs⟩
        simp only [bind, EStateM.bind, addIndexType, getTable, if_pos hcond, hint, addLogged,
          appendRead_ok hf]
      · intro e hf
        refine ⟨_, ?_, hrest _ hs⟩
        have hneg : ¬0 < e.code := by
          have := e.neg
          omega
        simp only [bind, EStateM.bind, addIndexType, getTable, if_pos hcond, hint, addLogged,
          appendRead_refused hf, hneg, decide_false, Bool.false_eq_true, ↓reduceIte]

/-- `btf_encoder__encode_cu`, from its start on, makes the calls of its plan. -/
theorem runs_encodeCuBody {conf : ConfLoad} {cu : Cu} {funcs : ElfFunctions}
    {enc : Encoder} {s : Btf Encoder} (hclient : s.table.client = enc)
    (hpred : cu.types ≠ [] → Predicts enc cu.types s.table.cnt) :
    Runs true CallSite.reaction (encodeCuBody conf cu funcs) s (cuPlan conf enc cu funcs)
      fun _ => 1 := by
  refine Follows.andThen (makes_cuTypes hpred hclient) fun s₁ hout _ => ?_
  have hclient₁ : s₁.table.client =
      enc.noting (cu.types.entries.any fun (_, pos) => pos.isArray) := by
    rw [(exec_done (heard_typesPlan rfl rfl conf enc _) hout).1, client_run_typesPlan,
      hclient]
  have hframe₁ : s₁.table.client.frame = enc.frame := by
    rw [hclient₁]
    rfl
  refine runs_addIndexType enc ?_ hframe₁ fun s₂ hs₂ => ?_
  · rw [hclient₁]
    rfl
  · have hmap : s₂.table.client.btfIdMap = enc.btfIdMap := by
      change s₂.table.client.frame.btfIdMap = enc.frame.btfIdMap
      rw [hs₂]
    refine Runs.elseZero (reports_cuDeclTags hmap) (sites_cuDeclTags enc cu)
      (cuDeclTags_ne_aborted enc cu _ s₂) fun s₃ hout₃ => ?_
    have hs₃ : s₃.table.client.frame = enc.frame := by
      rw [show s₃.table.client = s₂.table.client from
        exec_keeps (keeps_cuDeclTags enc cu) hout₃, hs₂]
    exact (makes_symbols cu funcs hs₃).runs

end Pahole
