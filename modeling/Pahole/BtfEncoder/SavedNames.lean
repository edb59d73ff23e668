import Pahole.BtfEncoder.EncodeTag
import Pahole.BtfEncoder.SavedFuncsScript

/-!
# The names of saved functions

The names of parameters and the values of annotations are copied to buffers of
`KSYM_NAME_LEN` bytes before libbpf gets them.  The first buffer ends in a zero, so
longer names are cut off; the last byte of the second one is never written.
-/

namespace Pahole

open FallibleTable

/-- The names of the parameters that a state has saved. -/
def FuncState.parmNames (state : FuncState) : List String :=
  (state.parms.take state.nrParms).map FuncParm.name

/-- The value of a declaration tag. -/
def BtfType.declTagValue? : BtfType → Option String
  | .declTag value _ _ => some value
  | _ => none

/-- The types added for a state are a prototype, a FUNC and declaration tags with the
saved strings. -/
def FuncState.NamesKept (state : FuncState) (enc : Encoder) (added : List BtfType) : Prop :=
  ∃ ret params protoId tags,
    added = .funcProto ret params :: .ref .func (some (state.funcName enc)) protoId :: tags ∧
      params.map BtfParam.name = state.parmNames.map some ∧
        tags.map BtfType.declTagValue? = state.annots.map fun annot => some annot.value

/-- The string and its terminator fit `KSYM_NAME_LEN` bytes. -/
def FitsKsym (name : String) : Prop := name.length < ksymNameLen

/-- `strncpy` of `KSYM_NAME_LEN - 1` bytes leaves the string in a buffer that goes on as
`stackTail`: the string is shorter than that, or goes on the same way. -/
def FitsBuffer (stackTail value : String) : Prop :=
  value.length < ksymNameLen - 1 ∨ value.toList.drop (ksymNameLen - 1) = stackTail.toList

theorem ksymCopy_eq_iff {name : String} : ksymCopy name = name ↔ FitsKsym name := by
  have hlen : name.toList.length = name.length := String.length_toList
  rw [ksymCopy, FitsKsym, ← String.toList_inj, String.toList_ofList, List.take_eq_self_iff, hlen,
    ksymNameLen]
  omega

theorem annotCopy_eq_iff {stackTail value : String} :
    annotCopy stackTail value = value ↔ FitsBuffer stackTail value := by
  unfold annotCopy FitsBuffer
  by_cases hlt : value.length < ksymNameLen - 1
  · simp only [hlt, if_true, true_or]
  · rw [if_neg hlt, ksymCopy, ← String.toList_inj, String.toList_append, String.toList_ofList]
    simp only [hlt, false_or]
    have hsplit := List.take_append_drop (ksymNameLen - 1) value.toList
    constructor
    · intro h
      exact (List.append_cancel_left (h.trans hsplit.symm)).symm
    · intro h
      rw [← h]
      exact hsplit

/-- The declaration tags that are added have the values that were copied. -/
theorem items_declTagsPlan (k : ℕ) (annots : List LlvmAnnotation)
    (t : Table BtfType Encoder) :
    ∃ tags, ((declTagsPlan k annots).run t).items = t.items ++ tags ∧
      tags.map BtfType.declTagValue? = annots.map fun annot => some annot.value := by
  induction annots generalizing k t with
  | nil => exact ⟨[], by simp [declTagsPlan], rfl⟩
  | cons annot rest ih =>
      obtain ⟨tags, hitems, hvalues⟩ := ih (k + 1) (t.served
        (.append (.declTag annot.value (u32 (lastId t - k)) annot.componentIdx)))
      refine ⟨.declTag annot.value (u32 (lastId t - k)) annot.componentIdx :: tags, ?_, ?_⟩
      · rw [declTagsPlan, run_cons]
        refine hitems.trans ?_
        simp [Table.served, Op.apply]
      · rw [List.map_cons, hvalues, List.map_cons]
        rfl

section AddFunc

variable {host : Host} {state : FuncState} {s s' : Btf Encoder} {fnId : ℤ}

/-- A FUNC that is added comes with its prototype before it and its tags after it. -/
theorem items_addFunc (hrun : addFunc host state s = .ok fnId s') (hpos : 0 ≤ fnId) :
    ∃ protoId tags,
      s'.table.items = s.table.items ++ .funcProto state.retTypeId state.protoParams ::
          .ref .func (some (state.funcName s.table.client)) protoId :: tags ∧
        tags.map BtfType.declTagValue? =
          state.annots.map fun annot => some (annotCopy host.stackTail annot.value) := by
  obtain ⟨hexec, -⟩ := (makes_addFunc host state s).done_of_nonneg hrun hpos
  have htable := (exec_done (heard_addFuncPlan s.table.client host state) hexec).1
  set t₁ : Table BtfType Encoder := { s.table with
    items := s.table.items ++ [.funcProto state.retTypeId state.protoParams] } with ht₁
  have hproto : (protoPlan state.retTypeId state.protoParams).run s.table = t₁ := by
    rw [protoPlan, run_buildPlan, built_addFuncParam, List.nil_append]
  set func : BtfType := .ref .func (some (state.funcName s.table.client)) (u32 (lastId t₁))
  obtain ⟨tags, hitems, hvalues⟩ := items_declTagsPlan 0 (state.copiedAnnots host.stackTail)
    { t₁.served (.append func) with
      client := (t₁.served (.append func)).client.noteFunc state }
  refine ⟨u32 (lastId t₁), tags, ?_, ?_⟩
  · rw [htable, addFuncPlan, run_append, hproto, List.append_nil]
    refine hitems.trans ?_
    simp [Table.served, Op.apply, ht₁, func]
  · rw [hvalues, FuncState.copiedAnnots, List.map_map]
    rfl

/-- The types added for a state have the saved strings exactly when these fit the
buffers. -/
theorem namesKept_iff (hrun : addFunc host state s = .ok fnId s') (hpos : 0 ≤ fnId) :
    (∃ added, s'.table.items = s.table.items ++ added ∧
        state.NamesKept s.table.client added) ↔
      (∀ name ∈ state.parmNames, FitsKsym name) ∧
        ∀ annot ∈ state.annots, FitsBuffer host.stackTail annot.value := by
  obtain ⟨protoId, tags, hitems, hvalues⟩ := items_addFunc hrun hpos
  have hparams : state.protoParams.map BtfParam.name =
      state.parmNames.map fun name => some (ksymCopy name) := by
    rw [FuncState.protoParams, FuncState.parmNames, List.map_map, List.map_map]
    rfl
  have hnames : state.protoParams.map BtfParam.name = state.parmNames.map some ↔
      ∀ name ∈ state.parmNames, FitsKsym name := by
    rw [hparams, List.map_inj_left]
    refine forall₂_congr fun name _ => ?_
    rw [Option.some_inj, ksymCopy_eq_iff]
  have htags : tags.map BtfType.declTagValue? =
        state.annots.map (fun annot => some annot.value) ↔
      ∀ annot ∈ state.annots, FitsBuffer host.stackTail annot.value := by
    rw [hvalues, List.map_inj_left]
    refine forall₂_congr fun annot _ => ?_
    rw [Option.some_inj, annotCopy_eq_iff]
  rw [← hnames, ← htags]
  constructor
  · rintro ⟨added, hadded, ret, params, protoId', tags', rfl, hkept, hkept'⟩
    have hsame := List.append_cancel_left (hitems.symm.trans hadded)
    obtain ⟨hproto, hrest⟩ := List.cons.inj hsame
    obtain ⟨-, rfl⟩ := BtfType.funcProto.inj hproto
    obtain ⟨-, rfl⟩ := List.cons.inj hrest
    exact ⟨hkept, hkept'⟩
  · rintro ⟨hkept, hkept'⟩
    exact ⟨_, hitems, _, _, _, _, rfl, hkept, hkept'⟩

end AddFunc

/-! ## A name that is too long -/

/-- A state with one parameter. -/
def FuncState.withParm (name : String) : FuncState where
  elf := none
  sym := none
  loc := none
  addr := 0
  nrParms := 1
  optimizedParms := false
  unexpectedReg := false
  inconsistentProto := false
  uncertainParmLoc := false
  reorderedParm := false
  signatureChanged := false
  optimizedSymbol := false
  ambiguousAddr := false
  retTypeId := 0
  parms := [⟨name, 0⟩]
  annots := []

/-- A host whose stack is clean. -/
def Host.plain : Host := ⟨Qsort.stable, false, false, ""⟩

/-- Adding a function with one parameter to an empty BTF returns 2. -/
theorem addFunc_withParm (name : String) :
    ∃ s', addFunc Host.plain (.withParm name) quietSession = .ok 2 s' :=
  ⟨_, rfl⟩

/-- A name of `n` characters. -/
def nameOfLength (n : ℕ) : String := String.ofList (List.replicate n 'a')

theorem not_fitsKsym_nameOfLength : ¬FitsKsym (nameOfLength ksymNameLen) := by
  rw [FitsKsym, nameOfLength, String.length_ofList, List.length_replicate]
  exact Nat.lt_irrefl ksymNameLen

/-- A parameter name of `KSYM_NAME_LEN` characters is not kept. -/
theorem not_namesKept_longName :
    ∃ fnId s', addFunc Host.plain (.withParm (nameOfLength ksymNameLen)) quietSession = .ok fnId s' ∧
      0 ≤ fnId ∧ ¬∃ added, s'.table.items = quietSession.table.items ++ added ∧
        (FuncState.withParm (nameOfLength ksymNameLen)).NamesKept quietSession.table.client added := by
  obtain ⟨s', hrun⟩ := addFunc_withParm (nameOfLength ksymNameLen)
  refine ⟨2, s', hrun, by decide, ?_⟩
  rintro ⟨added, hadded, ret, params, protoId', tags', rfl, hkept, -⟩
  obtain ⟨protoId, tags, hitems, -⟩ := items_addFunc hrun (by decide)
  have hsame := List.append_cancel_left (hitems.symm.trans hadded)
  obtain ⟨-, rfl⟩ := BtfType.funcProto.inj (List.cons.inj hsame).1
  have hname : [some (ksymCopy (nameOfLength ksymNameLen))] = [some (nameOfLength ksymNameLen)] := hkept
  have hcopy : ksymCopy (nameOfLength ksymNameLen) = (nameOfLength ksymNameLen) := Option.some.inj (List.cons.inj hname).1
  exact not_fitsKsym_nameOfLength (ksymCopy_eq_iff.mp hcopy)

/-- The parameter name `p` is kept. -/
theorem namesKept_iff_short :
    ∃ fnId s', addFunc Host.plain (.withParm "p") quietSession = .ok fnId s' ∧
      ∃ added, s'.table.items = quietSession.table.items ++ added ∧
        (FuncState.withParm "p").NamesKept quietSession.table.client added := by
  obtain ⟨s', hrun⟩ := addFunc_withParm "p"
  have hparms : ∀ name ∈ (FuncState.withParm "p").parmNames, FitsKsym name := by
    intro name hname
    obtain rfl := List.mem_singleton.mp hname
    unfold FitsKsym
    decide
  have hannots : ∀ annot ∈ (FuncState.withParm "p").annots,
      FitsBuffer Host.plain.stackTail annot.value := by
    intro annot hannot
    exact absurd hannot List.not_mem_nil
  exact ⟨2, s', hrun, (namesKept_iff hrun (by decide)).mpr ⟨hparms, hannots⟩⟩

end Pahole
