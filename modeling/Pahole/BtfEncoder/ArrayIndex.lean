import Pahole.BtfEncoder.ErrorReports
import Pahole.BtfEncoder.IdAgreement

/-!
# The index type of arrays

Arrays are indexed by the `int` of a CU, by the one an earlier CU settled on, or by
one that is made up after the types of the CU that needs it first.
-/

namespace Pahole

open FallibleTable

def BtfType.isInt : BtfType → Bool
  | .int .. => true
  | _ => false

/-- The table has an INT under the id. -/
def IntAt (t : Table BtfType Encoder) (id : ℕ) : Prop :=
  ∃ u, t.entry? id = some u ∧ u.isInt = true

/-- The index type of every ARRAY of the table is an INT of the table. -/
def ArraysIndexed (t : Table BtfType Encoder) : Prop :=
  ∀ type indexType nelems, .array type indexType nelems ∈ t.items → IntAt t indexType

/-- The invariant between CUs: all arrays are indexed by INTs, `array_index_id` is the id of an
INT once `has_index_type` is set, and it is set if `need_index_type` is. -/
structure IndexInv (t : Table BtfType Encoder) : Prop where
  arrays : ArraysIndexed t
  index : t.client.hasIndexType = true → IntAt t t.client.arrayIndexId
  needed : t.client.needIndexType = true → t.client.hasIndexType = true

theorem IntAt.extend {t t' : Table BtfType Encoder} {id : ℕ} {extra : List BtfType}
    (h : IntAt t id) (hbase : t'.base = t.base) (hitems : t'.items = t.items ++ extra) :
    IntAt t' id := by
  obtain ⟨u, hu, hint⟩ := h
  refine ⟨u, ?_, hint⟩
  unfold Table.entry? at hu ⊢
  rw [hbase, hitems]
  split at hu
  · rename_i hlt
    rw [if_pos hlt]
    exact List.getElem?_append_left (List.getElem?_eq_some_iff.mp hu).1 ▸ hu
  · simp at hu

theorem intAt_of_items {t : Table BtfType Encoder} {pre post : List BtfType} {u : BtfType}
    (hitems : t.items = pre ++ u :: post) (hint : u.isInt = true) :
    IntAt t (t.base + pre.length + 1) := by
  refine ⟨u, ?_, hint⟩
  unfold Table.entry?
  have hidx : t.base + pre.length + 1 - t.base - 1 = pre.length := by omega
  rw [if_pos (by omega), hidx, hitems]
  simp

section Arrays

variable {conf : ConfLoad} {cu : Cu} {enc : Encoder}

theorem indexType_of_dimension {indexType prev : ℕ} {dims : List ℕ} {type index nelems : ℕ}
    (h : .array type index nelems ∈ dimensionTypes indexType prev dims) :
    index = indexType := by
  induction dims generalizing prev with
  | nil => simp [dimensionTypes] at h
  | cons n rest ih =>
      rcases List.mem_cons.mp h with heq | hmem
      · exact (BtfType.array.inj heq).2.1
      · exact ih hmem

/-- Arrays come from arrays, and are indexed as the resolution says. -/
theorem indexType_of_btfTypes {res : Resolution} {genFloats : Bool} {next : ℕ} {pos : Tag}
    {type index nelems : ℕ}
    (h : .array type index nelems ∈ pos.btfTypes res genFloats conf next) :
    pos.isArray = true ∧ index = res.arrayIndexId := by
  cases pos with
  | array type nrEntries =>
      refine ⟨rfl, ?_⟩
      simp only [Tag.btfTypes, arrayTypes] at h
      split at h
      · exact (BtfType.array.inj (List.mem_singleton.mp h)).2.1
      · rcases List.mem_cons.mp h with heq | hmem
        · exact (BtfType.array.inj heq).2.1
        · exact indexType_of_dimension hmem
  | baseType bt =>
      simp only [Tag.btfTypes, Option.mem_toList] at h
      unfold BaseType.btfType at h
      split at h
      · split at h
        · simp at h
        · simp at h
      · dsimp only at h
        split at h <;> simp at h
  | modifier kind type => cases kind <;> simp [Tag.btfTypes] at h
  | aggregate ty =>
      simp only [Tag.btfTypes] at h
      split at h <;> simp at h
  | enumeration ty =>
      have hne : ∀ xs : List Enumerator, ∀ u : BtfType, (∀ a b c, u ≠ .array a b c) →
          ∀ a b c, built u (fun e => BtfType.addEnumValue e.name (enumValue e.value conf)) xs ≠
            .array a b c := by
        intro xs
        induction xs with
        | nil => exact fun u hu => hu
        | cons e xs ih =>
            intro u hu
            refine ih _ fun a b c => ?_
            cases u <;> simp [BtfType.addEnumValue] at hu ⊢
      simp only [Tag.btfTypes, List.mem_singleton] at h
      refine absurd h.symm (hne _ _ (fun a b c => ?_) _ _ _)
      unfold Enumeration.btfStart
      dsimp only
      split <;> simp
  | _ => simp [Tag.btfTypes] at h

theorem indexType_of_blocks {next : ℕ} {xs : List (ℕ × Tag)} {type index nelems : ℕ}
    (h : .array type index nelems ∈ blocks (enc.typesOf conf) next xs) :
    (xs.any fun e => e.2.isArray) = true ∧ index = enc.arrayIndexId := by
  induction xs generalizing next with
  | nil => simp [blocks] at h
  | cons x xs ih =>
      rcases List.mem_append.mp h with hmem | hmem
      · obtain ⟨harr, hindex⟩ := indexType_of_btfTypes hmem
        exact ⟨by simp [harr], hindex⟩
      · obtain ⟨harr, hindex⟩ := ih hmem
        exact ⟨by simp [harr], hindex⟩

/-- After the index type a CU changes the encoder only by saving a state or by recording a
variable. -/
theorem set_after_index {funcs : ElfFunctions} {f : Table BtfType Encoder → Encoder}
    (hf : Step.set f ∈ cuDeclTagsPlan enc cu ++ symbolsPlan conf enc cu funcs)
    (t : Table BtfType Encoder) :
    (∃ state, f t = t.client.pushState state) ∨ ∃ i si, f t = t.client.addVarSecinfo i si := by
  have hsave : ∀ {fn : Function} {func loc},
      Step.set f ∈ saveFuncPlan enc.trueSignature fn func loc →
      ∃ state, f t = t.client.pushState state := by
    intro fn func loc hmem
    rw [saveFuncPlan, List.mem_append] at hmem
    rcases hmem with hmem | hmem
    · simp [callPlan] at hmem
    · obtain rfl := Step.set.inj (List.mem_singleton.mp hmem)
      exact ⟨_, rfl⟩
  simp only [symbolsPlan, List.mem_append] at hf
  rcases hf with hf | hf | hf | hf
  · simp only [cuDeclTagsPlan, List.mem_flatMap] at hf
    obtain ⟨⟨coreId, pos⟩, -, hf⟩ := hf
    simp only [typeDeclTagsPlan] at hf
    cases hid : enc.mappedId? coreId with
    | none => simp [hid] at hf
    | some x => simp [hid, callPlan] at hf
  · simp only [functionsPlan, List.mem_flatMap] at hf
    obtain ⟨⟨fn, func⟩, -, hf⟩ := hf
    exact Or.inl (hsave hf)
  · simp only [inlinesPlan, List.mem_flatMap] at hf
    obtain ⟨ie, -, hf⟩ := hf
    unfold inlinePlan at hf
    split at hf
    · simp at hf
    · exact Or.inl (hsave hf)
  · simp only [variablesPlan, List.mem_flatMap] at hf
    obtain ⟨var, -, hf⟩ := hf
    unfold cuVariablePlan at hf
    split at hf
    · simp at hf
    · simp [Step.abort] at hf
    · rw [variablePlan, List.mem_append, List.mem_append] at hf
      rcases hf with hf | hf | hf
      · simp [callPlan] at hf
      · exact absurd hf (set_notMem_declTags _ _ f)
      · obtain rfl := Step.set.inj (List.mem_singleton.mp hf)
        exact Or.inr ⟨_, _, rfl⟩

/-- The declaration tags and symbols of a CU change neither `has_index_type` nor
`array_index_id` nor `need_index_type`. -/
theorem keeps_index_rest {funcs : ElfFunctions} :
    (cuDeclTagsPlan enc cu ++ symbolsPlan conf enc cu funcs).Keeps
      fun enc => (enc.hasIndexType, enc.arrayIndexId, enc.needIndexType) := by
  intro f hf t
  rcases set_after_index hf t with ⟨state, h⟩ | ⟨i, si, h⟩
  · rw [h]
    unfold Encoder.pushState
    split <;> rfl
  · rw [h]
    rfl

end Arrays

/-! ## One CU -/

/-- The made-up `int`. -/
def madeInt : BtfType := .int (some "int") 4 .signed

/-- The `int` that a CU has is encoded as an INT, and the call for the one that is made
up does not fail. -/
structure IndexHeard (qsort : Qsort) (conf : ConfLoad) (cu : Cu) (s : Btf Encoder) :
    Prop where
  found : ∀ id bt, s.table.client.hasIndexType = false →
    cu.types.findBaseTypeByName "int" = some id → cu.types.type? id = some (.baseType bt) →
    bt.isSigned = true ∨ bt.isBool = true ∨ bt.floatType = .none ∨
      s.table.client.genFloats = false
  made : ∀ funcs enc s₂, s.table.client.elfFunctions qsort cu.elf = some (funcs, enc) →
    exec (stopsAt CallSite.reaction)
      (typesPlan conf (enc.startCu s.table.cnt cu) cu.types.entries)
      (startSession cu enc s) = (.done, s₂) →
    (enc.startCu s.table.cnt cu).lacksIndexType cu.types.entries = true →
    s₂.nextFailure (.append madeInt) = none

section Step

variable {qsort : Qsort} {conf : ConfLoad} {cu : Cu} {s s' : Btf Encoder}

/-- A CU that is encoded without an error has all its types encoded. -/
theorem types_done {enc : Encoder} {funcs : ElfFunctions} {o : Outcome CallSite}
    {s₁ : Btf Encoder} (hout : exec (stopsAt CallSite.reaction) (cuPlan conf enc cu funcs) s₁ =
      (o, s')) (ho : o = .done ∨ o = .stopped .typeDeclTag) :
    ∃ s₂, exec (stopsAt CallSite.reaction) (typesPlan conf enc cu.types.entries) s₁ =
        (.done, s₂) ∧
      exec (stopsAt CallSite.reaction) (indexTypePlan (enc.lacksIndexType cu.types.entries) ++
        (cuDeclTagsPlan enc cu ++ symbolsPlan conf enc cu funcs)) s₂ = (o, s') := by
  rw [cuPlan, exec_append] at hout
  rcases htypes : exec (stopsAt CallSite.reaction) (typesPlan conf enc cu.types.entries) s₁
    with ⟨o₁, s₂⟩
  rw [htypes] at hout
  cases o₁ with
  | done => exact ⟨s₂, rfl, hout⟩
  | aborted =>
      obtain ⟨rfl, -⟩ := Prod.mk.inj hout
      simp at ho
  | crashed crash => exact absurd htypes exec_ne_crashed
  | stopped site =>
      obtain ⟨rfl, -⟩ := Prod.mk.inj hout
      obtain ⟨-, hmem, -⟩ := exec_stopped htypes
      have hheard : (typesPlan conf enc cu.types.entries).Heard fun site =>
          site = .type ∨ site = .funcProto := heard_typesPlan rfl rfl conf enc _
      have hsite := of_decide_eq_true (hheard site hmem)
      rcases ho with ho | ho
      · simp at ho
      · obtain rfl := Outcome.stopped.inj ho
        simp at hsite

/-- After its types a CU appends the `int` made up, if it lacks one, and no array. -/
theorem exec_after_types {enc : Encoder} {funcs : ElfFunctions} {lacking : Bool}
    {o : Outcome CallSite} {s₂ : Btf Encoder}
    (hout : exec (stopsAt CallSite.reaction) (indexTypePlan lacking ++
      (cuDeclTagsPlan enc cu ++ symbolsPlan conf enc cu funcs)) s₂ = (o, s'))
    (hmade : lacking = true → s₂.nextFailure (.append madeInt) = none) :
    ∃ extra, s'.table.items =
        s₂.table.items ++ (if lacking then [madeInt] else []) ++ extra ∧
      (∀ type index nelems, .array type index nelems ∉ extra) ∧
      s'.table.client.hasIndexType = (lacking || s₂.table.client.hasIndexType) ∧
      s'.table.client.arrayIndexId = s₂.table.client.arrayIndexId ∧
      s'.table.client.needIndexType = s₂.table.client.needIndexType := by
  have hstep : ∃ s₃, exec (stopsAt CallSite.reaction)
        (cuDeclTagsPlan enc cu ++ symbolsPlan conf enc cu funcs) s₃ = (o, s') ∧
      s₃.table.items = s₂.table.items ++ (if lacking then [madeInt] else []) ∧
      s₃.table.client.hasIndexType = (lacking || s₂.table.client.hasIndexType) ∧
      s₃.table.client.arrayIndexId = s₂.table.client.arrayIndexId ∧
      s₃.table.client.needIndexType = s₂.table.client.needIndexType := by
    cases lacking with
    | false => exact ⟨s₂, by simpa [indexTypePlan] using hout, by simp, by simp, rfl, rfl⟩
    | true =>
        have hnext := hmade rfl
        simp only [indexTypePlan, ↓reduceIte, callPlan, List.cons_append, List.nil_append,
          exec] at hout
        simp only [madeInt] at hnext
        simp only [hnext, Option.isSome_none, Bool.false_eq_true, ↓reduceIte] at hout
        exact ⟨_, hout, rfl, rfl, rfl, rfl⟩
  obtain ⟨s₃, hrest, hitems, hhas, hindex, hneed⟩ := hstep
  obtain ⟨extra, hextra, hadded⟩ := (grows_rest enc false s₃ s' o hrest).items
  have hkept := exec_keeps keeps_index_rest hrest
  obtain ⟨hhas', hkept⟩ := Prod.mk.inj hkept
  obtain ⟨hindex', hneed'⟩ := Prod.mk.inj hkept
  refine ⟨extra, by rw [hextra, hitems], fun type index nelems hmem => ?_, ?_, ?_, ?_⟩
  · cases hadded _ hmem
  · exact hhas'.trans hhas
  · exact hindex'.trans hindex
  · exact hneed'.trans hneed

/-- If a run returns no error, its plan has been done or stopped at the declaration tag of a
type. -/
theorem outcome_of_nonneg {p : BtfM Encoder ℤ} {plan : BtfPlan Encoder} {r : ℤ}
    {o : Outcome CallSite} {s'' : Btf Encoder}
    (hruns : Runs true CallSite.reaction p s plan fun _ => 1) (hrun : p s = .ok r s')
    (hr : 0 ≤ r) (hout : exec (stopsAt CallSite.reaction) plan s = (o, s'')) :
    s'' = s' ∧ (o = .done ∨ o = .stopped .typeDeclTag) := by
  unfold Runs at hruns
  rw [hout] at hruns
  have hprop : (∃ r', p s = .ok r' s'' ∧ r' < 0) → False := by
    rintro ⟨r', hrun', hneg⟩
    rw [hrun] at hrun'
    obtain ⟨rfl, -⟩ := EStateM.Result.ok.inj hrun'
    omega
  cases o with
  | done =>
      have hval := hruns.1
      rw [hrun] at hval
      exact ⟨(EStateM.Result.ok.inj hval).2.symm, Or.inl rfl⟩
  | aborted => exact (hprop hruns).elim
  | crashed crash => exact absurd hout exec_ne_crashed
  | stopped site =>
      rw [ends_stopped] at hruns
      cases site with
      | typeDeclTag =>
          have hval := hruns.2
          rw [hrun] at hval
          exact ⟨(EStateM.Result.ok.inj hval).2.symm, Or.inr rfl⟩
      | funcProto =>
          have herr : p s = .error .nullDeref s'' := hruns
          rw [hrun] at herr
          simp at herr
      | indexInt => exact hruns.elim
      | datasec => exact hruns.elim
      | _ => exact (hprop hruns).elim

/-- A base type is encoded as an INT unless it is a float and floats are generated. -/
theorem isInt_btfType {genFloats : Bool} {bt : BaseType} {u : BtfType}
    (h : bt.isSigned = true ∨ bt.isBool = true ∨ bt.floatType = .none ∨ genFloats = false)
    (hu : bt.btfType genFloats bt.name = some u) : u.isInt = true := by
  unfold BaseType.btfType at hu
  have hcond : ¬(¬bt.isSigned ∧ ¬bt.isBool ∧ bt.floatType ≠ .none ∧ genFloats) := by
    rintro ⟨h1, h2, h3, h4⟩
    rcases h with h | h | h | h
    · exact h1 h
    · exact h2 h
    · exact h3 h
    · simp [h] at h4
  rw [if_neg hcond] at hu
  dsimp only at hu
  split at hu
  · obtain rfl := Option.some.inj hu
    rfl
  · obtain rfl := Option.some.inj hu
    rfl

theorem startCu_hasIndexType (enc : Encoder) (cnt : ℕ) (cu : Cu) :
    (enc.startCu cnt cu).hasIndexType =
      (enc.hasIndexType || (cu.types.findBaseTypeByName "int").isSome) := by
  unfold Encoder.startCu Encoder.precomputeBtfIds
  dsimp only
  cases hfind : cu.types.findBaseTypeByName "int" <;> split <;> cases enc.hasIndexType <;> rfl

/-- When a CU is done, the id that it writes into its arrays is that of an INT. -/
theorem intAt_arrayIndexId {enc : Encoder} {t' : Table BtfType Encoder}
    {done : List (ℕ × Tag)} {part extra more : List BtfType}
    (hinv : IndexInv s.table) (hheard : IndexHeard qsort conf cu s)
    (henc : ∃ list, enc = { s.table.client with elfFunctionsList := list })
    (hbase : t'.base = s.table.base)
    (hagree : IdAgreement conf cu s.table t' (enc.startCu s.table.cnt cu).resolution
      done [] part extra)
    (hencodable : ∀ e ∈ cu.types.entries, e.2.encodable s.table.client.genFloats = true)
    (hitems : t'.items = s.table.items ++ (blocks (fun next pos =>
        pos.btfTypes (enc.startCu s.table.cnt cu).resolution s.table.client.genFloats conf next)
        s.table.cnt done ++
      (if (enc.startCu s.table.cnt cu).lacksIndexType cu.types.entries then [madeInt] else []) ++
      more))
    (huse : (enc.startCu s.table.cnt cu).hasIndexType = true ∨
      (cu.types.entries.any fun e => e.2.isArray) = true) :
    IntAt t' (enc.startCu s.table.cnt cu).arrayIndexId := by
  obtain ⟨list, henc⟩ := henc
  have hhas : enc.hasIndexType = s.table.client.hasIndexType := by rw [henc]
  have hindex : enc.arrayIndexId = s.table.client.arrayIndexId := by rw [henc]
  have hentries : cu.types.entries = done := by simpa using hagree.entries
  cases hkept : s.table.client.hasIndexType with
  | true =>
      rw [startCu_keptInt (hhas.trans hkept), hindex]
      exact (hinv.index hkept).extend hbase hitems
  | false =>
      cases hfind : cu.types.findBaseTypeByName "int" with
      | some id =>
          obtain ⟨bt, hbt⟩ := TypesTable.findBaseTypeByName_mem hfind
          have hmem : (id, Tag.baseType bt) ∈ cu.types.entries :=
            TypesTable.mem_entries.mpr hbt
          have hsome : (bt.btfType s.table.client.genFloats bt.name).isSome = true :=
            hencodable _ hmem
          obtain ⟨u, hu⟩ := Option.isSome_iff_exists.mp hsome
          have hint := isInt_btfType (hheard.found id bt hkept hfind hbt) hu
          obtain ⟨pre, post, hpos, hid⟩ := hagree.standsFor _ (hentries ▸ hmem)
          simp only [Tag.btfTypes, hu, Option.toList_some, List.append_assoc,
            List.cons_append, List.nil_append] at hpos
          have hval : (enc.startCu s.table.cnt cu).arrayIndexId = t'.base + pre.length + 1 := by
            have hfound : (enc.startCu s.table.cnt cu).arrayIndexId = _ :=
              hagree.foundInt id hkept hfind
            rw [hid] at hfound
            simpa [Tag.btfTypes, hu] using hfound
          rw [hval]
          exact intAt_of_items hpos hint
      | none =>
          have hnone : (enc.startCu s.table.cnt cu).hasIndexType = false := by
            rw [startCu_hasIndexType, hhas, hkept, hfind]
            rfl
          have harr : (cu.types.entries.any fun e => e.2.isArray) = true := by
            simpa [hnone] using huse
          have hlacks : (enc.startCu s.table.cnt cu).lacksIndexType cu.types.entries = true := by
            simp only [Encoder.lacksIndexType, hnone, harr, Bool.or_true, Bool.not_false,
              Bool.and_self]
          rw [if_pos hlacks] at hitems
          have hne : blocks (fun next pos => pos.btfTypes
              (enc.startCu s.table.cnt cu).resolution s.table.client.genFloats conf next)
              s.table.cnt done ≠ [] := by
            obtain ⟨e, he, harray⟩ := List.any_eq_true.mp harr
            obtain ⟨xs, ys, hsplit⟩ := List.append_of_mem (hentries ▸ he)
            rw [hsplit, blocks_append]
            refine List.append_ne_nil_of_right_ne_nil _ ?_
            obtain ⟨id, pos⟩ := e
            cases pos with
            | array type nrEntries =>
                simp only [blocks, Tag.btfTypes, arrayTypes]
                split <;> simp
            | _ => simp [Tag.isArray] at harray
          have hval := hagree.madeInt hkept hfind rfl hne
          change (enc.startCu s.table.cnt cu).arrayIndexId = _ at hval
          rw [hval]
          have hsplit : t'.items = (s.table.items ++ blocks (fun next pos => pos.btfTypes
              (enc.startCu s.table.cnt cu).resolution s.table.client.genFloats conf next)
              s.table.cnt done) ++ madeInt :: more := by
            rw [hitems]
            simp
          have hat := intAt_of_items hsplit rfl
          rw [hbase, List.length_append] at hat
          have hcnt : s.table.cnt = s.table.base + s.table.items.length + 1 := rfl
          rw [hcnt]
          rw [hcnt] at hat
          convert hat using 1
          omega

/-- A CU that is encoded without an error keeps the arrays indexed. -/
theorem indexInv_encodeCu {r : ℤ} (hinv : IndexInv s.table)
    (hheard : IndexHeard qsort conf cu s) (hrun : encodeCu qsort conf cu s = .ok r s')
    (hr : 0 ≤ r) : IndexInv s'.table := by
  cases hfuncs : s.table.client.elfFunctions qsort cu.elf with
  | none =>
      rw [encodeCu_none hfuncs] at hrun
      obtain ⟨rfl, -⟩ := EStateM.Result.ok.inj hrun
      omega
  | some found =>
      obtain ⟨funcs, enc⟩ := found
      obtain ⟨list, henc⟩ := elfFunctions_eq hfuncs
      rw [encodeCu_some hfuncs] at hrun
      set enc₁ := enc.startCu s.table.cnt cu with henc₁
      have hruns : Runs true CallSite.reaction (encodeCuBody conf cu funcs)
          (startSession cu enc s) (cuPlan conf enc₁ cu funcs) fun _ => 1 :=
        runs_encodeCuBody rfl fun hne => predicts_startCu enc s.table.cnt cu hne
      rcases hout : exec (stopsAt CallSite.reaction) (cuPlan conf enc₁ cu funcs)
          (startSession cu enc s) with ⟨o, s₃⟩
      cases hbody : encodeCuBody conf cu funcs (startSession cu enc s) with
      | error e s'' => simp [hbody] at hrun
      | ok r' s'' =>
          rw [hbody] at hrun
          obtain ⟨rfl, rfl⟩ := EStateM.Result.ok.inj hrun
          obtain ⟨rfl, ho⟩ := outcome_of_nonneg hruns hbody hr hout
          obtain ⟨s₂, htypes, hrest⟩ := types_done hout ho
          have hclient₂ : s₂.table.client =
              enc₁.noting (cu.types.entries.any fun e => e.2.isArray) := by
            rw [(exec_done (heard_typesPlan rfl rfl conf enc₁ _) htypes).1,
              client_run_typesPlan]
            rfl
          obtain ⟨extra, hextra, hnone, hhas', hindex', hneed'⟩ :=
            exec_after_types hrest (hheard.made funcs enc s₂ hfuncs htypes)
          have hend : ∀ e ∈ cu.types.entries, e.2.encodable s.table.client.genFloats = true := by
            obtain ⟨done, todo, part, hend, hfin⟩ := exec_typesPlan rfl rfl htypes
            obtain ⟨rfl, rfl⟩ := hfin rfl
            intro e he
            have hfloats : enc₁.genFloats = s.table.client.genFloats := by
              obtain ⟨_, _, _, _, _, _, _, hstart⟩ := startCu_eq enc s.table.cnt cu
              rw [henc₁, hstart, henc]
            rw [← hfloats]
            exact hend.encodable e (by rw [hend.entries] at he; simpa using he)
          obtain ⟨done, todo, part, added, hagree, hfin⟩ :=
            @idAgreement_body conf cu funcs enc s _ _ hout
          obtain ⟨rfl, rfl⟩ := hfin (by rw [htypes])
          have hagree' : IdAgreement conf cu s.table s₃.table enc₁.resolution done [] [] added := by
            rw [henc] at hagree
            rw [henc₁, henc]
            exact { hagree with }
          have hbase : s₃.table.base = s.table.base := (exec_fails hout).2
          have hfloats : enc₁.genFloats = s.table.client.genFloats := by
            obtain ⟨_, _, _, _, _, _, _, hstart⟩ := startCu_eq enc s.table.cnt cu
            rw [henc₁, hstart, henc]
          have hitems : s₃.table.items = s.table.items ++ (blocks (fun next pos =>
              pos.btfTypes enc₁.resolution s.table.client.genFloats conf next)
              s.table.cnt done ++
              (if enc₁.lacksIndexType cu.types.entries then [madeInt] else []) ++ extra) := by
            obtain ⟨done', todo', part', hend', hfin'⟩ := exec_typesPlan rfl rfl htypes
            obtain ⟨rfl, rfl⟩ := hfin' rfl
            have hdone : done' = done := by
              rw [← List.append_nil done', ← hend'.entries, hagree'.entries, List.append_nil]
            rw [hextra, hend'.items, hdone, ← hfloats]
            simp only [List.append_nil, List.append_assoc]
            rfl
          have hat := intAt_arrayIndexId hinv hheard ⟨list, henc⟩ hbase hagree' hend hitems
          have hindex : s₃.table.client.arrayIndexId = enc₁.arrayIndexId := by
            rw [hindex', hclient₂]
            rfl
          have hhas : s₃.table.client.hasIndexType =
              (enc₁.lacksIndexType cu.types.entries || enc₁.hasIndexType) := by
            rw [hhas', hclient₂]
            rfl
          have hneed : s₃.table.client.needIndexType = (enc.needIndexType ||
              cu.types.entries.any fun e => e.2.isArray) := by
            obtain ⟨_, _, _, _, _, _, _, hstart⟩ := startCu_eq enc s.table.cnt cu
            rw [hneed', hclient₂, henc₁, hstart]
            rfl
          have hstartNeed : enc₁.needIndexType = enc.needIndexType := by
            obtain ⟨_, _, _, _, _, _, _, hstart⟩ := startCu_eq enc s.table.cnt cu
            rw [henc₁, hstart]
          have hneeded : enc.needIndexType = true → enc₁.hasIndexType = true := by
            intro hwas
            rw [henc] at hwas
            rw [henc₁, startCu_hasIndexType, henc]
            simp [hinv.needed hwas]
          refine ⟨fun type index nelems hmem => ?_, fun hthere => ?_, fun hwants => ?_⟩
          · change BtfType.array type index nelems ∈ s₃.table.items at hmem
            rw [hitems, List.mem_append, List.mem_append, List.mem_append] at hmem
            rcases hmem with hold | (hnew | hmade) | hmore
            · exact (hinv.arrays type index nelems hold).extend hbase hitems
            · rw [← hfloats] at hnew
              obtain ⟨harr, hval⟩ : (_ = true) ∧ index = enc₁.arrayIndexId := indexType_of_blocks hnew
              have hentries : cu.types.entries = done := by simpa using hagree'.entries
              subst hval
              exact hat (Or.inr (hentries ▸ harr))
            · split at hmade
              · cases List.mem_singleton.mp hmade
              · exact absurd hmade List.not_mem_nil
            · exact absurd hmore (hnone type index nelems)
          · change IntAt s₃.table s₃.table.client.arrayIndexId
            rw [hindex]
            refine hat ?_
            change s₃.table.client.hasIndexType = true at hthere
            rw [hhas, Bool.or_eq_true] at hthere
            rcases hthere with hlacks | hkept
            · simp only [Encoder.lacksIndexType, Bool.and_eq_true, Bool.or_eq_true] at hlacks
              rcases hlacks.1 with hwas | harr
              · exact Or.inl (hneeded (hstartNeed ▸ hwas))
              · exact Or.inr harr
            · exact Or.inl hkept
          · change s₃.table.client.needIndexType = true at hwants
            change s₃.table.client.hasIndexType = true
            rw [hneed] at hwants
            rw [hhas, Encoder.lacksIndexType, hstartNeed]
            cases enc₁.hasIndexType with
            | true => exact Bool.or_true _
            | false => simpa using hwants

end Step

/-! ## All CUs -/

section Runs

variable (qsort : Qsort) (conf : ConfLoad) (cond : Cu → Btf Encoder → Prop)

/-- The CUs are encoded one after the other, each without an error and each under the
condition. -/
inductive Encoded : List Cu → Btf Encoder → Btf Encoder → Prop
  | nil (s : Btf Encoder) : Encoded [] s s
  | snoc {cus : List Cu} {cu : Cu} {s s₁ s' : Btf Encoder} {r : ℤ} :
      Encoded cus s s₁ → cond cu s₁ → encodeCu qsort conf cu s₁ = .ok r s' → 0 ≤ r →
        Encoded (cus ++ [cu]) s s'

end Runs

/-- A BTF that has nothing of its own yet, and an encoder without an index type. -/
structure IndexStart (t : Table BtfType Encoder) : Prop where
  items : t.items = []
  hasIndexType : t.client.hasIndexType = false
  needIndexType : t.client.needIndexType = false

theorem IndexStart.inv {t : Table BtfType Encoder} (h : IndexStart t) : IndexInv t where
  arrays := by
    intro type indexType nelems hmem
    rw [h.items] at hmem
    nomatch hmem
  index := fun hhas => by simp [h.hasIndexType] at hhas
  needed := fun hneed => by simp [h.needIndexType] at hneed

theorem indexInv_encoded {qsort : Qsort} {conf : ConfLoad} {cus : List Cu}
    {s s' : Btf Encoder} (hinv : IndexInv s.table)
    (hrun : Encoded qsort conf (IndexHeard qsort conf) cus s s') : IndexInv s'.table := by
  induction hrun with
  | nil s => exact hinv
  | snoc hcus hheard hcu hr ih => exact indexInv_encodeCu (ih hinv) hheard hcu hr

/-- After any sequence of CUs encoded without an error, every ARRAY of the BTF is indexed by an
INT of the BTF, if in each CU the `int` found is encoded as an INT and the call for the `int`
made up does not fail. -/
theorem arrays_indexed {qsort : Qsort} {conf : ConfLoad} {cus : List Cu}
    {s s' : Btf Encoder} (hstart : IndexStart s.table)
    (hrun : Encoded qsort conf (IndexHeard qsort conf) cus s s') : ArraysIndexed s'.table :=
  (indexInv_encoded hstart.inv hrun).arrays

/-- A CU with an `int` and an array. -/
def intArrayCu : Cu :=
  typesCu [none, some (.baseType ⟨some "int", 32, true, true, false, false, .none⟩),
    some (.array 1 [3])]

/-- After encoding a CU whose `int` is encoded as an INT, arrays are indexed by it. -/
theorem arrays_indexed_intArrayCu :
    IndexStart (failingAt 5 Encoder.plain).table ∧ ∃ s', Encoded Qsort.stable
      ⟨false, false, false⟩ (IndexHeard Qsort.stable ⟨false, false, false⟩) [intArrayCu]
        (failingAt 5 Encoder.plain) s' ∧ ArraysIndexed s'.table := by
  have hstart : IndexStart (failingAt 5 Encoder.plain).table := ⟨rfl, rfl, rfl⟩
  have hheard : IndexHeard Qsort.stable ⟨false, false, false⟩ intArrayCu
      (failingAt 5 Encoder.plain) := by
    refine ⟨fun id bt _ _ _ => Or.inr (Or.inr (Or.inr rfl)), ?_⟩
    intro funcs enc s₂ henc _ hlacks
    obtain ⟨-, rfl⟩ := Prod.mk.inj (Option.some.inj henc)
    exact absurd hlacks Bool.false_ne_true
  have hrun : Encoded Qsort.stable ⟨false, false, false⟩
      (IndexHeard Qsort.stable ⟨false, false, false⟩) ([] ++ [intArrayCu])
      (failingAt 5 Encoder.plain) _ := .snoc (.nil _) hheard (r := 1) rfl (by decide)
  exact ⟨hstart, _, hrun, arrays_indexed hstart hrun⟩

/-- An array that is encoded on its own: when the made-up `int` cannot be added, the
array is indexed by a type that is not there. -/
theorem encodeCu_int_dropped : ¬(IndexStart (failingAt 1 Encoder.plain).table →
    ∀ s', Encoded Qsort.stable ⟨false, false, false⟩ (fun _ _ => True)
      [typesCu [none, some (.array 0 [3])]] (failingAt 1 Encoder.plain) s' →
        ArraysIndexed s'.table) := by
  intro h
  have hrun : Encoded Qsort.stable ⟨false, false, false⟩ (fun _ _ => True) ([] ++
      [typesCu [none, some (.array 0 [3])]]) (failingAt 1 Encoder.plain) _ :=
    .snoc (.nil _) trivial (r := 1) rfl (by decide)
  obtain ⟨u, hu, -⟩ := h ⟨rfl, rfl, rfl⟩ _ hrun 0 2 3 (List.mem_singleton.mpr rfl)
  have hnone : (none : Option BtfType) = some u := hu
  nomatch hnone

end Pahole
