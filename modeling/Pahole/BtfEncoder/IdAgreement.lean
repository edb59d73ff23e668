import Pahole.BtfEncoder.CuPlan

/-!
# Id agreement

Type ids are predicted before anything is encoded.  Whatever calls fail, the ids
that encoding a CU gets are the predicted ones: the errors about ids are never
reported, and every reference written is the id of the type that stands for what
is referred to.
-/

namespace Pahole

open FallibleTable

/-! ## The types of a list of entries -/

/-- The BTF types of a list of entries, one after the other from the id `next` on. -/
def blocks (types : ℕ → Tag → List BtfType) : (next : ℕ) → List (ℕ × Tag) → List BtfType
  | _, [] => []
  | next, (_, pos) :: rest =>
      types next pos ++ blocks types (next + (types next pos).length) rest

theorem blocks_append (types : ℕ → Tag → List BtfType) (next : ℕ)
    (xs ys : List (ℕ × Tag)) :
    blocks types next (xs ++ ys) =
      blocks types next xs ++ blocks types (next + (blocks types next xs).length) ys := by
  induction xs generalizing next with
  | nil => simp [blocks]
  | cons x xs ih =>
      simp only [List.cons_append, blocks, ih, List.length_append, List.append_assoc,
        Nat.add_assoc]

section Types

variable {conf : ConfLoad} {enc : Encoder}

/-- The types that a tag turns into under an encoder. -/
def Encoder.typesOf (enc : Encoder) (conf : ConfLoad) (next : ℕ) (pos : Tag) :
    List BtfType :=
  pos.btfTypes enc.resolution enc.genFloats conf next

theorem length_blocks {next : ℕ} {xs : List (ℕ × Tag)}
    (h : ∀ e ∈ xs, e.2.encodable enc.genFloats = true) :
    (blocks (enc.typesOf conf) next xs).length = (xs.map fun e => e.2.nrBtfIds).sum := by
  induction xs generalizing next with
  | nil => rfl
  | cons x xs ih =>
      have hx : (enc.typesOf conf next x.2).length = x.2.nrBtfIds :=
        Tag.length_btfTypes (h x (by simp))
      simp only [blocks, List.length_append, hx, List.map_cons, List.sum_cons,
        ih fun e he => h e (by simp [he])]

theorem sum_entriesFrom (cid : ℕ) (pre : List (Option Tag)) :
    ((TypesTable.entriesFrom cid pre).map fun e => e.2.nrBtfIds).sum = idsOf pre := by
  induction pre generalizing cid with
  | nil => rfl
  | cons e pre ih =>
      cases e with
      | none => simp [TypesTable.entriesFrom, ih, entryIds]
      | some t => simp [TypesTable.entriesFrom, ih, entryIds]

/-- How the execution of the plan of the types ends: some entries are done, and the
next one, if there is one, has been begun. -/
structure TypesEnd (conf : ConfLoad) (enc : Encoder) (xs : List (ℕ × Tag))
    (s s' : Btf Encoder) (done todo : List (ℕ × Tag)) (part : List BtfType) : Prop where
  entries : xs = done ++ todo
  items : s'.table.items =
    s.table.items ++ blocks (enc.typesOf conf) s.table.cnt done ++ part
  encodable : ∀ e ∈ done, e.2.encodable enc.genFloats = true
  begun : part = [] ∨ ∃ e more, todo = e :: more ∧
    refsOf part <+: refsOf (enc.typesOf conf
      (s.table.cnt + (blocks (enc.typesOf conf) s.table.cnt done).length) e.2)

theorem exec_typesPlan {stops : CallSite → Bool} (htype : stops .type = true)
    (hproto : stops .funcProto = true) {xs : List (ℕ × Tag)} {s s' : Btf Encoder}
    {o : Outcome CallSite} (h : exec stops (typesPlan conf enc xs) s = (o, s')) :
    ∃ done todo part, TypesEnd conf enc xs s s' done todo part ∧
      (o = .done → todo = [] ∧ part = []) := by
  induction xs generalizing s with
  | nil =>
      obtain ⟨-, rfl⟩ := Prod.mk.inj h
      exact ⟨[], [], [], ⟨rfl, by simp [blocks], by simp, Or.inl rfl⟩, fun _ => ⟨rfl, rfl⟩⟩
  | cons x xs ih =>
      rw [typesPlan, List.flatMap_cons, exec_append] at h
      rcases hx : exec stops (x.2.plan enc.resolution enc.genFloats conf) s with ⟨o₁, s₁⟩
      have hheard : (x.2.plan enc.resolution enc.genFloats conf).Heard stops :=
        Tag.heard_plan htype hproto
      have hstop : (o₁, s₁) = (o, s') → o ≠ .done →
          ∃ done todo part, TypesEnd conf enc (x :: xs) s s' done todo part ∧
            (o = .done → todo = [] ∧ part = []) := by
        rintro heq hne
        obtain ⟨rfl, rfl⟩ := Prod.mk.inj heq
        obtain ⟨plan, hprefix, htable⟩ := exec_prefix hheard hx
        obtain ⟨part, hitems, hrefs⟩ := Tag.prefix_plan s.table hprefix (by
          rw [← htable]
          exact (exec_cnt hx).imp_right fun hle => hle.trans (by decide))
        refine ⟨[], x :: xs, part, ⟨rfl, ?_, by simp, Or.inr ⟨x, xs, rfl, ?_⟩⟩,
          fun hdone => absurd hdone hne⟩
        · rw [htable, hitems]
          simp [blocks]
        · have hopen : refsOf part <+: refsOf (enc.typesOf conf s.table.cnt x.2) := hrefs
          simpa [blocks] using hopen
      cases o₁ with
      | aborted =>
          simp only [hx] at h
          exact hstop h (by rw [← (Prod.mk.inj h).1]; simp)
      | crashed crash => exact absurd hx exec_ne_crashed
      | stopped site =>
          simp only [hx] at h
          exact hstop h (by rw [← (Prod.mk.inj h).1]; simp)
      | done =>
          simp only [hx] at h
          have henc := Tag.encodable_of_exec hx
          have htable := (exec_done hheard hx).1
          have hcnt : s₁.table.cnt = s.table.cnt + x.2.nrBtfIds := by
            rw [htable, Tag.cnt_run_plan _ henc]
          have hitems : s₁.table.items =
              s.table.items ++ enc.typesOf conf s.table.cnt x.2 := by
            rw [htable, Tag.run_plan]
            · rfl
            · intro harr
              have hpos : 0 < x.2.nrBtfIds := by
                cases hx2 : x.2 with
                | array type nrEntries =>
                    simp only [Tag.nrBtfIds]
                    split <;> omega
                | _ => simp [hx2, Tag.isArray] at harr
              rcases exec_cnt hx with h | h
              · omega
              · rw [hcnt] at h
                simp only [intMax] at h
                omega
          have hlen : (enc.typesOf conf s.table.cnt x.2).length = x.2.nrBtfIds :=
            Tag.length_btfTypes henc
          obtain ⟨done, todo, part, hend, hfin⟩ := ih h
          have hblocks : blocks (enc.typesOf conf) s.table.cnt (x :: done) =
              enc.typesOf conf s.table.cnt x.2 ++
                blocks (enc.typesOf conf) s₁.table.cnt done := by
            rw [hcnt, ← hlen]
            rfl
          refine ⟨x :: done, todo, part, ⟨by rw [hend.entries]; rfl, ?_, ?_, ?_⟩, hfin⟩
          · rw [hend.items, hitems, hblocks]
            simp
          · exact List.forall_mem_cons.mpr ⟨henc, hend.encodable⟩
          · refine hend.begun.imp_right ?_
            rintro ⟨e, more, rfl, hrefs⟩
            refine ⟨e, more, rfl, ?_⟩
            have hnext : s.table.cnt +
                (blocks (enc.typesOf conf) s.table.cnt (x :: done)).length =
                s₁.table.cnt + (blocks (enc.typesOf conf) s₁.table.cnt done).length := by
              rw [hblocks, List.length_append, hlen, hcnt]
              omega
            rwa [hnext]

/-- If the entries done have types, the ids of these fit in an `int`. -/
theorem TypesEnd.fits {xs done todo : List (ℕ × Tag)} {s s' : Btf Encoder} {part : List BtfType}
    (h : TypesEnd conf enc xs s s' done todo part) (hbase : s'.table.base = s.table.base)
    (hcnt : s'.table.cnt = s.table.cnt ∨ s'.table.cnt ≤ intMax + 1)
    (hne : blocks (enc.typesOf conf) s.table.cnt done ≠ []) :
    s.table.cnt + (blocks (enc.typesOf conf) s.table.cnt done).length ≤ intMax + 1 := by
  have hlen : s'.table.cnt = s.table.cnt +
      (blocks (enc.typesOf conf) s.table.cnt done).length + part.length := by
    rw [Table.cnt, h.items, hbase, List.length_append, List.length_append, Table.cnt]
    omega
  have hpos := List.length_pos_iff.mpr hne
  rcases hcnt with hsame | hle
  · omega
  · omega

end Types

/-! ## Predicted and emitted ids -/

section Ids

variable {conf : ConfLoad} {enc : Encoder} {cu : Cu}

theorem tagType_of_predicts {tbl : TypesTable} {cnt : ℕ} (h : Predicts enc tbl cnt)
    {id : TypeId} (hid : id < tbl.length) :
    enc.tagType id = u32 (btfIdOf (u32 ((cnt : ℤ) - 1)) tbl id) := by
  obtain ⟨map, hmap, hlen, hget⟩ := h
  unfold Encoder.tagType
  by_cases hzero : id = 0
  · simp [hzero, btfIdOf, TypesTable.type?, u32]
  · simp only [hzero, ↓reduceIte, hmap, hlen, if_pos hid]
    exact hget id hid

/-- The id that a reference to an entry resolves to is that of the last type emitted
for it, if these types have been emitted. -/
theorem tagType_of_emitted (conf : ConfLoad) {tbl : TypesTable} {cnt id : ℕ} {pos : Tag}
    {xs ys : List (ℕ × Tag)} (hpred : Predicts enc tbl cnt) (hcnt : 0 < cnt)
    (hentries : tbl.entries = xs ++ (id, pos) :: ys)
    (henc : ∀ e ∈ xs, e.2.encodable enc.genFloats = true)
    (hfits : cnt + (blocks (enc.typesOf conf) cnt xs).length + pos.nrBtfIds ≤ intMax + 1 ∨
      pos.nrBtfIds = 0) :
    enc.tagType id =
      if pos.nrBtfIds = 0 then 0
      else cnt + (blocks (enc.typesOf conf) cnt xs).length + pos.nrBtfIds - 1 := by
  obtain ⟨pre, rest, htail, rfl, rfl⟩ := TypesTable.entriesFrom_eq_append hentries
  have hlt : 1 + pre.length < tbl.length := by
    have := congrArg List.length htail
    simp at this
    omega
  have hlen : (blocks (enc.typesOf conf) cnt (TypesTable.entriesFrom 1 pre)).length =
      idsOf pre := by rw [length_blocks henc, sum_entriesFrom]
  rw [hlen] at hfits ⊢
  by_cases hskip : pos.nrBtfIds = 0
  · rw [tagType_of_predicts hpred hlt, Nat.add_comm 1, btfIdOf_split _ htail,
      show entryIds (some pos) = pos.nrBtfIds from rfl, if_pos hskip, if_pos hskip]
    rfl
  · obtain ⟨map, hmap, hmlt, hget⟩ := mapped_of_emitted hpred hcnt htail hskip (by omega)
    unfold Encoder.tagType
    have hne : ¬1 + pre.length = 0 := by omega
    rw [if_neg hne, if_neg hskip]
    simp only [hmap]
    rw [Nat.add_comm 1, if_pos hmlt, hget]

end Ids

/-! ## The BTF after a CU -/

/-- A type that encoding a CU adds after the types of its table, with references
resolved by `ref`, to a BTF with the types `typeAt`. -/
inductive CuExtra (cu : Cu) (ref : TypeId → ℕ) (typeAt : ℕ → Option BtfType) :
    BtfType → Prop where
  | indexInt : CuExtra cu ref typeAt (.int (some "int") 4 .signed)
  | typeTag {id : TypeId} {pos : Tag} {annot : LlvmAnnotation} :
      cu.types.type? id = some pos → annot ∈ pos.declTags →
      CuExtra cu ref typeAt (.declTag annot.value (ref id) annot.componentIdx)
  | var {var : Variable} {name : String} :
      var ∈ cu.vars → CuExtra cu ref typeAt
        (.var name var.described.linkage (ref var.described.type))
  /-- a tag of a variable has the id of the VAR of this variable -/
  | varTag {var : Variable} {annot : LlvmAnnotation} {id : ℕ} {name : String} :
      var ∈ cu.vars → annot ∈ var.described.annots →
      typeAt id = some (.var name var.described.linkage (ref var.described.type)) →
      CuExtra cu ref typeAt (.declTag annot.value id annot.componentIdx)

theorem CuExtra.lasting (cu : Cu) (ref : TypeId → ℕ) : Lasting (CuExtra cu ref) := by
  intro f g u hmono h
  cases h with
  | indexInt => exact .indexInt
  | typeTag htype hannot => exact .typeTag htype hannot
  | var hvar => exact .var hvar
  | varTag hvar hannot hentry => exact .varTag hvar hannot (hmono _ _ hentry)

/-- A function that encoding a CU may save. -/
def Cu.HasFunction (cu : Cu) (fn : Function) : Prop :=
  fn ∈ cu.functions ∨ ∃ ie ∈ cu.inlines, ie.function = some fn

/-- The types in the saved state of some function of the CU are those of its
prototype, resolved by `ref`. -/
def SavedFrom (cu : Cu) (ref : TypeId → ℕ) (trueSignature : Bool) (state : FuncState) :
    Prop :=
  ∃ fn, cu.HasFunction fn ∧ state.retTypeId = ref fn.proto.type ∧
    state.parms = fn.proto.stateParms ref trueSignature state.loc.isSome

/-- The states that an encoder has saved. -/
def Encoder.savedStates (enc : Encoder) : List FuncState := enc.funcStates ++ enc.locStates

/-- The BTF types for one entry stand in a table, and `id` is the id of the last one
of them, or void when there are none. -/
def StandsFor (t : Table BtfType Encoder) (types : ℕ → Tag → List BtfType) (pos : Tag)
    (id : ℕ) : Prop :=
  ∃ pre post, t.items = pre ++ types (t.base + pre.length + 1) pos ++ post ∧
    id = if (types (t.base + pre.length + 1) pos) = [] then 0
      else t.base + pre.length + (types (t.base + pre.length + 1) pos).length

/-- The agreement of predicted and emitted ids, between the table before a CU is
encoded and the table after it, however that ended.  References are written as
`res.ref` of the id that the CU has for the type referred to. -/
structure IdAgreement (conf : ConfLoad) (cu : Cu) (t t' : Table BtfType Encoder)
    (res : Resolution) (done todo : List (ℕ × Tag)) (part extra : List BtfType) :
    Prop where
  /-- no drift and no unexpected emit is reported -/
  reports : t'.client.reports = t.client.reports
  base : t'.base = t.base
  entries : cu.types.entries = done ++ todo
  items : t'.items = t.items ++
    blocks (fun next pos => pos.btfTypes res t.client.genFloats conf next) t.cnt done ++
    part ++ extra
  /-- a reference to an entry is the id of the last type emitted for it -/
  standsFor : ∀ e ∈ done, StandsFor t'
    (fun next pos => pos.btfTypes res t.client.genFloats conf next) e.2 (res.ref e.1)
  void : res.ref 0 = 0
  /-- the entry at which a run stopped has some of its references written -/
  begun : part = [] ∨ ∃ e more, todo = e :: more ∧
    refsOf part <+: refsOf (e.2.btfTypes res t.client.genFloats conf (t.cnt +
      (blocks (fun next pos => pos.btfTypes res t.client.genFloats conf next)
        t.cnt done).length))
  added : ∀ u ∈ extra, CuExtra cu res.ref t'.entry? u
  saved : ∀ state ∈ t'.client.savedStates, state ∈ t.client.savedStates ∨
    SavedFrom cu res.ref t.client.trueSignature state
  /-- nothing follows the types before they are all there -/
  stopped : todo ≠ [] → extra = [] ∧ t'.client.savedStates = t.client.savedStates
  /-- arrays are indexed by the type found for an earlier CU -/
  keptInt : t.client.hasIndexType = true → res.arrayIndexId = t.client.arrayIndexId
  /-- or by the `int` of the CU -/
  foundInt : ∀ id, t.client.hasIndexType = false →
    cu.types.findBaseTypeByName "int" = some id → res.arrayIndexId = res.ref id
  /-- or by the type that comes right after those of the CU -/
  madeInt : t.client.hasIndexType = false → cu.types.findBaseTypeByName "int" = none →
    todo = [] → blocks (fun next pos => pos.btfTypes res t.client.genFloats conf next)
      t.cnt done ≠ [] →
    res.arrayIndexId = t.cnt +
      (blocks (fun next pos => pos.btfTypes res t.client.genFloats conf next)
        t.cnt done).length

section Agreement

variable {conf : ConfLoad} {cu : Cu} {funcs : ElfFunctions}

theorem mappedId_eq {enc : Encoder} {id x : ℕ} (hid : id ≠ 0)
    (h : enc.mappedId? id = some x) : enc.tagType id = x := by
  unfold Encoder.mappedId? at h
  unfold Encoder.tagType
  rw [if_neg hid]
  cases hmap : enc.btfIdMap with
  | none => simp [hmap] at h
  | some map =>
      simp only [hmap] at h ⊢
      split at h
      · simp at h
      · rename_i hcond
        have hlt : id < map.length := by omega
        rw [if_pos hlt]
        exact Option.some.inj h

theorem appends_callPlan {P : BtfType → Prop} {site : CallSite} {u : BtfType} (h : P u) :
    (callPlan site (.append u) : BtfPlan Encoder).Appends P :=
  appends_call.mpr ⟨fun _ => Or.inr ⟨u, rfl, h⟩, appends_nil⟩

/-- Encoding the declaration tags of a variable whose VAR has the id `id` appends `CuExtra`
only. -/
theorem exec_declTags_grows {ref : TypeId → ℕ} {var : Variable} {id : ℕ} {name : String}
    {k : ℕ} {annots : List LlvmAnnotation} {s s' : Btf Encoder} {o : Outcome CallSite}
    (hvar : var ∈ cu.vars) (hsub : ∀ a ∈ annots, a ∈ var.described.annots)
    (hentry : s.table.entry? id =
      some (.var name var.described.linkage (ref var.described.type)))
    (hid : id < 4294967296) (hlast : lastId s.table - k = id)
    (h : exec (stopsAt CallSite.reaction) (declTagsPlan k annots) s = (o, s')) :
    s.table.Grows (CuExtra cu ref) s'.table := by
  induction annots generalizing k s with
  | nil => exact grows_nil s s' o h
  | cons annot rest ih =>
      have hstop : stopsAt CallSite.reaction .declTag = true := rfl
      simp only [declTagsPlan, exec, hstop, ↓reduceIte] at h
      split at h
      · obtain ⟨-, rfl⟩ := Prod.mk.inj h
        exact .of_eq rfl rfl
      · set tag : BtfType :=
          .declTag annot.value (u32 (lastId s.table - k)) annot.componentIdx with htag
        have hentry' : Table.entry? (s.served (.append tag)).table id =
            some (.var name var.described.linkage (ref var.described.type)) :=
          entry?_served hentry
        have hlast' : lastId (s.served (.append tag)).table - ((k + 1 : ℕ) : ℤ) = id := by
          rw [table_served, lastId_served_append, ← hlast, lastId]
          push_cast
          ring
        have hhere : CuExtra cu ref (Table.entry? (s.served (.append tag)).table) tag := by
          rw [htag, hlast, u32_of_lt hid]
          exact .varTag hvar (hsub annot (by simp)) (by rwa [htag, hlast, u32_of_lt hid] at hentry')
        refine Table.Grows.trans (CuExtra.lasting cu ref) (.served hhere) ?_
        exact ih (fun a ha => hsub a (by simp [ha])) hentry' hlast' h

/-- Encoding a variable of the CU appends `CuExtra` only. -/
theorem grows_variable {ref : TypeId → ℕ} {var : Variable} {place : VarPlace}
    (hvar : var ∈ cu.vars) : (variablePlan ref var.described place).Grows
      (stopsAt CallSite.reaction) (CuExtra cu ref) := by
  intro s s' o h
  have hstop : stopsAt CallSite.reaction .var = true := rfl
  simp only [variablePlan, callPlan, List.cons_append, List.nil_append, exec, hstop,
    ↓reduceIte] at h
  split at h
  · obtain ⟨-, rfl⟩ := Prod.mk.inj h
    exact .of_eq rfl rfl
  · rename_i hserved
    set u : BtfType := .var place.name var.described.linkage (ref var.described.type)
    have hfits : s.table.cnt ≤ intMax := by
      by_contra hgt
      refine hserved ?_
      unfold Session.nextFailure
      cases s.fails s.made with
      | some e => rfl
      | none => rw [if_pos ⟨rfl, not_le.mp hgt⟩]; rfl
    refine Table.Grows.trans (CuExtra.lasting cu ref)
      (Table.Grows.served (t := s.table) (x := u) (.var hvar)) ?_
    refine exec_grows_append (CuExtra.lasting cu ref) (fun o₁ s₁ htags => ?_) ?_ h
    · refine exec_declTags_grows hvar (fun a ha => ha) (entry?_served_append s.table u) ?_ ?_ htags
      · simp only [intMax] at hfits
        omega
      · simp [lastId_served_append]
    · intro s₁ s₂ o₂ hset
      obtain ⟨-, rfl⟩ := Prod.mk.inj hset
      exact .of_eq rfl rfl

/-- All that a CU appends after its types is `CuExtra`. -/
theorem grows_rest (enc : Encoder) (lacking : Bool) :
    (indexTypePlan lacking ++ (cuDeclTagsPlan enc cu ++ symbolsPlan conf enc cu funcs)).Grows
      (stopsAt CallSite.reaction) (CuExtra cu enc.tagType) := by
  have hP := CuExtra.lasting cu enc.tagType
  have hsave : ∀ fn func loc, (saveFuncPlan enc.trueSignature fn func loc).Appends
      fun u => ∀ f, CuExtra cu enc.tagType f u := by
    intro fn func loc
    rw [saveFuncPlan, appends_append]
    exact ⟨appends_flatMap fun _ _ => by simp [callPlan], by simp⟩
  refine grows_append hP (grows_of_appends ?_) (grows_append hP (grows_of_appends ?_)
    (grows_append hP (grows_of_appends ?_) (grows_append hP (grows_of_appends ?_) ?_)))
  · unfold indexTypePlan
    split
    · exact appends_append.mpr ⟨appends_callPlan fun _ => .indexInt, by simp⟩
    · exact appends_nil
  · refine appends_flatMap ?_
    rintro ⟨coreId, pos⟩ hmem
    have htype := TypesTable.mem_entries.mp hmem
    have hid : coreId ≠ 0 := by
      rintro rfl
      simp [TypesTable.type?] at htype
    simp only [typeDeclTagsPlan]
    cases hmapped : enc.mappedId? coreId with
    | none => exact appends_nil
    | some x =>
        refine appends_flatMap fun annot hannot => ?_
        rw [← mappedId_eq hid hmapped]
        exact appends_callPlan fun _ => .typeTag htype hannot
  · refine appends_flatMap ?_
    rintro ⟨fn, func⟩ -
    exact hsave fn _ _
  · refine appends_flatMap fun ie _ => ?_
    unfold inlinePlan
    split
    · exact appends_nil
    · exact hsave _ _ _
  · refine grows_flatMap hP fun var hvar => ?_
    have hmem : var ∈ cu.vars := by
      split at hvar
      · exact hvar
      · simp at hvar
    unfold cuVariablePlan
    split
    · exact grows_nil
    · exact grows_of_appends (by simp [Step.abort])
    · exact grows_variable hmem

theorem set_notMem_declTags (k : ℕ) (annots : List LlvmAnnotation)
    (f : Table BtfType Encoder → Encoder) : Step.set f ∉ declTagsPlan k annots := by
  induction annots generalizing k with
  | nil => simp [declTagsPlan]
  | cons annot rest ih => simpa [declTagsPlan] using ih (k + 1)

/-- The invariant of the encoder after the types of a CU: its frame does not change, and every
saved state was saved before or is of a function of the CU. -/
structure RestInv (cu : Cu) (enc : Encoder) (states : List FuncState) (enc' : Encoder) :
    Prop where
  frame : enc'.frame = enc.frame
  saved : ∀ state ∈ enc'.savedStates,
    state ∈ states ∨ SavedFrom cu enc.tagType enc.trueSignature state

theorem restInv_pushState {enc enc' : Encoder} {states : List FuncState} {fn fn' : Function}
    {func : Option ElfPtr} {loc : Option Loc} (h : RestInv cu enc states enc')
    (hfn : cu.HasFunction fn) (htype : fn'.proto.type = fn.proto.type)
    (hparms : fn'.proto.stateParms enc.tagType enc.trueSignature loc.isSome =
      fn.proto.stateParms enc.tagType enc.trueSignature loc.isSome) :
    RestInv cu enc states (enc'.pushState (enc'.funcState enc'.tagType fn' func loc)) := by
  refine ⟨(frame_pushState _ _).trans h.frame, fun state hstate => ?_⟩
  have hmem : state ∈ enc'.savedStates ∨
      state = enc'.funcState enc'.tagType fn' func loc := by
    unfold Encoder.pushState at hstate
    split at hstate
    · simp only [Encoder.savedStates, List.mem_append, List.mem_singleton] at hstate ⊢
      tauto
    · simp only [Encoder.savedStates, List.mem_append, List.mem_singleton] at hstate ⊢
      tauto
  rcases hmem with hmem | rfl
  · exact h.saved state hmem
  · refine Or.inr ⟨fn, hfn, ?_, ?_⟩
    · rw [← htype, ← tagType_of_frame h.frame]
      rfl
    · rw [← trueSignature_of_frame h.frame, ← tagType_of_frame h.frame] at hparms ⊢
      exact hparms

/-- A function that is saved is one of the CU, but for a flag. -/
theorem functionsToSave_mem {fn' : Function} {func : ElfPtr}
    (h : (fn', func) ∈ cu.functionsToSave funcs) :
    ∃ fn ∈ cu.functions, ∃ uncertain,
      fn' = { fn with proto := { fn.proto with uncertainParmLoc := uncertain } } := by
  obtain ⟨fn, hfn, hsave⟩ := List.mem_filterMap.mp h
  refine ⟨fn, hfn, fn.proto.uncertainParmLoc || cu.hasUncertainArgLoc fn.proto, ?_⟩
  unfold Cu.functionToSave at hsave
  split at hsave
  · simp at hsave
  split at hsave
  · simp at hsave
  split at hsave
  · simp at hsave
  cases hname : fn.name with
  | none => simp [hname] at hsave
  | some name =>
      cases hfind : funcs.findFunction name with
      | none => simp [hname, hfind] at hsave
      | some func' =>
          simp only [hname, hfind, Option.some.injEq, Prod.mk.injEq] at hsave
          exact hsave.1.symm

theorem inlineToSave_function {enc : Encoder} {elf : Option Elf} {ie : InlineExpansion}
    {fn : Function} {loc : Loc} (h : enc.inlineToSave elf ie = some (fn, loc)) :
    ie.function = some fn := by
  unfold Encoder.inlineToSave at h
  cases elf with
  | none => simp at h
  | some elf =>
      cases hname : ie.name with
      | none => simp [hname] at h
      | some name =>
          cases hfn : ie.function with
          | none => simp [hname, hfn] at h
          | some fn' =>
              simp only [hname, hfn] at h
              split at h
              · simp at h
              · obtain ⟨place, -, hplace⟩ := Option.map_eq_some_iff.mp h
                rw [(Prod.mk.inj hplace).1]

theorem restInv_set {enc : Encoder} {states : List FuncState} {lacking : Bool}
    {f : Table BtfType Encoder → Encoder}
    (hf : Step.set f ∈ indexTypePlan lacking ++
      (cuDeclTagsPlan enc cu ++ symbolsPlan conf enc cu funcs))
    (t : Table BtfType Encoder) (h : RestInv cu enc states t.client) :
    RestInv cu enc states (f t) := by
  have hsave : ∀ {fn' : Function} {func loc},
      Step.set f ∈ saveFuncPlan enc.trueSignature fn' func loc →
      f t = t.client.pushState (t.client.funcState t.client.tagType fn' func loc) := by
    intro fn' func loc hmem
    rw [saveFuncPlan, List.mem_append] at hmem
    rcases hmem with hmem | hmem
    · simp [callPlan] at hmem
    · obtain rfl := Step.set.inj (List.mem_singleton.mp hmem)
      rfl
  simp only [symbolsPlan, List.mem_append] at hf
  rcases hf with hf | hf | hf | hf | hf
  · unfold indexTypePlan at hf
    split at hf
    · simp only [callPlan, List.mem_append, List.mem_singleton, reduceCtorEq, false_or,
        Step.set.injEq] at hf
      subst hf
      exact ⟨h.frame, h.saved⟩
    · simp at hf
  · simp only [cuDeclTagsPlan, List.mem_flatMap] at hf
    obtain ⟨⟨coreId, pos⟩, -, hf⟩ := hf
    simp only [typeDeclTagsPlan] at hf
    cases hid : enc.mappedId? coreId with
    | none => simp [hid] at hf
    | some x => simp [hid, callPlan] at hf
  · simp only [functionsPlan, List.mem_flatMap] at hf
    obtain ⟨⟨fn', func⟩, hmem, hf⟩ := hf
    obtain ⟨fn, hfn, uncertain, rfl⟩ := functionsToSave_mem hmem
    rw [hsave hf]
    exact restInv_pushState h (Or.inl hfn) rfl rfl
  · simp only [inlinesPlan, List.mem_flatMap] at hf
    obtain ⟨ie, hmem, hf⟩ := hf
    have hie : ie ∈ cu.inlines := by
      split at hmem
      · exact hmem
      · simp at hmem
    unfold inlinePlan at hf
    split at hf
    · simp at hf
    · rename_i fn loc hfound
      rw [hsave hf]
      exact restInv_pushState h (Or.inr ⟨ie, hie, inlineToSave_function hfound⟩) rfl rfl
  · simp only [variablesPlan, List.mem_flatMap] at hf
    obtain ⟨var, -, hf⟩ := hf
    unfold cuVariablePlan at hf
    split at hf
    · simp at hf
    · simp [Step.abort] at hf
    · rename_i place _
      rw [variablePlan, List.mem_append, List.mem_append] at hf
      rcases hf with hf | hf | hf
      · simp [callPlan] at hf
      · exact absurd hf (set_notMem_declTags _ _ f)
      · obtain rfl := Step.set.inj (List.mem_singleton.mp hf)
        exact ⟨(frame_addVarSecinfo _ _ _).trans h.frame, h.saved⟩

/-- A view of the encoder that does not show whether an index type is needed is kept
by the plans of tags. -/
theorem Tag.keeps_plan {δ : Type} {view : Encoder → δ}
    (hview : ∀ enc : Encoder, view { enc with needIndexType := true } = view enc)
    {res : Resolution} {genFloats : Bool} {pos : Tag} :
    (pos.plan res genFloats conf).Keeps view := by
  have hcall : ∀ site u, (callPlan site (.append u) : BtfPlan Encoder).Keeps view :=
    fun site u => keeps_call.mpr keeps_nil
  have hedit : ∀ {γ : Type} (f : γ → BtfType → BtfType) xs,
      (editPlan .type f xs : BtfPlan Encoder).Keeps view :=
    fun f xs => keeps_flatMap fun _ _ => keeps_call.mpr keeps_nil
  cases pos with
  | baseType bt =>
      simp only [Tag.plan, appendPlan]
      split
      · exact hcall _ _
      · simp [Step.abort]
  | modifier kind type => cases kind <;> simp [Tag.plan, hcall, Step.abort]
  | aggregate ty =>
      simp only [Tag.plan, Aggregate.plan]
      split
      · exact hcall _ _
      · exact keeps_append.mpr ⟨hcall _ _, hedit _ _⟩
  | array type nrEntries =>
      simp only [Tag.plan]
      refine keeps_set.mpr ⟨fun t => hview t.client, ?_⟩
      cases nrEntries.reverse with
      | nil => exact hcall _ _
      | cons n rest =>
          refine keeps_append.mpr ⟨hcall _ _, ?_⟩
          simp [dimensionsPlan, Plan.Keeps]
  | enumeration ty => exact keeps_append.mpr ⟨hcall _ _, hedit _ _⟩
  | subroutine ftype => exact keeps_append.mpr ⟨hcall _ _, hedit _ _⟩
  | reference type => simp [Tag.plan, Step.abort]
  | unsupported tag type => simp [Tag.plan, Step.abort]
  | unspecified => exact keeps_nil
  | pointer type => exact hcall _ _
  | typedef name type annots => exact hcall _ _
  | llvmAnnotationType value type => exact hcall _ _

/-- The start of a CU changes only the fields for the prediction of ids and for the index type.
-/
theorem startCu_eq (enc : Encoder) (cnt : ℕ) (cu : Cu) :
    ∃ off adj map extra skipped hasIndexType arrayIndexId,
      enc.startCu cnt cu = { enc with
        typeIdOff := off
        typeIdNullAdj := adj
        btfIdMap := map
        btfIdExtra := extra
        btfIdSkipped := skipped
        hasIndexType := hasIndexType
        arrayIndexId := arrayIndexId } := by
  unfold Encoder.startCu Encoder.precomputeBtfIds
  dsimp only
  split <;> split <;> try split
  all_goals exact ⟨_, _, _, _, _, _, _, rfl⟩

/-- The start of a CU keeps `array_index_id` when the encoder has an index type. -/
theorem startCu_keptInt {enc : Encoder} {cnt : ℕ} (hhas : enc.hasIndexType = true) :
    (enc.startCu cnt cu).arrayIndexId = enc.arrayIndexId := by
  have hhas' : ((({ enc with
      typeIdOff := u32 ((cnt : ℤ) - 1)
      typeIdNullAdj := Encoder.nullAdj cu.types } : Encoder).precomputeBtfIds
        cu.types).hasIndexType) = true := by
    unfold Encoder.precomputeBtfIds
    split <;> exact hhas
  unfold Encoder.startCu
  simp only [hhas', ↓reduceIte]
  unfold Encoder.precomputeBtfIds
  split <;> rfl

/-- The start of a CU sets `array_index_id` to the id of the CU's `int`. -/
theorem startCu_foundInt {enc : Encoder} {cnt : ℕ} {id : TypeId}
    (hhas : enc.hasIndexType = false) (hfind : cu.types.findBaseTypeByName "int" = some id) :
    (enc.startCu cnt cu).arrayIndexId = (enc.startCu cnt cu).tagType id := by
  have hhas' : ((({ enc with
      typeIdOff := u32 ((cnt : ℤ) - 1)
      typeIdNullAdj := Encoder.nullAdj cu.types } : Encoder).precomputeBtfIds
        cu.types).hasIndexType) = false := by
    unfold Encoder.precomputeBtfIds
    split <;> exact hhas
  unfold Encoder.startCu
  simp only [hhas', Bool.false_eq_true, ↓reduceIte, hfind]
  rfl

theorem startCu_madeInt {enc : Encoder} {cnt : ℕ} (hhas : enc.hasIndexType = false)
    (hfind : cu.types.findBaseTypeByName "int" = none) (hne : cu.types ≠ [])
    (hcnt : 0 < cnt) (hfits : cnt + idsOf cu.types.tail < 4294967296) :
    (enc.startCu cnt cu).arrayIndexId = cnt + idsOf cu.types.tail := by
  set enc₀ : Encoder := { enc with
    typeIdOff := u32 ((cnt : ℤ) - 1)
    typeIdNullAdj := Encoder.nullAdj cu.types } with henc₀
  have hadj₀ : enc₀.typeIdNullAdj = Encoder.nullAdj cu.types := rfl
  have hcounts := Encoder.precomputeBtfIds_counts enc₀ hadj₀ hne
  have hpos : 0 < cu.types.length := List.length_pos_iff.mpr hne
  have hpre : ∃ map extra skipped, enc₀.precomputeBtfIds cu.types =
      { enc₀ with btfIdMap := map, btfIdExtra := extra, btfIdSkipped := skipped } := by
    unfold Encoder.precomputeBtfIds
    rw [if_neg (by omega)]
    exact ⟨_, _, _, rfl⟩
  obtain ⟨map, extra, skipped, hpre⟩ := hpre
  rw [hpre] at hcounts
  have hadj : enc₀.nullAdjAt cu.types.length = cu.types.tail.countP Option.isNone := by
    unfold Encoder.nullAdjAt
    rw [henc₀]
    simp only [Encoder.nullAdj]
    by_cases hnulls : 0 < cu.types.tail.countP Option.isNone
    · simp only [if_pos hnulls]
      have hlen : cu.types.length = (Encoder.nullCounts cu.types.tail 0).length + 1 := by
        rw [Encoder.nullCounts_length, List.length_tail]
        omega
      rw [hlen, List.cons_append, List.getD_cons_succ,
        List.getD_append_right _ _ _ _ (le_refl _)]
      simp
    · simp only [if_neg hnulls]
      omega
  have hval : (enc.startCu cnt cu).arrayIndexId =
      u32 ((enc₀.typeIdOff : ℤ) + cu.types.length - enc₀.nullAdjAt cu.types.length -
        skipped + extra) := by
    unfold Encoder.startCu
    simp only [← henc₀, hpre]
    rw [if_neg (by simp [henc₀, hhas])]
    simp only [hfind]
    rfl
  have hoff : (enc₀.typeIdOff : ℤ) = (cnt : ℤ) - 1 := by
    have hcast : ((cnt : ℤ) - 1) = ((cnt - 1 : ℕ) : ℤ) := by omega
    rw [henc₀]
    simp only [hcast]
    rw [u32_of_lt (by omega)]
  rw [hval, hoff, hadj]
  simp only at hcounts
  have hsum : ((cnt : ℤ) - 1 + cu.types.length - cu.types.tail.countP Option.isNone -
      skipped + extra) = ((cnt + idsOf cu.types.tail : ℕ) : ℤ) := by
    have hlen : (cu.types.tail.length : ℤ) = cu.types.length - 1 := by
      rw [List.length_tail]
      omega
    push_cast
    omega
  rw [hsum, u32_of_lt hfits]

/-- Every entry done has in `StandsFor` the id that references to it resolve to, in a table
that goes on from its types. -/
theorem TypesEnd.standsFor {enc : Encoder} {tbl : TypesTable} {s s₂ : Btf Encoder}
    {done todo : List (ℕ × Tag)} {part more : List BtfType} {t' : Table BtfType Encoder}
    (h : TypesEnd conf enc tbl.entries s s₂ done todo part)
    (hpred : tbl ≠ [] → Predicts enc tbl s.table.cnt)
    (hfits : blocks (enc.typesOf conf) s.table.cnt done ≠ [] →
      s.table.cnt + (blocks (enc.typesOf conf) s.table.cnt done).length ≤ intMax + 1)
    (hbase : t'.base = s.table.base)
    (hitems : t'.items = s.table.items ++ blocks (enc.typesOf conf) s.table.cnt done ++ more)
    {e : ℕ × Tag} (he : e ∈ done) :
    StandsFor t' (enc.typesOf conf) e.2 (enc.tagType e.1) := by
  obtain ⟨xs, ys, rfl⟩ := List.append_of_mem he
  have hentries : tbl.entries = xs ++ (e.1, e.2) :: (ys ++ todo) := by simp [h.entries]
  have htbl : tbl ≠ [] := by
    rintro rfl
    simp [TypesTable.entries, TypesTable.entriesFrom] at hentries
  set next := s.table.cnt + (blocks (enc.typesOf conf) s.table.cnt xs).length with hnext
  have hblocks : blocks (enc.typesOf conf) s.table.cnt (xs ++ e :: ys) =
      blocks (enc.typesOf conf) s.table.cnt xs ++ (enc.typesOf conf next e.2 ++
        blocks (enc.typesOf conf) (next + (enc.typesOf conf next e.2).length) ys) := by
    rw [blocks_append]
    rfl
  have hlen : (enc.typesOf conf next e.2).length = e.2.nrBtfIds :=
    Tag.length_btfTypes (h.encodable e (by simp))
  have hroom : next + e.2.nrBtfIds ≤ intMax + 1 ∨ e.2.nrBtfIds = 0 := by
    refine (Nat.eq_zero_or_pos e.2.nrBtfIds).symm.imp_left fun hpos => ?_
    have hall := hfits (by
      rw [← List.length_pos_iff, hblocks]
      simp only [List.length_append, hlen]
      omega)
    rw [hblocks] at hall
    simp only [List.length_append, hlen] at hall
    omega
  have hid := tagType_of_emitted conf (hpred htbl) (by simp [Table.cnt]) hentries
    (fun e' he' => h.encodable e' (by simp [he'])) hroom
  have hplace : t'.base + (s.table.items ++
      blocks (enc.typesOf conf) s.table.cnt xs).length + 1 = next := by
    simp only [hbase, hnext, Table.cnt, List.length_append]
    omega
  refine ⟨s.table.items ++ blocks (enc.typesOf conf) s.table.cnt xs,
    blocks (enc.typesOf conf) (next + (enc.typesOf conf next e.2).length) ys ++ more, ?_, ?_⟩
  · rw [hplace, hitems, hblocks]
    simp only [List.append_assoc]
  · rw [hplace, hid]
    by_cases hskip : e.2.nrBtfIds = 0
    · rw [if_pos hskip, if_pos (List.length_eq_zero_iff.mp (hlen.trans hskip))]
    · have hne : enc.typesOf conf next e.2 ≠ [] := by
        rw [← List.length_pos_iff, hlen]
        omega
      rw [if_neg hskip, if_neg hne, hlen]
      omega

/-- After its types a CU adds `CuExtra` and saves states of its functions, and does neither
unless the types are all there. -/
theorem exec_cuPlan_rest {enc : Encoder} {s s₂ s' : Btf Encoder} {o₁ o : Outcome CallSite}
    {todo : List (ℕ × Tag)} (hclient : s.table.client = enc)
    (htypes : exec (stopsAt CallSite.reaction) (typesPlan conf enc cu.types.entries) s =
      (o₁, s₂))
    (htodo : o₁ = .done → todo = [])
    (h : exec (stopsAt CallSite.reaction) (cuPlan conf enc cu funcs) s = (o, s')) :
    ∃ extra, s'.table.items = s₂.table.items ++ extra ∧
      (∀ u ∈ extra, CuExtra cu enc.tagType s'.table.entry? u) ∧
      RestInv cu enc enc.savedStates s'.table.client ∧
      (todo ≠ [] → extra = [] ∧ s'.table.client.savedStates = enc.savedStates) := by
  have hkeep : ∀ {δ : Type} (view : Encoder → δ),
      (∀ enc : Encoder, view { enc with needIndexType := true } = view enc) →
      view s₂.table.client = view enc := fun view hview => by
    rw [← hclient]
    exact exec_keeps (keeps_flatMap fun _ _ => Tag.keeps_plan hview) htypes
  have hsaved : s₂.table.client.savedStates = enc.savedStates :=
    hkeep Encoder.savedStates fun _ => rfl
  have hinv : RestInv cu enc enc.savedStates s₂.table.client := by
    refine ⟨hkeep Encoder.frame fun _ => rfl, fun state hstate => Or.inl ?_⟩
    rwa [hsaved] at hstate
  rw [cuPlan, exec_append, htypes] at h
  have hstop : (o₁, s₂) = (o, s') → ∃ extra, s'.table.items = s₂.table.items ++ extra ∧
      (∀ u ∈ extra, CuExtra cu enc.tagType s'.table.entry? u) ∧
      RestInv cu enc enc.savedStates s'.table.client ∧
      (todo ≠ [] → extra = [] ∧ s'.table.client.savedStates = enc.savedStates) := by
    intro heq
    obtain ⟨-, rfl⟩ := Prod.mk.inj heq
    exact ⟨[], by simp, by simp, hinv, fun _ => ⟨rfl, hsaved⟩⟩
  cases o₁ with
  | aborted => exact hstop h
  | crashed crash => exact hstop h
  | stopped site => exact hstop h
  | done =>
      obtain ⟨extra, hextra, hadded⟩ := (grows_rest enc _ _ _ _ h).items
      exact ⟨extra, hextra, hadded, exec_client (fun f hf t ht => restInv_set hf t ht) h hinv,
        fun hne => absurd (htodo rfl) hne⟩

/-- Where the body of `btf_encoder__encode_cu` ends, ids agree. -/
theorem idAgreement_body (enc : Encoder) (s : Btf Encoder) {o : Outcome CallSite}
    {s' : Btf Encoder}
    (h : exec (stopsAt CallSite.reaction) (cuPlan conf (enc.startCu s.table.cnt cu) cu funcs)
      (startSession cu enc s) = (o, s')) :
    ∃ done todo part extra, IdAgreement conf cu { s.table with client := enc } s'.table
        (enc.startCu s.table.cnt cu).resolution done todo part extra ∧
      ((exec (stopsAt CallSite.reaction)
        (typesPlan conf (enc.startCu s.table.cnt cu) cu.types.entries)
        (startSession cu enc s)).1 = .done → todo = [] ∧ part = []) := by
  set enc₁ := enc.startCu s.table.cnt cu with henc₁
  set s₁ := startSession cu enc s with hs₁
  have hclient : s₁.table.client = enc₁ := rfl
  have hcnt : 0 < s.table.cnt := by simp [Table.cnt]
  obtain ⟨off, adj, map, extra', skipped, has, index, hstart⟩ :=
    startCu_eq enc s.table.cnt cu
  have hfloats : enc₁.genFloats = enc.genFloats := by rw [henc₁, hstart]
  have htrue : enc₁.trueSignature = enc.trueSignature := by rw [henc₁, hstart]
  have hreports : enc₁.reports = enc.reports := by rw [henc₁, hstart]
  have hsaved : enc₁.savedStates = enc.savedStates := by rw [henc₁, hstart]; rfl
  have hbase : s'.table.base = s.table.base := (exec_fails h).2
  rcases htypes : exec (stopsAt CallSite.reaction) (typesPlan conf enc₁ cu.types.entries) s₁
    with ⟨o₁, s₂⟩
  obtain ⟨done, todo, part, hend, hfin⟩ := exec_typesPlan rfl rfl htypes
  obtain ⟨extra, hextra, hadded, hrest, hstopped⟩ :=
    exec_cuPlan_rest hclient htypes (fun hdone => (hfin hdone).1) h
  rw [hsaved] at hrest hstopped
  have hfits : blocks (enc₁.typesOf conf) s.table.cnt done ≠ [] →
      s.table.cnt + (blocks (enc₁.typesOf conf) s.table.cnt done).length ≤ intMax + 1 :=
    hend.fits (exec_fails htypes).2 (exec_cnt htypes)
  have hitems : s'.table.items = s.table.items ++
      blocks (enc₁.typesOf conf) s.table.cnt done ++ part ++ extra := by
    rw [hextra, hend.items]
    rfl
  have htypesOf : (fun next pos => pos.btfTypes enc₁.resolution enc.genFloats conf next) =
      enc₁.typesOf conf := by
    rw [← hfloats]
    rfl
  refine ⟨done, todo, part, extra, ?_, hfin⟩
  refine ⟨?_, hbase, hend.entries, ?_, ?_, ?_, ?_, hadded, ?_, hstopped, ?_, ?_, ?_⟩
  · change s'.table.client.frame.reports = enc.reports
    rw [hrest.frame, ← hreports]
    rfl
  · rw [hitems, htypesOf]
    rfl
  · intro e he
    rw [htypesOf]
    exact hend.standsFor (predicts_startCu enc s.table.cnt cu) hfits hbase
      (hitems.trans (List.append_assoc _ _ _)) he
  · change enc₁.tagType 0 = 0
    simp [Encoder.tagType]
  · refine hend.begun.imp_right ?_
    rintro ⟨e, more, htodo, hrefs⟩
    refine ⟨e, more, htodo, ?_⟩
    rw [htypesOf, ← hfloats]
    exact hrefs
  · rw [← htrue]
    exact hrest.saved
  · exact startCu_keptInt
  · intro id hhas hfind
    exact startCu_foundInt hhas hfind
  · intro hhas hfind htodo hne
    rw [htypesOf] at hne ⊢
    have hall : done = cu.types.entries := by rw [hend.entries, htodo, List.append_nil]
    have hlen : (blocks (enc₁.typesOf conf) s.table.cnt done).length =
        idsOf cu.types.tail := by
      rw [length_blocks hend.encodable, hall, TypesTable.entries, sum_entriesFrom]
    have hnonempty : cu.types ≠ [] := by
      rintro hnil
      rw [hall, hnil] at hne
      exact hne rfl
    have hle := hfits hne
    change (enc.startCu s.table.cnt cu).arrayIndexId = _
    rw [startCu_madeInt hhas hfind hnonempty hcnt, ← hlen]
    · rfl
    · rw [hlen] at hle
      simp only [intMax] at hle
      omega

/-- The end of `btf_encoder__encode_cu` keeps the agreement. -/
theorem IdAgreement.finishCu {t : Table BtfType Encoder} {s : Btf Encoder}
    {res : Resolution} {done todo : List (ℕ × Tag)} {part extra : List BtfType}
    (h : IdAgreement conf cu t s.table res done todo part extra) :
    IdAgreement conf cu t (s.setClient s.table.client.finishCu).table res done todo part
      extra :=
  { h with }

end Agreement

end Pahole
