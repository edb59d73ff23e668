import Pahole.BtfEncoder.CombinedStates
import Pahole.BtfEncoder.CuPlan
import Pahole.BtfEncoder.SavedFuncsScript

/-!
# The functions that are added

What `btf_encoder__add_saved_funcs` does for one group of states changes the BTF by
appending to it only, so that the prototypes of the groups to come are compared as they
would have been before.
-/

namespace Pahole

open FallibleTable

/-! ## A BTF that grows -/

/-- The encoder, less the functions that FUNCs were added for. -/
def Encoder.settings (enc : Encoder) : Encoder := { enc with funcsAdded := [] }

/-- `t'` has the base, the settings and all types of `t`, and types after these. -/
structure Grows (t t' : Table BtfType Encoder) : Prop where
  base : t'.base = t.base
  items : t.items <+: t'.items
  settings : t'.client.settings = t.client.settings

theorem Grows.refl (t : Table BtfType Encoder) : Grows t t := ⟨rfl, List.prefix_rfl, rfl⟩

theorem Grows.trans {t₁ t₂ t₃ : Table BtfType Encoder} (h : Grows t₁ t₂) (h' : Grows t₂ t₃) :
    Grows t₁ t₃ :=
  ⟨h'.base.trans h.base, h.items.trans h'.items, h'.settings.trans h.settings⟩

/-- Every id in a type, and every type id in a saved state, is below the number of types. -/
structure Resolved (t : Table BtfType Encoder) : Prop where
  types : ∀ u ∈ t.items, ∀ r ∈ u.refs, r < t.cnt
  rets : ∀ state ∈ t.client.funcStates, state.retTypeId < t.cnt
  parms : ∀ state ∈ t.client.funcStates, ∀ p ∈ state.parms, p.typeId < t.cnt

section Grown

variable {t t' : Table BtfType Encoder} {id1 id2 : ℕ} {a b : FuncState} {rest : List FuncState}

theorem Grows.typeById (h : Grows t t') {id : ℕ} (hid : id < t.cnt) :
    Pahole.typeById t' id = Pahole.typeById t id := by
  obtain ⟨more, hmore⟩ := h.items
  rw [Pahole.typeById, Pahole.typeById, Table.entry?, Table.entry?, h.base, ← hmore]
  split
  · next hbase =>
      refine List.getElem?_append_left ?_
      rw [Table.cnt] at hid
      omega
  · rfl

theorem mem_items_of_typeById {id : ℕ} {u : BtfType} (h : typeById t id = some u) : u ∈ t.items := by
  rw [typeById, Table.entry?] at h
  split at h
  · exact List.mem_of_getElem? h
  · cases h

/-- The pairs that are compared in place of two types are references of theirs. -/
theorem mem_refs_of_matchSwitch {t1 t2 : BtfType} {ids : List (ℕ × ℕ)}
    (h : matchSwitch t1 t2 = .pairs ids) : ∀ pair ∈ ids, pair.1 ∈ t1.refs ∧ pair.2 ∈ t2.refs := by
  unfold matchSwitch at h
  split at h
  · cases h
  · cases h
  · split at h
    · cases h
    · cases h
    · obtain rfl := MatchStep.pairs.inj h
      simp [BtfType.refs]
  · split at h
    · cases h
    · obtain rfl := MatchStep.pairs.inj h
      simp [BtfType.refs]
  · split at h
    · cases h
    · obtain rfl := MatchStep.pairs.inj h
      refine List.forall_mem_cons.mpr ⟨⟨List.mem_cons_self, List.mem_cons_self⟩, fun pair hpair => ?_⟩
      obtain ⟨⟨p1, p2⟩, hmem, rfl⟩ := List.mem_map.mp hpair
      obtain ⟨hleft, hright⟩ := List.of_mem_zip hmem
      exact ⟨List.mem_cons_of_mem _ (List.mem_map_of_mem hleft),
        List.mem_cons_of_mem _ (List.mem_map_of_mem hright)⟩
  · split at h <;> cases h

theorem mem_refs_of_matchRound {t1 t2 : BtfType} {ids : List (ℕ × ℕ)}
    (h : matchRound id1 id2 t1 t2 = .pairs ids) :
    ∀ pair ∈ ids, (pair.1 = id1 ∨ pair.1 ∈ t1.refs) ∧ (pair.2 = id2 ∨ pair.2 ∈ t2.refs) := by
  unfold matchRound at h
  split at h
  · split at h
    · obtain rfl := MatchStep.pairs.inj h
      simp [BtfType.refs]
    · obtain rfl := MatchStep.pairs.inj h
      simp [BtfType.refs]
    · cases h
  · intro pair hpair
    obtain ⟨hleft, hright⟩ := mem_refs_of_matchSwitch h pair hpair
    exact ⟨Or.inr hleft, Or.inr hright⟩

theorem allMatch_congr_mem {m m' : ℕ → ℕ → Except Crash Bool} {ids : List (ℕ × ℕ)}
    (h : ∀ pair ∈ ids, m pair.1 pair.2 = m' pair.1 pair.2) : allMatch m ids = allMatch m' ids := by
  induction ids with
  | nil => rfl
  | cons pair ids ih =>
      obtain ⟨hpair, hids⟩ := List.forall_mem_cons.mp h
      rw [allMatch, allMatch, hpair, ih hids]

/-- Comparing two types gives the same result after types have been appended. -/
theorem Grows.typesMatch (h : Grows t t') (hresolved : Resolved t) (fuel : ℕ) (hid1 : id1 < t.cnt)
    (hid2 : id2 < t.cnt) :
    Pahole.typesMatch (Pahole.typeById t') fuel id1 id2 =
      Pahole.typesMatch (Pahole.typeById t) fuel id1 id2 := by
  induction fuel generalizing id1 id2 with
  | zero => rfl
  | succ fuel ih =>
      rw [Pahole.typesMatch, Pahole.typesMatch, h.typeById hid1, h.typeById hid2]
      cases hfind1 : Pahole.typeById t id1 with
      | none => rfl
      | some t1 =>
          cases hfind2 : Pahole.typeById t id2 with
          | none => rfl
          | some t2 =>
              dsimp only
              cases hround : matchRound id1 id2 t1 t2 with
              | settled same => rfl
              | pairs ids =>
                  have hpairs : allMatch (Pahole.typesMatch (Pahole.typeById t') fuel) ids =
                      allMatch (Pahole.typesMatch (Pahole.typeById t) fuel) ids := by
                    refine allMatch_congr_mem fun pair hpair => ?_
                    obtain ⟨hleft, hright⟩ := mem_refs_of_matchRound hround pair hpair
                    refine ih ?_ ?_
                    · rcases hleft with heq | hmem
                      · rwa [heq]
                      · exact hresolved.types t1 (mem_items_of_typeById hfind1) _ hmem
                    · rcases hright with heq | hmem
                      · rwa [heq]
                      · exact hresolved.types t2 (mem_items_of_typeById hfind2) _ hmem
                  dsimp only
                  rw [hpairs]

/-- Two saved functions differ after types have been appended if and only if they did before. -/
theorem Grows.funcsDiffer_iff (h : Grows t t') (hresolved : Resolved t)
    (ha : a ∈ t.client.funcStates) (hb : b ∈ t.client.funcStates) :
    FuncsDiffer t' a b ↔ FuncsDiffer t a b := by
  refine exists_congr fun fuel => ?_
  by_cases hcount : a.nrParms = b.nrParms
  · rw [funcsMatch_of_eq hcount, funcsMatch_of_eq hcount]
    have hpairs : allMatch (Pahole.typesMatch (Pahole.typeById t') fuel) ((a.typePairs b).take 257) =
        allMatch (Pahole.typesMatch (Pahole.typeById t) fuel) ((a.typePairs b).take 257) := by
      refine allMatch_congr_mem fun pair hpair => ?_
      rcases List.mem_cons.mp (List.mem_of_mem_take hpair) with rfl | hpair
      · exact h.typesMatch hresolved fuel (hresolved.rets a ha) (hresolved.rets b hb)
      · obtain ⟨⟨p1, p2⟩, hmem, rfl⟩ := List.mem_map.mp hpair
        obtain ⟨hleft, hright⟩ := List.of_mem_zip (List.mem_of_mem_take hmem)
        exact h.typesMatch hresolved fuel (hresolved.parms a ha p1 hleft)
          (hresolved.parms b hb p2 hright)
    rw [hpairs]
  · rw [funcsMatch_of_ne hcount, funcsMatch_of_ne hcount]

theorem Grows.trueSignature (h : Grows t t') :
    t'.client.trueSignature = t.client.trueSignature := by
  have hsame := congrArg Encoder.trueSignature h.settings
  exact hsame

theorem Grows.elfFunctionsList (h : Grows t t') :
    t'.client.elfFunctionsList = t.client.elfFunctionsList := by
  have hsame := congrArg Encoder.elfFunctionsList h.settings
  exact hsame

theorem Grows.elfOf (h : Grows t t') (state : FuncState) :
    t'.client.elfOf state = t.client.elfOf state := by
  have hsame := congrArg (fun enc => Encoder.elfOf enc state) h.settings
  exact hsame

theorem Grows.marksAmbiguous_iff (h : Grows t t') (elf : Option ElfPtr) :
    t'.client.MarksAmbiguous elf ↔ t.client.MarksAmbiguous elf := by
  have hsame := congrArg (fun enc => Encoder.MarksAmbiguous enc elf) h.settings
  exact iff_of_eq hsame

theorem Grows.collected (h : Grows t t') (hcollected : t.client.Collected) :
    t'.client.Collected := by
  rw [Encoder.Collected, h.elfFunctionsList]
  exact hcollected

/-- Appending types does not change whether a FUNC is added for saved states. -/
theorem Grows.emits_iff (h : Grows t t') (hresolved : Resolved t) {skipInconsistent : Bool}
    (hstates : ∀ b ∈ a :: rest, b ∈ t.client.funcStates) :
    Emits t' skipInconsistent a rest ↔ Emits t skipInconsistent a rest := by
  have hincons : Inconsistent t' a rest ↔ Inconsistent t a rest := by
    rw [Inconsistent, Inconsistent, h.trueSignature]
    refine or_congr_right (exists_congr fun b => and_congr_right fun hb => ?_)
    rw [h.funcsDiffer_iff hresolved (hstates a List.mem_cons_self)
      (hstates b (List.mem_cons_of_mem _ hb))]
  have hpasses : Passes t' skipInconsistent a rest ↔ Passes t skipInconsistent a rest := by
    constructor
    · rintro ⟨hreliable, horder, hunmarked, hkept, hconsistent⟩
      rw [h.marksAmbiguous_iff] at hunmarked
      rw [h.elfOf, h.trueSignature] at hkept
      exact ⟨hreliable, horder, hunmarked, hkept, fun hskip hdiffer =>
        hconsistent hskip (hincons.mpr hdiffer)⟩
    · rintro ⟨hreliable, horder, hunmarked, hkept, hconsistent⟩
      rw [← h.marksAmbiguous_iff] at hunmarked
      rw [← h.elfOf, ← h.trueSignature] at hkept
      exact ⟨hreliable, horder, hunmarked, hkept, fun hskip hdiffer =>
        hconsistent hskip (hincons.mp hdiffer)⟩
  rw [Emits, Emits, h.trueSignature, hpasses]

end Grown

/-! ## FUNCs added by scripts -/

section Extends

variable {stops : CallSite → Bool} {s s' : Btf Encoder} {p : BtfPlan Encoder}
  {o : Outcome CallSite}

/-- Once there is a type of its own to edit, a plan leaves those before it alone. -/
theorem exec_extends (items : List BtfType) (h : exec stops p s = (o, s'))
    (hs : ∃ more, more ≠ [] ∧ s.table.items = items ++ more) :
    ∃ more, more ≠ [] ∧ s'.table.items = items ++ more := by
  induction p generalizing s with
  | nil =>
      obtain ⟨-, rfl⟩ := Prod.mk.inj h
      exact hs
  | cons step rest ih =>
      cases step with
      | set f => exact ih (s := s.setClient (f s.table)) h hs
      | check ok =>
          simp only [exec] at h
          split at h
          · exact ih h hs
          · obtain ⟨-, rfl⟩ := Prod.mk.inj h
            exact hs
      | call site op =>
          simp only [exec] at h
          split at h
          · split at h
            · obtain ⟨-, rfl⟩ := Prod.mk.inj h
              exact hs
            · exact ih (s := s.refused) h hs
          · refine ih (s := s.served (op s.table)) h ?_
            obtain ⟨more, hne, hitems⟩ := hs
            rw [table_served, Table.served, hitems]
            cases op s.table with
            | append x => exact ⟨more ++ [x], by simp, List.append_assoc items more [x]⟩
            | editLast f =>
                refine ⟨more.modifyLast f, ?_, List.modifyLast_append_of_right_ne_nil f items more hne⟩
                rw [← List.length_pos_iff, length_modifyLast, List.length_pos_iff]
                exact hne
            | touch => exact ⟨more, hne, rfl⟩

/-- A plan that starts by appending a type edits no other. -/
theorem exec_prefix_items {site : CallSite} {u : Table BtfType Encoder → BtfType}
    (hsite : stops site = true)
    (h : exec stops (.call site (fun t => .append (u t)) :: p) s = (o, s')) :
    s.table.items <+: s'.table.items := by
  simp only [exec, hsite, ↓reduceIte] at h
  split at h
  · obtain ⟨-, rfl⟩ := Prod.mk.inj h
    exact List.prefix_rfl
  · obtain ⟨more, -, hmore⟩ := exec_extends s.table.items h
      ⟨[u s.table], by simp, rfl⟩
    exact ⟨more, hmore.symm⟩

end Extends

/-- A script run from `s` appends types and notes a prefix of the FUNCs of `ptrs`, and all of
them when it ends with `done`. -/
structure AddsFrom (ptrs : List ElfPtr) (s : Btf Encoder) (out : Outcome CallSite × Btf Encoder) :
    Prop where
  grows : Grows s.table out.2.table
  part : ∃ part, part <+: ptrs ∧
    out.2.table.client.funcsAdded = s.table.client.funcsAdded ++ part
  done : out.1 = .done →
    out.2.table.client.funcsAdded = s.table.client.funcsAdded ++ ptrs

/-- `AddsFrom` from every session. -/
def Adds (ptrs : List ElfPtr) (f : BtfScript Encoder) : Prop := ∀ s, AddsFrom ptrs s (f s)

section Adds

variable {ptrs ptrs' : List ElfPtr} {f g : BtfScript Encoder} {p : BtfPlan Encoder}
  {host : Host} {state : FuncState}

theorem addsFrom_same {o : Outcome CallSite} (ho : o = .done → ptrs = []) (s : Btf Encoder) :
    AddsFrom ptrs s (o, s) where
  grows := Grows.refl s.table
  part := ⟨[], List.nil_prefix, (List.append_nil _).symm⟩
  done h := by rw [ho h, List.append_nil]

theorem adds_nil : Adds [] Script.nil := addsFrom_same fun _ => rfl

theorem adds_abort : Adds ptrs Script.abort := addsFrom_same (by simp)

theorem adds_crash (crash : Crash) : Adds ptrs (Script.crash crash) := addsFrom_same (by simp)

theorem adds_look {F : Table BtfType Encoder → BtfScript Encoder} (h : ∀ t, Adds ptrs (F t)) :
    Adds ptrs (Script.look F) := fun s => h s.table s

theorem AddsFrom.seq {s : Btf Encoder} (hf : AddsFrom ptrs s (f s))
    (hg : ∀ s₁, f s = (.done, s₁) → AddsFrom ptrs' s₁ (g s₁)) :
    AddsFrom (ptrs ++ ptrs') s (f.seq g s) := by
  obtain ⟨hgrows, ⟨part, hpart, hadded⟩, hdone⟩ := hf
  rcases hout : f.seq g s with ⟨o, s'⟩
  rcases Script.seq_cases hout with ⟨s₁, hfirst, hrest⟩ | ⟨hstop, hne⟩
  · obtain ⟨hgrows', ⟨part', hpart', hadded'⟩, hdone'⟩ := hg s₁ hfirst
    rw [hfirst] at hgrows hdone
    rw [hrest] at hgrows' hadded' hdone'
    have hall := hdone rfl
    refine ⟨hgrows.trans hgrows', ⟨ptrs ++ part', ?_, ?_⟩, fun ho => ?_⟩
    · exact (List.prefix_append_right_inj ptrs).mpr hpart'
    · rw [hadded', hall, List.append_assoc]
    · rw [hdone' ho, hall, List.append_assoc]
  · rw [hstop] at hgrows hadded
    exact ⟨hgrows, ⟨part, hpart.trans (List.prefix_append ptrs ptrs'), hadded⟩,
      fun ho => absurd ho hne⟩

theorem adds_seq (hf : Adds ptrs f) (hg : Adds ptrs' g) : Adds (ptrs ++ ptrs') (f.seq g) :=
  fun s => AddsFrom.seq (hf s) fun s₁ _ => hg s₁

theorem adds_seq_left (hf : Adds [] f) (hg : Adds ptrs g) : Adds ptrs (f.seq g) := adds_seq hf hg

theorem adds_seq_right (hf : Adds ptrs f) (hg : Adds [] g) : Adds ptrs (f.seq g) := by
  have h := adds_seq hf hg
  rwa [List.append_nil] at h

theorem adds_append {q : BtfPlan Encoder} (hp : Adds ptrs (planScript p))
    (hq : Adds ptrs' (planScript q)) : Adds (ptrs ++ ptrs') (planScript (p ++ q)) := by
  have hsplit : planScript (p ++ q) = (planScript p).seq (planScript q) :=
    funext fun s => exec_append p q s
  rw [hsplit]
  exact adds_seq hp hq

/-- A plan that appends a type, goes on with it, and leaves the encoder alone. -/
theorem adds_of_append {site : CallSite} {u : Table BtfType Encoder → BtfType}
    (hsite : stopsAt CallSite.reaction site = true) (hp : p.Keeps id) :
    Adds [] (planScript (.call site (fun t => .append (u t)) :: p)) := by
  intro s
  rcases hout : planScript (.call site (fun t => .append (u t)) :: p) s with ⟨o, s'⟩
  have hclient : s'.table.client = s.table.client := exec_keeps (keeps_call.mpr hp) hout
  refine ⟨⟨(exec_fails hout).2, exec_prefix_items hsite hout, ?_⟩, ⟨[], List.prefix_rfl, ?_⟩,
    fun _ => ?_⟩
  · rw [hclient]
  · rw [hclient, List.append_nil]
  · rw [hclient, List.append_nil]

theorem adds_noteFunc (state : FuncState) :
    Adds state.elf.toList (planScript [.set fun t => t.client.noteFunc state]) :=
  fun _ => ⟨⟨rfl, List.prefix_rfl, rfl⟩, ⟨state.elf.toList, List.prefix_rfl, rfl⟩, fun _ => rfl⟩

theorem keeps_editPlan {γ δ : Type} {view : Encoder → δ} (site : CallSite)
    (f : γ → BtfType → BtfType) (xs : List γ) :
    (editPlan (β := Encoder) site f xs).Keeps view :=
  keeps_flatMap fun _ _ => keeps_call.mpr keeps_nil

theorem adds_declTagsPlan (k : ℕ) (annots : List LlvmAnnotation) :
    Adds [] (planScript (declTagsPlan k annots)) := by
  cases annots with
  | nil => exact adds_nil
  | cons annot rest => exact adds_of_append rfl (keeps_declTags id (k + 1) rest)

/-- A FUNC is added for the function of the state. -/
theorem adds_addFunc (enc : Encoder) (host : Host) (state : FuncState) :
    Adds state.elf.toList (planScript (addFuncPlan enc host state)) := by
  have hproto : Adds [] (planScript (protoPlan state.retTypeId state.protoParams)) :=
    adds_of_append rfl (keeps_editPlan _ _ _)
  have hfunc : Adds [] (planScript [.call .func fun t =>
      .append (.ref .func (some (state.funcName enc)) (u32 (lastId t)))]) :=
    adds_of_append rfl keeps_nil
  have htags : Adds [] (planScript (declTagsPlan 0 (state.copiedAnnots host.stackTail) ++ [])) := by
    rw [List.append_nil]
    exact adds_declTagsPlan 0 _
  have hnoted := adds_append (adds_noteFunc state) htags
  rw [List.append_nil] at hnoted
  exact adds_append hproto (adds_append hfunc hnoted)

theorem adds_arenaPtr (ptrId : ℕ) : Adds [] (arenaPtrScript ptrId) := by
  refine adds_look fun t => ?_
  split
  · exact adds_abort
  · split
    · exact adds_crash _
    · exact adds_of_append rfl (keeps_call.mpr keeps_nil)
    · exact adds_abort

theorem adds_arenaArg {idx : ℕ} {next : FuncState → BtfScript Encoder}
    (hnext : ∀ state', state'.elf = state.elf → Adds ptrs (next state')) :
    Adds ptrs (arenaArgScript state idx next) := by
  unfold arenaArgScript
  split
  · exact adds_abort
  · refine adds_seq_left (adds_arenaPtr _) (adds_look fun t => ?_)
    exact hnext _ rfl

theorem adds_arena {flags : ℕ} {next : FuncState → BtfScript Encoder}
    (hnext : ∀ state', state'.elf = state.elf → Adds ptrs (next state')) :
    Adds ptrs (arenaScript host flags state next) := by
  have harg2 : ∀ state', state'.elf = state.elf →
      Adds ptrs (if flags &&& kfArenaArg2 ≠ 0 then arenaArgScript state' 1 next
        else next state') := by
    intro state' helf
    split
    · exact adds_arenaArg fun state'' helf' => hnext state'' (helf'.trans helf)
    · exact hnext state' helf
  set next2 : FuncState → BtfScript Encoder := fun state' =>
    if flags &&& kfArenaArg2 ≠ 0 then arenaArgScript state' 1 next else next state'
  have harg1 : ∀ state', state'.elf = state.elf →
      Adds ptrs (if flags &&& kfArenaArg1 ≠ 0 then arenaArgScript state' 0 next2
        else next2 state') := by
    intro state' helf
    split
    · exact adds_arenaArg fun state'' helf' => harg2 state'' (helf'.trans helf)
    · exact harg2 state' helf
  unfold arenaScript
  split
  · exact adds_abort
  · dsimp only
    split
    · refine adds_seq_left (adds_arenaPtr _) (adds_look fun t => ?_)
      exact harg1 _ rfl
    · exact harg1 state rfl

theorem adds_kfunc (enc : Encoder) : Adds state.elf.toList (kfuncScript host enc state) := by
  set flags := (enc.elfOf state).kfuncFlags
  have hadd : ∀ state', state'.elf = state.elf →
      Adds state.elf.toList
        ((Script.look fun t => planScript (addFuncPlan t.client host state')).seq <|
          Script.look fun t =>
            if enc.tagKfuncs ∧ ¬enc.skipEncodingDeclTag then
              planScript (tagKfuncPlan flags (u32 (funcId host state' t)))
            else Script.nil) := by
    intro state' helf
    refine adds_seq_right (adds_look fun t => ?_) (adds_look fun t => ?_)
    · rw [← helf]
      exact adds_addFunc t.client host state'
    · split
      · refine adds_of_append rfl ?_
        split
        · exact keeps_call.mpr keeps_nil
        · exact keeps_nil
      · exact adds_nil
  unfold kfuncScript
  dsimp only
  split
  · exact adds_arena hadd
  · exact hadd state rfl

end Adds

/-! ## Groups -/

/-- `a :: rest` are saved states of one function. -/
structure StateGroup (t : Table BtfType Encoder) (a : FuncState) (rest : List FuncState) : Prop where
  elf : ∀ b ∈ a :: rest, b.elf = a.elf
  saved : ∀ b ∈ a :: rest, b ∈ t.client.funcStates

open Classical in
/-- The functions that groups of states add FUNCs for. -/
noncomputable def emittedPtrs (t : Table BtfType Encoder) (skipInconsistent : Bool) :
    List (List FuncState) → List ElfPtr
  | [] => []
  | [] :: groups => emittedPtrs t skipInconsistent groups
  | (a :: rest) :: groups =>
      (if Emits t skipInconsistent a rest then a.elf.toList else []) ++
        emittedPtrs t skipInconsistent groups

section Groups

variable {t : Table BtfType Encoder} {skipInconsistent : Bool} {a : FuncState}
  {rest : List FuncState} {groups : List (List FuncState)} {host : Host} {s : Btf Encoder}

theorem mem_emittedPtrs {ptr : ElfPtr} :
    ptr ∈ emittedPtrs t skipInconsistent groups ↔
      ∃ a rest, a :: rest ∈ groups ∧ a.elf = some ptr ∧ Emits t skipInconsistent a rest := by
  induction groups with
  | nil => simp [emittedPtrs]
  | cons group groups ih =>
      cases group with
      | nil => simp [emittedPtrs, ih]
      | cons b states =>
          rw [emittedPtrs, List.mem_append, ih]
          constructor
          · rintro (hmem | ⟨a, rest, hgroup, h⟩)
            · split at hmem
              · next hemits =>
                  exact ⟨b, states, List.mem_cons_self, by simpa using hmem, hemits⟩
              · cases hmem
            · exact ⟨a, rest, List.mem_cons_of_mem _ hgroup, h⟩
          · rintro ⟨a, rest, hgroup, helf, hemits⟩
            rcases List.mem_cons.mp hgroup with heq | hgroup
            · obtain ⟨rfl, rfl⟩ := List.cons.inj heq
              left
              rw [if_pos hemits, helf]
              exact List.mem_cons_self
            · exact Or.inr ⟨a, rest, hgroup, helf, hemits⟩

/-- One group adds a FUNC for its function if it `Emits`, in whatever BTF was found before. -/
theorem addsFrom_group (host : Host) (skipInconsistent : Bool) (hgrows : Grows t s.table) (hcollected : t.client.Collected)
    (hresolved : Resolved t) (hgroup : StateGroup t a rest) :
    AddsFrom (emittedPtrs t skipInconsistent [a :: rest]) s
      (groupScript host skipInconsistent (a :: rest) s) := by
  rw [groupScript, Script.look, emittedPtrs, emittedPtrs, List.append_nil]
  cases hverdict : groupVerdict s.table skipInconsistent (a :: rest) with
  | error crash => exact adds_crash crash s
  | ok verdict =>
      obtain ⟨hskip, hof⟩ := groupVerdict_spec (hgrows.collected hcollected) hverdict
      rw [hgrows.emits_iff hresolved hgroup.saved] at hskip
      have helf : ∀ state, verdict = .trueSignature state ∨ verdict = .canonical state →
          state.elf = a.elf := by
        intro state hstate
        obtain ⟨b, hb, heq⟩ := hof state hstate
        rw [heq, hgroup.elf b hb]
      cases verdict with
      | skip =>
          rw [if_neg (hskip.mp rfl)]
          exact adds_nil s
      | trueSignature state =>
          rw [if_pos (by simpa using hskip), ← helf state (Or.inl rfl)]
          exact adds_addFunc _ _ _ s
      | canonical state =>
          rw [if_pos (by simpa using hskip), ← helf state (Or.inr rfl)]
          dsimp only
          split
          · exact adds_kfunc _ s
          · exact adds_addFunc _ _ _ s

/-- All groups add FUNCs for the functions of those that `Emit`. -/
theorem addsFrom_groups (host : Host) (skipInconsistent : Bool) (hgrows : Grows t s.table) (hcollected : t.client.Collected)
    (hresolved : Resolved t)
    (hgroups : ∀ group ∈ groups, ∃ a rest, group = a :: rest ∧ StateGroup t a rest) :
    AddsFrom (emittedPtrs t skipInconsistent groups) s
      (groupsScript host skipInconsistent groups s) := by
  induction groups generalizing s with
  | nil => exact adds_nil s
  | cons group groups ih =>
      obtain ⟨hgroup, hrest⟩ := List.forall_mem_cons.mp hgroups
      obtain ⟨a, rest, rfl, hgroup⟩ := hgroup
      have hfirst := addsFrom_group host skipInconsistent hgrows hcollected hresolved hgroup
      have hsplit : emittedPtrs t skipInconsistent ((a :: rest) :: groups) =
          emittedPtrs t skipInconsistent [a :: rest] ++ emittedPtrs t skipInconsistent groups := by
        rw [emittedPtrs, emittedPtrs, emittedPtrs, List.append_nil]
      rw [hsplit]
      refine AddsFrom.seq hfirst fun s₁ hdone => ih ?_ hrest
      have hgrown := hfirst.grows
      rw [hdone] at hgrown
      exact hgrows.trans hgrown

end Groups

end Pahole
