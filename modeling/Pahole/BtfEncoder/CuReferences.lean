import Pahole.BtfEncoder.IdAgreement
import Pahole.Support.Success

/-!
# The references of a CU

Encoding a CU reports no error about ids, and when it returns no error every reference it
has written is the id of a type that it has emitted: the types of the entry referred to,
whether that entry comes before or after, the array of the dimensions before, or the
variable that a declaration tag is for.
-/

namespace Pahole

open FallibleTable

/-- The ids of types that are written in a type, but for the index type of an array. -/
def BtfType.typeIds : BtfType → List ℕ
  | .var _ _ type | .declTag _ type _ => [type]
  | u => u.refs

/-- The ids of the types that a tag refers to in the types emitted for it. -/
def Tag.typeIds : Tag → List TypeId
  | .pointer type | .modifier _ type | .typedef _ type _ | .llvmAnnotationType _ type
  | .array type _ => [type]
  | .aggregate ty => ty.dataMembers.map ClassMember.type
  | .subroutine ftype => ftype.type :: ftype.parms.map Parameter.type
  | .baseType _ | .reference _ | .enumeration _ | .unspecified | .unsupported _ _ => []

/-- An id is that of an entry that is not `NULL`, or void's. -/
def Cu.HasType (cu : Cu) (id : TypeId) : Prop := id = 0 ∨ (cu.types.type? id).isSome

/-- No entry refers to a `NULL` entry, or to one that is not in the table. -/
def Cu.RefersToEntries (cu : Cu) : Prop :=
  ∀ e ∈ cu.types.entries, ∀ id ∈ e.2.typeIds, cu.HasType id

instance (cu : Cu) (id : TypeId) : Decidable (cu.HasType id) :=
  inferInstanceAs (Decidable (_ ∨ _))

instance (cu : Cu) : Decidable cu.RefersToEntries :=
  inferInstanceAs (Decidable (∀ e ∈ cu.types.entries, ∀ id ∈ e.2.typeIds, cu.HasType id))

/-- `x` is the id of the BTF type emitted for the type `id` of the CU: for void it is 0,
for an entry the id of the last of its types, and 0 when it has none. -/
def EmittedFor (conf : ConfLoad) (cu : Cu) (t t' : Table BtfType Encoder) (res : Resolution)
    (id : TypeId) (x : ℕ) : Prop :=
  id = 0 ∧ x = 0 ∨ ∃ pos, cu.types.type? id = some pos ∧
    StandsFor t' (fun next pos => pos.btfTypes res t.client.genFloats conf next) pos x

/-- The targets of a reference `x` in a type `u` of the BTF of a CU. -/
inductive ReferenceTo (conf : ConfLoad) (cu : Cu) (t t' : Table BtfType Encoder)
    (res : Resolution) : BtfType → ℕ → Prop where
  /-- the type emitted for a type of the CU -/
  | type {u : BtfType} {id : TypeId} {x : ℕ} :
      EmittedFor conf cu t t' res id x → ReferenceTo conf cu t t' res u x
  /-- the array of the dimensions before, in an array of several dimensions -/
  | dimension {x elem index m n : ℕ} :
      t'.entry? x = some (.array elem index m) →
      ReferenceTo conf cu t t' res (.array x index n) x
  /-- the variable that a declaration tag is for -/
  | variable {x linkage type : ℕ} {name value : String} {componentIdx : ℤ} :
      t'.entry? x = some (.var name linkage type) →
      ReferenceTo conf cu t t' res (.declTag value x componentIdx) x

/-- Every reference written for a CU is the id of a type that has been emitted. -/
structure ReferencesResolve (conf : ConfLoad) (cu : Cu) (t t' : Table BtfType Encoder)
    (res : Resolution) : Prop where
  emitted : ∀ id, cu.HasType id → EmittedFor conf cu t t' res id (res.ref id)
  written : ∀ u ∈ t'.items.drop t.items.length, ∀ x ∈ u.typeIds,
    ReferenceTo conf cu t t' res u x

section References

variable {conf : ConfLoad} {cu : Cu}

/-- The array for every dimension after the first refers to the one before it. -/
theorem mem_dimensionTypes {indexType prev x : ℕ} {dims : List ℕ} {u : BtfType}
    (hu : u ∈ dimensionTypes indexType prev dims) (hx : x ∈ u.typeIds) (ref nelems : ℕ) :
    ∃ k elem m n, u = .array x indexType n ∧ x = prev + k ∧
      (BtfType.array ref indexType nelems :: dimensionTypes indexType prev dims)[k]? =
        some (.array elem indexType m) := by
  induction dims generalizing prev ref nelems with
  | nil => simp [dimensionTypes] at hu
  | cons n rest ih =>
      rcases List.mem_cons.mp hu with rfl | hu
      · obtain rfl := List.mem_singleton.mp hx
        exact ⟨0, ref, nelems, n, rfl, rfl, rfl⟩
      · obtain ⟨k, elem, m, n', hu, hx, hk⟩ := ih hu prev n
        exact ⟨k + 1, elem, m, n', hu, by omega, hk⟩

/-- The BTF type of a base type has no reference. -/
theorem BaseType.typeIds_btfType {genFloats : Bool} {bt : BaseType} {name : Option String}
    {u : BtfType} (h : bt.btfType genFloats name = some u) : u.typeIds = [] := by
  unfold BaseType.btfType at h
  dsimp only at h
  split at h
  · split at h
    · obtain rfl := Option.some.inj h
      rfl
    · cases h
  · split at h
    · obtain rfl := Option.some.inj h
      rfl
    · obtain rfl := Option.some.inj h
      rfl

/-- Adding enumerators to a type without references gives it none. -/
theorem typeIds_built_addEnumValue (values : List Enumerator) {start : BtfType}
    (hstart : start.typeIds = []) :
    (built start (fun e => BtfType.addEnumValue e.name (enumValue e.value conf))
      values).typeIds = [] := by
  induction values generalizing start with
  | nil => exact hstart
  | cons e rest ih =>
      refine ih ?_
      cases start <;> exact hstart

/-- An id in the types of an array is its element type, or that of the dimension before. -/
theorem typeIds_arrayTypes {ref indexType next x : ℕ} {dims : List ℕ} {u : BtfType}
    (hu : u ∈ arrayTypes ref indexType next dims) (hx : x ∈ u.typeIds) :
    x = ref ∨ ∃ k elem index m n, u = .array x index n ∧ x = next + k ∧
      (arrayTypes ref indexType next dims)[k]? = some (.array elem index m) := by
  cases dims with
  | nil =>
      obtain rfl := List.mem_singleton.mp hu
      exact Or.inl (List.mem_singleton.mp hx)
  | cons n rest =>
      rcases List.mem_cons.mp hu with rfl | hu
      · exact Or.inl (List.mem_singleton.mp hx)
      · obtain ⟨k, elem, m, n', hshape, hid, hk⟩ := mem_dimensionTypes hu hx ref n
        exact Or.inr ⟨k, elem, indexType, m, n', hshape, hid, hk⟩

/-- An id in the type of a prototype is its return type, that of a parameter, or void for
the variable arguments. -/
theorem typeIds_funcProto {ref : TypeId → ℕ} {ftype : Ftype} {x : ℕ}
    (hx : x ∈ (BtfType.funcProto (ref ftype.type) (ftype.btfParams ref)).typeIds) :
    x = 0 ∨ ∃ id ∈ (Tag.subroutine ftype).typeIds, x = ref id := by
  rcases List.mem_cons.mp hx with rfl | hx
  · exact Or.inr ⟨ftype.type, List.mem_cons_self, rfl⟩
  · obtain ⟨p, hp, rfl⟩ := List.mem_map.mp hx
    rcases List.mem_append.mp hp with hp | hp
    · obtain ⟨q, hq, rfl⟩ := List.mem_map.mp hp
      exact Or.inr ⟨q.type, List.mem_cons_of_mem _ (List.mem_map_of_mem hq), rfl⟩
    · split at hp
      · obtain rfl := List.mem_singleton.mp hp
        exact Or.inl rfl
      · cases hp

/-- The references in the types of a tag are those of the tag, but that an array of
several dimensions refers to the array before it. -/
theorem typeIds_btfTypes {res : Resolution} {genFloats : Bool} {next x : ℕ} {pos : Tag}
    {u : BtfType} (hvoid : res.ref 0 = 0) (hu : u ∈ pos.btfTypes res genFloats conf next)
    (hx : x ∈ u.typeIds) :
    (∃ id, (id = 0 ∨ id ∈ pos.typeIds) ∧ x = res.ref id) ∨
      ∃ k elem index m n, u = .array x index n ∧ x = next + k ∧
        (pos.btfTypes res genFloats conf next)[k]? = some (.array elem index m) := by
  have hone : ∀ {type : TypeId}, type ∈ pos.typeIds → u.typeIds = [res.ref type] →
      ∃ id, (id = 0 ∨ id ∈ pos.typeIds) ∧ x = res.ref id := by
    intro type htype hids
    rw [hids] at hx
    exact ⟨type, Or.inr htype, List.mem_singleton.mp hx⟩
  cases pos with
  | baseType bt =>
      rw [BaseType.typeIds_btfType (Option.mem_toList.mp hu)] at hx
      cases hx
  | modifier kind type =>
      cases kind with
      | atomic => cases hu
      | const =>
          obtain rfl := List.mem_singleton.mp hu
          exact Or.inl (hone (List.mem_singleton.mpr rfl) rfl)
      | volatile =>
          obtain rfl := List.mem_singleton.mp hu
          exact Or.inl (hone (List.mem_singleton.mpr rfl) rfl)
      | restrict =>
          obtain rfl := List.mem_singleton.mp hu
          exact Or.inl (hone (List.mem_singleton.mpr rfl) rfl)
  | pointer type =>
      obtain rfl := List.mem_singleton.mp hu
      exact Or.inl (hone (List.mem_singleton.mpr rfl) rfl)
  | typedef name type annots =>
      obtain rfl := List.mem_singleton.mp hu
      exact Or.inl (hone (List.mem_singleton.mpr rfl) rfl)
  | llvmAnnotationType value type =>
      obtain rfl := List.mem_singleton.mp hu
      exact Or.inl (hone (List.mem_singleton.mpr rfl) rfl)
  | aggregate ty =>
      simp only [Tag.btfTypes] at hu
      split at hu
      · obtain rfl := List.mem_singleton.mp hu
        cases hx
      · obtain rfl := List.mem_singleton.mp hu
        obtain ⟨m, hm, rfl⟩ := List.mem_map.mp hx
        obtain ⟨pos, hpos, rfl⟩ := List.mem_map.mp hm
        exact Or.inl ⟨pos.type, Or.inr (List.mem_map_of_mem hpos), rfl⟩
  | array type nrEntries =>
      refine (typeIds_arrayTypes hu hx).imp_left ?_
      rintro rfl
      exact ⟨type, Or.inr (List.mem_singleton.mpr rfl), rfl⟩
  | enumeration ty =>
      obtain rfl := List.mem_singleton.mp hu
      have hstart : (ty.btfStart conf).typeIds = [] := by
        unfold Enumeration.btfStart
        dsimp only
        split
        · rfl
        · rfl
      rw [typeIds_built_addEnumValue ty.values hstart] at hx
      cases hx
  | subroutine ftype =>
      obtain rfl := List.mem_singleton.mp hu
      left
      rcases typeIds_funcProto hx with rfl | ⟨id, hid, rfl⟩
      · exact ⟨0, Or.inl rfl, hvoid.symm⟩
      · exact ⟨id, Or.inr hid, rfl⟩
  | unspecified => cases hu
  | reference type => cases hu
  | unsupported tag type => cases hu

/-- A type of a list of entries is one of those of an entry, from its first id on. -/
theorem mem_blocks {types : ℕ → Tag → List BtfType} {next : ℕ} {xs : List (ℕ × Tag)}
    {u : BtfType} (hu : u ∈ blocks types next xs) :
    ∃ ys e zs, xs = ys ++ e :: zs ∧ u ∈ types (next + (blocks types next ys).length) e.2 := by
  induction xs generalizing next with
  | nil => cases hu
  | cons x xs ih =>
      rcases List.mem_append.mp hu with hu | hu
      · exact ⟨[], x, xs, rfl, hu⟩
      · obtain ⟨ys, e, zs, rfl, hmem⟩ := ih hu
        refine ⟨x :: ys, e, zs, rfl, ?_⟩
        simpa only [blocks, List.length_append, Nat.add_assoc] using hmem

/-- When all entries are there, every reference of the CU resolves to the types emitted
for what it refers to. -/
theorem IdAgreement.resolve {t t' : Table BtfType Encoder} {res : Resolution}
    {done : List (ℕ × Tag)} {extra : List BtfType}
    (h : IdAgreement conf cu t t' res done [] [] extra) (hrefs : cu.RefersToEntries) :
    ReferencesResolve conf cu t t' res := by
  have hdone : done = cu.types.entries := by rw [h.entries, List.append_nil]
  have hemitted : ∀ id, cu.HasType id → EmittedFor conf cu t t' res id (res.ref id) := by
    rintro id (rfl | hsome)
    · exact Or.inl ⟨rfl, h.void⟩
    · obtain ⟨pos, hpos⟩ := Option.isSome_iff_exists.mp hsome
      refine Or.inr ⟨pos, hpos, h.standsFor (id, pos) ?_⟩
      rw [hdone]
      exact TypesTable.mem_entries.mpr hpos
  refine ⟨hemitted, fun u hu x hx => ?_⟩
  set types := fun next (pos : Tag) => pos.btfTypes res t.client.genFloats conf next
    with htypes
  have hnew : t'.items.drop t.items.length = blocks types t.cnt done ++ extra := by
    rw [h.items, List.append_nil, List.append_assoc, List.drop_left]
  rw [hnew] at hu
  rcases List.mem_append.mp hu with hu | hu
  · obtain ⟨ys, e, zs, hsplit, hmem⟩ := mem_blocks hu
    have hentry : e ∈ cu.types.entries := by
      rw [← hdone, hsplit]
      simp
    rcases typeIds_btfTypes h.void hmem hx with ⟨id, hid, rfl⟩ | ⟨k, elem, index, m, n, rfl, rfl, hk⟩
    · refine .type (hemitted id ?_)
      rcases hid with rfl | hid
      · exact Or.inl rfl
      · exact hrefs e hentry id hid
    · have hitems : t'.items = t.items ++ blocks types t.cnt ys ++
          (types (t.cnt + (blocks types t.cnt ys).length) e.2 ++ (blocks types (t.cnt +
            (blocks types t.cnt ys).length + (types (t.cnt +
              (blocks types t.cnt ys).length) e.2).length) zs ++ extra)) := by
        rw [h.items, hsplit, blocks_append]
        simp only [htypes, blocks, List.append_nil, List.append_assoc]
      set next := t.cnt + (blocks types t.cnt ys).length with hnext
      have hbase : t'.base < next + k := by
        rw [h.base, hnext, Table.cnt]
        omega
      have hpos : next + k - t'.base - 1 =
          (t.items ++ blocks types t.cnt ys).length + k := by
        rw [h.base, hnext, Table.cnt, List.length_append]
        omega
      have hinner : t'.entry? (next + k) = some (.array elem index m) := by
        rw [Table.entry?, if_pos hbase, hpos, hitems, List.getElem?_append_right (by omega),
          Nat.add_sub_cancel_left, List.getElem?_append_left, hk]
        exact (List.getElem?_eq_some_iff.mp hk).1
      exact .dimension hinner
  · cases h.added u hu with
    | indexInt => cases hx
    | @typeTag id pos annot htype hannot =>
        obtain rfl := List.mem_singleton.mp hx
        exact .type (hemitted id (Or.inr (by rw [htype]; rfl)))
    | @var var name hvar =>
        obtain rfl := List.mem_singleton.mp hx
        refine .type (hemitted _ ?_)
        by_cases hzero : var.described.type = 0
        · exact Or.inl hzero
        · exact Or.inr (cu.varTypes var hvar hzero)
    | varTag hvar hannot hentry =>
        obtain rfl := List.mem_singleton.mp hx
        exact .variable hentry

/-- Whatever calls fail while a CU is encoded, the ids predicted for its types are the
ids of the types emitted.  When no error is returned all of its types are emitted, and
then every reference resolves if every entry refers to entries that are not `NULL`. -/
theorem encodeCu_idAgreement (qsort : Qsort) (conf : ConfLoad) (cu : Cu) (s : Btf Encoder) :
    ∃ res done todo part extra, IdAgreement conf cu s.table
        (finalSession (encodeCu qsort conf cu s)).table res done todo part extra ∧
      ∀ r s', encodeCu qsort conf cu s = .ok r s' → 0 ≤ r →
        todo = [] ∧ part = [] ∧
          (cu.RefersToEntries → ReferencesResolve conf cu s.table s'.table res) := by
  cases hfuncs : s.table.client.elfFunctions qsort cu.elf with
  | none =>
      refine ⟨⟨fun _ => 0,
        if s.table.client.hasIndexType then s.table.client.arrayIndexId else 0⟩,
        [], cu.types.entries, [], [], ?_, ?_⟩
      · rw [encodeCu_none hfuncs]
        exact {
          reports := rfl
          base := rfl
          entries := rfl
          items := by simp [blocks, finalSession, Session.setClient]
          standsFor := by simp
          void := rfl
          begun := Or.inl rfl
          added := by simp
          saved := fun _ h => Or.inl h
          stopped := fun _ => ⟨rfl, rfl⟩
          keptInt := fun hhas => if_pos hhas
          foundInt := fun _ hhas _ => by simp [hhas]
          madeInt := by simp [blocks] }
      · intro r s' hrun hr
        rw [encodeCu_none hfuncs] at hrun
        obtain ⟨rfl, -⟩ := EStateM.Result.ok.inj hrun
        cases hr
  | some found =>
      obtain ⟨funcs, enc⟩ := found
      obtain ⟨list, henc⟩ := elfFunctions_eq hfuncs
      have hpred : cu.types ≠ [] →
          Predicts (enc.startCu s.table.cnt cu) cu.types s.table.cnt :=
        fun hne => predicts_startCu enc s.table.cnt cu hne
      have hruns : Runs true CallSite.reaction (encodeCuBody conf cu funcs)
          (startSession cu enc s) (cuPlan conf (enc.startCu s.table.cnt cu) cu funcs)
          fun _ => 1 := runs_encodeCuBody rfl hpred
      obtain ⟨done, todo, part, extra, hagree, hall⟩ :=
        @idAgreement_body conf cu funcs enc s _ _ rfl
      rw [← hruns.finalSession_eq] at hagree
      have hsame : IdAgreement conf cu s.table
          (finalSession (encodeCuBody conf cu funcs (startSession cu enc s))).table
          (enc.startCu s.table.cnt cu).resolution done todo part extra := by
        rw [henc] at hagree ⊢
        exact { hagree with }
      refine ⟨(enc.startCu s.table.cnt cu).resolution, done, todo, part, extra, ?_⟩
      rw [encodeCu_some hfuncs]
      cases hrun : encodeCuBody conf cu funcs (startSession cu enc s) with
      | ok r s' =>
          rw [hrun] at hsame
          refine ⟨hsame.finishCu, fun r' s'' heq hr => ?_⟩
          obtain ⟨rfl, rfl⟩ := EStateM.Result.ok.inj heq
          have hmakes := @makes_cuTypes conf _ (startSession cu enc s) cu.types hpred rfl
          obtain ⟨id, s₂, htypes, -⟩ := Succeeds.andThen ⟨hrun, hr⟩
          obtain ⟨hdone, -⟩ := hmakes.done_of_nonneg htypes.run htypes.nonneg
          obtain ⟨rfl, rfl⟩ := hall (by rw [hdone])
          exact ⟨rfl, rfl, hsame.finishCu.resolve⟩
      | error e s' =>
          rw [hrun] at hsame
          refine ⟨hsame, fun _ _ heq => ?_⟩
          cases heq

/-- A CU with a reference forward to a struct, a hole, an unspecified type, an array of
two dimensions and a variable that has a tag. -/
def holedCu : Cu where
  addrSize := 8
  types := [none, some (.pointer 4), none, some .unspecified,
    some (.aggregate ⟨.structType, some "s", 0, 32, false,
      [⟨.member, some "a", 5, 0, 0, 0, 24, 0, 0, false, false⟩,
       ⟨.member, some "next", 1, 192, 0, 24, 8, 0, 0, false, false⟩], []⟩),
    some (.array 6 [2, 3]),
    some (.baseType ⟨some "int", 32, true, true, false, false, .none⟩)]
  functions := []
  vars := [⟨⟨some "v", 4, true, [⟨"tag", -1⟩]⟩, 8, false, false, true, true, none⟩]
  inlines := []
  nrRegisterParams := 6
  isPacked := fun _ => false
  elf := some ⟨0, some [], false, fun _ => none⟩
  varTypes := by simp [Variable.described, TypesTable.type?]

/-- An encoder of variables, for a file with a section of data. -/
def Encoder.ofVars : Encoder :=
  { Encoder.plain with
    encodeVars := true
    secinfo := [⟨0, "", 0, false, false, false, []⟩, ⟨0, ".data", 4096, false, true, true, []⟩] }

/-- Encoding `holedCu` adds seven types, and every reference among them resolves. -/
theorem encodeCu_idAgreement_holedCu : holedCu.RefersToEntries ∧ ∃ s' res,
    encodeCu Qsort.stable ⟨false, false, false⟩ holedCu
      (quietSession.setClient Encoder.ofVars) = .ok 1 s' ∧ s'.table.items.length = 7 ∧
      ReferencesResolve ⟨false, false, false⟩ holedCu
        (quietSession.setClient Encoder.ofVars).table s'.table res := by
  have hrefs : holedCu.RefersToEntries := by decide
  obtain ⟨res, done, todo, part, extra, -, hok⟩ := encodeCu_idAgreement Qsort.stable
    ⟨false, false, false⟩ holedCu (quietSession.setClient Encoder.ofVars)
  obtain ⟨-, -, hresolve⟩ := hok 1 _ rfl (by decide)
  exact ⟨hrefs, _, res, rfl, rfl, hresolve hrefs⟩

end References

end Pahole
