import Pahole.BtfEncoder.EncodeTag
import Pahole.BtfLoader.DeclTags

/-!
# Array dimensions in BTF

The encoder writes an array as a chain of `ARRAY` types, one for each dimension and the
innermost first.  The loader goes over the chain in the order of the ids, and makes of
every link an array with one dimension more than that of the link before.
-/

namespace Pahole

open FallibleTable

def BtfType.isArray : BtfType → Bool
  | .array .. => true
  | _ => false

/-- Loading a type adds an array to the types table only for an `ARRAY`. -/
theorem array_of_createNew {cu : LoadedCu} {id i : ℕ} {t : BtfType} {type : TypeId}
    {nrEntries : List ℕ}
    (h : (createNew cu id t).typesTable.entry i = some (.array type nrEntries)) :
    cu.typesTable.entry i = some (.array type nrEntries) ∨ i = id ∧ t.isArray = true := by
  by_cases hi : i = id
  · have hother : ∀ tag, (∀ type nrEntries, tag ≠ .array type nrEntries) →
        (cu.addType tag id).typesTable.entry i ≠ some (.array type nrEntries) := by
      intro tag htag heq
      rw [addType_types, hi, PtrTable.entry_addWithId_self] at heq
      exact htag _ _ (Option.some.inj heq)
    cases t with
    | array elem indexType nelems => exact Or.inr ⟨hi, rfl⟩
    | ref kind name type =>
        cases kind with
        | func => exact Or.inl h
        | _ => exact absurd h (hother _ (by simp))
    | var name linkage type => exact Or.inl h
    | datasec name size vars => exact Or.inl h
    | declTag value type componentIdx => exact Or.inl h
    | locParam size flags values => exact Or.inl h
    | locProto params => exact Or.inl h
    | locsec name entries => exact Or.inl h
    | _ => exact absurd h (hother _ (by simp))
  · rw [(createNew_of_ne _ _ hi).1] at h
    exact Or.inl h

/-- An array in the types table was there before or comes from an `ARRAY`. -/
theorem array_of_loadedFrom {cu : LoadedCu} {id i : ℕ} {types : List BtfType} {type : TypeId}
    {nrEntries : List ℕ}
    (h : (loadedFrom id cu types).typesTable.entry i = some (.array type nrEntries)) :
    cu.typesTable.entry i = some (.array type nrEntries) ∨
      ∃ t, id ≤ i ∧ types[i - id]? = some t ∧ t.isArray = true := by
  induction types generalizing id cu with
  | nil => exact Or.inl h
  | cons t rest ih =>
      rcases ih h with hbefore | ⟨u, hle, hu, harray⟩
      · rcases array_of_createNew hbefore with hcu | ⟨rfl, harray⟩
        · exact Or.inl hcu
        · exact Or.inr ⟨t, le_refl _, by simp, harray⟩
      · refine Or.inr ⟨u, Nat.le_of_succ_le hle, ?_, harray⟩
        have hidx : i - id = i - (id + 1) + 1 := by omega
        rw [hidx, List.getElem?_cons_succ]
        exact hu

/-- An `ARRAY` whose element type is not an array is loaded with one dimension. -/
theorem newArray_of_not_array {elemTag : Option Tag} {type nelems : ℕ}
    (h : ∀ innerType nrEntries, elemTag ≠ some (.array innerType nrEntries)) :
    newArray elemTag type nelems = .array type [nelems] := by
  unfold newArray
  split
  · exact absurd rfl (h _ _)
  · rfl

/-- Loading the links of a chain after the innermost one, in the order of their ids. -/
theorem loadedFrom_dimensionTypes (indexType prev ref : ℕ) (inner dims : List ℕ)
    (cu : LoadedCu) (hprev : cu.typesTable.entry prev = some (.array ref inner))
    (hmax : inner.length + dims.length ≤ 255) :
    (loadedFrom (prev + 1) cu (dimensionTypes indexType prev dims)).typesTable.entry
      (prev + dims.length) = some (.array ref (dims.reverse ++ inner)) := by
  induction dims generalizing prev inner cu with
  | nil => exact hprev
  | cons nelems rest ih =>
      rw [List.length_cons] at hmax
      have hlt : inner.length < 255 := by omega
      have hnew : (createNew cu (prev + 1) (.array prev indexType nelems)).typesTable.entry
          (prev + 1) = some (.array ref (nelems :: inner)) := by
        simp only [createNew, createNewArray, hprev, newArray, if_pos hlt]
        exact PtrTable.entry_addWithId_self _ _ _
      have hrest := ih (prev + 1) (nelems :: inner) _ hnew (by
        rw [List.length_cons]
        omega)
      have hlen : prev + (nelems :: rest).length = prev + 1 + rest.length := by
        rw [List.length_cons]
        omega
      rw [dimensionTypes, loadedFrom, hlen, hrest, List.reverse_cons, List.append_assoc]
      rfl

/-- Loading a chain gives the array it was written for. -/
theorem loadedFrom_arrayTypes (ref indexType next : ℕ) (nrEntries : List ℕ) (cu : LoadedCu)
    (hpos : 1 ≤ nrEntries.length) (hmax : nrEntries.length ≤ 255)
    (helem : ∀ innerType entries, cu.typesTable.entry ref ≠ some (.array innerType entries)) :
    (loadedFrom next cu (arrayTypes ref indexType next nrEntries.reverse)).typesTable.entry
      (next + nrEntries.length - 1) = some (.array ref nrEntries) := by
  have hlen : nrEntries.reverse.length = nrEntries.length := List.length_reverse
  cases hrev : nrEntries.reverse with
  | nil =>
      rw [hrev] at hlen
      exact absurd hpos (by rw [← hlen]; simp)
  | cons nelems rest =>
      rw [hrev, List.length_cons] at hlen
      have hnew : (createNew cu next (.array ref indexType nelems)).typesTable.entry next =
          some (.array ref [nelems]) := by
        simp only [createNew, createNewArray, newArray_of_not_array helem]
        exact PtrTable.entry_addWithId_self _ _ _
      have hrest := loadedFrom_dimensionTypes indexType next ref [nelems] rest _ hnew (by
        rw [List.length_singleton]
        omega)
      have hid : next + nrEntries.length - 1 = next + rest.length := by omega
      have hentries : nrEntries = rest.reverse ++ [nelems] := by
        rw [← List.reverse_reverse nrEntries, hrev, List.reverse_cons]
      rw [arrayTypes, loadedFrom, hid, hrest, ← hentries]

/-- Encoding an array and loading the BTF, with any types before and after it, makes an array of
the same element type and dimensions. -/
theorem arrayDimensions_roundTrip (conf : ConfLoad) (type : TypeId) (nrEntries : List ℕ)
    (hpos : 1 ≤ nrEntries.length) (hmax : nrEntries.length ≤ 64) (s : Btf Encoder) :
    ∃ id s', encodeTag conf (.array type nrEntries) s = .ok id s' ∧
      (s.Serves nrEntries.length → 0 < id) ∧
      (0 ≤ id → ∀ before after, before.length = s.table.base →
        (∀ t, btfTypeById (before ++ s'.table.items ++ after) (s.table.client.tagType type) =
          some t → t.isArray = false) →
        LoadsTo (before ++ s'.table.items ++ after) id.toNat fun tag =>
          tag = .array (s.table.client.tagType type) nrEntries) := by
  obtain ⟨id, s', hrun, hserves, hok⟩ :=
    encodeTag_returns conf (.array type nrEntries) rfl s
  have hids : Tag.nrBtfIds (.array type nrEntries) = nrEntries.length := by
    simp only [Tag.nrBtfIds]
    split <;> omega
  have hcnt : ((Tag.plan s.table.client.resolution
      s.table.client.genFloats conf (.array type nrEntries)).run s.table).cnt =
        s.table.cnt + nrEntries.length := by
    rw [Tag.cnt_run_plan s.table rfl, hids]
  rw [hids] at hserves
  have hid : 0 ≤ id → id = s.table.base + s.table.items.length + nrEntries.length := by
    intro hpos'
    obtain ⟨hlast, -, htable⟩ := hok hpos'
    rw [hlast, lastId, htable, hcnt]
    simp only [Table.cnt]
    omega
  refine ⟨id, s', hrun, fun hs => ?_, fun hpos' before after hbefore helem => ?_⟩
  · have := hid (hserves hs)
    omega
  · obtain ⟨-, hfits, htable⟩ := hok hpos'
    have hsmall : s.table.cnt + Tag.nrBtfIds (.array type nrEntries) ≤ 4294967296 := by
      rw [hids, ← hcnt, ← htable]
      exact le_trans hfits (by decide)
    have hitems : s'.table.items = s.table.items ++ arrayTypes (s.table.client.tagType type)
        s.table.client.arrayIndexId s.table.cnt nrEntries.reverse :=
      congrArg Table.items (htable.trans (Tag.run_plan s.table fun _ => hsmall))
    set pre := before ++ s.table.items with hpre
    have hnext : 1 + pre.length = s.table.cnt := by
      rw [hpre, List.length_append, hbefore, Table.cnt]
      omega
    have htypes : before ++ s'.table.items ++ after = pre ++ (arrayTypes
        (s.table.client.tagType type) s.table.client.arrayIndexId s.table.cnt
          nrEntries.reverse ++ after) := by
      rw [hitems, hpre]
      simp only [List.append_assoc]
    rw [htypes] at helem ⊢
    have hplace : id.toNat = s.table.cnt + nrEntries.length - 1 := by
      rw [hid hpos', Table.cnt]
      omega
    have hbase : ∀ innerType entries, (loadedTypes pre).typesTable.entry
        (s.table.client.tagType type) ≠ some (.array innerType entries) := by
      intro innerType entries hentry
      rcases array_of_loadedFrom hentry with hnew | ⟨t, hle, ht, harray⟩
      · revert hnew
        cases s.table.client.tagType type <;> simp [LoadedCu.new, PtrTable.entry]
      · have hget : btfTypeById (pre ++ (arrayTypes (s.table.client.tagType type)
            s.table.client.arrayIndexId s.table.cnt nrEntries.reverse ++ after))
              (s.table.client.tagType type) = some t := by
          rw [btfTypeById, if_neg (by omega),
            List.getElem?_append_left (List.getElem?_eq_some_iff.mp ht).1, ht]
        rw [helem t hget] at harray
        exact Bool.false_ne_true harray
    have hchain := loadedFrom_arrayTypes (s.table.client.tagType type)
      s.table.client.arrayIndexId s.table.cnt nrEntries (loadedTypes pre) hpos (by omega) hbase
    refine loadsTo_of_entry ?_ rfl
    rw [loadedTypes, loadedFrom_append, hnext, loadedFrom_append, hplace]
    rw [(loadedFrom_of_lt _ _).1]
    · exact hchain
    · have hlen : (Tag.btfTypes s.table.client.resolution
          s.table.client.genFloats conf s.table.cnt (.array type nrEntries)).length =
            nrEntries.length :=
        (Tag.length_btfTypes rfl).trans hids
      have hlen' : (arrayTypes (s.table.client.tagType type) s.table.client.arrayIndexId
          s.table.cnt nrEntries.reverse).length = nrEntries.length := hlen
      omega

/-- A session over a BTF with an `int`. -/
def intSession : Btf Encoder :=
  { quietSession with table := ⟨0, [.int (some "int") 4 .signed], Encoder.plain⟩ }

/-- The round trip of `int[3][4]`. -/
theorem arrayDimensions_roundTrip_matrix :
    ∃ id s', encodeTag ⟨false, false, false⟩ (.array 1 [3, 4]) intSession = .ok id s' ∧
      0 < id ∧ LoadsTo s'.table.items id.toNat fun tag => tag = .array 1 [3, 4] := by
  obtain ⟨id, s', hrun, hserves, hloads⟩ := arrayDimensions_roundTrip ⟨false, false, false⟩ 1
    [3, 4] (by decide) (by decide) intSession
  have hpos : 0 < id := hserves ⟨fun _ _ => rfl, by decide⟩
  refine ⟨id, s', hrun, hpos, ?_⟩
  have hitems : s'.table.items = [.int (some "int") 4 .signed, .array 1 0 4, .array 2 0 3] := by
    have hs' : finalSession (encodeTag ⟨false, false, false⟩ (.array 1 [3, 4]) intSession) = s' := by
      rw [hrun, finalSession]
    rw [← hs']
    rfl
  have hloaded := hloads hpos.le [] [] rfl (by
    intro t ht
    rw [hitems] at ht
    obtain rfl := Option.some.inj ht
    rfl)
  rw [List.nil_append, List.append_nil] at hloaded
  exact hloaded

end Pahole
