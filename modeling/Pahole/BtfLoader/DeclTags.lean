import Pahole.BtfLoader.LoadTypes

/-!
# Declaration tags

The second loop of `btf__load_types` looks for the target of a declaration tag among
the functions and then among the tags that are neither functions nor types.  What it
finds among the types is thrown away, so the tags of a struct, union or typedef are
lost.
-/

namespace Pahole

/-- The tag that the loader creates for a type. -/
def BtfType.tagRef (id : ℕ) : BtfType → Option TagRef
  | .ref .func _ _ => some (.function id)
  | .var .. => some (.tag id)
  | .datasec .. | .declTag .. | .locParam .. | .locProto .. | .locsec .. => none
  | _ => some (.type id)

/-- The tag that stands for the type of an id. -/
def tagById (types : List BtfType) (id : ℕ) : Option TagRef :=
  (btfTypeById types id).bind (BtfType.tagRef id)

/-- The attribute that a declaration tag adds to `tag` when targets are found by
`target`. -/
def BtfType.attributeFor (target : ℕ → ℤ → Option TagRef) (tag : TagRef) :
    BtfType → Option (Option String)
  | .declTag value type componentIdx =>
      if target type componentIdx = some tag then some (cuBtfStr (some value)) else none
  | _ => none

/-- The declaration tags of a tag, in the order of their ids. -/
def declTagsOf (types : List BtfType) (tag : TagRef) : List (Option String) :=
  types.filterMap (BtfType.attributeFor (fun type _ => tagById types type) tag)

/-- Structs, unions, typedefs, variables and functions. -/
def BtfType.isTaggable : BtfType → Bool
  | .composite .. | .ref .typedef _ _ | .var .. | .ref .func _ _ => true
  | _ => false

/-- Variables and functions. -/
def BtfType.isVarOrFunc : BtfType → Bool
  | .var .. | .ref .func _ _ => true
  | _ => false

/-- Every declaration tag has `component_idx` -1, and its type is a struct, union, typedef,
variable or function. -/
def WholeDeclTags (types : List BtfType) : Prop :=
  ∀ value type componentIdx, .declTag value type componentIdx ∈ types →
    componentIdx = -1 ∧ ∃ t, btfTypeById types type = some t ∧ t.isTaggable = true

/-- For every value that `err` may have at the start, loading succeeds and the attributes of
each tag are its declaration tags. -/
def DeclTagsSurvive (types : List BtfType) : Prop :=
  ∀ err, ∃ cu, btfLoadTypes err types = .ok cu ∧
    ∀ tag, cu.attributes tag = declTagsOf types tag

section Process

variable {cu : LoadedCu} {types : List BtfType}

/-- Going over declaration tags leaves the tables alone. -/
theorem declTagTarget_processDeclTag (cu : LoadedCu) (value : String) (type : ℕ)
    (componentIdx : ℤ) :
    declTagTarget (processDeclTag cu value type componentIdx) = declTagTarget cu := by
  unfold processDeclTag
  split
  · rfl
  · rfl

/-- One declaration tag adds its attribute where its target is. -/
theorem attributes_processDeclTag (cu : LoadedCu) (value : String) (type : ℕ)
    (componentIdx : ℤ) (tag : TagRef) :
    (processDeclTag cu value type componentIdx).attributes tag =
      cu.attributes tag ++
        (BtfType.attributeFor (declTagTarget cu) tag
          (.declTag value type componentIdx)).toList := by
  simp only [processDeclTag, BtfType.attributeFor]
  cases declTagTarget cu type componentIdx with
  | none => simp
  | some target =>
      by_cases htag : target = tag
      · rw [htag]
        simp
      · have hne : tag ≠ target := fun h => htag h.symm
        simp [htag, Function.update_of_ne hne]

/-- Loading declaration tags appends the attributes for a tag in the order of their type ids. -/
theorem attributes_processDeclTags (cu : LoadedCu) (types : List BtfType) (tag : TagRef) :
    (processDeclTags cu types).attributes tag =
      cu.attributes tag ++ types.filterMap (BtfType.attributeFor (declTagTarget cu) tag) := by
  induction types generalizing cu with
  | nil => simp [processDeclTags]
  | cons type rest ih =>
      cases type with
      | declTag value type componentIdx =>
          rw [processDeclTags, ih, attributes_processDeclTag, declTagTarget_processDeclTag,
            List.append_assoc]
          congr 1
          cases h : BtfType.attributeFor (declTagTarget cu) tag
            (.declTag value type componentIdx) with
          | none => simp [h]
          | some a => simp [h]
      | _ => exact ih cu

/-- The target of a declaration tag is never a type. -/
theorem declTagTarget_ne_type (cu : LoadedCu) (type id : ℕ) (componentIdx : ℤ) :
    declTagTarget cu type componentIdx ≠ some (.type id) := by
  simp only [declTagTarget]
  split
  · split
    · simp only [functionParameter]
      split
      · simp
      · split
        · split <;> simp
        · simp
    · simp
  · cases cu.tagsTable.entry type <;> simp

end Process

section Survival

variable {types : List BtfType} {id : ℕ} {t : BtfType}

theorem split_of_btfTypeById (h : btfTypeById types id = some t) :
    ∃ pre post, types = pre ++ t :: post ∧ id = pre.length + 1 := by
  unfold btfTypeById at h
  split at h
  · simp at h
  · rename_i hid
    obtain ⟨hlt, rfl⟩ := List.getElem?_eq_some_iff.mp h
    refine ⟨types.take (id - 1), types.drop id, ?_, ?_⟩
    · have hdrop : types.drop (id - 1) = types[id - 1] :: types.drop id := by
        rw [List.drop_eq_getElem_cons hlt, Nat.sub_add_cancel (Nat.one_le_iff_ne_zero.mpr hid)]
      rw [← hdrop, List.take_append_drop]
    · rw [List.length_take]
      omega

/-- Loading leaves under the id of a type the function and the tag that `createNew` gives it. -/
theorem entries_loadedTypes (h : btfTypeById types id = some t) :
    (loadedTypes types).functionsTable.entry id =
        (createNew .new id t).functionsTable.entry id ∧
      (loadedTypes types).tagsTable.entry id = (createNew .new id t).tagsTable.entry id := by
  obtain ⟨pre, post, rfl, rfl⟩ := split_of_btfTypeById h
  obtain ⟨-, hfunctions, htags⟩ := loadedTypes_entry pre post t
  have hle : 1 + pre.length ≤ pre.length + 1 := by omega
  obtain ⟨-, hbefore, hbefore'⟩ := loadedFrom_of_le .new pre hle
  rw [hfunctions, htags]
  cases t with
  | ref kind name type =>
      cases kind with
      | func =>
          refine ⟨?_, hbefore'⟩
          exact (PtrTable.entry_addWithId_self _ _ _).trans
            (PtrTable.entry_addWithId_self _ _ _).symm
      | _ => exact ⟨hbefore, hbefore'⟩
  | var name linkage type =>
      refine ⟨hbefore, ?_⟩
      exact (PtrTable.entry_addWithId_self _ _ _).trans
        (PtrTable.entry_addWithId_self _ _ _).symm
  | _ => exact ⟨hbefore, hbefore'⟩

/-- The target of a tag on a function or a variable is found, others are not. -/
theorem declTagTarget_loadedTypes (h : btfTypeById types id = some t)
    (htaggable : t.isTaggable = true) :
    declTagTarget (loadedTypes types) id (-1) =
      if t.isVarOrFunc then tagById types id else none := by
  obtain ⟨hfunctions, htags⟩ := entries_loadedTypes h
  simp only [declTagTarget, tagById, h, hfunctions, htags, Option.bind_some]
  cases t with
  | ref kind name type =>
      cases kind with
      | func =>
          have hentry := PtrTable.entry_addWithId_self LoadedCu.new.functionsTable
            (some ⟨cuBtfStr name, type⟩) id
          simp only [createNew, createNewRef, LoadedCu.addFunction, hentry]
          rfl
      | typedef => rfl
      | _ => simp [BtfType.isTaggable] at htaggable
  | var name linkage type =>
      have hentry := PtrTable.entry_addWithId_self LoadedCu.new.tagsTable
        (some ⟨cuBtfStr (some name), linkage = 1, type⟩) id
      simp only [createNew, createNewVariable, LoadedCu.addVariable, hentry]
      rfl
  | composite isUnion name size members => rfl
  | _ => simp [BtfType.isTaggable] at htaggable

theorem attributes_loadedTypes (types : List BtfType) (tag : TagRef) :
    (processDeclTags (loadedTypes types) types).attributes tag =
      types.filterMap (BtfType.attributeFor (declTagTarget (loadedTypes types)) tag) := by
  rw [attributes_processDeclTags, loadedFrom_attributes]
  rfl

/-- If every declaration tag is for a function or a variable, all of them survive. -/
theorem attributes_of_varOrFunc (hwhole : WholeDeclTags types)
    (hkinds : ∀ value type componentIdx, .declTag value type componentIdx ∈ types →
      ∃ t, btfTypeById types type = some t ∧ t.isVarOrFunc = true) (tag : TagRef) :
    (processDeclTags (loadedTypes types) types).attributes tag = declTagsOf types tag := by
  rw [attributes_loadedTypes, declTagsOf]
  apply List.filterMap_congr
  intro type hmem
  cases type with
  | declTag value type componentIdx =>
      obtain ⟨rfl, t, ht, htaggable⟩ := hwhole value type componentIdx hmem
      obtain ⟨t', ht', hkind⟩ := hkinds value type (-1) hmem
      have hsame : t' = t := Option.some.inj (ht'.symm.trans ht)
      rw [hsame] at hkind
      simp only [BtfType.attributeFor, declTagTarget_loadedTypes ht htaggable, if_pos hkind]
  | _ => rfl

/-- A tag on a struct, union or typedef is lost. -/
theorem attributes_of_type {value : String} (hmem : .declTag value id (-1) ∈ types)
    (h : btfTypeById types id = some t) (htaggable : t.isTaggable = true)
    (hkind : t.isVarOrFunc = false) :
    (processDeclTags (loadedTypes types) types).attributes (.type id) ≠
      declTagsOf types (.type id) := by
  have hnone : (processDeclTags (loadedTypes types) types).attributes (.type id) = [] := by
    rw [attributes_loadedTypes, List.filterMap_eq_nil_iff]
    intro type htype
    cases type with
    | declTag value type componentIdx =>
        exact if_neg (declTagTarget_ne_type _ _ _ _)
    | _ => rfl
  have htag : tagById types id = some (.type id) := by
    rw [tagById, h, Option.bind_some]
    cases t with
    | ref kind name type =>
        cases kind with
        | func => simp [BtfType.isVarOrFunc] at hkind
        | _ => rfl
    | composite isUnion name size members => rfl
    | var name linkage type => simp [BtfType.isVarOrFunc] at hkind
    | _ => simp [BtfType.isTaggable] at htaggable
  have hsome : cuBtfStr (some value) ∈ declTagsOf types (.type id) := by
    refine List.mem_filterMap.mpr ⟨_, hmem, ?_⟩
    exact if_pos htag
  intro heq
  rw [← heq, hnone] at hsome
  exact List.not_mem_nil hsome

/-- A first type that is a declaration tag makes the loader look at an `err` that holds
anything. -/
theorem btfLoadTypes_declTag {value : String} {type : ℕ} {componentIdx : ℤ}
    {rest : List BtfType} :
    btfLoadTypes (-1) (.declTag value type componentIdx :: rest) = .error (-1) := by
  have hneg : (if (BtfType.declTag value type componentIdx).isDeclTag then (-1 : ℤ) else 0) < 0 := by
    simp [BtfType.isDeclTag]
  simp only [btfLoadTypes, createAll, if_pos hneg]
  rfl

theorem btfLoadTypes_of_head {err : ℤ} (h : ∀ t ∈ types.head?, t.isDeclTag = false) :
    btfLoadTypes err types = .ok (processDeclTags (loadedTypes types) types) := by
  cases types with
  | nil => rfl
  | cons type rest =>
      have hkind : type.isDeclTag = false := h type rfl
      have herr : ¬(if type.isDeclTag then err else 0) < 0 := by simp [hkind]
      have hrest := createAll_ok (le_refl 0) (1 + 1) (createNew .new 1 type) rest
      simp only [btfLoadTypes, createAll, if_neg herr]
      simp only [hkind, Bool.false_eq_true, if_false, hrest]
      rfl

/-- Declaration tags survive loading exactly when they are on variables and functions
and the first type is not one of them. -/
theorem declTagsSurvive_iff (hwhole : WholeDeclTags types) :
    DeclTagsSurvive types ↔
      (∀ t ∈ types.head?, t.isDeclTag = false) ∧
        ∀ value type componentIdx, .declTag value type componentIdx ∈ types →
          ∃ t, btfTypeById types type = some t ∧ t.isVarOrFunc = true := by
  constructor
  · intro hsurvive
    have hhead : ∀ t ∈ types.head?, t.isDeclTag = false := by
      intro t ht
      by_contra hkind
      obtain ⟨cu, hcu, -⟩ := hsurvive (-1)
      cases types with
      | nil => simp at ht
      | cons type rest =>
          obtain rfl := Option.some.inj ht
          cases type with
          | declTag value type componentIdx =>
              rw [btfLoadTypes_declTag] at hcu
              cases hcu
          | _ => exact hkind rfl
    refine ⟨hhead, ?_⟩
    intro value type componentIdx hmem
    obtain ⟨rfl, t, ht, htaggable⟩ := hwhole value type componentIdx hmem
    refine ⟨t, ht, ?_⟩
    by_contra hkind
    obtain ⟨cu, hcu, hattributes⟩ := hsurvive 0
    rw [btfLoadTypes_of_head hhead] at hcu
    obtain rfl := Except.ok.inj hcu
    exact attributes_of_type hmem ht htaggable (Bool.eq_false_iff.mpr hkind) (hattributes _)
  · rintro ⟨hhead, hkinds⟩ err
    exact ⟨_, btfLoadTypes_of_head hhead, attributes_of_varOrFunc hwhole hkinds⟩

end Survival

/-- A struct with a declaration tag, and a variable with another one. -/
def taggedTypes : List BtfType :=
  [.int (some "int") 4 .signed, .composite false (some "s") 4 [⟨some "a", 1, 0, 0⟩],
    .declTag "on a struct" 2 (-1), .var "v" 1 2, .declTag "on a variable" 4 (-1)]

theorem wholeDeclTags_taggedTypes : WholeDeclTags taggedTypes := by
  intro value type componentIdx hmem
  simp only [taggedTypes, List.mem_cons, reduceCtorEq, BtfType.declTag.injEq, List.not_mem_nil,
    or_false, false_or] at hmem
  rcases hmem with ⟨-, rfl, rfl⟩ | ⟨-, rfl, rfl⟩
  · exact ⟨rfl, _, rfl, rfl⟩
  · exact ⟨rfl, _, rfl, rfl⟩

/-- In `taggedTypes` the declaration tag of the struct is lost. -/
theorem not_declTagsSurvive_taggedTypes :
    WholeDeclTags taggedTypes ∧ ¬DeclTagsSurvive taggedTypes := by
  refine ⟨wholeDeclTags_taggedTypes, fun hsurvive => ?_⟩
  obtain ⟨cu, hcu, hattributes⟩ := hsurvive 0
  rw [btfLoadTypes_of_head fun t ht => by obtain rfl := Option.some.inj ht; rfl] at hcu
  obtain rfl := Except.ok.inj hcu
  have hmem : .declTag "on a struct" 2 (-1) ∈ taggedTypes := by simp [taggedTypes]
  exact attributes_of_type hmem (t := .composite false (some "s") 4 [⟨some "a", 1, 0, 0⟩]) rfl rfl
    rfl (hattributes _)

theorem declTagsSurvive_iff_taggedTypes :
    DeclTagsSurvive taggedTypes ↔
      (∀ t ∈ taggedTypes.head?, t.isDeclTag = false) ∧
        ∀ value type componentIdx, .declTag value type componentIdx ∈ taggedTypes →
          ∃ t, btfTypeById taggedTypes type = some t ∧ t.isVarOrFunc = true :=
  declTagsSurvive_iff wholeDeclTags_taggedTypes

end Pahole
