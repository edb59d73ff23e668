import Mathlib.Data.List.Nodup
import Mathlib.Data.List.TakeWhile
import Mathlib.Logic.Function.Basic

/-!
# Type tags of pointers

The annotations of a pointer get entries of their own in the table of types, ahead of the
pointer, and are linked when the types are recoded.
-/

namespace Pahole

/-- `DW_TAG_LLVM_annotation` or `DW_TAG_GNU_annotation` -/
structure DieAnnotation where
  name : String
  value : String

def DieAnnotation.isTypeTag (annot : DieAnnotation) : Bool := annot.name == "btf_type_tag"

/-- `struct btf_type_tag_type`, numbered among those of its pointer. -/
structure TypeTag where
  nr : ℕ
  value : String
  deriving DecidableEq

/-- `DW_TAG_pointer_type`, with the annotations among its children and those that
`DW_AT_GNU_annotation` leads to, one after the other. -/
structure PointerDie where
  off : ℕ
  type : Option ℕ
  children : List DieAnnotation
  chain : List DieAnnotation

structure ParamDie where
  off : ℕ
  type : Option ℕ
  abstractOrigin : Option ℕ

/-- The tables of `struct cu`.  The members of a class in C are in none. -/
inductive DieTable where
  | types
  | tags
  | functions
  | nowhere
  deriving DecidableEq

/-- A DIE and its references.  A scope is a namespace or a type with one. -/
inductive Die where
  | plain (table : DieTable) (off : ℕ) (type : Option ℕ)
  | pointer (ptr : PointerDie)
  | scope (isType : Bool) (off : ℕ) (children : List Die)
  | proto (table : DieTable) (off : ℕ) (type : Option ℕ) (params : List ParamDie)

/-- A tag of the loader: that of a DIE, or a type tag of a pointer. -/
inductive TagKey where
  | die (off : ℕ)
  | annot (ptr : ℕ) (tag : TypeTag)
  deriving DecidableEq

/-- The list of `struct btf_type_tag_ptr_type`, and the tags that have been added to the
table for it. -/
structure TypeTags where
  tags : List TypeTag
  table : List TypeTag

/-- `die__add_btf_type_tag` -/
def addBtfTypeTag (doPrepend : Bool) (s : TypeTags) (annot : DieAnnotation) : TypeTags :=
  let tag : TypeTag := ⟨s.table.length, annot.value⟩
  { tags := if doPrepend then tag :: s.tags else s.tags ++ [tag], table := s.table ++ [tag] }

/-- `die__create_new_pointer_tag` -/
def createNewPointerTag (skipEncodingBtfTypeTag : Bool) (ptr : PointerDie) : TypeTags :=
  if skipEncodingBtfTypeTag then ⟨[], []⟩
  else
    let llvm := (ptr.children.filter DieAnnotation.isTypeTag).foldl (addBtfTypeTag true) ⟨[], []⟩
    if llvm.tags.isEmpty then
      (ptr.chain.takeWhile DieAnnotation.isTypeTag).foldl (addBtfTypeTag false) ⟨[], []⟩
    else llvm

/-- An entry of a table: the tag of a DIE, or of an annotation of a pointer. -/
inductive DieSlot where
  | die (die : Die)
  | annot (ptr : ℕ) (tag : TypeTag)

def pointerSlots (skip : Bool) (ptr : PointerDie) : List (DieTable × DieSlot) :=
  (createNewPointerTag skip ptr).table.map (fun tag => (.types, .annot ptr.off tag)) ++
    [(.types, .die (.pointer ptr))]

namespace Die

/-- Offsets of the DIE and of everything inside it. -/
def offs : Die → List ℕ
  | .plain _ off _ => [off]
  | .pointer ptr => [ptr.off]
  | .scope _ off children => off :: offsOf children
  | .proto _ off _ params => off :: params.map ParamDie.off
where
  offsOf : List Die → List ℕ
    | [] => []
    | d :: ds => d.offs ++ offsOf ds

/-- The tags added to the tables for a DIE, in the order of `cu__table_add_tag`. -/
def slots (skip : Bool) : Die → List (DieTable × DieSlot)
  | .plain table off type => [(table, .die (.plain table off type))]
  | .pointer ptr => pointerSlots skip ptr
  | .scope isType off children =>
      slotsOf children ++
        [(if isType then .types else .tags, .die (.scope isType off children))]
  | .proto table off type params => [(table, .die (.proto table off type params))]
where
  slotsOf : List Die → List (DieTable × DieSlot)
    | [] => []
    | d :: ds => d.slots skip ++ slotsOf ds

/-- The pointers, and whether they are nested in a scope. -/
def pointers (nested : Bool) : Die → List (Bool × PointerDie)
  | .pointer ptr => [(nested, ptr)]
  | .scope _ _ children => pointersOf children
  | _ => []
where
  pointersOf : List Die → List (Bool × PointerDie)
    | [] => []
    | d :: ds => d.pointers true ++ pointersOf ds

/-- The DIE without the annotations of pointers. -/
def strip : Die → Die
  | .plain table off type => .plain table off type
  | .pointer ptr => .pointer { ptr with children := [], chain := [] }
  | .scope isType off children => .scope isType off (stripOf children)
  | .proto table off type params => .proto table off type params
where
  stripOf : List Die → List Die
    | [] => []
    | d :: ds => d.strip :: stripOf ds

@[simp] theorem offsOf_eq (ds : List Die) : offs.offsOf ds = ds.flatMap offs := by
  induction ds with
  | nil => rfl
  | cons d ds ih => simp [offs.offsOf, ih]

@[simp] theorem slotsOf_eq (skip : Bool) (ds : List Die) :
    slots.slotsOf skip ds = ds.flatMap (slots skip) := by
  induction ds with
  | nil => rfl
  | cons d ds ih => simp [slots.slotsOf, ih]

@[simp] theorem pointersOf_eq (ds : List Die) :
    pointers.pointersOf ds = ds.flatMap (pointers true) := by
  induction ds with
  | nil => rfl
  | cons d ds ih => simp [pointers.pointersOf, ih]

@[simp] theorem stripOf_eq (ds : List Die) : strip.stripOf ds = ds.map strip := by
  induction ds with
  | nil => rfl
  | cons d ds ih => simp [strip.stripOf, ih]

/-- Induction on DIEs; those in a scope are a list. -/
@[elab_as_elim]
theorem induct {P : Die → Prop} (plain : ∀ table off type, P (.plain table off type))
    (pointer : ∀ ptr, P (.pointer ptr))
    (scope : ∀ isType off children, (∀ d ∈ children, P d) → P (.scope isType off children))
    (proto : ∀ table off type params, P (.proto table off type params)) (d : Die) : P d := by
  refine Die.rec (motive_1 := P) (motive_2 := fun ds => ∀ d ∈ ds, P d) plain pointer scope
    proto ?_ ?_ d
  · intro d hd
    exact absurd hd List.not_mem_nil
  · intro d ds hd hds d' hmem
    rcases List.mem_cons.mp hmem with rfl | hmem
    · exact hd
    · exact hds d' hmem

@[simp] theorem offs_strip (d : Die) : d.strip.offs = d.offs := by
  induction d using Die.induct with
  | scope isType off children ih =>
      simp only [strip, offs, stripOf_eq, offsOf_eq, List.flatMap_map]
      rw [List.flatMap_congr ih]
  | _ => rfl

end Die

/-- A CU that has been loaded.  Every DIE has an offset of its own. -/
structure TaggedCu where
  skipEncodingBtfTypeTag : Bool
  dies : List Die
  nodup : (dies.flatMap Die.offs).Nodup

namespace TaggedCu

variable (cu : TaggedCu)

def slots : List (DieTable × DieSlot) := cu.dies.flatMap (Die.slots cu.skipEncodingBtfTypeTag)

def table (t : DieTable) : List DieSlot := (cu.slots.filter (·.1 = t)).map (·.2)

end TaggedCu

def DieSlot.key : DieSlot → TagKey
  | .die (.plain _ off _) => .die off
  | .die (.pointer ptr) => .die ptr.off
  | .die (.scope _ off _) => .die off
  | .die (.proto _ off _ _) => .die off
  | .annot ptr tag => .annot ptr tag

namespace TaggedCu

variable (cu : TaggedCu)

def typeKeys : List TagKey := (cu.table .types).map DieSlot.key

/-- `small_id` of a type.  The first entry of the table stands for void. -/
def smallId (key : TagKey) : ℕ := cu.typeKeys.idxOf key + 1

/-- The entry of the table of types. -/
def entry? : ℕ → Option TagKey
  | 0 => none
  | id + 1 => cu.typeKeys[id]?

/-- `dwarf_cu__find_type_by_ref` -/
def findType (off : ℕ) : Option ℕ :=
  if .die off ∈ cu.typeKeys then some (cu.smallId (.die off)) else none

/-- `dwarf_cu__find_tag_by_ref` finds something. -/
def findsTag (off : ℕ) : Bool :=
  decide (off ∈ cu.dies.flatMap Die.offs) && !decide (.die off ∈ cu.typeKeys)

/-- The type of every tag. -/
abbrev Types := TagKey → ℕ

/-- A reference in a scope: where there is none, or it leads nowhere, nothing is set. -/
def setType (off : ℕ) (type : Option ℕ) (σ : Types) : Types :=
  match type.bind cu.findType with
  | none => σ
  | some id => Function.update σ (.die off) id

/-- `parameter__recode_dwarf_type` -/
def recodeParam (σ : Types) (param : ParamDie) : Types :=
  match param.type with
  | some _ => cu.setType param.off param.type σ
  | none =>
      match param.abstractOrigin with
      | none => Function.update σ (.die param.off) 0
      | some origin =>
          if cu.findsTag origin then Function.update σ (.die param.off) (σ (.die origin)) else σ

/-- `ftype__recode_dwarf_types` -/
def recodeParams (params : List ParamDie) (σ : Types) : Types := params.foldl cu.recodeParam σ

/-- `dwarf_cu__recode_btf_type_tag_ptr`, from any tag of the list on. -/
def recodeBtfTypeTagPtr (ptr : ℕ) (prev : TagKey) : List TypeTag → ℕ → Types → Types
  | [], pointee, σ => Function.update σ prev pointee
  | tag :: tags, pointee, σ =>
      recodeBtfTypeTagPtr ptr (.annot ptr tag) tags pointee
        (Function.update σ prev (cu.smallId (.annot ptr tag)))

/-- The loop of `namespace__recode_dwarf_types`. -/
def recodeIn : Die → Types → Types
  | .plain _ off type, σ => cu.setType off type σ
  | .pointer ptr, σ => cu.setType ptr.off ptr.type σ
  | .scope _ _ children, σ => recodeScope children σ
  | .proto _ off type params, σ => cu.setType off type (cu.recodeParams params σ)
where
  /-- `namespace__recode_dwarf_types` -/
  recodeScope : List Die → Types → Types
    | [], σ => σ
    | d :: ds, σ => recodeScope ds (recodeIn d σ)

/-- `tag__recode_dwarf_type` -/
def recodeTag (σ : Types) : DieSlot → Types
  | .annot ptr tag => Function.update σ (.annot ptr tag) 0
  | .die (.plain _ off none) => Function.update σ (.die off) 0
  | .die (.plain _ off (some type)) => cu.setType off (some type) σ
  | .die (.pointer ptr) =>
      match ptr.type with
      | none =>
          cu.recodeBtfTypeTagPtr ptr.off (.die ptr.off)
            (createNewPointerTag cu.skipEncodingBtfTypeTag ptr).tags 0 σ
      | some type =>
          match cu.findType type with
          | none => σ
          | some id =>
              cu.recodeBtfTypeTagPtr ptr.off (.die ptr.off)
                (createNewPointerTag cu.skipEncodingBtfTypeTag ptr).tags id σ
  | .die (.scope _ _ children) => recodeIn.recodeScope cu children σ
  | .die (.proto _ off none params) =>
      Function.update (cu.recodeParams params σ) (.die off) 0
  | .die (.proto _ off (some type) params) =>
      cu.setType off (some type) (cu.recodeParams params σ)

/-- `cu__recode_dwarf_types` -/
def recode : Types :=
  (cu.table .types ++ cu.table .tags ++ cu.table .functions).foldl cu.recodeTag fun _ => 0

/-- The CU without the annotations of pointers. -/
def strip : TaggedCu where
  skipEncodingBtfTypeTag := cu.skipEncodingBtfTypeTag
  dies := cu.dies.map Die.strip
  nodup := by
    rw [List.flatMap_map]
    simpa using cu.nodup

def pointers : List (Bool × PointerDie) := cu.dies.flatMap (Die.pointers false)

/-! ## Tags that are not recoded -/

section Frames

variable {cu} {σ : Types}

theorem setType_of_ne {off : ℕ} {type : Option ℕ} {key : TagKey} (h : key ≠ .die off) :
    cu.setType off type σ key = σ key := by
  unfold setType
  cases type.bind cu.findType with
  | none => rfl
  | some id => exact Function.update_of_ne h _ _

theorem setType_self (off : ℕ) (type : Option ℕ) :
    cu.setType off type σ (.die off) = (type.bind cu.findType).getD (σ (.die off)) := by
  unfold setType
  cases type.bind cu.findType with
  | none => rfl
  | some id => exact Function.update_self _ _ _

theorem recodeParam_of_ne {param : ParamDie} {key : TagKey} (h : key ≠ .die param.off) :
    cu.recodeParam σ param key = σ key := by
  unfold recodeParam
  cases param.type with
  | some type => exact setType_of_ne h
  | none =>
      cases param.abstractOrigin with
      | none => exact Function.update_of_ne h _ _
      | some origin =>
          cases hfinds : cu.findsTag origin with
          | true =>
              simp only [hfinds, if_true]
              exact Function.update_of_ne h _ _
          | false => simp [hfinds]

theorem recodeParams_of_ne {params : List ParamDie} {key : TagKey}
    (h : ∀ param ∈ params, key ≠ .die param.off) : cu.recodeParams params σ key = σ key := by
  induction params generalizing σ with
  | nil => rfl
  | cons param params ih =>
      have hrest := ih (σ := cu.recodeParam σ param) fun p hp => h p (List.mem_cons_of_mem _ hp)
      exact hrest.trans (recodeParam_of_ne (h param (List.mem_cons_self ..)))

theorem recodeScope_of_ne {ds : List Die} {key : TagKey}
    (h : ∀ d ∈ ds, ∀ σ, cu.recodeIn d σ key = σ key) :
    recodeIn.recodeScope cu ds σ key = σ key := by
  induction ds generalizing σ with
  | nil => rfl
  | cons d ds ih =>
      have hrest := ih (σ := cu.recodeIn d σ) fun d' hd' => h d' (List.mem_cons_of_mem _ hd')
      exact hrest.trans (h d (List.mem_cons_self ..) σ)

/-- Recoding a DIE changes no reference of a tag outside it. -/
theorem recodeIn_of_ne (d : Die) {key : TagKey} (h : ∀ off ∈ d.offs, key ≠ .die off) :
    cu.recodeIn d σ key = σ key := by
  induction d using Die.induct generalizing σ with
  | plain table off type => exact setType_of_ne (h off (List.mem_singleton_self _))
  | pointer ptr => exact setType_of_ne (h ptr.off (List.mem_singleton_self _))
  | proto table off type params =>
      have hparams : ∀ param ∈ params, key ≠ .die param.off := fun param hparam =>
        h param.off (List.mem_cons_of_mem _ (List.mem_map_of_mem hparam))
      exact (setType_of_ne (h off (List.mem_cons_self ..))).trans (recodeParams_of_ne hparams)
  | scope isType off children ih =>
      simp only [Die.offs, Die.offsOf_eq] at h
      refine recodeScope_of_ne fun d hd σ => ih d hd fun o ho => h o ?_
      exact List.mem_cons_of_mem _ (List.mem_flatMap.mpr ⟨d, hd, ho⟩)

theorem recodeBtfTypeTagPtr_of_ne {ptr : ℕ} {tags : List TypeTag} {prev key : TagKey}
    {pointee : ℕ} (hprev : key ≠ prev) (h : ∀ tag ∈ tags, key ≠ .annot ptr tag) :
    cu.recodeBtfTypeTagPtr ptr prev tags pointee σ key = σ key := by
  induction tags generalizing prev σ with
  | nil => exact Function.update_of_ne hprev _ _
  | cons tag tags ih =>
      rw [recodeBtfTypeTagPtr, ih (h tag (List.mem_cons_self ..))
        fun t ht => h t (List.mem_cons_of_mem _ ht)]
      exact Function.update_of_ne hprev _ _

theorem recodeTag_die_of_ne (d : Die) {key : TagKey}
    (h : ∀ off ∈ d.offs, key ≠ .die off ∧ ∀ tag, key ≠ .annot off tag) :
    cu.recodeTag σ (.die d) key = σ key := by
  cases d with
  | plain table off type =>
      have hoff := (h off (List.mem_singleton_self _)).1
      cases type with
      | none => exact Function.update_of_ne hoff _ _
      | some type => exact setType_of_ne hoff
  | pointer ptr =>
      obtain ⟨hoff, htag⟩ := h ptr.off (List.mem_singleton_self _)
      simp only [recodeTag]
      cases ptr.type with
      | none => exact recodeBtfTypeTagPtr_of_ne hoff fun tag _ => htag tag
      | some type =>
          cases hfind : cu.findType type with
          | none => simp [hfind]
          | some id =>
              simp only [hfind]
              exact recodeBtfTypeTagPtr_of_ne hoff fun tag _ => htag tag
  | scope isType off children =>
      exact recodeIn_of_ne (.scope isType off children) fun o ho => (h o ho).1
  | proto table off type params =>
      have hoff := (h off (List.mem_cons_self ..)).1
      have hparams : ∀ param ∈ params, key ≠ .die param.off := fun param hparam =>
        (h param.off (List.mem_cons_of_mem _ (List.mem_map_of_mem hparam))).1
      cases type with
      | none => exact (Function.update_of_ne hoff _ _).trans (recodeParams_of_ne hparams)
      | some type => exact (setType_of_ne hoff).trans (recodeParams_of_ne hparams)

theorem mem_offs_of_pointers (d : Die) {nested : Bool} {p : Bool × PointerDie}
    (hp : p ∈ d.pointers nested) : p.2.off ∈ d.offs := by
  induction d using Die.induct generalizing nested with
  | plain table off type => exact absurd hp List.not_mem_nil
  | proto table off type params => exact absurd hp List.not_mem_nil
  | pointer ptr =>
      obtain rfl := List.mem_singleton.mp hp
      exact List.mem_singleton_self _
  | scope isType off children ih =>
      simp only [Die.pointers, Die.pointersOf_eq] at hp
      obtain ⟨d, hd, hp⟩ := List.mem_flatMap.mp hp
      simp only [Die.offs, Die.offsOf_eq]
      exact List.mem_cons_of_mem _ (List.mem_flatMap.mpr ⟨d, hd, ih d hd hp⟩)

theorem recodeScope_pointer {ds : List Die} (hnodup : (ds.flatMap Die.offs).Nodup)
    {p : Bool × PointerDie} (hp : p ∈ ds.flatMap (Die.pointers true))
    (h : ∀ d ∈ ds, d.offs.Nodup → p ∈ d.pointers true → ∀ σ,
      cu.recodeIn d σ (.die p.2.off) = (p.2.type.bind cu.findType).getD (σ (.die p.2.off))) :
    recodeIn.recodeScope cu ds σ (.die p.2.off) =
      (p.2.type.bind cu.findType).getD (σ (.die p.2.off)) := by
  induction ds generalizing σ with
  | nil => exact absurd hp List.not_mem_nil
  | cons d ds ih =>
      rw [List.flatMap_cons] at hnodup hp
      obtain ⟨hd, hds, hdisj⟩ := List.nodup_append.mp hnodup
      rw [recodeIn.recodeScope]
      rcases List.mem_append.mp hp with hp | hp
      · have hrest : ∀ d' ∈ ds, ∀ σ, cu.recodeIn d' σ (.die p.2.off) = σ (.die p.2.off) := by
          intro d' hd' σ
          refine recodeIn_of_ne d' fun o ho heq => ?_
          exact hdisj _ (mem_offs_of_pointers d hp) o
            (List.mem_flatMap.mpr ⟨d', hd', ho⟩) (TagKey.die.inj heq)
        rw [recodeScope_of_ne hrest]
        exact h d (List.mem_cons_self ..) hd hp σ
      · have hfirst : cu.recodeIn d σ (.die p.2.off) = σ (.die p.2.off) := by
          refine recodeIn_of_ne d fun o ho heq => ?_
          obtain ⟨d', hd', hp'⟩ := List.mem_flatMap.mp hp
          exact hdisj o ho _ (List.mem_flatMap.mpr ⟨d', hd', mem_offs_of_pointers d' hp'⟩)
            (TagKey.die.inj heq).symm
        rw [ih hds hp fun d' hd' => h d' (List.mem_cons_of_mem _ hd'), hfirst]

/-- In a scope a pointer gets its pointee, whatever tags it has. -/
theorem recodeIn_pointer (d : Die) (hnodup : d.offs.Nodup) {nested : Bool}
    {p : Bool × PointerDie} (hp : p ∈ d.pointers nested) :
    cu.recodeIn d σ (.die p.2.off) =
      (p.2.type.bind cu.findType).getD (σ (.die p.2.off)) := by
  induction d using Die.induct generalizing nested σ with
  | plain table off type => exact absurd hp List.not_mem_nil
  | proto table off type params => exact absurd hp List.not_mem_nil
  | pointer ptr =>
      obtain rfl := List.mem_singleton.mp hp
      exact setType_self _ _
  | scope isType off children ih =>
      simp only [Die.pointers, Die.pointersOf_eq] at hp
      simp only [Die.offs, Die.offsOf_eq] at hnodup
      exact recodeScope_pointer (List.nodup_cons.mp hnodup).2 hp
        fun d hd hnodup hp σ => ih d hd hnodup hp

end Frames

/-! ## The slots of a pointer -/

/-- Recoding the slot changes neither the type of the pointer nor those of its annotations. -/
structure Keeps (ptr : PointerDie) (s : DieSlot) : Prop where
  die : ∀ σ, cu.recodeTag σ s (.die ptr.off) = σ (.die ptr.off)
  annot : ∀ σ tag, cu.recodeTag σ s (.annot ptr.off tag) = σ (.annot ptr.off tag)

/-- Recoding the slot sets the type of the pointer to its pointee, and changes none of its
annotations. -/
structure Resets (ptr : PointerDie) (s : DieSlot) : Prop where
  die : ∀ σ, cu.recodeTag σ s (.die ptr.off) =
    (ptr.type.bind cu.findType).getD (σ (.die ptr.off))
  annot : ∀ σ tag, cu.recodeTag σ s (.annot ptr.off tag) = σ (.annot ptr.off tag)

end TaggedCu

/-- The offsets of the DIEs whose tags are in a slot. -/
def DieSlot.offs : DieSlot → List ℕ
  | .die d => d.offs
  | .annot ptr _ => [ptr]

namespace TaggedCu

section Slots

variable {cu : TaggedCu} {skip : Bool}

theorem keeps_of_notMem {ptr : PointerDie} {s : DieSlot} (h : ptr.off ∉ s.offs) :
    cu.Keeps ptr s := by
  cases s with
  | die d =>
      have hne : ∀ o ∈ d.offs, ptr.off ≠ o := by
        rintro o ho rfl
        exact h ho
      constructor
      · intro σ
        exact recodeTag_die_of_ne d fun o ho =>
          ⟨fun heq => hne o ho (TagKey.die.inj heq), fun _ => TagKey.noConfusion⟩
      · intro σ tag
        exact recodeTag_die_of_ne d fun o ho =>
          ⟨TagKey.noConfusion, fun tag heq => hne o ho (TagKey.annot.inj heq).1⟩
  | annot q t =>
      have hne : ptr.off ≠ q := fun heq => h (heq ▸ List.mem_singleton_self _)
      constructor
      · intro σ
        have hother : TagKey.die ptr.off ≠ .annot q t := TagKey.noConfusion
        exact Function.update_of_ne hother _ _
      · intro σ tag
        exact Function.update_of_ne (fun heq => hne (TagKey.annot.inj heq).1) _ _

/-- Recoding a scope that contains a pointer sets the type of the pointer to its pointee. -/
theorem resets_scope {isType : Bool} {off : ℕ} {children : List Die}
    (hnodup : (children.flatMap Die.offs).Nodup) {p : Bool × PointerDie}
    (hp : p ∈ children.flatMap (Die.pointers true)) :
    cu.Resets p.2 (.die (.scope isType off children)) where
  die := fun _ => recodeScope_pointer hnodup hp fun d _ hd hp _ => recodeIn_pointer d hd hp
  annot := fun _ _ => recodeScope_of_ne fun d _ _ => recodeIn_of_ne d fun _ _ => TagKey.noConfusion

theorem mem_offs_of_slots (d : Die) {s : DieTable × DieSlot} (hs : s ∈ d.slots skip) {o : ℕ}
    (ho : o ∈ s.2.offs) : o ∈ d.offs := by
  induction d using Die.induct with
  | plain table off type =>
      obtain rfl := List.mem_singleton.mp hs
      exact ho
  | proto table off type params =>
      obtain rfl := List.mem_singleton.mp hs
      exact ho
  | pointer ptr =>
      rcases List.mem_append.mp hs with hs | hs
      · obtain ⟨tag, -, rfl⟩ := List.mem_map.mp hs
        exact ho
      · obtain rfl := List.mem_singleton.mp hs
        exact ho
  | scope isType off children ih =>
      simp only [Die.slots, Die.slotsOf_eq] at hs
      rcases List.mem_append.mp hs with hs | hs
      · obtain ⟨d, hd, hs⟩ := List.mem_flatMap.mp hs
        simp only [Die.offs, Die.offsOf_eq]
        exact List.mem_cons_of_mem _ (List.mem_flatMap.mpr ⟨d, hd, ih d hd hs⟩)
      · obtain rfl := List.mem_singleton.mp hs
        exact ho

/-- The slots of a pointer in a list of slots: those before it keep it, and those after it do
so, too, unless it is nested, where one may reset it. -/
def SplitAt (cu : TaggedCu) (skip nested : Bool) (p : Bool × PointerDie)
    (slots : List (DieTable × DieSlot)) : Prop :=
  ∃ before after, slots = before ++ pointerSlots skip p.2 ++ after ∧
    (∀ s ∈ before, cu.Keeps p.2 s.2) ∧
    ((p.1 = nested ∧ ∀ s ∈ after, cu.Keeps p.2 s.2) ∨
      (p.1 = true ∧ (∀ s ∈ after, cu.Keeps p.2 s.2 ∨ cu.Resets p.2 s.2) ∧
        ∃ s ∈ after, (s.1 = .types ∨ s.1 = .tags) ∧ cu.Resets p.2 s.2))

theorem SplitAt.before {nested : Bool} {p : Bool × PointerDie}
    {slots more : List (DieTable × DieSlot)} (h : SplitAt cu skip nested p slots)
    (hmore : ∀ s ∈ more, cu.Keeps p.2 s.2) : SplitAt cu skip nested p (more ++ slots) := by
  obtain ⟨before, after, hslots, hbefore, hafter⟩ := h
  refine ⟨more ++ before, after, by simp [hslots], fun s hs => ?_, hafter⟩
  rcases List.mem_append.mp hs with hs | hs
  · exact hmore s hs
  · exact hbefore s hs

theorem SplitAt.after {nested : Bool} {p : Bool × PointerDie}
    {slots more : List (DieTable × DieSlot)} (h : SplitAt cu skip nested p slots)
    (hmore : ∀ s ∈ more, cu.Keeps p.2 s.2) : SplitAt cu skip nested p (slots ++ more) := by
  obtain ⟨before, after, hslots, hbefore, hafter⟩ := h
  refine ⟨before, after ++ more, by simp [hslots], hbefore, ?_⟩
  rcases hafter with ⟨hp, hkeeps⟩ | ⟨hp, hall, s, hs, hreset⟩
  · refine Or.inl ⟨hp, fun s hs => ?_⟩
    rcases List.mem_append.mp hs with hs | hs
    · exact hkeeps s hs
    · exact hmore s hs
  · refine Or.inr ⟨hp, fun s hs => ?_, s, List.mem_append_left _ hs, hreset⟩
    rcases List.mem_append.mp hs with hs | hs
    · exact hall s hs
    · exact Or.inl (hmore s hs)

theorem splitAt_flatMap {ds : List Die} (hnodup : (ds.flatMap Die.offs).Nodup) {nested : Bool}
    {p : Bool × PointerDie} (hp : p ∈ ds.flatMap (Die.pointers nested))
    (h : ∀ d ∈ ds, d.offs.Nodup → p ∈ d.pointers nested →
      SplitAt cu skip nested p (d.slots skip)) :
    SplitAt cu skip nested p (ds.flatMap (Die.slots skip)) := by
  induction ds with
  | nil => exact absurd hp List.not_mem_nil
  | cons d ds ih =>
      rw [List.flatMap_cons] at hnodup hp ⊢
      obtain ⟨hd, hds, hdisj⟩ := List.nodup_append.mp hnodup
      rcases List.mem_append.mp hp with hp | hp
      · refine (h d (List.mem_cons_self ..) hd hp).after fun s hs => keeps_of_notMem fun ho => ?_
        obtain ⟨d', hd', hs⟩ := List.mem_flatMap.mp hs
        exact hdisj _ (mem_offs_of_pointers d hp) _
          (List.mem_flatMap.mpr ⟨d', hd', mem_offs_of_slots d' hs ho⟩) rfl
      · refine (ih hds hp fun d' hd' => h d' (List.mem_cons_of_mem _ hd')).before
          fun s hs => keeps_of_notMem fun ho => ?_
        obtain ⟨d', hd', hp'⟩ := List.mem_flatMap.mp hp
        exact hdisj _ (mem_offs_of_slots d hs ho) _
          (List.mem_flatMap.mpr ⟨d', hd', mem_offs_of_pointers d' hp'⟩) rfl

theorem splitAt_slots (d : Die) (hnodup : d.offs.Nodup) {nested : Bool} {p : Bool × PointerDie}
    (hp : p ∈ d.pointers nested) : SplitAt cu skip nested p (d.slots skip) := by
  induction d using Die.induct generalizing nested with
  | plain table off type => exact absurd hp List.not_mem_nil
  | proto table off type params => exact absurd hp List.not_mem_nil
  | pointer ptr =>
      obtain rfl := List.mem_singleton.mp hp
      exact ⟨[], [], by simp [Die.slots], fun s hs => absurd hs List.not_mem_nil,
        Or.inl ⟨rfl, fun s hs => absurd hs List.not_mem_nil⟩⟩
  | scope isType off children ih =>
      simp only [Die.pointers, Die.pointersOf_eq] at hp
      simp only [Die.offs, Die.offsOf_eq] at hnodup
      have hnodup := (List.nodup_cons.mp hnodup).2
      obtain ⟨before, after, hslots, hbefore, hafter⟩ :=
        splitAt_flatMap hnodup hp fun d hd hd' hp => ih d hd hd' hp
      have hreset : cu.Resets p.2 (.die (.scope isType off children)) :=
        resets_scope hnodup hp
      simp only [Die.slots, Die.slotsOf_eq]
      refine ⟨before, after ++ [_], by rw [hslots, List.append_assoc], hbefore,
        Or.inr ⟨?_, fun s hs => ?_, _, List.mem_append_right _ (List.mem_singleton_self _),
          ?_, hreset⟩⟩
      · rcases hafter with ⟨hp, -⟩ | ⟨hp, -⟩ <;> exact hp
      · rcases List.mem_append.mp hs with hs | hs
        · rcases hafter with ⟨-, hkeeps⟩ | ⟨-, hall, -⟩
          · exact Or.inl (hkeeps s hs)
          · exact hall s hs
        · obtain rfl := List.mem_singleton.mp hs
          exact Or.inr hreset
      · cases isType with
        | true => exact Or.inl rfl
        | false => exact Or.inr rfl

end Slots

end TaggedCu

/-! ## The list of a pointer -/

section Tags

def numbered : ℕ → List DieAnnotation → List TypeTag
  | _, [] => []
  | n, annot :: annots => ⟨n, annot.value⟩ :: numbered (n + 1) annots

theorem foldl_addBtfTypeTag_true (s : TypeTags) (annots : List DieAnnotation) :
    annots.foldl (addBtfTypeTag true) s =
      ⟨(numbered s.table.length annots).reverse ++ s.tags,
        s.table ++ numbered s.table.length annots⟩ := by
  induction annots generalizing s with
  | nil => simp [numbered]
  | cons annot annots ih => simp [numbered, ih, addBtfTypeTag]

theorem foldl_addBtfTypeTag_false (s : TypeTags) (annots : List DieAnnotation) :
    annots.foldl (addBtfTypeTag false) s =
      ⟨s.tags ++ numbered s.table.length annots, s.table ++ numbered s.table.length annots⟩ := by
  induction annots generalizing s with
  | nil => simp [numbered]
  | cons annot annots ih => simp [numbered, ih, addBtfTypeTag]

@[simp] theorem map_value_numbered (n : ℕ) (annots : List DieAnnotation) :
    (numbered n annots).map TypeTag.value = annots.map DieAnnotation.value := by
  induction annots generalizing n with
  | nil => rfl
  | cons annot annots ih => simp [numbered, ih]

theorem le_nr_of_numbered {n : ℕ} {annots : List DieAnnotation} {tag : TypeTag}
    (h : tag ∈ numbered n annots) : n ≤ tag.nr := by
  induction annots generalizing n with
  | nil => exact absurd h List.not_mem_nil
  | cons annot annots ih =>
      rcases List.mem_cons.mp h with rfl | h
      · exact Nat.le_refl n
      · exact Nat.le_trans (Nat.le_succ n) (ih h)

theorem nodup_numbered (n : ℕ) (annots : List DieAnnotation) : (numbered n annots).Nodup := by
  induction annots generalizing n with
  | nil => exact List.nodup_nil
  | cons annot annots ih =>
      refine List.nodup_cons.mpr ⟨fun hmem => ?_, ih (n + 1)⟩
      exact absurd (le_nr_of_numbered hmem) (Nat.not_succ_le_self n)

/-- The list of a pointer holds its type tags, the nearest first. -/
theorem createNewPointerTag_spec (skip : Bool) (ptr : PointerDie) :
    (createNewPointerTag skip ptr).tags.Nodup ∧
      (∀ tag ∈ (createNewPointerTag skip ptr).tags,
        tag ∈ (createNewPointerTag skip ptr).table) ∧
      (createNewPointerTag skip ptr).tags.map TypeTag.value =
        if skip then []
        else if (ptr.children.filter DieAnnotation.isTypeTag).isEmpty then
          (ptr.chain.takeWhile DieAnnotation.isTypeTag).map DieAnnotation.value
        else (ptr.children.filter DieAnnotation.isTypeTag).reverse.map DieAnnotation.value := by
  unfold createNewPointerTag
  cases skip with
  | true => exact ⟨List.nodup_nil, fun _ h => h, rfl⟩
  | false =>
      simp only [foldl_addBtfTypeTag_true, foldl_addBtfTypeTag_false, Bool.false_eq_true,
        ↓reduceIte, List.append_nil, List.nil_append, List.length_nil]
      cases hllvm : ptr.children.filter DieAnnotation.isTypeTag with
      | nil => exact ⟨nodup_numbered _ _, fun _ h => h, by simp [numbered]⟩
      | cons annot annots =>
          have hne : ((numbered 0 (annot :: annots)).reverse).isEmpty = false := by
            simp [numbered]
          simp only [hne, Bool.false_eq_true, ↓reduceIte]
          refine ⟨List.nodup_reverse.mpr (nodup_numbered _ _), fun _ h =>
            List.mem_reverse.mp h, ?_⟩
          simp only [List.map_reverse, map_value_numbered, List.isEmpty_cons,
            Bool.false_eq_true, ↓reduceIte]

end Tags

namespace TaggedCu

variable (cu : TaggedCu)

/-- The types from an id on are type tags with the values, and end in the pointee. -/
def Chain (type : Types) : ℕ → List String → ℕ → Prop
  | id, [], pointee => id = pointee
  | id, value :: values, pointee =>
      ∃ ptr tag, cu.entry? id = some (.annot ptr tag) ∧ tag.value = value ∧
        Chain type (type (.annot ptr tag)) values pointee

/-- The id of the type that the pointer refers to in the source. -/
def pointee (ptr : PointerDie) : ℕ := (ptr.type.bind cu.findType).getD 0

section Chains

variable {cu} {type σ : Types}

theorem entry?_smallId {key : TagKey} (h : key ∈ cu.typeKeys) :
    cu.entry? (cu.smallId key) = some key := by
  have hlt := List.idxOf_lt_length_of_mem h
  change cu.typeKeys[cu.typeKeys.idxOf key]? = some key
  rw [List.getElem?_eq_getElem hlt, List.getElem_idxOf]

theorem Chain.unique {id pointee : ℕ} {values values' : List String}
    (hpointee : ∀ ptr tag, cu.entry? pointee ≠ some (.annot ptr tag))
    (h : cu.Chain type id values pointee) (h' : cu.Chain type id values' pointee) :
    values = values' := by
  induction values generalizing id values' with
  | nil =>
      obtain rfl : id = pointee := h
      cases values' with
      | nil => rfl
      | cons value' values' =>
          obtain ⟨ptr, tag, hentry, -⟩ := h'
          exact absurd hentry (hpointee ptr tag)
  | cons value values ih =>
      obtain ⟨ptr, tag, hentry, hvalue, hrest⟩ := h
      cases values' with
      | nil =>
          obtain rfl : id = pointee := h'
          exact absurd hentry (hpointee ptr tag)
      | cons value' values' =>
          obtain ⟨ptr', tag', hentry', hvalue', hrest'⟩ := h'
          obtain ⟨rfl, rfl⟩ := TagKey.annot.inj (Option.some.inj (hentry.symm.trans hentry'))
          rw [← hvalue, ← hvalue', ih hrest hrest']

theorem entry?_pointee (ptr : PointerDie) (q : ℕ) (tag : TypeTag) :
    cu.entry? (cu.pointee ptr) ≠ some (.annot q tag) := by
  unfold pointee
  cases ptr.type with
  | none => exact nofun
  | some r =>
      change cu.entry? ((cu.findType r).getD 0) ≠ _
      unfold findType
      split
      · rename_i hmem
        rw [Option.getD_some, entry?_smallId hmem]
        exact nofun
      · exact nofun

/-- The pointer and its tags are linked, as long as the tags are left alone later. -/
theorem chain_recodeBtfTypeTagPtr {ptr : ℕ} {tags : List TypeTag} {prev : TagKey}
    {pointee : ℕ} (hnodup : tags.Nodup) (hprev : ∀ tag ∈ tags, prev ≠ .annot ptr tag)
    (hin : ∀ tag ∈ tags, .annot ptr tag ∈ cu.typeKeys)
    (hkept : ∀ tag, type (.annot ptr tag) =
      cu.recodeBtfTypeTagPtr ptr prev tags pointee σ (.annot ptr tag)) :
    cu.Chain type (cu.recodeBtfTypeTagPtr ptr prev tags pointee σ prev)
      (tags.map TypeTag.value) pointee := by
  induction tags generalizing prev σ with
  | nil => exact Function.update_self _ _ _
  | cons tag tags ih =>
      obtain ⟨hnotin, hnodup⟩ := List.nodup_cons.mp hnodup
      have hfirst : cu.recodeBtfTypeTagPtr ptr prev (tag :: tags) pointee σ prev =
          cu.smallId (.annot ptr tag) := by
        rw [recodeBtfTypeTagPtr, recodeBtfTypeTagPtr_of_ne (hprev tag (List.mem_cons_self ..))
          fun t ht => hprev t (List.mem_cons_of_mem _ ht)]
        exact Function.update_self _ _ _
      rw [hfirst]
      refine ⟨ptr, tag, entry?_smallId (hin tag (List.mem_cons_self ..)), rfl, ?_⟩
      rw [hkept tag]
      refine ih hnodup (fun t ht heq => ?_) (fun t ht => hin t (List.mem_cons_of_mem _ ht)) hkept
      obtain rfl := (TagKey.annot.inj heq).2
      exact hnotin ht

theorem foldl_recodeTag_of_keeps {slots : List DieSlot} {key : TagKey}
    (h : ∀ s ∈ slots, ∀ σ, cu.recodeTag σ s key = σ key) :
    slots.foldl cu.recodeTag σ key = σ key := by
  induction slots generalizing σ with
  | nil => rfl
  | cons s slots ih =>
      rw [List.foldl_cons, ih fun s' hs' => h s' (List.mem_cons_of_mem _ hs')]
      exact h s (List.mem_cons_self ..) σ

/-- A pointer that a scope has reset to its pointee keeps it through slots that keep or reset
it. -/
theorem foldl_recodeTag_of_resets {slots : List DieSlot} {ptr : PointerDie} {id : ℕ}
    (hid : ptr.type.bind cu.findType = some id)
    (hall : ∀ s ∈ slots, cu.Keeps ptr s ∨ cu.Resets ptr s)
    (h : σ (.die ptr.off) = id ∨ ∃ s ∈ slots, cu.Resets ptr s) :
    slots.foldl cu.recodeTag σ (.die ptr.off) = id := by
  induction slots generalizing σ with
  | nil =>
      rcases h with h | ⟨s, hs, -⟩
      · exact h
      · exact absurd hs List.not_mem_nil
  | cons s slots ih =>
      refine ih (fun s' hs' => hall s' (List.mem_cons_of_mem _ hs')) ?_
      rcases hall s (List.mem_cons_self ..) with hkeeps | hresets
      · rw [hkeeps.die]
        rcases h with h | ⟨s', hs', hreset⟩
        · exact Or.inl h
        · rcases List.mem_cons.mp hs' with rfl | hs'
          · have hsame := (hkeeps.die σ).symm.trans (hreset.die σ)
            rw [hid] at hsame
            exact Or.inl hsame
          · exact Or.inr ⟨s', hs', hreset⟩
      · rw [hresets.die, hid]
        exact Or.inl rfl

/-- Whether the tags of a pointer are linked in the end. -/
def kept (p : Bool × PointerDie) : List String :=
  if p.2.type.isNone || (!p.1 && (p.2.type.bind cu.findType).isSome) then
    (createNewPointerTag cu.skipEncodingBtfTypeTag p.2).tags.map TypeTag.value
  else []

theorem filter_pointerSlots (skip : Bool) (ptr : PointerDie) (t : DieTable) :
    (pointerSlots skip ptr).filter (·.1 = t) =
      if t = .types then pointerSlots skip ptr else [] := by
  split
  · rename_i ht
    subst ht
    refine List.filter_eq_self.mpr fun s hs => ?_
    rcases List.mem_append.mp hs with hs | hs
    · obtain ⟨tag, -, rfl⟩ := List.mem_map.mp hs
      rfl
    · obtain rfl := List.mem_singleton.mp hs
      rfl
  · rename_i ht
    refine List.filter_eq_nil_iff.mpr fun s hs heq => ht ?_
    have hs' : s.1 = .types := by
      rcases List.mem_append.mp hs with hs | hs
      · obtain ⟨tag, -, rfl⟩ := List.mem_map.mp hs
        rfl
      · obtain rfl := List.mem_singleton.mp hs
        rfl
    exact (of_decide_eq_true heq).symm.trans hs'

/-- The order in which the slots are recoded, around those of a pointer. -/
theorem recode_around {ptr : PointerDie} {before after : List (DieTable × DieSlot)}
    (h : cu.slots = before ++ pointerSlots cu.skipEncodingBtfTypeTag ptr ++ after) :
    ∃ first rest,
      cu.table .types ++ cu.table .tags ++ cu.table .functions = first ++
        (createNewPointerTag cu.skipEncodingBtfTypeTag ptr).table.map (.annot ptr.off) ++
        .die (.pointer ptr) :: rest ∧
      (∀ s ∈ first, ∃ t, (t, s) ∈ before) ∧
      (∀ s ∈ rest, (∃ t, (t, s) ∈ before) ∨ ∃ t, (t, s) ∈ after) ∧
      (∀ s ∈ after, s.1 = .types ∨ s.1 = .tags → s.2 ∈ rest) ∧
      ∀ tag ∈ (createNewPointerTag cu.skipEncodingBtfTypeTag ptr).table,
        .annot ptr.off tag ∈ cu.typeKeys := by
  have htable : ∀ t, cu.table t = (before.filter (·.1 = t)).map (·.2) ++
      (if t = .types then pointerSlots cu.skipEncodingBtfTypeTag ptr else []).map (·.2) ++
      (after.filter (·.1 = t)).map (·.2) := by
    intro t
    simp only [table, h, List.filter_append, filter_pointerSlots, List.map_append]
  have htypes := htable .types
  have htags := htable .tags
  have hfunctions := htable .functions
  simp only [↓reduceIte, pointerSlots, List.map_append, List.map_map, List.map_cons,
    List.map_nil] at htypes
  simp only [reduceCtorEq, ↓reduceIte, List.map_nil, List.append_nil] at htags hfunctions
  have hfilter : ∀ {slots : List (DieTable × DieSlot)} {t : DieTable} {s : DieSlot},
      s ∈ (slots.filter (·.1 = t)).map (·.2) → ∃ t, (t, s) ∈ slots := by
    intro slots t s hs
    obtain ⟨x, hx, rfl⟩ := List.mem_map.mp hs
    exact ⟨x.1, (List.mem_filter.mp hx).1⟩
  refine ⟨(before.filter (·.1 = .types)).map (·.2),
    (after.filter (·.1 = .types)).map (·.2) ++ cu.table .tags ++ cu.table .functions,
    ?_, fun s hs => hfilter hs, fun s hs => ?_, fun s hs ht => ?_, fun tag htag => ?_⟩
  · rw [htypes]
    simp only [List.append_assoc, List.cons_append, List.nil_append]
    rfl
  · rw [htags, hfunctions] at hs
    simp only [List.mem_append] at hs
    rcases hs with (hs | hs | hs) | hs | hs
    · exact Or.inr (hfilter hs)
    · exact Or.inl (hfilter hs)
    · exact Or.inr (hfilter hs)
    · exact Or.inl (hfilter hs)
    · exact Or.inr (hfilter hs)
  · have hin : ∀ t, s.1 = t → s.2 ∈ (after.filter (·.1 = t)).map (·.2) := fun t ht =>
      List.mem_map_of_mem (List.mem_filter.mpr ⟨hs, decide_eq_true ht⟩)
    rw [htags]
    simp only [List.mem_append]
    rcases ht with ht | ht
    · exact Or.inl (Or.inl (hin _ ht))
    · exact Or.inl (Or.inr (Or.inr (hin _ ht)))
  · rw [typeKeys, htypes]
    simp only [List.map_append, List.mem_append]
    exact Or.inl (Or.inr (Or.inl (List.mem_map.mpr ⟨.annot ptr.off tag,
      List.mem_map.mpr ⟨tag, htag, rfl⟩, rfl⟩)))

/-- After recoding a pointer refers to the chain of the tags it has kept, which ends in its
pointee. -/
theorem chain_recode {p : Bool × PointerDie} (hp : p ∈ cu.pointers) :
    cu.Chain cu.recode (cu.recode (.die p.2.off)) (cu.kept p) (cu.pointee p.2) := by
  obtain ⟨before, after, hslots, hbefore, hafter⟩ : SplitAt cu cu.skipEncodingBtfTypeTag false p
      cu.slots := splitAt_flatMap cu.nodup hp fun d _ hd hp => splitAt_slots d hd hp
  obtain ⟨first, rest, horder, hfirst, hrest, hresets, hin⟩ := recode_around hslots
  obtain ⟨hnodup, hsub, -⟩ := createNewPointerTag_spec cu.skipEncodingBtfTypeTag p.2
  set list := createNewPointerTag cu.skipEncodingBtfTypeTag p.2 with hlist
  set σ := (first ++ list.table.map (DieSlot.annot p.2.off)).foldl cu.recodeTag (fun _ => 0) with hσ
  have hzero : σ (.die p.2.off) = 0 := by
    refine foldl_recodeTag_of_keeps fun s hs σ => ?_
    rcases List.mem_append.mp hs with hs | hs
    · obtain ⟨t, ht⟩ := hfirst s hs
      exact (hbefore _ ht).die σ
    · obtain ⟨tag, -, rfl⟩ := List.mem_map.mp hs
      have hother : TagKey.die p.2.off ≠ .annot p.2.off tag := TagKey.noConfusion
      exact Function.update_of_ne hother _ _
  have hrecode : cu.recode =
      rest.foldl cu.recodeTag (cu.recodeTag σ (.die (.pointer p.2))) := by
    rw [recode, horder, List.foldl_append, List.foldl_cons]
  have hboth : ∀ s ∈ rest, cu.Keeps p.2 s ∨ cu.Resets p.2 s := by
    intro s hs
    rcases hrest s hs with ⟨t, ht⟩ | ⟨t, ht⟩
    · exact Or.inl (hbefore _ ht)
    · rcases hafter with ⟨-, hkeeps⟩ | ⟨-, hall, -⟩
      · exact Or.inl (hkeeps _ ht)
      · exact hall _ ht
  have hannots : ∀ tag, cu.recode (.annot p.2.off tag) =
      cu.recodeTag σ (.die (.pointer p.2)) (.annot p.2.off tag) := by
    intro tag
    rw [hrecode]
    refine foldl_recodeTag_of_keeps fun s hs σ => ?_
    rcases hboth s hs with hkeeps | hresets
    · exact hkeeps.annot σ tag
    · exact hresets.annot σ tag
  have hlinked : ∀ pointee, cu.recodeTag σ (.die (.pointer p.2)) =
        cu.recodeBtfTypeTagPtr p.2.off (.die p.2.off) list.tags pointee σ →
      cu.recode (.die p.2.off) = cu.recodeTag σ (.die (.pointer p.2)) (.die p.2.off) →
      cu.Chain cu.recode (cu.recode (.die p.2.off)) (list.tags.map TypeTag.value) pointee := by
    intro pointee hslot hdie
    rw [hdie, hslot]
    refine chain_recodeBtfTypeTagPtr hnodup (fun _ _ => TagKey.noConfusion)
      (fun tag htag => hin tag (hsub tag htag)) fun tag => ?_
    rw [hannots, hslot]
  unfold kept pointee
  cases hid : p.2.type.bind cu.findType with
  | none =>
      have hdie : cu.recode (.die p.2.off) =
          cu.recodeTag σ (.die (.pointer p.2)) (.die p.2.off) := by
        rw [hrecode]
        refine foldl_recodeTag_of_keeps fun s hs σ => ?_
        rcases hboth s hs with hkeeps | hresets
        · exact hkeeps.die σ
        · rw [hresets.die, hid]
          rfl
      cases htype : p.2.type with
      | none =>
          simp only [Option.isNone_none, Bool.true_or, ↓reduceIte]
          refine hlinked 0 ?_ hdie
          simp only [recodeTag, htype]
          rfl
      | some r =>
          rw [htype] at hid
          have hfind : cu.findType r = none := hid
          simp only [Option.isNone_some, Option.isSome_none, Bool.and_false, Bool.or_self,
            Bool.false_eq_true, ↓reduceIte]
          change cu.recode (.die p.2.off) = 0
          rw [hdie]
          simp only [recodeTag, htype, hfind]
          exact hzero
  | some id =>
      obtain ⟨r, htype, hfind⟩ := Option.bind_eq_some_iff.mp hid
      cases hnested : p.1 with
      | false =>
          have hdie : cu.recode (.die p.2.off) =
              cu.recodeTag σ (.die (.pointer p.2)) (.die p.2.off) := by
            rw [hrecode]
            refine foldl_recodeTag_of_keeps fun s hs σ => ?_
            rcases hrest s hs with ⟨t, ht⟩ | ⟨t, ht⟩
            · exact (hbefore _ ht).die σ
            · rcases hafter with ⟨-, hkeeps⟩ | ⟨htrue, -⟩
              · exact (hkeeps _ ht).die σ
              · exact absurd (hnested.symm.trans htrue) Bool.false_ne_true
          simp only [htype, Option.isNone_some, Option.isSome_some, Bool.not_false,
            Bool.and_self, Bool.or_true, ↓reduceIte]
          refine hlinked id ?_ hdie
          simp only [recodeTag, htype, hfind]
          rfl
      | true =>
          simp only [htype, Option.isNone_some, Bool.not_true, Bool.false_and, Bool.or_self,
            Bool.false_eq_true, ↓reduceIte]
          change cu.recode (.die p.2.off) = id
          rw [hrecode]
          refine foldl_recodeTag_of_resets hid hboth (Or.inr ?_)
          rcases hafter with ⟨hfalse, -⟩ | ⟨-, -, s, hs, ht, hreset⟩
          · exact absurd (hfalse.symm.trans hnested) Bool.false_ne_true
          · exact ⟨s.2, hresets s hs ht, hreset⟩

end Chains

end TaggedCu

/-! ## The other references -/

/-- The btf_type_tags of a pointer, the one nearest to the asterisk first.  Among children
they are in the order of the source. -/
def PointerDie.nearestFirst (ptr : PointerDie) : List String :=
  if (ptr.children.filter DieAnnotation.isTypeTag).isEmpty then
    (ptr.chain.filter DieAnnotation.isTypeTag).map DieAnnotation.value
  else (ptr.children.filter DieAnnotation.isTypeTag).reverse.map DieAnnotation.value

def DieSlot.strip : DieTable × DieSlot → Option (DieTable × DieSlot)
  | (t, .die d) => some (t, .die d.strip)
  | (_, .annot _ _) => none

namespace TaggedCu

variable (cu : TaggedCu)

/-- The id that an entry of the CU without annotations has in the CU. -/
def renumber (id : ℕ) : ℕ := (cu.strip.entry? id).elim 0 cu.smallId

/-- The DIE is no annotated pointer. -/
def Untagged (off : ℕ) : Prop :=
  ∀ p ∈ cu.pointers, p.2.off = off → p.2.nearestFirst = []

/-- Every DIE without annotations has in `σ` the type that it has in `σ'`, renumbered. -/
def Renumbers (σ σ' : Types) : Prop :=
  ∀ off, cu.Untagged off → σ (.die off) = cu.renumber (σ' (.die off))

section Strip

variable {cu} {σ σ' : Types}

theorem tags_eq_nil {ptr : PointerDie} (h : ptr.nearestFirst = []) (skip : Bool) :
    (createNewPointerTag skip ptr).tags = [] := by
  have hspec := (createNewPointerTag_spec skip ptr).2.2
  have hvalues : (createNewPointerTag skip ptr).tags.map TypeTag.value = [] := by
    rw [hspec]
    cases skip with
    | true => rfl
    | false =>
        unfold PointerDie.nearestFirst at h
        simp only [Bool.false_eq_true, ↓reduceIte]
        split at h
        · rename_i hllvm
          rw [if_pos hllvm]
          have hchain := List.map_eq_nil_iff.mp h
          rw [List.map_eq_nil_iff]
          cases hc : ptr.chain with
          | nil => rfl
          | cons annot annots =>
              rw [hc, List.filter_eq_nil_iff] at hchain
              exact List.takeWhile_cons_of_neg (hchain annot (List.mem_cons_self ..))
        · rename_i hllvm
          rw [if_neg hllvm]
          exact h
  exact List.map_eq_nil_iff.mp hvalues

theorem slots_strip (skip : Bool) (d : Die) :
    d.strip.slots skip = (d.slots skip).filterMap DieSlot.strip := by
  induction d using Die.induct with
  | plain table off type => rfl
  | proto table off type params => rfl
  | pointer ptr =>
      have hnone : createNewPointerTag skip { ptr with children := [], chain := [] } =
          ⟨[], []⟩ := by
        cases skip <;> rfl
      simp only [Die.strip, Die.slots, pointerSlots, hnone, List.map_nil, List.nil_append,
        List.filterMap_append, List.filterMap_map]
      have hannots : (createNewPointerTag skip ptr).table.filterMap
          (DieSlot.strip ∘ fun tag => (.types, .annot ptr.off tag)) = [] :=
        List.filterMap_eq_nil_iff.mpr fun _ _ => rfl
      rw [hannots]
      rfl
  | scope isType off children ih =>
      simp only [Die.strip, Die.slots, Die.slotsOf_eq, Die.stripOf_eq, List.flatMap_map,
        List.filterMap_append, List.filterMap_flatMap]
      rw [List.flatMap_congr ih]
      simp [DieSlot.strip, Die.strip]

theorem cu_slots_strip : cu.strip.slots = cu.slots.filterMap DieSlot.strip := by
  simp only [slots, strip, List.flatMap_map, List.filterMap_flatMap]
  exact List.flatMap_congr fun d _ => slots_strip _ d

def stripEntry : DieSlot → Option DieSlot
  | .die d => some (.die d.strip)
  | .annot _ _ => none

theorem table_strip (t : DieTable) :
    cu.strip.table t = (cu.table t).filterMap stripEntry := by
  simp only [table, cu_slots_strip]
  induction cu.slots with
  | nil => rfl
  | cons s slots ih =>
      obtain ⟨t', s⟩ := s
      cases s with
      | die d =>
          by_cases ht : t' = t
          · simp [DieSlot.strip, stripEntry, ht, ih]
          · simp [DieSlot.strip, ht, ih]
      | annot ptr tag =>
          rw [List.filterMap_cons_none rfl, ih]
          by_cases ht : t' = t
          · rw [List.filter_cons_of_pos (by simpa using ht), List.map_cons,
              List.filterMap_cons_none rfl]
          · rw [List.filter_cons_of_neg (by simpa using ht)]

theorem key_strip (d : Die) : (DieSlot.die d.strip).key = (DieSlot.die d).key := by
  cases d <;> rfl

theorem mem_typeKeys_strip (off : ℕ) :
    .die off ∈ cu.strip.typeKeys ↔ .die off ∈ cu.typeKeys := by
  simp only [typeKeys, table_strip, List.mem_map, List.mem_filterMap]
  constructor
  · rintro ⟨s, ⟨s', hs', hstrip⟩, hkey⟩
    cases s' with
    | die d =>
        obtain rfl := Option.some.inj hstrip
        exact ⟨_, hs', (key_strip d).symm.trans hkey⟩
    | annot ptr tag => exact absurd hstrip nofun
  · rintro ⟨s, hs, hkey⟩
    cases s with
    | die d => exact ⟨_, ⟨_, hs, rfl⟩, (key_strip d).trans hkey⟩
    | annot ptr tag => exact absurd hkey nofun

theorem findType_strip (off : ℕ) :
    cu.findType off = (cu.strip.findType off).map cu.renumber := by
  unfold findType
  by_cases h : .die off ∈ cu.typeKeys
  · have h' := (mem_typeKeys_strip off).mpr h
    rw [if_pos h, if_pos h', Option.map_some, renumber, entry?_smallId h', Option.elim_some]
  · rw [if_neg h, if_neg fun h' => h ((mem_typeKeys_strip off).mp h')]
    rfl

theorem findsTag_strip (off : ℕ) : cu.strip.findsTag off = cu.findsTag off := by
  unfold findsTag
  simp only [mem_typeKeys_strip]
  simp [strip, List.flatMap_map]

theorem Renumbers.update (h : cu.Renumbers σ σ') (off id : ℕ) :
    cu.Renumbers (Function.update σ (.die off) (cu.renumber id))
      (Function.update σ' (.die off) id) := by
  intro o ho
  by_cases heq : o = off
  · subst heq
    rw [Function.update_self, Function.update_self]
  · have hne : TagKey.die o ≠ .die off := fun h => heq (TagKey.die.inj h)
    rw [Function.update_of_ne hne, Function.update_of_ne hne]
    exact h o ho

theorem renumber_zero : cu.renumber 0 = 0 := rfl

theorem Renumbers.setType (h : cu.Renumbers σ σ') (off : ℕ) (type : Option ℕ) :
    cu.Renumbers (cu.setType off type σ) (cu.strip.setType off type σ') := by
  unfold TaggedCu.setType
  cases type with
  | none => exact h
  | some r =>
      rw [Option.bind_some, Option.bind_some, findType_strip r]
      cases cu.strip.findType r with
      | none => exact h
      | some id => exact h.update off id

theorem mem_typeKeys_of_pointers {p : Bool × PointerDie} (hp : p ∈ cu.pointers) :
    .die p.2.off ∈ cu.typeKeys := by
  obtain ⟨before, after, hslots, -⟩ : SplitAt cu cu.skipEncodingBtfTypeTag false p
      cu.slots := splitAt_flatMap cu.nodup hp fun d _ hd hp => splitAt_slots d hd hp
  simp only [typeKeys, table, hslots, List.filter_append, filter_pointerSlots, ↓reduceIte,
    List.map_append, List.mem_append]
  exact Or.inl (Or.inr (List.mem_map.mpr ⟨.die (.pointer p.2), List.mem_map.mpr
    ⟨(.types, .die (.pointer p.2)), List.mem_append_right _ (List.mem_singleton_self _), rfl⟩,
    rfl⟩))

theorem untagged_of_findsTag {off : ℕ} (h : cu.findsTag off = true) : cu.Untagged off := by
  rintro p hp rfl
  simp only [findsTag, Bool.and_eq_true, Bool.not_eq_true', decide_eq_false_iff_not] at h
  exact absurd (mem_typeKeys_of_pointers hp) h.2

theorem Renumbers.recodeParam (h : cu.Renumbers σ σ') (param : ParamDie) :
    cu.Renumbers (cu.recodeParam σ param) (cu.strip.recodeParam σ' param) := by
  unfold TaggedCu.recodeParam
  cases param.type with
  | some r => exact h.setType _ _
  | none =>
      cases param.abstractOrigin with
      | none => exact h.update param.off 0
      | some origin =>
          simp only [findsTag_strip]
          cases hfinds : cu.findsTag origin with
          | true =>
              simp only [if_true]
              rw [h origin (untagged_of_findsTag hfinds)]
              exact h.update _ _
          | false => exact h

theorem Renumbers.recodeParams (h : cu.Renumbers σ σ') (params : List ParamDie) :
    cu.Renumbers (cu.recodeParams params σ) (cu.strip.recodeParams params σ') := by
  induction params generalizing σ σ' with
  | nil => exact h
  | cons param params ih => exact ih (h.recodeParam param)

theorem Renumbers.recodeScope {ds : List Die}
    (hds : ∀ d ∈ ds, ∀ {σ σ' : Types}, cu.Renumbers σ σ' →
      cu.Renumbers (cu.recodeIn d σ) (cu.strip.recodeIn d.strip σ'))
    (h : cu.Renumbers σ σ') :
    cu.Renumbers (recodeIn.recodeScope cu ds σ)
      (recodeIn.recodeScope cu.strip (ds.map Die.strip) σ') := by
  induction ds generalizing σ σ' with
  | nil => exact h
  | cons d ds ih =>
      exact ih (fun d' hd' => hds d' (List.mem_cons_of_mem _ hd'))
        (hds d (List.mem_cons_self ..) h)

theorem Renumbers.recodeIn (d : Die) (h : cu.Renumbers σ σ') :
    cu.Renumbers (cu.recodeIn d σ) (cu.strip.recodeIn d.strip σ') := by
  induction d using Die.induct generalizing σ σ' with
  | plain table off type => exact h.setType off type
  | pointer ptr => exact h.setType ptr.off ptr.type
  | proto table off type params => exact (h.recodeParams params).setType off type
  | scope isType off children ih =>
      simp only [Die.strip, Die.stripOf_eq]
      exact Renumbers.recodeScope ih h

/-- Recoding an annotated pointer keeps `Renumbers`. -/
theorem Renumbers.recodePtr (h : cu.Renumbers σ σ') {ptr : PointerDie} {id : ℕ}
    (hptr : ¬cu.Untagged ptr.off ∨ ptr.nearestFirst = []) (skip : Bool) :
    cu.Renumbers (cu.recodeBtfTypeTagPtr ptr.off (.die ptr.off)
        (createNewPointerTag skip ptr).tags (cu.renumber id) σ)
      (Function.update σ' (.die ptr.off) id) := by
  rcases hptr with htagged | hnone
  · intro o ho
    have hne : TagKey.die o ≠ .die ptr.off := fun heq => htagged (TagKey.die.inj heq ▸ ho)
    rw [recodeBtfTypeTagPtr_of_ne hne fun _ _ => TagKey.noConfusion, Function.update_of_ne hne]
    exact h o ho
  · rw [tags_eq_nil hnone]
    exact h.update _ _

theorem Renumbers.recodeTag (h : cu.Renumbers σ σ') (d : Die)
    (hptr : ∀ ptr, d = .pointer ptr → ¬cu.Untagged ptr.off ∨ ptr.nearestFirst = []) :
    cu.Renumbers (cu.recodeTag σ (.die d)) (cu.strip.recodeTag σ' (.die d.strip)) := by
  cases d with
  | plain table off type =>
      cases type with
      | none => exact h.update off 0
      | some type => exact h.setType off (some type)
  | proto table off type params =>
      cases type with
      | none => exact (h.recodeParams params).update off 0
      | some type => exact (h.recodeParams params).setType off (some type)
  | scope isType off children => exact h.recodeIn (.scope isType off children)
  | pointer ptr =>
      have hnone : ∀ skip, createNewPointerTag skip { ptr with children := [], chain := [] } =
          ⟨[], []⟩ := by
        intro skip
        cases skip <;> rfl
      simp only [TaggedCu.recodeTag, Die.strip, hnone, recodeBtfTypeTagPtr]
      cases ptr.type with
      | none =>
          have hvoid := @Renumbers.recodePtr cu σ σ' h ptr 0 (hptr ptr rfl)
            cu.skipEncodingBtfTypeTag
          exact hvoid
      | some r =>
          have hfind : cu.findType r = (cu.strip.findType r).map cu.renumber := findType_strip r
          cases hstrip : cu.strip.findType r with
          | none =>
              rw [hstrip] at hfind
              simp only [hfind, hstrip]
              exact h
          | some id =>
              rw [hstrip] at hfind
              simp only [hfind, hstrip]
              exact h.recodePtr (hptr ptr rfl) _

theorem mem_pointers_of_slots (d : Die) {skip nested : Bool} {t : DieTable} {ptr : PointerDie}
    (h : (t, .die (.pointer ptr)) ∈ d.slots skip) : ∃ n, (n, ptr) ∈ d.pointers nested := by
  induction d using Die.induct generalizing nested with
  | plain table off type => exact absurd (List.mem_singleton.mp h) nofun
  | proto table off type params => exact absurd (List.mem_singleton.mp h) nofun
  | pointer ptr' =>
      rcases List.mem_append.mp h with h | h
      · obtain ⟨tag, -, heq⟩ := List.mem_map.mp h
        exact absurd heq nofun
      · obtain ⟨-, heq⟩ := Prod.mk.inj (List.mem_singleton.mp h)
        obtain rfl := Die.pointer.inj (DieSlot.die.inj heq)
        exact ⟨nested, List.mem_singleton_self _⟩
  | scope isType off children ih =>
      simp only [Die.slots, Die.slotsOf_eq] at h
      simp only [Die.pointers, Die.pointersOf_eq]
      rcases List.mem_append.mp h with h | h
      · obtain ⟨d, hd, h⟩ := List.mem_flatMap.mp h
        obtain ⟨n, hn⟩ := ih d hd h
        exact ⟨n, List.mem_flatMap.mpr ⟨d, hd, hn⟩⟩
      · exact absurd (List.mem_singleton.mp h) nofun

theorem Renumbers.foldl {slots : List DieSlot} (h : cu.Renumbers σ σ')
    (hptr : ∀ ptr, .die (.pointer ptr) ∈ slots →
      ¬cu.Untagged ptr.off ∨ ptr.nearestFirst = []) :
    cu.Renumbers (slots.foldl cu.recodeTag σ)
      ((slots.filterMap stripEntry).foldl cu.strip.recodeTag σ') := by
  induction slots generalizing σ σ' with
  | nil => exact h
  | cons s slots ih =>
      have hrest := fun ptr hmem => hptr ptr (List.mem_cons_of_mem _ hmem)
      cases s with
      | die d =>
          have hd : stripEntry (.die d) = some (.die d.strip) := rfl
          rw [List.filterMap_cons_some hd]
          refine ih (h.recodeTag d fun ptr heq => hptr ptr ?_) hrest
          exact heq ▸ List.mem_cons_self ..
      | annot ptr tag =>
          rw [List.filterMap_cons_none rfl]
          refine ih (fun o ho => ?_) hrest
          have hne : TagKey.die o ≠ .annot ptr tag := TagKey.noConfusion
          exact (Function.update_of_ne hne _ _).trans (h o ho)

/-- Recoding gives every DIE without annotations the type that it has without any annotations,
renumbered. -/
theorem renumbers_recode : cu.Renumbers cu.recode cu.strip.recode := by
  unfold TaggedCu.recode
  simp only [table_strip, ← List.filterMap_append]
  have hstart : cu.Renumbers (fun _ => 0) (fun _ => 0) := fun _ _ => renumber_zero.symm
  refine hstart.foldl fun ptr hmem => ?_
  have hslot : ∃ t, (t, .die (.pointer ptr)) ∈ cu.slots := by
    simp only [table, List.mem_append, List.mem_map, List.mem_filter] at hmem
    rcases hmem with (⟨s, ⟨hs, -⟩, heq⟩ | ⟨s, ⟨hs, -⟩, heq⟩) | ⟨s, ⟨hs, -⟩, heq⟩
    all_goals exact ⟨s.1, heq ▸ hs⟩
  obtain ⟨t, ht⟩ := hslot
  obtain ⟨d, hd, hin⟩ := List.mem_flatMap.mp ht
  obtain ⟨n, hn⟩ := mem_pointers_of_slots d hin
  by_cases hnone : ptr.nearestFirst = []
  · exact Or.inr hnone
  · exact Or.inl fun huntagged => hnone (huntagged _ (List.mem_flatMap.mpr ⟨d, hd, hn⟩) rfl)

end Strip

/-! ## Pointers as they are declared -/

/-- Every pointer refers to the chain of its type tags, the nearest first, which ends in its
pointee; and every DIE that is not an annotated pointer has the type that it has without the
annotations. -/
structure Described : Prop where
  chains : ∀ p ∈ cu.pointers, cu.Chain cu.recode (cu.recode (.die p.2.off))
    p.2.nearestFirst (cu.pointee p.2)
  others : ∀ off, cu.Untagged off →
    cu.recode (.die off) = cu.renumber (cu.strip.recode (.die off))

/-- Type tags are encoded, the pointer refers to void or is in no scope and refers to a type
that is found, and without children its chain has no other annotation before a type tag. -/
def KeepsTags (p : Bool × PointerDie) : Prop :=
  cu.skipEncodingBtfTypeTag = false ∧
    (p.2.type = none ∨ p.1 = false ∧ (p.2.type.bind cu.findType).isSome = true) ∧
    (p.2.children.filter DieAnnotation.isTypeTag = [] →
      p.2.chain.takeWhile DieAnnotation.isTypeTag = p.2.chain.filter DieAnnotation.isTypeTag)

variable {cu}

theorem takeWhile_eq_filter_of_length {annots : List DieAnnotation}
    (h : (annots.takeWhile DieAnnotation.isTypeTag).length =
      (annots.filter DieAnnotation.isTypeTag).length) :
    annots.takeWhile DieAnnotation.isTypeTag = annots.filter DieAnnotation.isTypeTag := by
  have hsub : (annots.takeWhile DieAnnotation.isTypeTag).Sublist
      (annots.filter DieAnnotation.isTypeTag) := by
    have hfilter := (List.takeWhile_sublist DieAnnotation.isTypeTag (l := annots)).filter
      DieAnnotation.isTypeTag
    rwa [List.filter_eq_self.mpr fun a ha => List.mem_takeWhile_imp ha] at hfilter
  exact hsub.eq_of_length h

theorem kept_eq_nearestFirst_iff {p : Bool × PointerDie} :
    cu.kept p = p.2.nearestFirst ↔ p.2.nearestFirst = [] ∨ cu.KeepsTags p := by
  have hspec := (createNewPointerTag_spec cu.skipEncodingBtfTypeTag p.2).2.2
  have hlinks : (p.2.type.isNone || (!p.1 && (p.2.type.bind cu.findType).isSome)) = true ↔
      (p.2.type = none ∨ p.1 = false ∧ (p.2.type.bind cu.findType).isSome = true) := by
    simp
  unfold kept
  constructor
  · intro h
    split at h
    · rename_i hlinked
      refine or_iff_not_imp_left.mpr fun hne => ?_
      have hskip : cu.skipEncodingBtfTypeTag = false := by
        cases hskip : cu.skipEncodingBtfTypeTag with
        | false => rfl
        | true =>
            rw [hskip] at h hspec
            exact absurd (h.symm.trans hspec) hne
      refine ⟨hskip, hlinks.mp hlinked, fun hllvm => takeWhile_eq_filter_of_length ?_⟩
      rw [hspec, hskip] at h
      unfold PointerDie.nearestFirst at h
      simp only [hllvm, List.isEmpty_nil, Bool.false_eq_true, ↓reduceIte] at h
      simpa using congrArg List.length h
    · exact Or.inl h.symm
  · intro h
    by_cases hnone : p.2.nearestFirst = []
    · rw [hnone, tags_eq_nil hnone]
      exact ite_self []
    · obtain ⟨hskip, hlinked, hchain⟩ := h.resolve_left hnone
      rw [if_pos (hlinks.mpr hlinked), hspec, hskip]
      unfold PointerDie.nearestFirst
      simp only [Bool.false_eq_true, ↓reduceIte]
      split
      · rename_i hllvm
        rw [hchain (List.isEmpty_iff.mp hllvm)]
      · rfl

variable (cu) in
/-- Every pointer is `Described` if and only if the tags of every pointer that has some are
kept. -/
theorem described_iff :
    cu.Described ↔ ∀ p ∈ cu.pointers, p.2.nearestFirst = [] ∨ cu.KeepsTags p := by
  constructor
  · intro h p hp
    have hsame := (chain_recode hp).unique (entry?_pointee p.2) (h.chains p hp)
    exact kept_eq_nearestFirst_iff.mp hsame
  · intro h
    refine ⟨fun p hp => ?_, renumbers_recode⟩
    rw [← kept_eq_nearestFirst_iff.mpr (h p hp)]
    exact chain_recode hp

/-- A struct in which a pointer to another type is tagged. -/
def nestedPointerCu : TaggedCu where
  skipEncodingBtfTypeTag := false
  dies := [.plain .types 1 none,
    .scope true 2 [.pointer ⟨3, some 1, [⟨"btf_type_tag", "user"⟩], []⟩]]
  nodup := by decide

/-- The pointer is made to refer to its pointee when the struct is recoded. -/
theorem not_described_nestedPointerCu : ¬nestedPointerCu.Described := by
  intro h
  have hp : (true, (⟨3, some 1, [⟨"btf_type_tag", "user"⟩], []⟩ : PointerDie)) ∈
      nestedPointerCu.pointers := List.mem_singleton_self _
  obtain ⟨ptr, tag, hentry, -⟩ := h.chains _ hp
  have htype : nestedPointerCu.entry? (nestedPointerCu.recode (.die 3)) = some (.die 1) := by
    decide
  rw [htype] at hentry
  exact absurd hentry nofun

end TaggedCu

end Pahole
