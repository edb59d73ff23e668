import Pahole.DwarvesEmit.DefinedOnce

/-!
# Declared before use

What the definition of a type mentions has been written before it: typedefs and enumerations by
name, structs that are contained by their definition, structs that are pointed to by a forward
declaration.  It takes types that do not contain themselves, on any way that the procedures go.
-/

namespace Pahole

open CutShort

/-! ## Mentions -/

/-- Where a type stands: in an object of the type, behind a pointer, or in a prototype. -/
inductive TypeMode where
  | value
  | pointer
  | parameter
  deriving DecidableEq, Repr

/-- A declaration that another one relies on. -/
inductive Mention where
  | atomic (name : String)
  | typedef (name : String)
  | complete (kind : TypeKind) (name : String)
  | forward (name : String)
  deriving DecidableEq, Repr

/-- The types that the spelling of a type goes on with; a struct without a name is spelled out. -/
def Tag.next (mode : TypeMode) : Tag → List (TypeMode × TypeId)
  | .pointer t => [(.pointer, t)]
  | .reference t => [(.pointer, t)]
  | .array t _ => [(mode, t)]
  | .modifier kind t => if kind = .restrict then [] else [(mode, t)]
  | .subroutine ftype => (.parameter, ftype.type) :: ftype.parms.map fun pos => (.parameter, pos.type)
  | .aggregate ty =>
      if ty.kind = .classType ∨ ty.name ≠ none then []
      else (Tag.aggregate ty).membersOf.map fun pos => (.value, pos.type)
  | _ => []

/-- The declaration that the name of a type relies on. -/
def Tag.mention (skip : Bool) (mode : TypeMode) : Tag → Option Mention
  | .baseType bt =>
      if skip then none
      else bt.name.bind fun name =>
        if "atomic_".toList <+: name.toList then some (.atomic name) else none
  | .typedef name _ _ => name.map .typedef
  | .enumeration etype => etype.name.map (.complete .enumeration)
  | .aggregate ty =>
      if ty.kind = .classType then none
      else ty.name.bind fun name =>
        match mode with
        | .value => some (.complete (.aggregate ty.kind) name)
        | .pointer => some (.forward name)
        | .parameter => none
  | _ => none

section Mentions

variable (cus : ℕ → TypesTable)

/-- Spelling the type `id` in `mode` spells `id'` in `mode'`. -/
inductive Reaches (cu : ℕ) : TypeMode → TypeId → TypeMode → TypeId → Prop
  | here {mode : TypeMode} {id : TypeId} : Reaches cu mode id mode id
  | next {mode mode' : TypeMode} {id id' : TypeId} {tag : Tag} {q : TypeMode × TypeId} :
      typeAt cus ⟨cu, id⟩ = some tag → q ∈ tag.next mode → Reaches cu q.1 q.2 mode' id' →
        Reaches cu mode id mode' id'

/-- Spelling a type spells one that is mentioned by name. -/
def Mentions (skip : Bool) (cu : ℕ) (q : TypeMode × TypeId) (μ : Mention) : Prop :=
  ∃ mode id tag, Reaches cus cu q.1 q.2 mode id ∧ typeAt cus ⟨cu, id⟩ = some tag ∧
    tag.mention skip mode = some μ

/-- The types that a typedef has written before it. -/
def typedefNext (cu : ℕ) (type : TypeId) : List (TypeMode × TypeId) :=
  match typeAt cus ⟨cu, type⟩ with
  | some (.modifier .atomic t) => [(.value, t)]
  | some (.array t _) => [(.value, t)]
  | some (.pointer t) =>
      match typeAt cus ⟨cu, t⟩ with
      | some (.typedef ..) => [(.parameter, t)]
      | some (.subroutine _) => [(.parameter, t)]
      | _ => []
  | some (.typedef ..) => [(.parameter, type)]
  | some (.subroutine _) => [(.parameter, type)]
  | some (.enumeration _) => [(.parameter, type)]
  | some (.aggregate _) => [(.parameter, type)]
  | _ => []

/-- The types that the definition of a type spells. -/
def spelled (ref : CuType) : List (TypeMode × TypeId) :=
  match typeAt cus ref with
  | some (.typedef _ type _) => typedefNext cus ref.cu type
  | some (.aggregate ty) => (Tag.aggregate ty).membersOf.map fun pos => (.value, pos.type)
  | _ => []

/-- The declaration that a piece of output makes. -/
def Emitted.declares : Emitted → Option Mention
  | .atomicTypedef name _ => some (.atomic name)
  | .typedef _ name => name.map .typedef
  | .definition ref (some name) _ _ => (kindAt cus ref).map (.complete · name)
  | .definition _ none _ suf => suf.map .typedef
  | .fwdDecl _ name => some (.forward name)
  | .text _ => none

/-- The type whose definition is written. -/
def Emitted.type? : Emitted → Option CuType
  | .typedef ref _ => some ref
  | .definition ref _ _ _ => some ref
  | _ => none

/-- Something written declares the mention. -/
def Declared (written : List Emitted) (μ : Mention) : Prop :=
  ∃ x ∈ written, x.declares cus = some μ

/-- Whatever the spelling of a definition mentions is declared before the definition. -/
def DeclaredFirst (skip : Bool) (written : List Emitted) : Prop :=
  ∀ pre x post ref, written = pre ++ x :: post → x.type? = some ref →
    ∀ q ∈ spelled cus ref, ∀ μ, Mentions cus skip ref.cu q μ → Declared cus pre μ

/-! ## Types that do not contain themselves -/

/-- A type that is part of another by value has a rank below `bound`, and one that is spelled
through a pointer or in a prototype is not above it. -/
def Tag.Below (rank : CuType → ℕ) (bound : ℕ) (mode : TypeMode) (ref : CuType) : Tag → Prop
  | .typedef .. => if mode = .value then rank ref < bound else rank ref ≤ bound
  | .aggregate ty =>
      if ty.kind = .classType then True
      else if ty.name = none ∨ mode = .value then rank ref < bound
      else mode = .parameter → rank ref ≤ bound
  | _ => True

def Below (rank : CuType → ℕ) (bound cu : ℕ) (q : TypeMode × TypeId) : Prop :=
  ∀ mode id tag, Reaches cus cu q.1 q.2 mode id → typeAt cus ⟨cu, id⟩ = some tag →
    tag.Below rank bound mode ⟨cu, id⟩

/-- `type__name` before any disambiguation. -/
def nameAt (ref : CuType) : Option String := (typeAt cus ref).bind Tag.typeName?

/-- No type contains itself: not through the types of members, and neither where a part of the way
leads through pointers to typedefs, or through prototypes. -/
structure Ranked (rank : CuType → ℕ) : Prop where
  spelled : ∀ ref, ∀ q ∈ spelled cus ref, Below cus rank (rank ref) ref.cu q
  /-- structs of one name are the same struct -/
  same : ∀ {ref ref' kind name}, kindAt cus ref = some (.aggregate kind) →
    kindAt cus ref' = some (.aggregate kind) → nameAt cus ref = some name →
      nameAt cus ref' = some name → rank ref = rank ref'

/-- Types of one name are of one kind, where their kinds may be defined twice, and an
enumeration without a name has at most one typedef. -/
structure PlainNames : Prop where
  oneKind : ∀ {ref ref' kind kind' name}, kindAt cus ref = some kind → kindAt cus ref' = some kind' →
    kind.canHaveShadowDefinition = true → kind'.canHaveShadowDefinition = true →
      nameAt cus ref = some name → nameAt cus ref' = some name → kind = kind'
  oneTypedef : ∀ {cu id id' type name name' annots annots' etype},
    typeAt cus ⟨cu, id⟩ = some (.typedef name type annots) →
      typeAt cus ⟨cu, id'⟩ = some (.typedef name' type annots') →
        typeAt cus ⟨cu, type⟩ = some (.enumeration etype) → etype.name = none → id = id'

end Mentions

section Reaching

variable {cus : ℕ → TypesTable} {skip : Bool} {rank : CuType → ℕ} {bound cu : ℕ}
  {mode : TypeMode} {id : TypeId} {tag : Tag} {q : TypeMode × TypeId} {μ : Mention}
  {written written' : List Emitted}

theorem Reaches.cases {mode' : TypeMode} {id' : TypeId} (h : Reaches cus cu mode id mode' id')
    (htag : typeAt cus ⟨cu, id⟩ = some tag) : (mode' = mode ∧ id' = id) ∨
      ∃ q ∈ tag.next mode, Reaches cus cu q.1 q.2 mode' id' := by
  cases h with
  | here => exact Or.inl ⟨rfl, rfl⟩
  | next htag' hq hreaches =>
      obtain rfl := Option.some.inj (htag'.symm.trans htag)
      exact Or.inr ⟨_, hq, hreaches⟩

theorem mentions_iff (htag : typeAt cus ⟨cu, id⟩ = some tag) :
    Mentions cus skip cu (mode, id) μ ↔
      tag.mention skip mode = some μ ∨ ∃ q ∈ tag.next mode, Mentions cus skip cu q μ := by
  constructor
  · rintro ⟨mode', id', tag', hreaches, htag', hmention⟩
    rcases hreaches.cases htag with ⟨rfl, rfl⟩ | ⟨q, hq, hreaches⟩
    · obtain rfl := Option.some.inj (htag'.symm.trans htag)
      exact Or.inl hmention
    · exact Or.inr ⟨q, hq, mode', id', tag', hreaches, htag', hmention⟩
  · rintro (hmention | ⟨q, hq, mode', id', tag', hreaches, htag', hmention⟩)
    · exact ⟨mode, id, tag, .here, htag, hmention⟩
    · exact ⟨mode', id', tag', .next htag hq hreaches, htag', hmention⟩

/-- A type id without a type mentions nothing. -/
theorem not_mentions (htag : typeAt cus ⟨cu, id⟩ = none) :
    ¬Mentions cus skip cu (mode, id) μ := by
  rintro ⟨mode', id', tag', hreaches, htag', -⟩
  cases hreaches with
  | here =>
      rw [htag] at htag'
      cases htag'
  | next htag'' _ _ =>
      rw [htag] at htag''
      cases htag''

theorem Below.here (h : Below cus rank bound cu (mode, id))
    (htag : typeAt cus ⟨cu, id⟩ = some tag) : tag.Below rank bound mode ⟨cu, id⟩ :=
  h mode id tag .here htag

theorem Below.next (h : Below cus rank bound cu (mode, id))
    (htag : typeAt cus ⟨cu, id⟩ = some tag) (hq : q ∈ tag.next mode) : Below cus rank bound cu q :=
  fun mode' id' tag' hreaches htag' => h mode' id' tag' (.next htag hq hreaches) htag'

theorem below_iff (htag : typeAt cus ⟨cu, id⟩ = some tag) : Below cus rank bound cu (mode, id) ↔
    tag.Below rank bound mode ⟨cu, id⟩ ∧ ∀ q ∈ tag.next mode, Below cus rank bound cu q := by
  refine ⟨fun h => ⟨h.here htag, fun q hq => h.next htag hq⟩, ?_⟩
  rintro ⟨hhere, hnext⟩ mode' id' tag' hreaches htag'
  rcases hreaches.cases htag with ⟨rfl, rfl⟩ | ⟨q, hq, hreaches⟩
  · obtain rfl := Option.some.inj (htag'.symm.trans htag)
    exact hhere
  · exact hnext q hq mode' id' tag' hreaches htag'

theorem Declared.mono (h : Declared cus written μ) (hle : written <+: written') :
    Declared cus written' μ := by
  obtain ⟨x, hx, hdeclares⟩ := h
  exact ⟨x, hle.subset hx, hdeclares⟩

theorem declared_concat {x : Emitted} (h : x.declares cus = some μ) :
    Declared cus (written ++ [x]) μ :=
  ⟨x, List.mem_append_right _ (List.mem_singleton_self x), h⟩

/-- Writing what mentions only what is declared keeps the order. -/
theorem DeclaredFirst.concat {x : Emitted} (h : DeclaredFirst cus skip written)
    (hx : ∀ ref, x.type? = some ref → ∀ q ∈ spelled cus ref, ∀ μ,
      Mentions cus skip ref.cu q μ → Declared cus written μ) :
    DeclaredFirst cus skip (written ++ [x]) := by
  intro pre y post ref hsplit htype
  rcases List.eq_nil_or_concat post with rfl | ⟨post, z, rfl⟩
  · obtain ⟨rfl, hlast⟩ := List.append_inj' hsplit rfl
    obtain rfl := (List.cons.inj hlast).1
    exact hx ref htype
  · have hsplit' : written ++ [x] = (pre ++ y :: post) ++ [z] := by
      rw [hsplit, List.concat_eq_append, List.append_assoc, List.cons_append]
    obtain ⟨hwritten, -⟩ := List.append_inj' hsplit' rfl
    exact h pre y post ref hwritten htype

end Reaching

/-! ## The invariant of a run -/

section Kept

/-- All that the spellings of `qs` mention is declared. -/
def AllDeclared (cus : ℕ → TypesTable) (skip : Bool) (written : List Emitted) (cu : ℕ)
    (qs : List (TypeMode × TypeId)) : Prop :=
  ∀ q ∈ qs, ∀ μ, Mentions cus skip cu q μ → Declared cus written μ

/-- The invariant of a type that is marked: its name is declared, or it is one of the pending
types; for a type without a name, what its definition mentions is. -/
def Settled (cus : ℕ → TypesTable) (skip : Bool) (written : List Emitted) (pending : List CuType)
    (ref : CuType) : Prop :=
  match typeAt cus ref with
  | some (.baseType bt) => ∀ name ∈ bt.name, Declared cus written (.atomic name)
  | some (.typedef name _ _) => ∀ n ∈ name, Declared cus written (.typedef n)
  | some (.enumeration etype) =>
      match etype.name with
      | some name => Declared cus written (.complete .enumeration name)
      | none => ∃ id name annots, typeAt cus ⟨ref.cu, id⟩ = some (.typedef name ref.id annots) ∧
          ∀ n ∈ name, Declared cus written (.typedef n)
  | some (.aggregate ty) =>
      match ty.name with
      | some name => Declared cus written (.complete (.aggregate ty.kind) name) ∨
          ∃ p ∈ pending, kindAt cus p = some (.aggregate ty.kind) ∧ nameAt cus p = some name
      | none => ref ∈ pending ∨ AllDeclared cus skip written ref.cu (spelled cus ref)
  | _ => True

/-- The invariant of the emission. -/
structure Kept (cus : ℕ → TypesTable) (skip : Bool) (pending : List CuType) (e : Emissions) :
    Prop where
  names : e.names = nameAt cus
  definitions : ∀ ref ∈ e.definitions, e.definitionEmitted ref = true
  baseTypes : ∀ ref ∈ e.baseTypeDefinitions, e.definitionEmitted ref = true
  fwdDecls : ∀ ref ∈ e.fwdDecls, e.fwdDeclEmitted ref = true
  settled : ∀ ref, e.definitionEmitted ref = true → Settled cus skip e.written pending ref
  forwards : ∀ ref, e.fwdDeclEmitted ref = true →
    ∀ name ∈ nameAt cus ref, Declared cus e.written (.forward name)
  first : DeclaredFirst cus skip e.written

variable {cus : ℕ → TypesTable} {skip : Bool} {pending : List CuType} {e : Emissions}
  {ref : CuType} {written written' : List Emitted} {qs : List (TypeMode × TypeId)} {cu : ℕ}

theorem AllDeclared.mono (h : AllDeclared cus skip written cu qs) (hle : written <+: written') :
    AllDeclared cus skip written' cu qs :=
  fun q hq μ hμ => (h q hq μ hμ).mono hle

theorem Settled.mono (h : Settled cus skip written pending ref) (hle : written <+: written') :
    Settled cus skip written' pending ref := by
  unfold Settled at h ⊢
  split
  · next bt htag =>
      rw [htag] at h
      exact fun name hname => (h name hname).mono hle
  · next name _ _ htag =>
      rw [htag] at h
      exact fun n hn => (h n hn).mono hle
  · next etype htag =>
      rw [htag] at h
      split
      · next name hname =>
          dsimp only at h
          rw [hname] at h
          exact Declared.mono h hle
      · next hname =>
          dsimp only at h
          rw [hname] at h
          obtain ⟨id, name, annots, htypedef, hdeclared⟩ := h
          exact ⟨id, name, annots, htypedef, fun n hn => (hdeclared n hn).mono hle⟩
  · next ty htag =>
      rw [htag] at h
      split
      · next name hname =>
          dsimp only at h
          rw [hname] at h
          exact h.imp_left fun hdeclared => Declared.mono hdeclared hle
      · next hname =>
          dsimp only at h
          rw [hname] at h
          exact h.imp_right fun hdeclared => AllDeclared.mono hdeclared hle
  · trivial

section Settled

variable {name : Option String} {n : String} {type : TypeId} {annots : List LlvmAnnotation}
  {etype : Enumeration} {ty : Aggregate} {bt : BaseType}

theorem settled_baseType (htag : typeAt cus ref = some (.baseType bt)) :
    Settled cus skip written pending ref ↔ ∀ n ∈ bt.name, Declared cus written (.atomic n) := by
  rw [Settled, htag]

theorem settled_typedef (htag : typeAt cus ref = some (.typedef name type annots)) :
    Settled cus skip written pending ref ↔ ∀ n ∈ name, Declared cus written (.typedef n) := by
  rw [Settled, htag]

theorem settled_enumeration (htag : typeAt cus ref = some (.enumeration etype))
    (hname : etype.name = some n) : Settled cus skip written pending ref ↔
      Declared cus written (.complete .enumeration n) := by
  rw [Settled, htag]
  dsimp only
  rw [hname]

theorem settled_unnamedEnumeration (htag : typeAt cus ref = some (.enumeration etype))
    (hname : etype.name = none) : Settled cus skip written pending ref ↔
      ∃ id name annots, typeAt cus ⟨ref.cu, id⟩ = some (.typedef name ref.id annots) ∧
        ∀ n ∈ name, Declared cus written (.typedef n) := by
  rw [Settled, htag]
  dsimp only
  rw [hname]

theorem settled_aggregate (htag : typeAt cus ref = some (.aggregate ty)) (hname : ty.name = some n) :
    Settled cus skip written pending ref ↔
      Declared cus written (.complete (.aggregate ty.kind) n) ∨
        ∃ p ∈ pending, kindAt cus p = some (.aggregate ty.kind) ∧ nameAt cus p = some n := by
  rw [Settled, htag]
  dsimp only
  rw [hname]

theorem settled_unnamed (htag : typeAt cus ref = some (.aggregate ty)) (hname : ty.name = none) :
    Settled cus skip written pending ref ↔
      ref ∈ pending ∨ AllDeclared cus skip written ref.cu (spelled cus ref) := by
  rw [Settled, htag]
  dsimp only
  rw [hname]

end Settled

theorem mark_flag_iff {ref' : CuType} : (e.mark ref).definitionEmitted ref' = true ↔
    ref' = ref ∨ e.definitionEmitted ref' = true := by
  rcases eq_or_ne ref' ref with rfl | hne
  · exact iff_of_true (Function.update_self _ _ _) (Or.inl rfl)
  · change Function.update e.definitionEmitted ref true ref' = true ↔ _
    rw [Function.update_of_ne hne]
    exact (or_iff_right hne).symm

theorem Kept.mark (h : Kept cus skip pending e) (href : Settled cus skip e.written pending ref) :
    Kept cus skip pending (e.mark ref) where
  names := h.names
  definitions ref' href' := mark_flag _ (h.definitions ref' href')
  baseTypes ref' href' := mark_flag _ (h.baseTypes ref' href')
  fwdDecls := h.fwdDecls
  settled ref' href' := by
    rcases mark_flag_iff.mp href' with rfl | hold
    · exact href
    · exact h.settled ref' hold
  forwards := h.forwards
  first := h.first

theorem Kept.addDefinition (h : Kept cus skip pending e)
    (href : Settled cus skip e.written pending ref) :
    Kept cus skip pending (e.addDefinition ref) where
  names := h.names
  definitions := marked_addDefinition h.definitions
  baseTypes := (h.mark href).baseTypes
  fwdDecls ref' href' := h.fwdDecls ref' (List.mem_of_mem_erase href')
  settled := (h.mark href).settled
  forwards := h.forwards
  first := h.first

theorem Kept.addBaseTypeDefinition (h : Kept cus skip pending e)
    (href : Settled cus skip e.written pending ref) :
    Kept cus skip pending (e.addBaseTypeDefinition ref) where
  names := h.names
  definitions := (h.mark href).definitions
  baseTypes ref' href' := by
    rcases List.mem_append.mp href' with hmem | hmem
    · exact (h.mark href).baseTypes ref' (List.mem_of_mem_erase hmem)
    · exact mark_flag_iff.mpr (Or.inl (List.mem_singleton.mp hmem))
  fwdDecls := h.fwdDecls
  settled := (h.mark href).settled
  forwards := h.forwards
  first := h.first

theorem markFwdDecl_flag {ref' : CuType} : (e.markFwdDecl ref).fwdDeclEmitted ref' = true ↔
    ref' = ref ∨ e.fwdDeclEmitted ref' = true := by
  rcases eq_or_ne ref' ref with rfl | hne
  · exact iff_of_true (Function.update_self _ _ _) (Or.inl rfl)
  · change Function.update e.fwdDeclEmitted ref true ref' = true ↔ _
    rw [Function.update_of_ne hne]
    exact (or_iff_right hne).symm

theorem Kept.markFwdDecl (h : Kept cus skip pending e)
    (href : ∀ name ∈ nameAt cus ref, Declared cus e.written (.forward name)) :
    Kept cus skip pending (e.markFwdDecl ref) where
  names := h.names
  definitions := h.definitions
  baseTypes := h.baseTypes
  fwdDecls ref' href' := markFwdDecl_flag.mpr (Or.inr (h.fwdDecls ref' href'))
  settled := h.settled
  forwards ref' href' := by
    rcases markFwdDecl_flag.mp href' with rfl | hold
    · exact href
    · exact h.forwards ref' hold
  first := h.first

theorem Kept.addFwdDecl (h : Kept cus skip pending e)
    (href : ∀ name ∈ nameAt cus ref, Declared cus e.written (.forward name)) :
    Kept cus skip pending (e.addFwdDecl ref) where
  names := h.names
  definitions := h.definitions
  baseTypes := h.baseTypes
  fwdDecls ref' href' := by
    have hmem : ref' ∈ e.fwdDecls ∨ ref' = ref := by
      change ref' ∈ (if ref ∈ e.definitions ∨ ref ∈ e.fwdDecls then e.fwdDecls
        else e.fwdDecls ++ [ref]) at href'
      split at href'
      · exact Or.inl href'
      · exact (List.mem_append.mp href').imp_right List.mem_singleton.mp
    rcases hmem with hmem | rfl
    · exact (h.markFwdDecl href).fwdDecls ref' hmem
    · exact markFwdDecl_flag.mpr (Or.inl rfl)
  settled := h.settled
  forwards := (h.markFwdDecl href).forwards
  first := h.first

theorem Kept.write {x : Emitted} (h : Kept cus skip pending e)
    (hx : ∀ ref, x.type? = some ref → AllDeclared cus skip e.written ref.cu (spelled cus ref)) :
    Kept cus skip pending (e.write x) where
  names := h.names
  definitions := h.definitions
  baseTypes := h.baseTypes
  fwdDecls := h.fwdDecls
  settled ref href := (h.settled ref href).mono (List.prefix_append _ _)
  forwards ref href name hname := (h.forwards ref href name hname).mono (List.prefix_append _ _)
  first := h.first.concat hx

/-- `Kept` holds with one more type pending. -/
theorem Kept.push (h : Kept cus skip pending e) : Kept cus skip (ref :: pending) e where
  names := h.names
  definitions := h.definitions
  baseTypes := h.baseTypes
  fwdDecls := h.fwdDecls
  settled ref' href' := by
    have hold := h.settled ref' href'
    unfold Settled at hold ⊢
    split
    · next htag => rwa [htag] at hold
    · next htag => rwa [htag] at hold
    · next htag => rwa [htag] at hold
    · next ty htag =>
        rw [htag] at hold
        dsimp only at hold
        split
        · next name hname =>
            rw [hname] at hold
            exact hold.imp_right fun ⟨p, hp, hkey⟩ => ⟨p, List.mem_cons_of_mem _ hp, hkey⟩
        · next hname =>
            rw [hname] at hold
            exact hold.imp_left (List.mem_cons_of_mem _)
    · trivial
  forwards := h.forwards
  first := h.first

/-- The definition of a type has been written, or will be where it is spelled. -/
theorem Kept.pop {ty : Aggregate} (h : Kept cus skip (ref :: pending) e)
    (htag : typeAt cus ref = some (.aggregate ty))
    (hnamed : ∀ n, ty.name = some n → Declared cus e.written (.complete (.aggregate ty.kind) n))
    (hunnamed : ty.name = none → AllDeclared cus skip e.written ref.cu (spelled cus ref)) :
    Kept cus skip pending e where
  names := h.names
  definitions := h.definitions
  baseTypes := h.baseTypes
  fwdDecls := h.fwdDecls
  settled ref' href' := by
    have hold := h.settled ref' href'
    unfold Settled at hold ⊢
    split
    · next htag => rwa [htag] at hold
    · next htag => rwa [htag] at hold
    · next htag => rwa [htag] at hold
    · next ty' htag' =>
        rw [htag'] at hold
        dsimp only at hold
        split
        · next name hname =>
            rw [hname] at hold
            rcases hold with hdeclared | ⟨p, hp, hkind, hpname⟩
            · exact Or.inl hdeclared
            · rcases List.mem_cons.mp hp with rfl | hp
              · rw [kindAt, htag] at hkind
                rw [nameAt, htag] at hpname
                have hkindEq : ty.kind = ty'.kind := TypeKind.aggregate.inj (Option.some.inj hkind)
                rw [← hkindEq]
                exact Or.inl (hnamed name hpname)
              · exact Or.inr ⟨p, hp, hkind, hpname⟩
        · next hname =>
            rw [hname] at hold
            rcases hold with hmem | hdeclared
            · rcases List.mem_cons.mp hmem with rfl | hmem
              · obtain rfl := Tag.aggregate.inj (Option.some.inj (htag'.symm.trans htag))
                exact Or.inr (hunnamed hname)
              · exact Or.inl hmem
            · exact Or.inr hdeclared
    · trivial
  forwards := h.forwards
  first := h.first

end Kept

/-! ## The procedures -/

section Prepares

variable {cus : ℕ → TypesTable} {skip : Bool} {rank : CuType → ℕ} {rec : EmitCall → EmitM Bool}
  {pending : List CuType} {e e' e'' : Emissions} {ref : CuType} {bound cu : ℕ}

/-- Where a run is cut short, what has been written is in order. -/
abbrev CutInOrder (cus : ℕ → TypesTable) (skip : Bool) (e : Emissions) : Prop :=
  DeclaredFirst cus skip e.written

/-- `e'` is kept, and has all that `e` has written. -/
structure GoesOn (cus : ℕ → TypesTable) (skip : Bool) (pending : List CuType) (e e' : Emissions) :
    Prop where
  kept : Kept cus skip pending e'
  grows : e.written <+: e'.written

/-- The types whose definitions are being prepared are not below the bound. -/
def NotBelow (rank : CuType → ℕ) (bound : ℕ) (pending : List CuType) : Prop :=
  ∀ p ∈ pending, bound ≤ rank p

/-- The postcondition of each call: the invariant is kept, and what the call is to spell has
been declared. -/
def EmitCall.Prepares (cus : ℕ → TypesTable) (skip : Bool) (rank : CuType → ℕ) :
    EmitCall → EmitM Bool → Prop
  | .tag cu pointer t, p => ∀ mode bound pending e, pointer = decide (mode = .pointer) →
      NotBelow rank bound pending → Below cus rank bound cu (mode, t) → Kept cus skip pending e →
        Ensures p e (fun _ e' => GoesOn cus skip pending e e' ∧
          AllDeclared cus skip e'.written cu [(mode, t)]) (CutInOrder cus skip)
  | .typedef ref, p => ∀ pending e, NotBelow rank (rank ref) pending → Kept cus skip pending e →
      kindAt cus ref = some .typedef →
        Ensures p e (fun _ e' => GoesOn cus skip pending e e' ∧
          ∀ n ∈ nameAt cus ref, Declared cus e'.written (.typedef n)) (CutInOrder cus skip)
  | .ftype cu ft, p => ∀ bound pending e, NotBelow rank bound pending →
      (∀ q ∈ (Tag.subroutine ft).next .parameter, Below cus rank bound cu q) →
        Kept cus skip pending e →
          Ensures p e (fun _ e' => GoesOn cus skip pending e e' ∧
            AllDeclared cus skip e'.written cu ((Tag.subroutine ft).next .parameter))
            (CutInOrder cus skip)
  | .type ref, p => ∀ ty pending e, NotBelow rank (rank ref) pending → Kept cus skip pending e →
      typeAt cus ref = some (.aggregate ty) →
        Ensures p e (fun printed e' => e.written <+: e'.written ∧
          if printed = true then Kept cus skip (ref :: pending) e' ∧
            AllDeclared cus skip e'.written ref.cu (spelled cus ref)
          else Kept cus skip pending e' ∧ Settled cus skip e'.written pending ref)
          (CutInOrder cus skip)

theorem GoesOn.refl (h : Kept cus skip pending e) : GoesOn cus skip pending e e :=
  ⟨h, List.prefix_rfl⟩

theorem GoesOn.trans (h : GoesOn cus skip pending e e') (h' : GoesOn cus skip pending e' e'') :
    GoesOn cus skip pending e e'' :=
  ⟨h'.kept, h.grows.trans h'.grows⟩

theorem Kept.writePlain {x : Emitted} (h : Kept cus skip pending e) (hx : x.type? = none) :
    Kept cus skip pending (e.write x) := by
  refine h.write fun ref htype => ?_
  rw [hx] at htype
  cases htype

theorem GoesOn.text (h : GoesOn cus skip pending e e') (s : String) :
    GoesOn cus skip pending e (e'.write (.text s)) :=
  ⟨h.kept.writePlain rfl, h.grows.trans (List.prefix_append _ _)⟩

theorem Kept.goesOn_mark (h : Kept cus skip pending e)
    (href : Settled cus skip e.written pending ref) : GoesOn cus skip pending e (e.mark ref) :=
  ⟨h.mark href, List.prefix_rfl⟩

theorem typeAt_of_kindAt {kind : TypeKind} (h : kindAt cus ref = some kind) :
    ∃ tag, typeAt cus ref = some tag ∧ tag.typeKind? = some kind :=
  Option.bind_eq_some_iff.mp h

theorem typeAt_enumeration (h : kindAt cus ref = some .enumeration) :
    ∃ etype, typeAt cus ref = some (.enumeration etype) := by
  obtain ⟨tag, htag, hkind⟩ := typeAt_of_kindAt h
  cases tag with
  | enumeration etype => exact ⟨etype, htag⟩
  | _ => cases hkind

theorem typeAt_typedef (h : kindAt cus ref = some .typedef) :
    ∃ name type annots, typeAt cus ref = some (.typedef name type annots) := by
  obtain ⟨tag, htag, hkind⟩ := typeAt_of_kindAt h
  cases tag with
  | typedef name type annots => exact ⟨name, type, annots, htag⟩
  | _ => cases hkind

theorem typeAt_aggregate {kind : AggregateKind} (h : kindAt cus ref = some (.aggregate kind)) :
    ∃ ty : Aggregate, typeAt cus ref = some (.aggregate ty) ∧ ty.kind = kind := by
  obtain ⟨tag, htag, hkind⟩ := typeAt_of_kindAt h
  cases tag with
  | aggregate ty => exact ⟨ty, htag, TypeKind.aggregate.inj (Option.some.inj hkind)⟩
  | _ => cases hkind

/-- If a definition is found in the list, a type of its kind and name is `Settled`. -/
theorem Kept.of_found {kind : TypeKind} {name : String} (h : Kept cus skip pending e)
    (hfound : (e.findDefinition cus kind (some name)).isSome = true) :
    ∃ pos, Settled cus skip e.written pending pos ∧ kindAt cus pos = some kind ∧
      nameAt cus pos = some name := by
  obtain ⟨pos, hpos⟩ := Option.isSome_iff_exists.mp hfound
  have hfind : (e.definitions.find? fun pos =>
      decide (kindAt cus pos = some kind ∧ e.names pos = some name)) = some pos := hpos
  have hpred := List.find?_some hfind
  obtain ⟨hkind, hname⟩ := of_decide_eq_true hpred
  have hmem := List.mem_of_find?_eq_some hfind
  rw [h.names] at hname
  exact ⟨pos, h.settled pos (h.definitions pos hmem), hkind, hname⟩

theorem baseTypeEmitDefinitions_prepares {bt : BaseType} {name : String}
    (htag : typeAt cus ref = some (.baseType bt)) (hname : bt.name = some name)
    (h : Kept cus skip pending e) :
    Ensures (baseTypeEmitDefinitions cus ref name) e
      (fun _ e' => GoesOn cus skip pending e e' ∧
        ("atomic_".toList <+: name.toList → Declared cus e'.written (.atomic name)))
      (CutInOrder cus skip) := by
  refine ensures_getThen (ensures_ite (fun hflag => ?_) fun _ => ?_)
  · refine ensures_pure ⟨.refl h, fun _ => ?_⟩
    exact (settled_baseType htag).mp (h.settled ref hflag) name hname
  refine ensures_ite (fun hprefix => ?_) fun _ => ?_
  · exact ensures_pure ⟨.refl h, fun hatomic => absurd hatomic hprefix⟩
  refine ensures_ite (fun hfound => ?_) fun _ => ?_
  · obtain ⟨pos, hpos⟩ := Option.isSome_iff_exists.mp hfound
    have hfind : (e.baseTypeDefinitions.find? fun pos =>
        decide (baseTypeNameAt cus pos = some name)) = some pos := hpos
    have hpred := List.find?_some hfind
    have hposName := of_decide_eq_true hpred
    have hmem := List.mem_of_find?_eq_some hfind
    have hdeclared : Declared cus e.written (.atomic name) := by
      have hsettled := h.settled pos (h.baseTypes pos hmem)
      unfold baseTypeNameAt at hposName
      split at hposName
      · next htag' => exact (settled_baseType htag').mp hsettled name hposName
      · cases hposName
    have hsettled : Settled cus skip e.written pending ref := by
      rw [settled_baseType htag]
      intro n hn
      obtain rfl := Option.some.inj (hname.symm.trans hn)
      exact hdeclared
    exact ⟨h.goesOn_mark hsettled, fun _ => hdeclared⟩
  · set x := Emitted.atomicTypedef name
      ("typedef _Atomic" ++ nonAtomicType (name.toList.drop 7) ++ " " ++ name ++ ";\n") with hx
    have hwritten : Kept cus skip pending (e.write x) := h.writePlain rfl
    have hdeclared : Declared cus (e.write x).written (.atomic name) := declared_concat rfl
    have hsettled : Settled cus skip (e.write x).written pending ref := by
      rw [settled_baseType htag]
      intro n hn
      obtain rfl := Option.some.inj (hname.symm.trans hn)
      exact hdeclared
    exact ⟨⟨hwritten.addBaseTypeDefinition hsettled, List.prefix_append _ _⟩, fun _ => hdeclared⟩

/-- Emitting an enumeration with a name writes its definition. -/
theorem enumerationEmitDefinitions_prepares {etype : Enumeration} {n : String}
    (htag : typeAt cus ref = some (.enumeration etype)) (hname : etype.name = some n)
    (h : Kept cus skip pending e) :
    Ensures (enumerationEmitDefinitions cus ref etype none) e
      (fun _ e' => GoesOn cus skip pending e e' ∧
        Declared cus e'.written (.complete .enumeration n)) (CutInOrder cus skip) := by
  have hnames : e.names ref = some n := by
    rw [h.names, nameAt, htag]
    exact hname
  refine ensures_getThen (ensures_ite (fun hflag => ?_) fun _ => ?_)
  · exact ensures_pure ⟨.refl h, (settled_enumeration htag hname).mp (h.settled ref hflag)⟩
  refine ensures_ite (fun hfound => ?_) fun _ => ?_
  · rw [hnames] at hfound
    obtain ⟨pos, hsettled, hkind, hposName⟩ := h.of_found hfound
    obtain ⟨etype', htag'⟩ := typeAt_enumeration hkind
    rw [nameAt, htag'] at hposName
    have hdeclared := (settled_enumeration htag' hposName).mp hsettled
    exact ⟨h.goesOn_mark ((settled_enumeration htag hname).mpr hdeclared), hdeclared⟩
  · rw [hnames]
    set x := Emitted.definition ref (some n) none none with hx
    have hwritten : Kept cus skip pending (e.write x) := by
      refine h.write fun ref' htype => ?_
      obtain rfl : ref = ref' := Option.some.inj htype
      intro q hq
      rw [spelled, htag] at hq
      cases hq
    have hdeclared : Declared cus (e.write x).written (.complete .enumeration n) := by
      refine declared_concat ?_
      rw [hx, Emitted.declares, kindAt, htag]
      rfl
    have hgoes : GoesOn cus skip pending e ((e.write x).write (.text ";\n")) :=
      GoesOn.text ⟨hwritten, List.prefix_append _ _⟩ _
    have hdeclared' := hdeclared.mono (List.prefix_append _ [.text ";\n"])
    by_cases hvalues : etype.values ≠ []
    · rw [provided, if_pos hvalues]
      exact ⟨⟨hgoes.kept.addDefinition ((settled_enumeration htag hname).mpr hdeclared'),
        hgoes.grows⟩, hdeclared'⟩
    · rw [provided, if_neg hvalues]
      exact ⟨hgoes, hdeclared'⟩

/-- Emitting an enumeration without a name for a typedef writes the typedef. -/
theorem enumerationEmitDefinitions_typedef (hplain : PlainNames cus) {etype : Enumeration}
    {id : TypeId} {name : Option String} {annots : List LlvmAnnotation}
    (htypedef : typeAt cus ⟨ref.cu, id⟩ = some (.typedef name ref.id annots))
    (htag : typeAt cus ref = some (.enumeration etype)) (hname : etype.name = none)
    (h : Kept cus skip pending e) :
    Ensures (enumerationEmitDefinitions cus ref etype name) e
      (fun _ e' => GoesOn cus skip pending e e' ∧
        ∀ n ∈ name, Declared cus e'.written (.typedef n)) (CutInOrder cus skip) := by
  have hnames : e.names ref = none := by
    rw [h.names, nameAt, htag]
    exact hname
  refine ensures_getThen (ensures_ite (fun hflag => ?_) fun _ => ?_)
  · obtain ⟨id', name', annots', htypedef', hdeclared⟩ :=
      (settled_unnamedEnumeration htag hname).mp (h.settled ref hflag)
    obtain rfl := hplain.oneTypedef htypedef htypedef' htag hname
    obtain ⟨rfl, -, -⟩ := Tag.typedef.inj (Option.some.inj (htypedef.symm.trans htypedef'))
    exact ensures_pure ⟨.refl h, hdeclared⟩
  refine ensures_ite (fun hfound => ?_) fun _ => ?_
  · rw [hnames] at hfound
    cases hfound
  · rw [hnames]
    set x := Emitted.definition ref none none name with hx
    have hwritten : Kept cus skip pending (e.write x) := by
      refine h.write fun ref' htype => ?_
      obtain rfl : ref = ref' := Option.some.inj htype
      intro q hq
      rw [spelled, htag] at hq
      cases hq
    have hdeclared : ∀ n ∈ name, Declared cus (e.write x).written (.typedef n) := by
      intro n hn
      refine declared_concat ?_
      rw [hx, Emitted.declares, Option.mem_def.mp hn]
      rfl
    have hgoes : GoesOn cus skip pending e ((e.write x).write (.text ";\n")) :=
      GoesOn.text ⟨hwritten, List.prefix_append _ _⟩ _
    have hdeclared' : ∀ n ∈ name, Declared cus ((e.write x).write (.text ";\n")).written (.typedef n) :=
      fun n hn => (hdeclared n hn).mono (List.prefix_append _ _)
    by_cases hvalues : etype.values ≠ []
    · rw [provided, if_pos hvalues]
      exact ⟨⟨hgoes.kept.addDefinition ((settled_unnamedEnumeration htag hname).mpr
        ⟨id, name, annots, htypedef, hdeclared'⟩), hgoes.grows⟩, hdeclared'⟩
    · rw [provided, if_neg hvalues]
      exact ⟨hgoes, hdeclared'⟩

theorem typeEmitFwdDecl_prepares (isUnion : Bool) (h : Kept cus skip pending e) :
    Ensures (typeEmitFwdDecl ref isUnion) e
      (fun _ e' => GoesOn cus skip pending e e' ∧
        ∀ n ∈ nameAt cus ref, Declared cus e'.written (.forward n)) (CutInOrder cus skip) := by
  refine ensures_getThen (ensures_ite (fun hflag => ?_) fun _ => ?_)
  · exact ensures_pure ⟨.refl h, h.forwards ref hflag⟩
  cases hname : e.names ref with
  | none =>
      rw [h.names] at hname
      refine ensures_pure ⟨.refl h, fun n hn => ?_⟩
      rw [hname] at hn
      cases hn
  | some name =>
      have hnameAt : nameAt cus ref = some name := by rw [← h.names, hname]
      refine ensures_ite (fun hfound => ?_) fun _ => ?_
      · obtain ⟨pos, hpos⟩ := Option.isSome_iff_exists.mp hfound
        have hfind : (e.fwdDecls.find? fun pos => decide (e.names pos = some name)) = some pos := hpos
        have hpred := List.find?_some hfind
        have hposName := of_decide_eq_true hpred
        rw [h.names] at hposName
        have hdeclared : ∀ n ∈ nameAt cus ref, Declared cus e.written (.forward n) := by
          intro n hn
          rw [hnameAt] at hn
          obtain rfl := Option.some.inj hn
          exact h.forwards pos (h.fwdDecls pos (List.mem_of_find?_eq_some hfind)) _ hposName
        exact ⟨⟨h.markFwdDecl hdeclared, List.prefix_rfl⟩, hdeclared⟩
      · have hwritten : Kept cus skip pending (e.write (.fwdDecl isUnion name)) := h.writePlain rfl
        have hdeclared : ∀ n ∈ nameAt cus ref,
            Declared cus (e.write (.fwdDecl isUnion name)).written (.forward n) := by
          intro n hn
          rw [hnameAt] at hn
          obtain rfl := Option.some.inj hn
          exact declared_concat rfl
        exact ⟨⟨hwritten.addFwdDecl hdeclared, List.prefix_append _ _⟩, hdeclared⟩

theorem settled_of_declared {ty : Aggregate} {written : List Emitted}
    (htag : typeAt cus ref = some (.aggregate ty))
    (hnamed : ∀ n, ty.name = some n → Declared cus written (.complete (.aggregate ty.kind) n))
    (hunnamed : ty.name = none → AllDeclared cus skip written ref.cu (spelled cus ref)) :
    Settled cus skip written pending ref := by
  cases hname : ty.name with
  | none => exact (settled_unnamed htag hname).mpr (Or.inr (hunnamed hname))
  | some n => exact (settled_aggregate htag hname).mpr (Or.inl (hnamed n hname))

/-- A struct that is below all those that are being prepared is not one of them. -/
theorem Settled.declared {ty : Aggregate} {written : List Emitted} (hranked : Ranked cus rank)
    (htag : typeAt cus ref = some (.aggregate ty)) (h : Settled cus skip written pending ref)
    (hlt : rank ref < bound) (hbound : NotBelow rank bound pending) :
    (∀ n, ty.name = some n → Declared cus written (.complete (.aggregate ty.kind) n)) ∧
      (ty.name = none → AllDeclared cus skip written ref.cu (spelled cus ref)) := by
  refine ⟨fun n hname => ?_, fun hname => ?_⟩
  · rcases (settled_aggregate htag hname).mp h with hdeclared | ⟨p, hp, hkind, hpname⟩
    · exact hdeclared
    · have hkind' : kindAt cus ref = some (.aggregate ty.kind) := by rw [kindAt, htag]; rfl
      have hname' : nameAt cus ref = some n := by rw [nameAt, htag]; exact hname
      have hsame := hranked.same hkind' hkind hname' hpname
      exact absurd (hbound p hp) (by omega)
  · rcases (settled_unnamed htag hname).mp h with hmem | hdeclared
    · exact absurd (hbound ref hmem) (by omega)
    · exact hdeclared

/-- The definition of a struct is written, unless it has no name. -/
theorem typeEmit_prepares {ty : Aggregate} (pre suf : Option String)
    (htag : typeAt cus ref = some (.aggregate ty)) (h : Kept cus skip (ref :: pending) e)
    (hmembers : AllDeclared cus skip e.written ref.cu (spelled cus ref)) :
    Ensures (typeEmit ref pre suf) e
      (fun _ e' => GoesOn cus skip pending e e' ∧ Settled cus skip e'.written pending ref ∧
        (ty.name = none → pre ≠ none → ∀ n ∈ suf, Declared cus e'.written (.typedef n)))
      (CutInOrder cus skip) := by
  have hnames : e.names ref = ty.name := by
    rw [h.names, nameAt, htag]
    rfl
  refine ensures_getThen (ensures_provided (fun _ => ?_) fun hnot => ?_)
  · rw [hnames]
    set x := Emitted.definition ref ty.name pre suf with hx
    have hwritten : Kept cus skip (ref :: pending) (e.write x) := by
      refine h.write fun ref' htype => ?_
      obtain rfl : ref = ref' := Option.some.inj htype
      exact hmembers
    have hnamed : ∀ n, ty.name = some n →
        Declared cus (e.write x).written (.complete (.aggregate ty.kind) n) := by
      intro n hn
      refine declared_concat ?_
      rw [hx, hn, Emitted.declares, kindAt, htag]
      rfl
    have hmembers' := hmembers.mono (List.prefix_append e.written [x])
    have hgoes : GoesOn cus skip pending e (e.write x) :=
      ⟨hwritten.pop htag hnamed fun _ => hmembers', List.prefix_append _ _⟩
    have hle : (e.write x).written <+: ((e.write x).write (.text "\n")).written :=
      List.prefix_append _ _
    refine ⟨hgoes.text _, ?_, fun hname _ n hn => Declared.mono (declared_concat ?_) hle⟩
    · exact (settled_of_declared htag hnamed fun _ => hmembers').mono hle
    · rw [hx, hname, Emitted.declares, Option.mem_def.mp hn]
      rfl
  · rw [hnames, not_or, not_or, not_ne_iff, not_ne_iff, not_ne_iff] at hnot
    have hnamed : ∀ n, ty.name = some n →
        Declared cus e.written (.complete (.aggregate ty.kind) n) := by
      intro n hn
      rw [hnot.1] at hn
      cases hn
    refine ⟨⟨h.pop htag hnamed fun _ => hmembers, List.prefix_rfl⟩, ?_, fun _ hpre => ?_⟩
    · exact settled_of_declared htag hnamed fun _ => hmembers
    · exact absurd hnot.2.2 hpre

theorem emitAggregate_prepares (hrec : ∀ call : EmitCall, call.Prepares cus skip rank (rec call))
    {ty : Aggregate} (htag : typeAt cus ref = some (.aggregate ty))
    (hbound : NotBelow rank (rank ref) pending) (h : Kept cus skip pending e) :
    Ensures (emitAggregate rec ref) e
      (fun _ e' => GoesOn cus skip pending e e' ∧ Settled cus skip e'.written pending ref)
      (CutInOrder cus skip) := by
  refine Ensures.bind (hrec (.type ref) ty pending e hbound h htag) ?_
  rintro printed e' ⟨hgrows, hpost⟩
  refine ensures_provided (fun hprinted => ?_) fun hnot => ?_
  · rw [if_pos hprinted] at hpost
    obtain ⟨hkept, hmembers⟩ := hpost
    refine (typeEmit_prepares none none htag hkept hmembers).imp ?_ fun _ h' => h'
    exact fun _ e'' ⟨hgoes, hsettled, _⟩ => ⟨⟨hgoes.kept, hgrows.trans hgoes.grows⟩, hsettled⟩
  · rw [if_neg hnot] at hpost
    exact ⟨⟨hpost.1, hgrows⟩, hpost.2⟩

/-- A struct without a name is prepared where it is spelled. -/
theorem unnamed_prepares (hranked : Ranked cus rank)
    (hrec : ∀ call : EmitCall, call.Prepares cus skip rank (rec call)) {ty : Aggregate}
    (htag : typeAt cus ref = some (.aggregate ty)) (hname : ty.name = none)
    (hlt : rank ref < bound) (hbound : NotBelow rank bound pending) (h : Kept cus skip pending e) :
    Ensures (rec (.type ref)) e
      (fun _ e' => e.written <+: e'.written ∧ Kept cus skip pending e' ∧
        AllDeclared cus skip e'.written ref.cu (spelled cus ref)) (CutInOrder cus skip) := by
  have hbound' : NotBelow rank (rank ref) pending := fun p hp => hlt.le.trans (hbound p hp)
  refine (hrec (.type ref) ty pending e hbound' h htag).imp ?_ fun _ h' => h'
  rintro printed e' ⟨hgrows, hpost⟩
  refine ⟨hgrows, ?_⟩
  split at hpost
  · obtain ⟨hkept, hmembers⟩ := hpost
    refine ⟨hkept.pop htag (fun n hn => ?_) fun _ => hmembers, hmembers⟩
    rw [hname] at hn
    cases hn
  · exact ⟨hpost.1, (hpost.2.declared hranked htag hlt hbound).2 hname⟩

theorem allDeclared_nil {written : List Emitted} : AllDeclared cus skip written cu [] :=
  fun _ hq => absurd hq List.not_mem_nil

theorem allDeclared_singleton {written : List Emitted} {q : TypeMode × TypeId} :
    AllDeclared cus skip written cu [q] ↔
      ∀ μ, Mentions cus skip cu q μ → Declared cus written μ :=
  ⟨fun h => h q (List.mem_singleton_self q), fun h q' hq' => by
    obtain rfl := List.mem_singleton.mp hq'
    exact h⟩

/-- All that a type mentions is declared if its own name and all that it refers to are. -/
theorem allDeclared_of_tag {written : List Emitted} {mode : TypeMode} {id : TypeId} {tag : Tag}
    (htag : typeAt cus ⟨cu, id⟩ = some tag)
    (hmention : ∀ μ, tag.mention skip mode = some μ → Declared cus written μ)
    (hnext : AllDeclared cus skip written cu (tag.next mode)) :
    AllDeclared cus skip written cu [(mode, id)] := by
  rw [allDeclared_singleton]
  intro μ hμ
  rcases (mentions_iff htag).mp hμ with hself | ⟨q, hq, hq'⟩
  · exact hmention μ hself
  · exact hnext q hq μ hq'

theorem typedef_prepares (hrec : ∀ call : EmitCall, call.Prepares cus skip rank (rec call))
    {mode : TypeMode} {id type : TypeId} {name : Option String} {annots : List LlvmAnnotation}
    (htag : typeAt cus ⟨cu, id⟩ = some (.typedef name type annots))
    (hbelow : Below cus rank bound cu (mode, id)) (hbound : NotBelow rank bound pending)
    (h : Kept cus skip pending e) :
    Ensures (rec (.typedef ⟨cu, id⟩)) e (fun _ e' => GoesOn cus skip pending e e' ∧
      AllDeclared cus skip e'.written cu [(mode, id)]) (CutInOrder cus skip) := by
  have hle : rank ⟨cu, id⟩ ≤ bound := by
    have hhere := hbelow.here htag
    rw [Tag.Below] at hhere
    split at hhere
    · exact hhere.le
    · exact hhere
  have hkind : kindAt cus ⟨cu, id⟩ = some .typedef := by rw [kindAt, htag]; rfl
  refine (hrec (.typedef ⟨cu, id⟩) pending e (fun p hp => hle.trans (hbound p hp)) h hkind).imp ?_
    fun _ h' => h'
  rintro _ e' ⟨hgoes, hdeclared⟩
  refine ⟨hgoes, allDeclared_of_tag htag (fun μ hμ => ?_) allDeclared_nil⟩
  obtain ⟨n, hn, rfl⟩ := Option.map_eq_some_iff.mp hμ
  refine hdeclared n ?_
  rw [nameAt, htag]
  exact hn

theorem ftype_prepares (hrec : ∀ call : EmitCall, call.Prepares cus skip rank (rec call))
    {mode : TypeMode} {id : TypeId} {ftype : Ftype}
    (htag : typeAt cus ⟨cu, id⟩ = some (.subroutine ftype))
    (hbelow : Below cus rank bound cu (mode, id)) (hbound : NotBelow rank bound pending)
    (h : Kept cus skip pending e) :
    Ensures (rec (.ftype cu ftype)) e (fun _ e' => GoesOn cus skip pending e e' ∧
      AllDeclared cus skip e'.written cu [(mode, id)]) (CutInOrder cus skip) := by
  refine (hrec (.ftype cu ftype) bound pending e hbound (fun q hq => hbelow.next htag hq) h).imp ?_
    fun _ h' => h'
  rintro _ e' ⟨hgoes, hdeclared⟩
  refine ⟨hgoes, allDeclared_of_tag htag (fun μ hμ => ?_) hdeclared⟩
  cases hμ

/-- Emitting a struct that is not behind a pointer declares all that it mentions. -/
theorem aggregate_prepares (hranked : Ranked cus rank)
    (hrec : ∀ call : EmitCall, call.Prepares cus skip rank (rec call)) {mode : TypeMode}
    (hmode : mode ≠ .pointer) {id : TypeId} {ty : Aggregate}
    (htag : typeAt cus ⟨cu, id⟩ = some (.aggregate ty)) (hkind : ty.kind ≠ .classType)
    (hbelow : Below cus rank bound cu (mode, id)) (hbound : NotBelow rank bound pending)
    (h : Kept cus skip pending e) :
    Ensures (emitAggregate rec ⟨cu, id⟩) e (fun _ e' => GoesOn cus skip pending e e' ∧
      AllDeclared cus skip e'.written cu [(mode, id)]) (CutInOrder cus skip) := by
  have hhere := hbelow.here htag
  rw [Tag.Below, if_neg hkind] at hhere
  have hle : rank ⟨cu, id⟩ ≤ bound := by
    split at hhere
    · exact hhere.le
    · next hnot =>
        refine hhere ?_
        cases mode with
        | value => exact absurd (Or.inr rfl) hnot
        | pointer => exact absurd rfl hmode
        | parameter => rfl
  refine (emitAggregate_prepares hrec htag (fun p hp => hle.trans (hbound p hp)) h).imp ?_
    fun _ h' => h'
  rintro _ e' ⟨hgoes, hsettled⟩
  refine ⟨hgoes, allDeclared_of_tag htag (fun μ hμ => ?_) fun q hq => ?_⟩
  · rw [Tag.mention, if_neg hkind] at hμ
    obtain ⟨n, hname, hμ⟩ := Option.bind_eq_some_iff.mp hμ
    cases mode with
    | value =>
        obtain rfl := Option.some.inj hμ
        rw [if_pos (Or.inr rfl)] at hhere
        exact (hsettled.declared hranked htag hhere hbound).1 n hname
    | pointer => exact absurd rfl hmode
    | parameter => cases hμ
  · cases hname : ty.name with
    | some n =>
        rw [Tag.next, if_pos (Or.inr (by rw [hname]; exact Option.some_ne_none n))] at hq
        cases hq
    | none =>
        rw [Tag.next, if_neg (by rw [not_or, not_not]; exact ⟨hkind, hname⟩)] at hq
        rw [if_pos (Or.inl hname)] at hhere
        refine (hsettled.declared hranked htag hhere hbound).2 hname q ?_
        rw [spelled, htag]
        exact hq

theorem enumeration_mentions {mode : TypeMode} {id : TypeId} {etype : Enumeration}
    {written : List Emitted} (htag : typeAt cus ⟨cu, id⟩ = some (.enumeration etype))
    (hdeclared : ∀ n, etype.name = some n → Declared cus written (.complete .enumeration n)) :
    AllDeclared cus skip written cu [(mode, id)] := by
  refine allDeclared_of_tag htag (fun μ hμ => ?_) allDeclared_nil
  obtain ⟨n, hn, rfl⟩ := Option.map_eq_some_iff.mp hμ
  exact hdeclared n hn

theorem class_mentions {mode : TypeMode} {id : TypeId} {ty : Aggregate} {written : List Emitted}
    (htag : typeAt cus ⟨cu, id⟩ = some (.aggregate ty)) (hclass : ty.kind = .classType) :
    AllDeclared cus skip written cu [(mode, id)] := by
  refine allDeclared_of_tag htag (fun μ hμ => ?_) fun q hq => ?_
  · rw [Tag.mention, if_pos hclass] at hμ
    cases hμ
  · rw [Tag.next, if_pos (Or.inl hclass)] at hq
    cases hq

/-- The postcondition of a look at the type of a typedef: what the typedef spells has been
declared, or the typedef has been written with its type. -/
structure TargetDone (cus : ℕ → TypesTable) (skip : Bool) (pending : List CuType)
    (ref : CuType) (name : Option String) (e : Emissions) (out : Bool) (e' : Emissions) : Prop where
  goesOn : GoesOn cus skip pending e e'
  spelled : out = false → AllDeclared cus skip e'.written ref.cu (spelled cus ref)
  written : out = true → ∀ n ∈ name, Declared cus e'.written (.typedef n)

theorem targetDone_false {name : Option String} (hgoes : GoesOn cus skip pending e e')
    (hdeclared : AllDeclared cus skip e'.written ref.cu (spelled cus ref)) :
    TargetDone cus skip pending ref name e false e' :=
  ⟨hgoes, fun _ => hdeclared, fun hout => absurd hout Bool.false_ne_true⟩

theorem targetDone_true {name : Option String} (hgoes : GoesOn cus skip pending e e')
    (hwritten : ∀ n ∈ name, Declared cus e'.written (.typedef n)) :
    TargetDone cus skip pending ref name e true e' :=
  ⟨hgoes, fun hout => absurd hout.symm Bool.false_ne_true, fun _ => hwritten⟩

theorem typedefEmitTarget_prepares (hranked : Ranked cus rank) (hplain : PlainNames cus)
    (hrec : ∀ call : EmitCall, call.Prepares cus skip rank (rec call)) {name : Option String}
    {type : TypeId} {annots : List LlvmAnnotation}
    (htypedef : typeAt cus ref = some (.typedef name type annots))
    (hbound : NotBelow rank (rank ref) pending) (h : Kept cus skip pending e) :
    Ensures (typedefEmitTarget cus rec ref.cu name type) e
      (TargetDone cus skip pending ref name e) (CutInOrder cus skip) := by
  have hspelled : spelled cus ref = typedefNext cus ref.cu type := by rw [spelled, htypedef]
  have hfalse : ∀ {α : Type} {p : EmitM α} {q : TypeMode × TypeId},
      typedefNext cus ref.cu type = [q] → (Below cus rank (rank ref) ref.cu q →
        Ensures p e (fun _ e' => GoesOn cus skip pending e e' ∧
          AllDeclared cus skip e'.written ref.cu [q]) (CutInOrder cus skip)) →
      Ensures (do let _ ← p; pure false) e (TargetDone cus skip pending ref name e)
        (CutInOrder cus skip) := by
    intro α p q hnext hp
    rw [hnext] at hspelled
    have hbelow := hranked.spelled ref q (by rw [hspelled]; exact List.mem_singleton_self q)
    refine Ensures.bind (hp hbelow) fun _ _ h' => ensures_pure (targetDone_false h'.1 ?_)
    rw [hspelled]
    exact h'.2
  have hnothing : typedefNext cus ref.cu type = [] →
      Ensures (pure false : EmitM Bool) e (TargetDone cus skip pending ref name e)
        (CutInOrder cus skip) := by
    intro hnil
    refine ensures_pure (targetDone_false (.refl h) ?_)
    rw [hspelled, hnil]
    exact allDeclared_nil
  rcases htag : typeAt cus ⟨ref.cu, type⟩ with _ | tag
  · rw [typedefEmitTarget, htag]
    exact hnothing (by rw [typedefNext, htag])
  rw [typedefEmitTarget, htag]
  cases tag with
  | modifier kind t =>
      cases kind with
      | atomic =>
          exact hfalse (by rw [typedefNext, htag]) fun hbelow =>
            hrec (.tag ref.cu false t) .value (rank ref) pending e rfl hbound hbelow h
      | _ => exact hnothing (by rw [typedefNext, htag])
  | array t nrEntries =>
      exact hfalse (by rw [typedefNext, htag]) fun hbelow =>
        hrec (.tag ref.cu false t) .value (rank ref) pending e rfl hbound hbelow h
  | typedef name' t annots' =>
      exact hfalse (q := (.parameter, type)) (by rw [typedefNext, htag]) fun hbelow =>
        typedef_prepares hrec htag hbelow hbound h
  | subroutine ftype =>
      exact hfalse (q := (.parameter, type)) (by rw [typedefNext, htag]) fun hbelow =>
        ftype_prepares hrec htag hbelow hbound h
  | pointer t =>
      dsimp only
      rcases htag' : typeAt cus ⟨ref.cu, t⟩ with _ | tag'
      · exact hnothing (by rw [typedefNext, htag]; dsimp only; rw [htag'])
      cases tag' with
      | typedef name' t' annots' =>
          exact hfalse (q := (.parameter, t)) (by rw [typedefNext, htag]; dsimp only; rw [htag'])
            fun hbelow => typedef_prepares hrec htag' hbelow hbound h
      | subroutine ftype =>
          exact hfalse (q := (.parameter, t)) (by rw [typedefNext, htag]; dsimp only; rw [htag'])
            fun hbelow => ftype_prepares hrec htag' hbelow hbound h
      | _ => exact hnothing (by rw [typedefNext, htag]; dsimp only; rw [htag'])
  | enumeration etype =>
      have hnames : e.names ⟨ref.cu, type⟩ = etype.name := by
        rw [h.names, nameAt, htag]
        rfl
      refine ensures_getThen (ensures_ite (fun hname => ?_) fun hname => ?_)
      · rw [hnames] at hname
        have htext := (GoesOn.refl h).text "typedef "
        refine Ensures.bind (P := fun _ e' => e' = e.write (.text "typedef ")) (ensures_modify rfl) ?_
        rintro - _ rfl
        refine Ensures.bind (enumerationEmitDefinitions_typedef hplain htypedef htag hname htext.kept) ?_
        rintro _ e' ⟨hgoes, hdeclared⟩
        exact ensures_pure (targetDone_true (htext.trans hgoes) hdeclared)
      · rw [hnames] at hname
        obtain ⟨n, hn⟩ := Option.ne_none_iff_exists'.mp hname
        refine hfalse (q := (.parameter, type)) (by rw [typedefNext, htag]) fun _ => ?_
        refine (enumerationEmitDefinitions_prepares htag hn h).imp ?_ fun _ h' => h'
        rintro _ e' ⟨hgoes, hdeclared⟩
        refine ⟨hgoes, enumeration_mentions htag fun n' hn' => ?_⟩
        obtain rfl := Option.some.inj (hn.symm.trans hn')
        exact hdeclared
  | aggregate ty =>
      have hnext : typedefNext cus ref.cu type = [(.parameter, type)] := by rw [typedefNext, htag]
      have hnames : e.names ⟨ref.cu, type⟩ = ty.name := by
        rw [h.names, nameAt, htag]
        rfl
      refine ensures_ite (fun hclass => ?_) fun hclass => ?_
      · refine ensures_pure (targetDone_false (.refl h) ?_)
        rw [hspelled, hnext]
        exact class_mentions htag hclass
      refine ensures_getThen (ensures_ite (fun hname => ?_) fun hname => ?_)
      · rw [hnames] at hname
        have hlt : rank ⟨ref.cu, type⟩ < rank ref := by
          have hhere := (hranked.spelled ref (.parameter, type)
            (by rw [hspelled, hnext]; exact List.mem_singleton_self _)).here htag
          rwa [Tag.Below, if_neg hclass, if_pos (Or.inl hname)] at hhere
        refine Ensures.bind (unnamed_prepares hranked hrec htag hname hlt hbound h) ?_
        rintro _ e' ⟨hgrows, hkept, hmembers⟩
        refine Ensures.bind (typeEmit_prepares (some "typedef") name htag hkept.push hmembers) ?_
        rintro _ e'' ⟨hgoes, -, hdeclared⟩
        exact ensures_pure (targetDone_true ⟨hgoes.kept, hgrows.trans hgoes.grows⟩
          (hdeclared hname (Option.some_ne_none _)))
      · exact hfalse hnext fun hbelow =>
          aggregate_prepares hranked hrec (by decide) htag hclass hbelow hbound h
  | _ => exact hnothing (by rw [typedefNext, htag])

theorem typedefEmitDefinitions_prepares (hranked : Ranked cus rank) (hplain : PlainNames cus)
    (hrec : ∀ call : EmitCall, call.Prepares cus skip rank (rec call)) {name : Option String}
    {type : TypeId} {annots : List LlvmAnnotation}
    (htypedef : typeAt cus ref = some (.typedef name type annots))
    (hbound : NotBelow rank (rank ref) pending) (h : Kept cus skip pending e) :
    Ensures (typedefEmitDefinitions cus rec ref type) e (fun _ e' => GoesOn cus skip pending e e' ∧
      ∀ n ∈ name, Declared cus e'.written (.typedef n)) (CutInOrder cus skip) := by
  have hnameAt : nameAt cus ref = name := by rw [nameAt, htypedef]; rfl
  refine ensures_getThen (ensures_ite (fun hflag => ?_) fun _ => ?_)
  · exact ensures_pure ⟨.refl h, (settled_typedef htypedef).mp (h.settled ref hflag)⟩
  rw [h.names, hnameAt]
  refine ensures_ite (fun hfound => ?_) fun _ => ?_
  · cases name with
    | none => cases hfound
    | some n =>
        obtain ⟨pos, hsettled, hkind, hposName⟩ := h.of_found hfound
        obtain ⟨name', type', annots', htag'⟩ := typeAt_typedef hkind
        rw [nameAt, htag'] at hposName
        have hdeclared : ∀ n' ∈ some n, Declared cus e.written (.typedef n') := by
          intro n' hn'
          obtain rfl := Option.some.inj hn'
          exact (settled_typedef htag').mp hsettled n hposName
        exact ⟨h.goesOn_mark ((settled_typedef htypedef).mpr hdeclared), hdeclared⟩
  refine Ensures.bind (typedefEmitTarget_prepares hranked hplain hrec htypedef hbound h) ?_
  rintro out e₁ hdone
  refine ensures_getThen ?_
  refine Ensures.bind (P := fun _ e₂ => GoesOn cus skip pending e e₂ ∧
    ∀ n ∈ name, Declared cus e₂.written (.typedef n)) ?_ ?_
  · refine ensures_provided (fun hcond => ?_) fun hcond => ?_
    · have hout : out = false := Bool.eq_false_iff.mpr hcond.1
      rw [hdone.goesOn.kept.names, hnameAt]
      have hwritten : Kept cus skip pending (e₁.write (.typedef ref name)) := by
        refine hdone.goesOn.kept.write fun ref' htype => ?_
        obtain rfl : ref = ref' := Option.some.inj htype
        exact hdone.spelled hout
      have hgoes : GoesOn cus skip pending e (e₁.write (.typedef ref name)) :=
        ⟨hwritten, hdone.goesOn.grows.trans (List.prefix_append _ _)⟩
      refine ⟨hgoes.text ";\n", fun n hn => Declared.mono (declared_concat ?_)
        (List.prefix_append _ _)⟩
      rw [Emitted.declares, Option.mem_def.mp hn]
      rfl
    · refine ⟨hdone.goesOn, fun n hn => ?_⟩
      cases out with
      | true => exact hdone.written rfl n hn
      | false =>
          have hflag : e₁.definitionEmitted ref = true := by
            by_contra hnot
            exact hcond ⟨Bool.false_ne_true, hnot⟩
          exact (settled_typedef htypedef).mp (hdone.goesOn.kept.settled ref hflag) n hn
  · rintro _ e₂ ⟨hgoes, hdeclared⟩
    exact ⟨⟨hgoes.kept.addDefinition ((settled_typedef htypedef).mpr hdeclared), hgoes.grows⟩,
      hdeclared⟩

/-- Emitting a struct that is behind a pointer declares all that it mentions. -/
theorem pointed_prepares (hranked : Ranked cus rank)
    (hrec : ∀ call : EmitCall, call.Prepares cus skip rank (rec call)) {id : TypeId}
    {ty : Aggregate} (htag : typeAt cus ⟨cu, id⟩ = some (.aggregate ty))
    (hclass : ty.kind ≠ .classType) (hbelow : Below cus rank bound cu (.pointer, id))
    (hbound : NotBelow rank bound pending) (h : Kept cus skip pending e) :
    Ensures (do
      let e ← get
      provided (e.names ⟨cu, id⟩ = none) do
        let _ ← rec (.type ⟨cu, id⟩)
      typeEmitFwdDecl ⟨cu, id⟩ (ty.kind = .unionType)) e
      (fun _ e' => GoesOn cus skip pending e e' ∧
        AllDeclared cus skip e'.written cu [(.pointer, id)]) (CutInOrder cus skip) := by
  have hnameAt : nameAt cus ⟨cu, id⟩ = ty.name := by rw [nameAt, htag]; rfl
  refine ensures_getThen (Ensures.bind (P := fun _ e₁ => GoesOn cus skip pending e e₁ ∧
    (ty.name = none → AllDeclared cus skip e₁.written cu (spelled cus ⟨cu, id⟩))) ?_ ?_)
  · refine ensures_provided (fun hname => ?_) fun hname => ?_
    · rw [h.names, hnameAt] at hname
      have hlt : rank ⟨cu, id⟩ < bound := by
        have hhere := hbelow.here htag
        rwa [Tag.Below, if_neg hclass, if_pos (Or.inl hname)] at hhere
      refine Ensures.bind (unnamed_prepares hranked hrec htag hname hlt hbound h) ?_
      rintro _ e₁ ⟨hgrows, hkept, hmembers⟩
      exact ensures_pure ⟨⟨hkept, hgrows⟩, fun _ => hmembers⟩
    · rw [h.names, hnameAt] at hname
      exact ⟨.refl h, fun hnone => absurd hnone hname⟩
  · rintro _ e₁ ⟨hgoes, hmembers⟩
    refine (typeEmitFwdDecl_prepares _ hgoes.kept).imp ?_ fun _ h' => h'
    rintro _ e₂ ⟨hgoes', hforward⟩
    refine ⟨hgoes.trans hgoes', allDeclared_of_tag htag (fun μ hμ => ?_) fun q hq => ?_⟩
    · rw [Tag.mention, if_neg hclass] at hμ
      obtain ⟨n, hname, hμ⟩ := Option.bind_eq_some_iff.mp hμ
      obtain rfl := Option.some.inj hμ
      exact hforward n (hnameAt.trans hname)
    · rw [Tag.next] at hq
      split at hq
      · cases hq
      · next hcond =>
          rw [not_or, not_not] at hcond
          refine (hmembers hcond.2).mono hgoes'.grows q ?_
          rw [spelled, htag]
          exact hq

theorem tagEmitDefinitions_prepares (hranked : Ranked cus rank)
    (hrec : ∀ call : EmitCall, call.Prepares cus skip rank (rec call)) (pointer : Bool)
    (id : TypeId) :
    EmitCall.Prepares cus skip rank (.tag cu pointer id)
      (tagEmitDefinitions cus skip rec cu pointer id) := by
  intro mode bound pending e hpointer hbound hbelow h
  have hnothing : (∀ μ, ¬Mentions cus skip cu (mode, id) μ) → Ensures (pure false : EmitM Bool) e
      (fun _ e' => GoesOn cus skip pending e e' ∧
        AllDeclared cus skip e'.written cu [(mode, id)]) (CutInOrder cus skip) := fun hnone =>
    ensures_pure ⟨.refl h, allDeclared_singleton.mpr fun μ hμ => absurd hμ (hnone μ)⟩
  rcases htag : typeAt cus ⟨cu, id⟩ with _ | tag
  · rw [tagEmitDefinitions, htag]
    exact hnothing fun μ => not_mentions htag
  have hloop : ∀ {mode' : TypeMode} {t : TypeId}, tag.mention skip mode = none →
      tag.next mode = [(mode', t)] → Ensures (rec (.tag cu (decide (mode' = .pointer)) t)) e
        (fun _ e' => GoesOn cus skip pending e e' ∧
          AllDeclared cus skip e'.written cu [(mode, id)]) (CutInOrder cus skip) := by
    intro mode' t hmention hnext
    have hbelow' := hbelow.next htag (q := (mode', t)) (by rw [hnext]; exact List.mem_singleton_self _)
    refine (hrec (.tag cu _ t) mode' bound pending e rfl hbound hbelow' h).imp ?_ fun _ h' => h'
    rintro _ e' ⟨hgoes, hdeclared⟩
    refine ⟨hgoes, allDeclared_of_tag htag (fun μ hμ => ?_) (hnext ▸ hdeclared)⟩
    rw [hmention] at hμ
    cases hμ
  have hleaf : tag.mention skip mode = none → tag.next mode = [] →
      ∀ μ, ¬Mentions cus skip cu (mode, id) μ := by
    intro hmention hnext μ hμ
    rcases (mentions_iff htag).mp hμ with hself | ⟨q, hq, -⟩
    · rw [hmention] at hself
      cases hself
    · rw [hnext] at hq
      cases hq
  rw [tagEmitDefinitions, htag]
  subst hpointer
  cases tag with
  | baseType bt =>
      cases skip with
      | true => exact hnothing (hleaf rfl rfl)
      | false =>
          dsimp only
          rw [if_neg Bool.false_ne_true]
          cases hname : bt.name with
          | none =>
              refine hnothing (hleaf ?_ rfl)
              rw [Tag.mention, hname]
              rfl
          | some name =>
              refine (baseTypeEmitDefinitions_prepares htag hname h).imp ?_ fun _ h' => h'
              rintro _ e' ⟨hgoes, hdeclared⟩
              refine ⟨hgoes, allDeclared_of_tag htag (fun μ hμ => ?_) allDeclared_nil⟩
              rw [Tag.mention, hname, if_neg Bool.false_ne_true, Option.bind_some] at hμ
              split at hμ
              · next hatomic =>
                  obtain rfl := Option.some.inj hμ
                  exact hdeclared hatomic
              · cases hμ
  | pointer t => exact hloop rfl rfl
  | reference t => exact hloop rfl rfl
  | array t nrEntries => exact hloop rfl rfl
  | modifier kind t =>
      cases kind with
      | restrict => exact hnothing (hleaf rfl rfl)
      | const => exact hloop rfl rfl
      | volatile => exact hloop rfl rfl
      | atomic => exact hloop rfl rfl
  | typedef name type annots => exact typedef_prepares hrec htag hbelow hbound h
  | subroutine ftype => exact ftype_prepares hrec htag hbelow hbound h
  | enumeration etype =>
      have hnames : e.names ⟨cu, id⟩ = etype.name := by
        rw [h.names, nameAt, htag]
        rfl
      refine ensures_getThen (ensures_ite (fun hname => ?_) fun hname => ?_)
      · refine hnothing (hleaf ?_ rfl)
        rw [Tag.mention, ← hnames, hname]
        rfl
      · rw [hnames] at hname
        obtain ⟨n, hn⟩ := Option.ne_none_iff_exists'.mp hname
        refine (enumerationEmitDefinitions_prepares htag hn h).imp ?_ fun _ h' => h'
        rintro _ e' ⟨hgoes, hdeclared⟩
        refine ⟨hgoes, enumeration_mentions htag fun n' hn' => ?_⟩
        obtain rfl := Option.some.inj (hn.symm.trans hn')
        exact hdeclared
  | aggregate ty =>
      refine ensures_ite (fun hclass => ?_) fun hclass => ?_
      · exact ensures_pure ⟨.refl h, class_mentions htag hclass⟩
      refine ensures_ite (fun hpointer => ?_) fun hpointer => ?_
      · obtain rfl := of_decide_eq_true hpointer
        exact pointed_prepares hranked hrec htag hclass hbelow hbound h
      · have hmode : mode ≠ .pointer := fun heq => hpointer (decide_eq_true heq)
        exact Ensures.bind (aggregate_prepares hranked hrec hmode htag hclass hbelow hbound h)
          fun _ _ h' => ensures_pure h'
  | _ => exact hnothing (hleaf rfl rfl)

theorem ftypeEmitDefinitions_prepares
    (hrec : ∀ call : EmitCall, call.Prepares cus skip rank (rec call)) (ftype : Ftype) :
    EmitCall.Prepares cus skip rank (.ftype cu ftype) (ftypeEmitDefinitions rec cu ftype) := by
  intro bound pending e hbound hbelow h
  have hresult := hbelow (.parameter, ftype.type) List.mem_cons_self
  refine Ensures.bind (hrec (.tag cu false ftype.type) .parameter bound pending e rfl hbound hresult h) ?_
  rintro printed e₁ ⟨hgoes₁, hdeclared₁⟩
  have hparms : Ensures (ftype.parms.foldlM (fun printed pos => do
      let also ← rec (.tag cu false pos.type)
      pure (also || printed)) printed) e₁
      (fun _ e' => GoesOn cus skip pending e e' ∧ AllDeclared cus skip e'.written cu
        ((.parameter, ftype.type) :: ftype.parms.map fun pos => (.parameter, pos.type)))
      (CutInOrder cus skip) := by
    refine ensures_foldlM (fun (done : List Parameter) e' => GoesOn cus skip pending e e' ∧
      AllDeclared cus skip e'.written cu
        ((.parameter, ftype.type) :: done.map fun pos => (.parameter, pos.type))) ?_ []
      ⟨hgoes₁, hdeclared₁⟩
    rintro done printed' pos hpos e₂ ⟨hgoes₂, hdeclared₂⟩
    have hparm := hbelow (.parameter, pos.type)
      (List.mem_cons_of_mem _ (List.mem_map.mpr ⟨pos, hpos, rfl⟩))
    refine Ensures.bind (hrec (.tag cu false pos.type) .parameter bound pending e₂ rfl hbound hparm
      hgoes₂.kept) ?_
    rintro also e₃ ⟨hgoes₃, hdeclared₃⟩
    refine ensures_pure ⟨hgoes₂.trans hgoes₃, ?_⟩
    rw [List.map_append, ← List.cons_append]
    exact List.forall_mem_append.mpr ⟨hdeclared₂.mono hgoes₃.grows, hdeclared₃⟩
  refine Ensures.bind hparms ?_
  rintro printed' e₂ ⟨hgoes₂, hdeclared₂⟩
  refine Ensures.bind (P := fun _ e₃ => GoesOn cus skip pending e e₃ ∧
    AllDeclared cus skip e₃.written cu ((Tag.subroutine ftype).next .parameter)) ?_
    fun _ _ h' => ensures_pure h'
  refine ensures_provided (fun _ => ?_) fun _ => ⟨hgoes₂, hdeclared₂⟩
  exact ⟨hgoes₂.text "\n", hdeclared₂.mono (List.prefix_append _ _)⟩

theorem emitMembers_prepares (hranked : Ranked cus rank)
    (hrec : ∀ call : EmitCall, call.Prepares cus skip rank (rec call)) {ty : Aggregate}
    (htag : typeAt cus ref = some (.aggregate ty)) (hbound : NotBelow rank (rank ref) pending)
    (h : Kept cus skip pending e) :
    Ensures (emitMembers rec ref (.aggregate ty)) e (fun printed e' => e.written <+: e'.written ∧
      if printed = true then Kept cus skip (ref :: pending) e' ∧
        AllDeclared cus skip e'.written ref.cu (spelled cus ref)
      else Kept cus skip pending e' ∧ Settled cus skip e'.written pending ref)
      (CutInOrder cus skip) := by
  have hspelled : spelled cus ref = (Tag.aggregate ty).membersOf.map fun pos => (.value, pos.type) := by
    rw [spelled, htag]
  have hbelow := hranked.spelled ref
  rw [hspelled] at hbelow
  have hbound' : NotBelow rank (rank ref) (ref :: pending) :=
    List.forall_mem_cons.mpr ⟨le_refl _, hbound⟩
  have hsettled : Settled cus skip e.written (ref :: pending) ref := by
    cases hname : ty.name with
    | none => exact (settled_unnamed htag hname).mpr (Or.inl List.mem_cons_self)
    | some n =>
        refine (settled_aggregate htag hname).mpr (Or.inr ⟨ref, List.mem_cons_self, ?_, ?_⟩)
        · rw [kindAt, htag]
          rfl
        · rw [nameAt, htag]
          exact hname
  have hadded := h.push.addDefinition hsettled
  refine Ensures.bind (P := fun _ e₁ => e₁ = e.addDefinition ref) (ensures_modify rfl) ?_
  rintro - _ rfl
  have hloop : Ensures ((Tag.aggregate ty).membersOf.forM fun pos => do
      let printed ← rec (.tag ref.cu false pos.type)
      provided printed (writeOut (.text "\n"))) (e.addDefinition ref)
      (fun _ e' => GoesOn cus skip (ref :: pending) (e.addDefinition ref) e' ∧
        AllDeclared cus skip e'.written ref.cu
          ((Tag.aggregate ty).membersOf.map fun pos => (.value, pos.type)))
      (CutInOrder cus skip) := by
    refine ensures_forM (fun (done : List ClassMember) e' =>
      GoesOn cus skip (ref :: pending) (e.addDefinition ref) e' ∧
        AllDeclared cus skip e'.written ref.cu (done.map fun pos => (.value, pos.type))) ?_ []
      ⟨.refl hadded, allDeclared_nil⟩
    rintro done pos hpos e₂ ⟨hgoes₂, hdeclared₂⟩
    have hmember := hbelow (.value, pos.type) (List.mem_map.mpr ⟨pos, hpos, rfl⟩)
    refine Ensures.bind (hrec (.tag ref.cu false pos.type) .value (rank ref) (ref :: pending) e₂ rfl
      hbound' hmember hgoes₂.kept) ?_
    rintro printed e₃ ⟨hgoes₃, hdeclared₃⟩
    have hboth : AllDeclared cus skip e₃.written ref.cu
        ((done ++ [pos]).map fun pos => (.value, pos.type)) := by
      rw [List.map_append]
      exact List.forall_mem_append.mpr ⟨hdeclared₂.mono hgoes₃.grows, hdeclared₃⟩
    refine ensures_provided (fun _ => ?_) fun _ => ⟨hgoes₂.trans hgoes₃, hboth⟩
    exact ⟨(hgoes₂.trans hgoes₃).text "\n", hboth.mono (List.prefix_append _ _)⟩
  refine Ensures.bind hloop ?_
  rintro _ e₂ ⟨hgoes, hdeclared⟩
  refine ensures_pure ⟨hgoes.grows, ?_⟩
  rw [if_pos rfl, hspelled]
  exact ⟨hgoes.kept, hdeclared⟩

theorem typeEmitDefinitions_prepares (hranked : Ranked cus rank) (hplain : PlainNames cus)
    (hrec : ∀ call : EmitCall, call.Prepares cus skip rank (rec call)) {ty : Aggregate}
    (htag : typeAt cus ref = some (.aggregate ty)) (hbound : NotBelow rank (rank ref) pending)
    (h : Kept cus skip pending e) :
    Ensures (typeEmitDefinitions cus rec ref (.aggregate ty) (.aggregate ty.kind)) e
      (fun printed e' => e.written <+: e'.written ∧
        if printed = true then Kept cus skip (ref :: pending) e' ∧
          AllDeclared cus skip e'.written ref.cu (spelled cus ref)
        else Kept cus skip pending e' ∧ Settled cus skip e'.written pending ref)
      (CutInOrder cus skip) := by
  have hkind : kindAt cus ref = some (.aggregate ty.kind) := by rw [kindAt, htag]; rfl
  refine ensures_getThen (ensures_ite (fun hflag => ?_) fun _ => ?_)
  · exact ensures_pure ⟨List.prefix_rfl, h, h.settled ref hflag⟩
  rw [h.names]
  refine ensures_ite (fun hfound => ?_) fun _ => ?_
  · cases hname : nameAt cus ref with
    | none =>
        rw [hname] at hfound
        cases hfound
    | some n =>
        rw [hname] at hfound
        obtain ⟨pos, hpos, hposKind, hposName⟩ := h.of_found hfound
        obtain ⟨ty', htag', hkind'⟩ := typeAt_aggregate hposKind
        rw [nameAt, htag'] at hposName
        rw [nameAt, htag] at hname
        have hsettled : Settled cus skip e.written pending ref := by
          rw [settled_aggregate htag hname, ← hkind']
          exact (settled_aggregate htag' hposName).mp hpos
        exact ⟨List.prefix_rfl, h.mark hsettled, hsettled⟩
  refine ensures_ite (fun htypedef => by cases htypedef) fun _ => ?_
  refine ensures_ite (fun hshadow => ?_) fun _ => emitMembers_prepares hranked hrec htag hbound h
  obtain ⟨-, hfound⟩ := hshadow
  cases hname : nameAt cus ref with
  | none =>
      rw [hname] at hfound
      cases hfound
  | some n =>
      rw [hname] at hfound
      obtain ⟨pos, hpos⟩ := Option.isSome_iff_exists.mp hfound
      have hfind : (e.definitions.find? fun pos => decide (kindAt cus pos ≠ some (.aggregate ty.kind) ∧
        e.names pos = some n ∧ (kindAt cus pos).any TypeKind.canHaveShadowDefinition)) = some pos := hpos
      have hpred := List.find?_some hfind
      obtain ⟨hne, hposName, hshadow⟩ := of_decide_eq_true hpred
      rw [h.names] at hposName
      cases hposKind : kindAt cus pos with
      | none =>
          rw [hposKind] at hshadow
          cases hshadow
      | some kind =>
          rw [hposKind] at hshadow
          have hsame := hplain.oneKind hposKind hkind hshadow rfl hposName hname
          exact absurd (hsame ▸ hposKind) hne

/-- Each procedure satisfies its postcondition if its calls do. -/
theorem emitBody_prepares (hranked : Ranked cus rank) (hplain : PlainNames cus)
    (hrec : ∀ call : EmitCall, call.Prepares cus skip rank (rec call)) (call : EmitCall) :
    call.Prepares cus skip rank (emitBody cus skip rec call) := by
  cases call with
  | tag cu pointer t => exact tagEmitDefinitions_prepares hranked hrec pointer t
  | typedef ref =>
      intro pending e hbound h hkind
      obtain ⟨name, type, annots, htag⟩ := typeAt_typedef hkind
      rw [emitBody, htag, nameAt, htag]
      exact typedefEmitDefinitions_prepares hranked hplain hrec htag hbound h
  | ftype cu ft => exact ftypeEmitDefinitions_prepares hrec ft
  | type ref =>
      intro ty pending e hbound h htag
      rw [emitBody, htag]
      exact typeEmitDefinitions_prepares hranked hplain hrec htag hbound h

theorem emitDefinitions_prepares (hranked : Ranked cus rank) (hplain : PlainNames cus) (depth : ℕ)
    (call : EmitCall) : call.Prepares cus skip rank (emitDefinitions cus skip depth call) := by
  refine unroll_induction (EmitCall.Prepares cus skip rank) (fun call => ?_)
    (fun rec hrec call => emitBody_prepares hranked hplain hrec call) depth call
  cases call with
  | tag cu pointer t => exact fun _ _ _ _ _ _ _ h => ensures_throw h.first
  | typedef ref => exact fun _ _ _ h _ => ensures_throw h.first
  | ftype cu ft => exact fun _ _ _ _ _ h => ensures_throw h.first
  | type ref => exact fun _ _ _ _ h _ => ensures_throw h.first

theorem classFormatter_prepares (hranked : Ranked cus rank) (hplain : PlainNames cus)
    (nestedAnonInclude : Bool) (depth : ℕ) {ty : Aggregate}
    (htag : typeAt cus ref = some (.aggregate ty)) (h : Kept cus skip [] e) :
    Ensures (classFormatter cus skip nestedAnonInclude depth ref) e (fun _ => Kept cus skip [])
      (CutInOrder cus skip) := by
  have hnone : NotBelow rank (rank ref) [] := fun p hp => absurd hp List.not_mem_nil
  refine ensures_getThen (ensures_ite (fun _ => ensures_pure h) fun _ => ?_)
  refine Ensures.bind (emitDefinitions_prepares hranked hplain depth (.type ref) ty [] e hnone h htag) ?_
  rintro printed e₁ ⟨-, hpost⟩
  refine Ensures.bind (P := fun _ => Kept cus skip []) ?_ fun _ _ h' => h'.writePlain rfl
  refine ensures_provided (fun hprinted => ensures_getThen ?_) fun hnot => ?_
  · rw [if_pos hprinted] at hpost
    obtain ⟨hkept, hmembers⟩ := hpost
    have hnames : e₁.names ref = ty.name := by
      rw [hkept.names, nameAt, htag]
      rfl
    rw [hnames]
    refine Ensures.bind (P := fun _ => Kept cus skip []) ?_ fun _ _ h' => h'.writePlain rfl
    refine ensures_modify ((hkept.write fun ref' htype => ?_).pop htag (fun n hn => ?_) fun _ => ?_)
    · obtain rfl : ref = ref' := Option.some.inj htype
      exact hmembers
    · refine declared_concat ?_
      rw [hn, Emitted.declares, kindAt, htag]
      rfl
    · exact hmembers.mono (List.prefix_append _ _)
  · rw [if_neg hnot] at hpost
    exact hpost.1

def nodeTag : Tag :=
  .aggregate ⟨.structType, some "node", 0, 8, false,
    [⟨.member, some "next", 2, 0, 0, 0, 0, 0, 0, false, false⟩], []⟩

def listTag : Tag :=
  .aggregate ⟨.structType, some "list", 0, 8, false,
    [⟨.member, some "head", 1, 0, 0, 0, 0, 0, 0, false, false⟩], []⟩

/-- A struct with a pointer to itself through a typedef, and one that contains it. -/
def linkedCu : TypesTable :=
  [none, some nodeTag, some (.pointer 3), some (.typedef (some "node_t") 1 []), some listTag]

def listRank (ref : CuType) : ℕ := if ref.id = 4 then 1 else 0

theorem typeAt_linkedCu {id : TypeId} {tag : Tag} (h : typeAt (fun _ => linkedCu) ⟨cu, id⟩ = some tag) :
    (id = 1 ∧ tag = nodeTag) ∨ (id = 2 ∧ tag = .pointer 3) ∨
      (id = 3 ∧ tag = .typedef (some "node_t") 1 []) ∨ (id = 4 ∧ tag = listTag) := by
  rcases id with _ | _ | _ | _ | _ | id
  · cases h
  · exact Or.inl ⟨rfl, (Option.some.inj h).symm⟩
  · exact Or.inr (Or.inl ⟨rfl, (Option.some.inj h).symm⟩)
  · exact Or.inr (Or.inr (Or.inl ⟨rfl, (Option.some.inj h).symm⟩))
  · exact Or.inr (Or.inr (Or.inr ⟨rfl, (Option.some.inj h).symm⟩))
  · cases h

theorem named_linkedCu {kind : TypeKind} {name : String}
    (hkind : kindAt (fun _ => linkedCu) ref = some kind)
    (hname : nameAt (fun _ => linkedCu) ref = some name)
    (hcan : kind.canHaveShadowDefinition = true) : kind = .aggregate .structType ∧
      ((listRank ref = 0 ∧ name = "node") ∨ (listRank ref = 1 ∧ name = "list")) := by
  obtain ⟨cu, id⟩ := ref
  obtain ⟨tag, htag, -⟩ := typeAt_of_kindAt hkind
  rcases typeAt_linkedCu htag with ⟨rfl, rfl⟩ | ⟨rfl, rfl⟩ | ⟨rfl, rfl⟩ | ⟨rfl, rfl⟩
  · exact ⟨(Option.some.inj hkind).symm, Or.inl ⟨rfl, (Option.some.inj hname).symm⟩⟩
  · cases hkind
  · obtain rfl := Option.some.inj hkind
    cases hcan
  · exact ⟨(Option.some.inj hkind).symm, Or.inr ⟨rfl, (Option.some.inj hname).symm⟩⟩

theorem ranked_linkedCu : Ranked (fun _ => linkedCu) listRank where
  spelled ref q hq := by
    obtain ⟨cu, id⟩ := ref
    have hnode : typeAt (fun _ => linkedCu) ⟨cu, 1⟩ = some nodeTag := rfl
    have hpointer : typeAt (fun _ => linkedCu) ⟨cu, 2⟩ = some (.pointer 3) := rfl
    have hnodeT : typeAt (fun _ => linkedCu) ⟨cu, 3⟩ = some (.typedef (some "node_t") 1 []) := rfl
    rcases htag : typeAt (fun _ => linkedCu) ⟨cu, id⟩ with _ | tag
    · rw [spelled, htag] at hq
      cases hq
    rcases typeAt_linkedCu htag with ⟨rfl, -⟩ | ⟨rfl, -⟩ | ⟨rfl, -⟩ | ⟨rfl, -⟩
    · obtain rfl := List.mem_singleton.mp hq
      refine (below_iff hpointer).mpr ⟨trivial, fun q hq => ?_⟩
      obtain rfl := List.mem_singleton.mp hq
      exact (below_iff hnodeT).mpr ⟨Nat.zero_le _, fun q hq => absurd hq List.not_mem_nil⟩
    · cases hq
    · obtain rfl := List.mem_singleton.mp hq
      exact (below_iff hnode).mpr ⟨fun _ => Nat.zero_le _, fun q hq => absurd hq List.not_mem_nil⟩
    · obtain rfl := List.mem_singleton.mp hq
      exact (below_iff hnode).mpr ⟨Nat.zero_lt_one, fun q hq => absurd hq List.not_mem_nil⟩
  same hkind hkind' hname hname' := by
    rcases (named_linkedCu hkind hname rfl).2 with ⟨hrank, rfl⟩ | ⟨hrank, rfl⟩
    · rcases (named_linkedCu hkind' hname' rfl).2 with ⟨hrank', -⟩ | ⟨-, hne⟩
      · rw [hrank, hrank']
      · exact absurd hne (by decide)
    · rcases (named_linkedCu hkind' hname' rfl).2 with ⟨-, hne⟩ | ⟨hrank', -⟩
      · exact absurd hne (by decide)
      · rw [hrank, hrank']

theorem plainNames_linkedCu : PlainNames fun _ => linkedCu where
  oneKind hkind hkind' hcan hcan' hname hname' := by
    rw [(named_linkedCu hkind hname hcan).1, (named_linkedCu hkind' hname' hcan').1]
  oneTypedef htypedef htypedef' := by
    rcases typeAt_linkedCu htypedef with ⟨-, htag⟩ | ⟨-, htag⟩ | ⟨hid, -⟩ | ⟨-, htag⟩
    · cases htag
    · cases htag
    · rcases typeAt_linkedCu htypedef' with ⟨-, htag⟩ | ⟨-, htag⟩ | ⟨hid', -⟩ | ⟨-, htag⟩
      · cases htag
      · cases htag
      · exact fun _ _ => hid.trans hid'.symm
      · cases htag
    · cases htag

end Prepares

end Pahole
