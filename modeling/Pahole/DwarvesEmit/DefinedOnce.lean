import Pahole.DwarvesEmit.Emissions

/-!
# Definitions are not repeated

A struct, union or enumeration is entered in the list of definitions before the types of its
members are looked at, and is only written out by the call that entered it.  So no name is
defined twice, from whichever CUs the types are and however they refer to each other.
-/

namespace Pahole

open CutShort

/-- The name that a C definition introduces: a tag of one kind, or an `atomic_` type. -/
inductive Defined where
  | type (kind : TypeKind) (name : String)
  | atomic (name : String)
  deriving DecidableEq, Repr

section Once

variable (cus : ℕ → TypesTable)

/-- The name that is defined where the type is written out under a name.  An enumeration without
enumerators is only declared, and a typedef may be written again. -/
def definedBy (ref : CuType) (name : String) : Option Defined :=
  match typeAt cus ref with
  | some (.aggregate ty) => some (.type (.aggregate ty.kind) name)
  | some (.enumeration etype) => if etype.values = [] then none else some (.type .enumeration name)
  | _ => none

def Emitted.defines : Emitted → Option Defined
  | .atomicTypedef name _ => some (.atomic name)
  | .definition ref (some name) _ _ => definedBy cus ref name
  | _ => none

/-- The names defined so far, in their order. -/
def Emissions.defined (e : Emissions) : List Defined := e.written.filterMap (Emitted.defines cus)

/-- The key under which the definition of a type is found. -/
def Emissions.keyOf (e : Emissions) (ref : CuType) : Option Defined :=
  (kindAt cus ref).bind fun kind => (e.names ref).map (Defined.type kind)

/-- The names that the lists have definitions of. -/
def Emissions.known (e : Emissions) : List Defined :=
  e.definitions.filterMap (e.keyOf cus) ++
    e.baseTypeDefinitions.filterMap fun ref => (baseTypeNameAt cus ref).map Defined.atomic

/-- Every type in the list of definitions has `definition_emitted` set. -/
def Emissions.Marked (e : Emissions) : Prop := ∀ ref ∈ e.definitions, e.definitionEmitted ref = true

/-- What `e'` has written after `e` is new to the lists of `e`, without repetition and listed in
`e'`; `own` is listed, too, but not yet written. -/
structure AddsNew (own : List Defined) (e e' : Emissions) : Prop where
  marked : e'.Marked
  flags : ∀ ref, e.definitionEmitted ref = true →
    e'.definitionEmitted ref = true ∧ e'.names ref = e.names ref
  unnamed : ∀ ref, e.names ref = none → e'.names ref = none
  definitions : e.definitions ⊆ e'.definitions
  baseTypes : e.baseTypeDefinitions ⊆ e'.baseTypeDefinitions
  written : ∃ new, e'.defined cus = e.defined cus ++ new ∧ (own ++ new).Nodup ∧
    ∀ k ∈ own ++ new, k ∉ e.known cus ∧ k ∈ e'.known cus

variable {cus} {own own' : List Defined} {e e' e'' : Emissions} {ref : CuType} {k : Defined}

theorem mem_known : k ∈ e.known cus ↔ (∃ ref ∈ e.definitions, e.keyOf cus ref = some k) ∨
    ∃ ref ∈ e.baseTypeDefinitions, (baseTypeNameAt cus ref).map Defined.atomic = some k := by
  rw [Emissions.known, List.mem_append, List.mem_filterMap, List.mem_filterMap]

theorem AddsNew.known (hm : e.Marked) (h : AddsNew cus own e e') (hk : k ∈ e.known cus) :
    k ∈ e'.known cus := by
  rw [mem_known] at hk ⊢
  rcases hk with ⟨ref, href, hkey⟩ | ⟨ref, href, hkey⟩
  · refine Or.inl ⟨ref, h.definitions href, ?_⟩
    rw [Emissions.keyOf, (h.flags ref (hm ref href)).2]
    exact hkey
  · exact Or.inr ⟨ref, h.baseTypes href, hkey⟩

theorem AddsNew.refl (hm : e.Marked) : AddsNew cus [] e e where
  marked := hm
  flags _ h := ⟨h, rfl⟩
  unnamed _ h := h
  definitions := List.Subset.refl _
  baseTypes := List.Subset.refl _
  written := ⟨[], (List.append_nil _).symm, List.nodup_nil, fun _ h => absurd h List.not_mem_nil⟩

/-- The definitions still to be written may be dropped. -/
theorem AddsNew.forget (h : AddsNew cus own e e') : AddsNew cus [] e e' where
  marked := h.marked
  flags := h.flags
  unnamed := h.unnamed
  definitions := h.definitions
  baseTypes := h.baseTypes
  written := by
    obtain ⟨new, hdefined, hnodup, hnew⟩ := h.written
    exact ⟨new, hdefined, (List.nodup_append.mp hnodup).2.1,
      fun k hk => hnew k (List.mem_append_right own hk)⟩

theorem AddsNew.trans (hm : e.Marked) (h : AddsNew cus own e e') (h' : AddsNew cus own' e' e'') :
    AddsNew cus (own ++ own') e e'' where
  marked := h'.marked
  flags ref href := by
    obtain ⟨hflag, hname⟩ := h.flags ref href
    obtain ⟨hflag', hname'⟩ := h'.flags ref hflag
    exact ⟨hflag', hname'.trans hname⟩
  unnamed ref href := h'.unnamed ref (h.unnamed ref href)
  definitions := List.Subset.trans h.definitions h'.definitions
  baseTypes := List.Subset.trans h.baseTypes h'.baseTypes
  written := by
    obtain ⟨new, hdefined, hnodup, hnew⟩ := h.written
    obtain ⟨new', hdefined', hnodup', hnew'⟩ := h'.written
    have hperm : (own ++ own' ++ (new ++ new')).Perm (own ++ new ++ (own' ++ new')) := by
      rw [List.append_assoc, List.append_assoc]
      refine List.Perm.append_left own ?_
      rw [← List.append_assoc, ← List.append_assoc]
      exact List.Perm.append_right new' List.perm_append_comm
    refine ⟨new ++ new', by rw [hdefined', hdefined, List.append_assoc], ?_, fun k hk => ?_⟩
    · rw [hperm.nodup_iff]
      refine List.nodup_append.mpr ⟨hnodup, hnodup', fun k hk k' hk' hkk => ?_⟩
      subst hkk
      exact (hnew' k hk').1 (hnew k hk).2
    · rcases List.mem_append.mp (hperm.mem_iff.mp hk) with hk | hk
      · exact ⟨(hnew k hk).1, h'.known h.marked (hnew k hk).2⟩
      · exact ⟨fun hknown => (hnew' k hk).1 (h.known hm hknown), (hnew' k hk).2⟩

end Once

/-! ## One step -/

section Steps

variable {cus : ℕ → TypesTable} {own : List Defined} {e e' : Emissions} {ref : CuType} {k : Defined}

/-- A step that changes neither the lists nor the names and defines nothing adds nothing. -/
theorem addsNew_of_same (hm : e.Marked)
    (hflags : ∀ ref, e.definitionEmitted ref = true → e'.definitionEmitted ref = true)
    (hnames : e'.names = e.names) (hdefinitions : e'.definitions = e.definitions)
    (hbaseTypes : e'.baseTypeDefinitions = e.baseTypeDefinitions)
    (hdefined : e'.defined cus = e.defined cus) : AddsNew cus [] e e' where
  marked ref href := hflags ref (hm ref (hdefinitions ▸ href))
  flags ref href := ⟨hflags ref href, by rw [hnames]⟩
  unnamed ref href := by rw [hnames, href]
  definitions := by rw [hdefinitions]; exact List.Subset.refl _
  baseTypes := by rw [hbaseTypes]; exact List.Subset.refl _
  written := ⟨[], by rw [hdefined, List.append_nil], List.nodup_nil,
    fun _ h => absurd h List.not_mem_nil⟩

theorem mark_flag (ref' : CuType) (h : e.definitionEmitted ref' = true) :
    (e.mark ref).definitionEmitted ref' = true := by
  rcases eq_or_ne ref' ref with rfl | hne
  · exact Function.update_self _ _ _
  · exact (Function.update_of_ne hne _ _).trans h

theorem addsNew_mark (hm : e.Marked) : AddsNew cus [] e (e.mark ref) :=
  addsNew_of_same hm mark_flag rfl rfl rfl rfl

theorem addsNew_markFwdDecl (hm : e.Marked) : AddsNew cus [] e (e.markFwdDecl ref) :=
  addsNew_of_same hm (fun _ h => h) rfl rfl rfl rfl

theorem addsNew_addFwdDecl (hm : e.Marked) : AddsNew cus [] e (e.addFwdDecl ref) :=
  addsNew_of_same hm (fun _ h => h) rfl rfl rfl rfl

theorem defined_write (x : Emitted) :
    (e.write x).defined cus = e.defined cus ++ (x.defines cus).toList := by
  rw [Emissions.defined, Emissions.write, List.filterMap_append, Emissions.defined]
  cases h : x.defines cus with
  | none => rw [List.filterMap_cons_none h]; rfl
  | some k => rw [List.filterMap_cons_some h]; rfl

theorem addsNew_write (hm : e.Marked) {x : Emitted} (h : x.defines cus = none) :
    AddsNew cus [] e (e.write x) := by
  refine addsNew_of_same hm (fun _ h => h) rfl rfl rfl ?_
  rw [defined_write, h]
  exact List.append_nil _

/-- Writing the definition that has been listed leaves none to be written. -/
theorem AddsNew.write {x : Emitted} (h : AddsNew cus own e e') (hx : (x.defines cus).toList = own) :
    AddsNew cus [] e (e'.write x) where
  marked := h.marked
  flags := h.flags
  unnamed := h.unnamed
  definitions := h.definitions
  baseTypes := h.baseTypes
  written := by
    obtain ⟨new, hdefined, hnodup, hnew⟩ := h.written
    refine ⟨new ++ own, ?_, ?_, fun k hk => ?_⟩
    · rw [defined_write, hdefined, hx, List.append_assoc]
    · rw [List.nil_append, List.perm_append_comm.nodup_iff]
      exact hnodup
    · exact hnew k (List.perm_append_comm.mem_iff.mp hk)

theorem addsNew_disambiguate (hm : e.Marked) (hflag : ¬e.definitionEmitted ref = true) :
    AddsNew cus [] e (e.disambiguate ref) := by
  have hnames : ∀ ref', e.definitionEmitted ref' = true →
      (e.disambiguate ref).names ref' = e.names ref' := by
    intro ref' href
    refine Function.update_of_ne ?_ _ _
    rintro rfl
    exact hflag href
  refine ⟨hm, fun ref' href => ⟨href, hnames ref' href⟩, fun ref' href => ?_,
    List.Subset.refl _, List.Subset.refl _, [], (List.append_nil _).symm, List.nodup_nil,
    fun _ h => absurd h List.not_mem_nil⟩
  rcases eq_or_ne ref' ref with rfl | hne
  · change Function.update e.names ref' _ ref' = none
    rw [Function.update_self, href]
    rfl
  · change Function.update e.names ref _ ref' = none
    rw [Function.update_of_ne hne, href]

/-- The name that writing out a type defines. -/
def Emissions.toDefine (cus : ℕ → TypesTable) (e : Emissions) (ref : CuType) : Option Defined :=
  (e.names ref).bind (definedBy cus ref)

theorem defines_definition (pre suf : Option String) :
    (Emitted.definition ref (e.names ref) pre suf).defines cus = e.toDefine cus ref := by
  rw [Emissions.toDefine]
  cases e.names ref <;> rfl

theorem keyOf_of_toDefine (h : e.toDefine cus ref = some k) : e.keyOf cus ref = some k := by
  obtain ⟨name, hname, hdefined⟩ := Option.bind_eq_some_iff.mp h
  rw [Emissions.keyOf, kindAt, hname]
  unfold definedBy at hdefined
  split at hdefined
  · next ty hty =>
      rw [hty]
      exact hdefined
  · next etype hty =>
      rw [hty]
      split at hdefined
      · cases hdefined
      · exact hdefined
  · cases hdefined

theorem marked_addDefinition (hm : e.Marked) : (e.addDefinition ref).Marked := by
  intro ref' href
  change ref' ∈ e.definitions.erase ref ++ [ref] at href
  rcases List.mem_append.mp href with href | href
  · exact mark_flag ref' (hm ref' (List.mem_of_mem_erase href))
  · obtain rfl := List.mem_singleton.mp href
    exact Function.update_self _ _ _

theorem mem_addDefinition {ref' : CuType} (h : ref' ∈ e.definitions) :
    ref' ∈ (e.addDefinition ref).definitions := by
  rcases eq_or_ne ref' ref with rfl | hne
  · exact List.mem_append_right _ (List.mem_singleton_self _)
  · exact List.mem_append_left _ ((List.mem_erase_of_ne hne).mpr h)

/-- A type that has not been found in the list is entered in it. -/
theorem addsNew_addDefinition (hm : e.Marked)
    (hnew : ∀ k, e.toDefine cus ref = some k → k ∉ e.known cus) :
    AddsNew cus (e.toDefine cus ref).toList e (e.addDefinition ref) where
  marked := marked_addDefinition hm
  flags _ h := ⟨mark_flag _ h, rfl⟩
  unnamed _ h := h
  definitions _ h := mem_addDefinition h
  baseTypes := List.Subset.refl _
  written := by
    refine ⟨[], (List.append_nil _).symm, ?_, fun k hk => ?_⟩
    · rw [List.append_nil]
      exact Option.toList_nodup _
    · rw [List.append_nil, Option.mem_toList] at hk
      refine ⟨hnew k hk, mem_known.mpr (Or.inl ⟨ref, ?_, keyOf_of_toDefine hk⟩)⟩
      exact List.mem_append_right _ (List.mem_singleton_self _)

/-- Entering a typedef in the list of definitions writes nothing. -/
theorem addsNew_addTypedef (hm : e.Marked) : AddsNew cus [] e (e.addDefinition ref) where
  marked := marked_addDefinition hm
  flags _ h := ⟨mark_flag _ h, rfl⟩
  unnamed _ h := h
  definitions _ h := mem_addDefinition h
  baseTypes := List.Subset.refl _
  written := ⟨[], (List.append_nil _).symm, List.nodup_nil, fun _ h => absurd h List.not_mem_nil⟩

theorem atomic_mem_known {name : String} :
    Defined.atomic name ∈ e.known cus ↔
      ∃ ref ∈ e.baseTypeDefinitions, baseTypeNameAt cus ref = some name := by
  rw [mem_known]
  constructor
  · rintro (⟨ref, -, hkey⟩ | ⟨ref, href, hkey⟩)
    · obtain ⟨kind, -, hname⟩ := Option.bind_eq_some_iff.mp hkey
      obtain ⟨_, -, hname⟩ := Option.map_eq_some_iff.mp hname
      cases hname
    · obtain ⟨name', hname, heq⟩ := Option.map_eq_some_iff.mp hkey
      obtain rfl := Defined.atomic.inj heq
      exact ⟨ref, href, hname⟩
  · rintro ⟨ref, href, hname⟩
    exact Or.inr ⟨ref, href, by rw [hname]; rfl⟩

theorem addsNew_addBaseTypeDefinition (hm : e.Marked) {name text : String}
    (hname : baseTypeNameAt cus ref = some name)
    (hnew : ¬(e.baseTypeFindDefinition cus (some name)).isSome = true) :
    AddsNew cus [] e ((e.write (.atomicTypedef name text)).addBaseTypeDefinition ref) where
  marked ref' href := mark_flag ref' (hm ref' href)
  flags _ h := ⟨mark_flag _ h, rfl⟩
  unnamed _ h := h
  definitions := List.Subset.refl _
  baseTypes ref' href := by
    rcases eq_or_ne ref' ref with rfl | hne
    · exact List.mem_append_right _ (List.mem_singleton_self _)
    · exact List.mem_append_left _ ((List.mem_erase_of_ne hne).mpr href)
  written := by
    refine ⟨[.atomic name], defined_write _, List.nodup_singleton _, fun k hk => ?_⟩
    obtain rfl := List.mem_singleton.mp hk
    refine ⟨fun hknown => ?_, atomic_mem_known.mpr ⟨ref, ?_, hname⟩⟩
    · obtain ⟨ref', href, hname'⟩ := atomic_mem_known.mp hknown
      have hnone := List.find?_eq_none.mp (Option.not_isSome_iff_eq_none.mp hnew) ref' href
      exact hnone (decide_eq_true hname')
    · exact List.mem_append_right _ (List.mem_singleton_self _)

/-- The key of a type whose definition is not found is not known. -/
theorem not_known_of_not_found {kind : TypeKind} (hkind : kindAt cus ref = some kind)
    (h : ¬(e.findDefinition cus kind (e.names ref)).isSome = true)
    (hk : e.keyOf cus ref = some k) : k ∉ e.known cus := by
  intro hknown
  rw [Emissions.keyOf, hkind] at hk
  obtain ⟨name, hname, rfl⟩ := Option.map_eq_some_iff.mp hk
  rw [hname] at h
  rcases mem_known.mp hknown with ⟨ref', href, hkey⟩ | ⟨ref', -, hkey⟩
  · obtain ⟨kind', hkind', hkey⟩ := Option.bind_eq_some_iff.mp hkey
    obtain ⟨name', hname', heq⟩ := Option.map_eq_some_iff.mp hkey
    obtain ⟨rfl, rfl⟩ := Defined.type.inj heq
    have hnone := List.find?_eq_none.mp (Option.not_isSome_iff_eq_none.mp h) ref' href
    exact hnone (decide_eq_true ⟨hkind', hname'⟩)
  · obtain ⟨_, -, heq⟩ := Option.map_eq_some_iff.mp hkey
    cases heq

end Steps

/-! ## The procedures -/

section Procedures

variable {cus : ℕ → TypesTable} {skip : Bool} {α β : Type} {rec : EmitCall → EmitM Bool}
  {p : EmitM α} {f : α → EmitM β} {e e' : Emissions} {ref : CuType}

/-- From a marked state the program writes only definitions that are new to the lists, and each
once. -/
def DefinesOnceAt (cus : ℕ → TypesTable) (p : EmitM α) (e : Emissions) : Prop :=
  e.Marked → Ensures p e (fun _ => AddsNew cus [] e) (AddsNew cus [] e)

def DefinesOnce (cus : ℕ → TypesTable) (p : EmitM α) : Prop := ∀ e, DefinesOnceAt cus p e

theorem DefinesOnceAt.bind (hp : DefinesOnceAt cus p e) (hf : ∀ a, DefinesOnce cus (f a)) :
    DefinesOnceAt cus (p >>= f) e := fun hm =>
  Ensures.bind (hp hm) fun a e' h => (hf a e' h.marked).imp
    (fun _ _ h' => h.trans hm h') fun _ h' => h.trans hm h'

theorem DefinesOnce.bind (hp : DefinesOnce cus p) (hf : ∀ a, DefinesOnce cus (f a)) :
    DefinesOnce cus (p >>= f) := fun e => (hp e).bind hf

/-- A program that defines each name once does so after definitions that are listed and not yet
written. -/
theorem DefinesOnce.after {own : List Defined} (hp : DefinesOnce cus p) (hm : e.Marked)
    (h : AddsNew cus own e e') :
    Ensures p e' (fun _ => AddsNew cus own e) (AddsNew cus [] e) := by
  refine (hp e' h.marked).imp (fun _ e'' h' => ?_) fun e'' h' => (h.trans hm h').forget
  rw [← List.append_nil own]
  exact h.trans hm h'

theorem definesOnce_getThen {f : Emissions → EmitM α} (h : ∀ e, DefinesOnceAt cus (f e) e) :
    DefinesOnce cus (get >>= f) := h

theorem definesOnce_pure (a : α) : DefinesOnce cus (pure a : EmitM α) :=
  fun _ hm => ensures_pure (AddsNew.refl hm)

theorem definesOnceAt_ite {c : Prop} [Decidable c] {q : EmitM α} (hp : c → DefinesOnceAt cus p e)
    (hq : ¬c → DefinesOnceAt cus q e) : DefinesOnceAt cus (if c then p else q) e := fun hm =>
  ensures_ite (fun hc => hp hc hm) fun hc => hq hc hm

theorem definesOnce_provided {c : Prop} [Decidable c] {q : EmitM PUnit}
    (h : DefinesOnce cus q) : DefinesOnce cus (provided c q) := fun e hm =>
  ensures_provided (fun _ => h e hm) fun _ => AddsNew.refl hm

theorem definesOnceAt_modify {g : Emissions → Emissions}
    (h : e.Marked → AddsNew cus [] e (g e)) : DefinesOnceAt cus (modify g) e := fun hm =>
  ensures_modify (h hm)

theorem definesOnce_writeOut {x : Emitted} (h : x.defines cus = none) :
    DefinesOnce cus (writeOut x) := fun _ =>
  definesOnceAt_modify fun hm => addsNew_write hm h

theorem definesOnce_mark : DefinesOnce cus (modify (Emissions.mark · ref)) := fun _ =>
  definesOnceAt_modify addsNew_mark

theorem definesOnce_forM {γ : Type} {f : γ → EmitM PUnit} {xs : List γ}
    (h : ∀ x, DefinesOnce cus (f x)) : DefinesOnce cus (xs.forM f) := fun e hm =>
  ensures_forM (fun _ => AddsNew cus [] e) (fun _ x _ _ h' => (h x).after hm h') []
    (AddsNew.refl hm)

theorem definesOnce_foldlM {γ : Type} {f : β → γ → EmitM β} {xs : List γ} {b : β}
    (h : ∀ b x, DefinesOnce cus (f b x)) : DefinesOnce cus (xs.foldlM f b) := fun e hm =>
  ensures_foldlM (fun _ => AddsNew cus [] e) (fun _ b x _ _ h' => (h b x).after hm h') []
    (AddsNew.refl hm)

/-- The postcondition of each call: what it has written is new, and a type that
`type__emit_definitions` tells its caller to write has been listed but not written. -/
def EmitCall.Once (cus : ℕ → TypesTable) : EmitCall → EmitM Bool → Prop
  | .type ref, p => ∀ e, e.Marked → Ensures p e
      (fun printed e' =>
        AddsNew cus (if printed = true then (e'.toDefine cus ref).toList else []) e e')
      (AddsNew cus [] e)
  | _, p => DefinesOnce cus p

theorem typeEmit_ensures (pre suf : Option String)
    (hm : e.Marked) (h : AddsNew cus (e'.toDefine cus ref).toList e e') :
    Ensures (typeEmit ref pre suf) e' (fun _ => AddsNew cus [] e) (AddsNew cus [] e) := by
  refine ensures_getThen (ensures_provided (fun _ => ?_) fun _ => h.forget)
  have hwritten := h.write (congrArg Option.toList (defines_definition pre suf))
  exact Ensures.bind (ensures_modify hwritten) fun _ _ h' => (definesOnce_writeOut rfl).after hm h'

theorem emitAggregate_once (hrec : ∀ call : EmitCall, call.Once cus (rec call)) :
    DefinesOnce cus (emitAggregate rec ref) := by
  intro e hm
  refine Ensures.bind (hrec (.type ref) e hm) fun printed e' h => ?_
  refine ensures_provided (fun hp => ?_) fun _ => h.forget
  rw [if_pos hp] at h
  exact typeEmit_ensures none none hm h

theorem baseTypeEmitDefinitions_once {name : String} (hname : baseTypeNameAt cus ref = some name) :
    DefinesOnce cus (baseTypeEmitDefinitions cus ref name) := by
  refine definesOnce_getThen fun e => definesOnceAt_ite (fun _ => definesOnce_pure _ e) fun _ => ?_
  refine definesOnceAt_ite (fun _ => definesOnce_pure _ e) fun _ => ?_
  refine definesOnceAt_ite (fun _ => ?_) fun hnew => ?_
  · exact (definesOnce_mark e).bind fun _ => definesOnce_pure _
  · intro hm
    exact addsNew_addBaseTypeDefinition hm hname hnew

theorem enumerationEmitDefinitions_once {etype : Enumeration} {suffix : Option String}
    (htag : typeAt cus ref = some (.enumeration etype)) :
    DefinesOnce cus (enumerationEmitDefinitions cus ref etype suffix) := by
  refine definesOnce_getThen fun e => definesOnceAt_ite (fun _ => definesOnce_pure _ e) fun _ => ?_
  refine definesOnceAt_ite (fun _ => ?_) fun hnew => ?_
  · exact (definesOnce_mark e).bind fun _ => definesOnce_pure _
  · intro hm
    have hkind : kindAt cus ref = some .enumeration := by rw [kindAt, htag]; rfl
    have hadded := (addsNew_addDefinition hm fun k hk =>
      not_known_of_not_found hkind hnew (keyOf_of_toDefine hk)).write
        (congrArg Option.toList (defines_definition none suffix))
    by_cases hvalues : etype.values = []
    · have hnone : e.toDefine cus ref = none := by
        rw [Emissions.toDefine, Option.bind_eq_none_iff]
        intro name _
        rw [definedBy, htag]
        exact if_pos hvalues
      refine Ensures.bind (definesOnce_writeOut ((defines_definition none suffix).trans hnone) e hm)
        fun _ e' h => ?_
      refine Ensures.bind ((definesOnce_writeOut rfl).after hm h) fun _ e'' h' => ?_
      rw [provided, if_neg (not_not_intro hvalues)]
      exact h'
    · rw [provided, if_pos hvalues]
      exact hadded.trans hm (addsNew_write hadded.marked rfl)

theorem typeEmitFwdDecl_once (isUnion : Bool) : DefinesOnce cus (typeEmitFwdDecl ref isUnion) := by
  refine definesOnce_getThen fun e => definesOnceAt_ite (fun _ => definesOnce_pure _ e) fun _ => ?_
  cases e.names ref with
  | none => exact definesOnce_pure _ e
  | some name =>
      refine definesOnceAt_ite (fun _ => ?_) fun _ => ?_
      · exact (definesOnceAt_modify addsNew_markFwdDecl).bind fun _ => definesOnce_pure _
      · refine (definesOnce_writeOut rfl e).bind fun _ => ?_
        exact DefinesOnce.bind (fun _ => definesOnceAt_modify addsNew_addFwdDecl)
          fun _ => definesOnce_pure _

theorem typedefEmitTarget_once (hrec : ∀ call : EmitCall, call.Once cus (rec call)) (cu : ℕ)
    (name : Option String) (type : TypeId) :
    DefinesOnce cus (typedefEmitTarget cus rec cu name type) := by
  have hfalse : ∀ {p : EmitM Bool}, DefinesOnce cus p →
      DefinesOnce cus (do let _ ← p; pure false) := fun hp => hp.bind fun _ => definesOnce_pure _
  unfold typedefEmitTarget
  split
  · next t _ => exact hfalse (hrec (.tag cu false t))
  · next t _ _ => exact hfalse (hrec (.tag cu false t))
  · exact hfalse (hrec (.typedef ⟨cu, type⟩))
  · next t _ =>
      split
      · exact hfalse (hrec (.typedef ⟨cu, t⟩))
      · next ftype _ => exact hfalse (hrec (.ftype cu ftype))
      · exact definesOnce_pure _
  · next ftype _ => exact hfalse (hrec (.ftype cu ftype))
  · next etype htag =>
      refine definesOnce_getThen fun e => definesOnceAt_ite (fun _ => ?_) fun _ => ?_
      · refine (definesOnce_writeOut rfl e).bind fun _ => ?_
        exact (enumerationEmitDefinitions_once htag).bind fun _ => definesOnce_pure _
      · exact (enumerationEmitDefinitions_once htag e).bind fun _ => definesOnce_pure _
  · next ty htag =>
      split
      · exact definesOnce_pure _
      · refine definesOnce_getThen fun e => definesOnceAt_ite (fun hname hm => ?_) fun _ => ?_
        · refine Ensures.bind (hrec (.type ⟨cu, type⟩) e hm) fun printed e' h => ?_
          have hnone : e'.toDefine cus ⟨cu, type⟩ = none := by
            rw [Emissions.toDefine, h.unnamed _ hname]
            rfl
          have hemit := typeEmit_ensures (some "typedef") name hm
            (hnone ▸ h.forget : AddsNew cus (e'.toDefine cus ⟨cu, type⟩).toList e e')
          exact Ensures.bind hemit fun _ _ h' => ensures_pure h'
        · exact (emitAggregate_once hrec e).bind fun _ => definesOnce_pure _
  · exact definesOnce_pure _

theorem typedefEmitDefinitions_once (hrec : ∀ call : EmitCall, call.Once cus (rec call))
    (type : TypeId) : DefinesOnce cus (typedefEmitDefinitions cus rec ref type) := by
  refine definesOnce_getThen fun e => definesOnceAt_ite (fun _ => definesOnce_pure _ e) fun _ => ?_
  refine definesOnceAt_ite (fun _ => ?_) fun _ => ?_
  · exact (definesOnce_mark e).bind fun _ => definesOnce_pure _
  · refine (typedefEmitTarget_once hrec ref.cu _ type e).bind fun out => ?_
    refine definesOnce_getThen fun e' => DefinesOnceAt.bind ?_ fun _ => ?_
    · refine definesOnce_provided (DefinesOnce.bind ?_ fun _ => ?_) e'
      · exact definesOnce_writeOut rfl
      · exact definesOnce_writeOut rfl
    · exact DefinesOnce.bind (fun _ => definesOnceAt_modify addsNew_addTypedef)
        fun _ => definesOnce_pure _

theorem tagEmitDefinitions_once (hrec : ∀ call : EmitCall, call.Once cus (rec call)) (cu : ℕ)
    (pointer : Bool) (type : TypeId) :
    DefinesOnce cus (tagEmitDefinitions cus skip rec cu pointer type) := by
  unfold tagEmitDefinitions
  split
  · next bt htag =>
      split
      · exact definesOnce_pure _
      · split
        · next name hname =>
            refine baseTypeEmitDefinitions_once ?_
            rw [baseTypeNameAt, htag]
            exact hname
        · exact definesOnce_pure _
  · next t _ => exact hrec (.tag cu true t)
  · next t _ => exact hrec (.tag cu true t)
  · next t _ _ => exact hrec (.tag cu pointer t)
  · next t _ => exact hrec (.tag cu pointer t)
  · next t _ => exact hrec (.tag cu pointer t)
  · next t _ => exact hrec (.tag cu pointer t)
  · exact hrec (.typedef ⟨cu, type⟩)
  · next etype htag =>
      refine definesOnce_getThen fun e => definesOnceAt_ite (fun _ => definesOnce_pure _ e) fun _ => ?_
      exact enumerationEmitDefinitions_once htag e
  · next ty htag =>
      split
      · exact definesOnce_pure _
      · split
        · refine definesOnce_getThen fun e => DefinesOnceAt.bind ?_ fun _ => typeEmitFwdDecl_once _
          refine definesOnce_provided (fun e hm => ?_) e
          exact Ensures.bind (hrec (.type ⟨cu, type⟩) e hm) fun _ _ h => ensures_pure h.forget
        · exact (emitAggregate_once hrec).bind fun _ => definesOnce_pure _
  · next ftype _ => exact hrec (.ftype cu ftype)
  · exact definesOnce_pure _

theorem ftypeEmitDefinitions_once (hrec : ∀ call : EmitCall, call.Once cus (rec call)) (cu : ℕ)
    (ftype : Ftype) : DefinesOnce cus (ftypeEmitDefinitions rec cu ftype) := by
  refine DefinesOnce.bind (hrec (.tag cu false ftype.type)) fun printed => ?_
  refine DefinesOnce.bind (definesOnce_foldlM fun printed pos => ?_) fun printed' => ?_
  · exact DefinesOnce.bind (hrec (.tag cu false pos.type)) fun _ => definesOnce_pure _
  · exact (definesOnce_provided (definesOnce_writeOut rfl)).bind fun _ => definesOnce_pure _

theorem emitMembers_once (hrec : ∀ call : EmitCall, call.Once cus (rec call)) {tag : Tag}
    (hm : e.Marked) (hnew : ∀ k, e.toDefine cus ref = some k → k ∉ e.known cus) :
    Ensures (emitMembers rec ref tag) e
      (fun printed e' => AddsNew cus (if printed = true then (e'.toDefine cus ref).toList else []) e e')
      (AddsNew cus [] e) := by
  have hadded := addsNew_addDefinition hm hnew
  have hloop : DefinesOnce cus (tag.membersOf.forM fun pos => do
      let printed ← rec (.tag ref.cu false pos.type)
      provided printed (writeOut (.text "\n"))) :=
    definesOnce_forM fun pos => DefinesOnce.bind (hrec (.tag ref.cu false pos.type))
      fun _ => definesOnce_provided (definesOnce_writeOut rfl)
  refine Ensures.bind (P := fun _ e₁ => e₁ = e.addDefinition ref) (ensures_modify rfl) ?_
  rintro - _ rfl
  refine Ensures.bind ((hloop _ hadded.marked).imp (fun _ _ h => h) fun e' h => ?_) fun _ e' h => ?_
  · exact (hadded.trans hm h).forget
  · have hname : e'.names ref = e.names ref :=
      (h.flags ref (hadded.marked ref (List.mem_append_right _ (List.mem_singleton_self _)))).2
    have htoDefine : e'.toDefine cus ref = e.toDefine cus ref := by
      rw [Emissions.toDefine, hname, Emissions.toDefine]
    refine ensures_pure ?_
    rw [if_pos rfl, htoDefine, ← List.append_nil (e.toDefine cus ref).toList]
    exact hadded.trans hm h

theorem typeEmitDefinitions_once (hrec : ∀ call : EmitCall, call.Once cus (rec call)) {tag : Tag}
    {kind : TypeKind} (htag : typeAt cus ref = some tag) (hkind : tag.typeKind? = some kind) :
    EmitCall.Once cus (.type ref) (typeEmitDefinitions cus rec ref tag kind) := by
  have hkindAt : kindAt cus ref = some kind := by
    rw [kindAt, htag]
    exact hkind
  have hmark : ∀ e : Emissions, e.Marked →
      Ensures (do modify (Emissions.mark · ref); pure false : EmitM Bool) e
        (fun printed e' =>
          AddsNew cus (if printed = true then (e'.toDefine cus ref).toList else []) e e')
        (AddsNew cus [] e) := fun e hm => addsNew_mark hm
  intro e hm
  refine ensures_getThen (ensures_ite (fun _ => AddsNew.refl hm) fun hflag => ?_)
  refine ensures_ite (fun _ => hmark e hm) fun hnotFound => ?_
  refine ensures_ite (fun htypedef => ?_) fun _ => ?_
  · refine (hrec (.typedef ref) e hm).imp (fun printed e' h => ?_) fun _ h => h
    have hnone : e'.toDefine cus ref = none := by
      rw [Emissions.toDefine, Option.bind_eq_none_iff]
      intro name _
      rw [definedBy, htag]
      cases tag <;> first | rfl | (rw [htypedef] at hkind; cases hkind)
    rw [hnone]
    split <;> exact h
  refine ensures_ite (fun _ => ?_) fun _ => ?_
  · have hrenamed : AddsNew cus [] e (e.disambiguate ref) := addsNew_disambiguate hm hflag
    refine Ensures.bind (P := fun _ e₁ => e₁ = e.disambiguate ref) (ensures_modify rfl) ?_
    rintro - _ rfl
    refine ensures_getThen (ensures_ite (fun _ => ?_) fun hnotFound' => ?_)
    · refine (hmark _ hrenamed.marked).imp (fun _ e' h => ?_) fun _ h => hrenamed.trans hm h
      exact hrenamed.trans hm h
    · refine (emitMembers_once hrec hrenamed.marked fun k hk => ?_).imp (fun _ e' h => ?_)
        fun _ h => hrenamed.trans hm h
      · exact not_known_of_not_found hkindAt hnotFound' (keyOf_of_toDefine hk)
      · exact hrenamed.trans hm h
  · exact emitMembers_once hrec hm fun k hk =>
      not_known_of_not_found hkindAt hnotFound (keyOf_of_toDefine hk)

/-- The procedures define nothing twice, as far as the calls that they make do not. -/
theorem emitBody_once (hrec : ∀ call : EmitCall, call.Once cus (rec call)) (call : EmitCall) :
    call.Once cus (emitBody cus skip rec call) := by
  cases call with
  | tag cu pointer type => exact tagEmitDefinitions_once hrec cu pointer type
  | typedef ref =>
      rw [emitBody]
      split
      · exact typedefEmitDefinitions_once hrec _
      · exact definesOnce_pure _
  | ftype cu ftype => exact ftypeEmitDefinitions_once hrec cu ftype
  | type ref =>
      have hfalse : EmitCall.Once cus (.type ref) (pure false) := fun _ hm => AddsNew.refl hm
      rw [emitBody]
      split
      · next tag htag =>
          split
          · next kind hkind => exact typeEmitDefinitions_once hrec htag hkind
          · exact hfalse
      · exact hfalse

theorem emitDefinitions_once (depth : ℕ) (call : EmitCall) :
    call.Once cus (emitDefinitions cus skip depth call) := by
  refine unroll_induction (EmitCall.Once cus) (fun call => ?_)
    (fun rec hrec call => emitBody_once hrec call) depth call
  cases call with
  | type ref => exact fun _ hm => AddsNew.refl hm
  | _ => exact fun _ hm => AddsNew.refl hm

theorem classFormatter_once (nestedAnonInclude : Bool) (depth : ℕ) :
    DefinesOnce cus (classFormatter cus skip nestedAnonInclude depth ref) := by
  refine definesOnce_getThen fun e => definesOnceAt_ite (fun _ => definesOnce_pure _ e) fun _ hm => ?_
  refine Ensures.bind (emitDefinitions_once depth (.type ref) e hm) fun printed e' h => ?_
  have hprinted : ∀ pre suf, Ensures (provided printed do
      let e ← get
      writeOut (.definition ref (e.names ref) pre suf)
      writeOut (.text ";")) e' (fun _ => AddsNew cus [] e) (AddsNew cus [] e) := by
    intro pre suf
    refine ensures_provided (fun hp => ensures_getThen ?_) fun _ => h.forget
    rw [if_pos hp] at h
    have hwritten := h.write (congrArg Option.toList (defines_definition pre suf))
    exact Ensures.bind (ensures_modify hwritten) fun _ _ h' => (definesOnce_writeOut rfl).after hm h'
  exact Ensures.bind (hprinted _ _) fun _ _ h' => (definesOnce_writeOut rfl).after hm h'

/-- In every state of a run that writes out any classes of any CUs, no struct, union,
enumeration or `atomic_` type has been defined twice. -/
theorem classes_defined_once (nestedAnonInclude : Bool) (depth : ℕ) (classes : List CuType) :
    ((final (classes.forM (classFormatter cus skip nestedAnonInclude depth))
      (typeEmissionsInit cus)).defined cus).Nodup := by
  have hm : (typeEmissionsInit cus).Marked := fun _ h => absurd h List.not_mem_nil
  have hall : DefinesOnce cus (classes.forM (classFormatter cus skip nestedAnonInclude depth)) :=
    definesOnce_forM fun _ => classFormatter_once nestedAnonInclude depth
  have hadds := Ensures.final (hall (typeEmissionsInit cus) hm)
  obtain ⟨new, hdefined, hnodup, -⟩ := hadds.written
  rw [hdefined]
  exact hnodup

end Procedures

end Pahole
