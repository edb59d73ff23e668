import Pahole.BtfEncoder.TypesMatch
import Pahole.Support.Walks

/-!
# The shapes of BTF types

What `types__match` is there to compare is the shape of a type: the tree that its
references spell out down to names, with every `const` left out.  It finds two types of
one shape different only where the one is `void` and the other a `const` of `void`.
-/

namespace Pahole

open FallibleTable

/-- The tree of a type, without `const`. -/
inductive Shape where
  | void
  | int (name : String) (size : ℕ) (encoding : IntEncoding)
  | float (name : String) (size : ℕ)
  /-- a struct, union, enumeration or typedef, declared or defined -/
  | named (kind : BtfKind) (name : String)
  /-- a pointer, `volatile`, `restrict` or type tag -/
  | prefixed (kind : BtfKind) (of : Shape)
  | array (nelems : ℕ) (of : Shape)
  | proto (ret : Shape) (params : List Shape)

/-- The kind of the types that have a shape. -/
def Shape.kind : Shape → Option BtfKind
  | .void => none
  | .int .. => some .int
  | .float .. => some .float
  | .named kind _ => some kind
  | .prefixed kind _ => some kind
  | .array .. => some .array
  | .proto .. => some .funcProto

/-- The shapes of some types, when all have one. -/
def shapesOf (shape : ℕ → Option Shape) : List ℕ → Option (List Shape)
  | [] => some []
  | id :: ids =>
      match shape id, shapesOf shape ids with
      | some s, some ss => some (s :: ss)
      | _, _ => none

namespace BtfType

/-- The shape of a type, given those of the types it refers to. -/
def shape (rec : ℕ → Option Shape) : BtfType → Option Shape
  | .int name size encoding => some (.int (name.getD "") size encoding)
  | .float name size => some (.float (name.getD "") size)
  | .ref kind name type =>
      match kind with
      | .const => rec type
      | .typedef => some (.named .typedef (name.getD ""))
      | .func => none
      | _ => (rec type).map (.prefixed (refKind kind))
  | .array type _ nelems => (rec type).map (.array nelems)
  | .funcProto ret params =>
      match rec ret, shapesOf rec (params.map BtfParam.type) with
      | some r, some ps => some (.proto r ps)
      | _, _ => none
  | t@(.fwd ..) | t@(.composite ..) | t@(.enum ..) | t@(.enum64 ..) =>
      some (.named t.fwdKind t.name)
  | _ => none

/-- Whether a type of BTF is one of C. -/
def isType : BtfType → Bool
  | .ref .func _ _ | .var .. | .datasec .. | .declTag .. => false
  | .locParam .. | .locProto .. | .locsec .. => false
  | _ => true

/-- The types that `types__match` goes on to from a type. -/
def followed : BtfType → List ℕ
  | .ref .typedef _ _ | .ref .func _ _ => []
  | .ref _ _ type => [type]
  | .array type _ _ => [type]
  | .funcProto ret params => ret :: params.map BtfParam.type
  | _ => []

end BtfType

/-- The shape of the type of an id, with references followed at most `fuel` deep. -/
def shapeOf (find : ℕ → Option BtfType) : (fuel : ℕ) → (id : ℕ) → Option Shape
  | 0, _ => none
  | fuel + 1, id =>
      if id = 0 then some .void
      else (find id).bind (BtfType.shape (shapeOf find fuel))

/-- The type of an id has a shape. -/
def HasShape (find : ℕ → Option BtfType) (id : ℕ) (s : Shape) : Prop :=
  ∃ fuel, shapeOf find fuel id = some s

/-- The ids that are followed from an id. -/
def followedFrom (types : List BtfType) (id : ℕ) : List ℕ :=
  match btfTypeById types id with
  | some t => t.followed
  | none => []

/-- The id is 0, or that of an entry that is a type. -/
def IsTypeId (types : List BtfType) (id : ℕ) : Prop :=
  id = 0 ∨ ∃ t, btfTypeById types id = some t ∧ t.isType = true

/-- A BTF whose types refer to types, and every cycle of which passes through a struct,
union, enumeration or typedef. -/
structure TypeGraph where
  types : List BtfType
  closed : ∀ id, IsTypeId types id → ∀ r ∈ followedFrom types id, IsTypeId types r
  acyclic : ∀ id, ¬Walk.Cyclic (followedFrom types) id

namespace TypeGraph

/-- `btf__type_by_id` -/
def find (g : TypeGraph) : ℕ → Option BtfType := btfTypeById g.types

end TypeGraph

/-! ## Shapes are well defined -/

section Shapes

variable {find : ℕ → Option BtfType} {rec rec' : ℕ → Option Shape} {s : Shape}

theorem shapesOf_mono (h : ∀ id s, rec id = some s → rec' id = some s) {ids : List ℕ}
    {ss : List Shape} (hss : shapesOf rec ids = some ss) : shapesOf rec' ids = some ss := by
  induction ids generalizing ss with
  | nil => exact hss
  | cons id ids ih =>
      simp only [shapesOf] at hss ⊢
      split at hss
      · rename_i s ss' hs hss'
        rw [h id s hs, ih hss']
        exact hss
      · cases hss

theorem shape_mono (h : ∀ id s, rec id = some s → rec' id = some s) {t : BtfType}
    (hs : t.shape rec = some s) : t.shape rec' = some s := by
  have hmap : ∀ {f : Shape → Shape} {type : ℕ}, (rec type).map f = some s →
      (rec' type).map f = some s := by
    intro f type hmap
    obtain ⟨s', hs', rfl⟩ := Option.map_eq_some_iff.mp hmap
    rw [h type s' hs', Option.map_some]
  cases t with
  | ref kind name type =>
      cases kind with
      | const => exact h type s hs
      | typedef => exact hs
      | func => exact hs
      | _ => exact hmap hs
  | array type indexType nelems => exact hmap hs
  | funcProto ret params =>
      simp only [BtfType.shape] at hs ⊢
      split at hs
      · rename_i r ps hr hps
        rw [h ret r hr, shapesOf_mono h hps]
        exact hs
      · cases hs
  | _ => exact hs

theorem shapeOf_succ {fuel id : ℕ} (h : shapeOf find fuel id = some s) :
    shapeOf find (fuel + 1) id = some s := by
  induction fuel generalizing id s with
  | zero => cases h
  | succ fuel ih =>
      rw [shapeOf] at h ⊢
      split
      · rename_i hid
        rwa [if_pos hid] at h
      · rename_i hid
        rw [if_neg hid] at h
        obtain ⟨t, ht, hs⟩ := Option.bind_eq_some_iff.mp h
        exact Option.bind_eq_some_iff.mpr ⟨t, ht, shape_mono (fun _ _ => ih) hs⟩

theorem shapeOf_mono {fuel fuel' id : ℕ} (hle : fuel ≤ fuel')
    (h : shapeOf find fuel id = some s) : shapeOf find fuel' id = some s := by
  induction hle with
  | refl => exact h
  | step _ ih => exact shapeOf_succ ih

/-- A type id has at most one shape. -/
theorem HasShape.unique {id : ℕ} {s' : Shape} (h : HasShape find id s)
    (h' : HasShape find id s') : s = s' := by
  obtain ⟨fuel, hs⟩ := h
  obtain ⟨fuel', hs'⟩ := h'
  have hmax := shapeOf_mono (le_max_left fuel fuel') hs
  rw [shapeOf_mono (le_max_right fuel fuel') hs'] at hmax
  exact (Option.some.inj hmax).symm

/-- A shape that is not that of what a `const` stands for is of the kind of its type. -/
theorem kind_of_shape {t : BtfType} (hconst : t.fwdKind ≠ .const) (h : t.shape rec = some s) :
    s.kind = some t.fwdKind := by
  have hmap : ∀ {kind : BtfKind} {type : ℕ}, (rec type).map (.prefixed kind) = some s →
      s.kind = some kind := by
    intro kind type hmap
    obtain ⟨s', -, rfl⟩ := Option.map_eq_some_iff.mp hmap
    rfl
  cases t with
  | ref kind name type =>
      cases kind with
      | const => exact absurd rfl hconst
      | typedef =>
          obtain rfl := Option.some.inj h
          rfl
      | func => cases h
      | _ => exact hmap h
  | array type indexType nelems =>
      obtain ⟨s', -, rfl⟩ := Option.map_eq_some_iff.mp h
      rfl
  | funcProto ret params =>
      simp only [BtfType.shape] at h
      split at h
      · obtain rfl := Option.some.inj h
        rfl
      · cases h
  | var name linkage type => cases h
  | datasec name size vars => cases h
  | declTag value type componentIdx => cases h
  | locParam size flags values => cases h
  | locProto params => cases h
  | locsec name entries => cases h
  | _ =>
      obtain rfl := Option.some.inj h
      rfl

end Shapes

section Graph

variable {g : TypeGraph} {id : ℕ}

theorem shapesOf_total {rec : ℕ → Option Shape} {ids : List ℕ}
    (h : ∀ id ∈ ids, ∃ s, rec id = some s) : ∃ ss, shapesOf rec ids = some ss := by
  induction ids with
  | nil => exact ⟨[], rfl⟩
  | cons id ids ih =>
      obtain ⟨s, hs⟩ := h id List.mem_cons_self
      obtain ⟨ss, hss⟩ := ih fun id' hid' => h id' (List.mem_cons_of_mem _ hid')
      refine ⟨s :: ss, ?_⟩
      rw [shapesOf, hs, hss]

theorem shape_total {rec : ℕ → Option Shape} {t : BtfType} (htype : t.isType = true)
    (h : ∀ id ∈ t.followed, ∃ s, rec id = some s) : ∃ s, t.shape rec = some s := by
  have hmap : ∀ (f : Shape → Shape) {type : ℕ}, (∃ s, rec type = some s) →
      ∃ s, (rec type).map f = some s := by
    rintro f type ⟨s, hs⟩
    exact ⟨f s, by rw [hs, Option.map_some]⟩
  cases t with
  | ref kind name type =>
      cases kind with
      | const => exact h type List.mem_cons_self
      | typedef => exact ⟨_, rfl⟩
      | func => cases htype
      | _ => exact hmap _ (h type List.mem_cons_self)
  | array type indexType nelems => exact hmap _ (h type List.mem_cons_self)
  | funcProto ret params =>
      obtain ⟨r, hr⟩ := h ret List.mem_cons_self
      obtain ⟨ps, hps⟩ := shapesOf_total fun id hid => h id (List.mem_cons_of_mem _ hid)
      refine ⟨.proto r ps, ?_⟩
      simp only [BtfType.shape]
      rw [hr, hps]
  | var name linkage type => cases htype
  | datasec name size vars => cases htype
  | declTag value type componentIdx => cases htype
  | locParam size flags values => cases htype
  | locProto params => cases htype
  | locsec name entries => cases htype
  | _ => exact ⟨_, rfl⟩

theorem shapeOf_of_within {n : ℕ} (hid : IsTypeId g.types id)
    (h : Walk.Within (followedFrom g.types) n id) : ∃ s, shapeOf g.find n id = some s := by
  induction n generalizing id with
  | zero => exact absurd h Walk.not_within_zero
  | succ n ih =>
      rcases hid with rfl | ⟨t, ht, htype⟩
      · exact ⟨.void, rfl⟩
      · have hfollowed : followedFrom g.types id = t.followed := by rw [followedFrom, ht]
        have hshape : ∀ r ∈ t.followed, ∃ s, shapeOf g.find n r = some s := by
          intro r hr
          rw [← hfollowed] at hr
          exact ih (g.closed id (Or.inr ⟨t, ht, htype⟩) r hr) (h r hr)
        obtain ⟨s, hs⟩ := shape_total htype hshape
        by_cases hzero : id = 0
        · exact ⟨.void, by rw [shapeOf, if_pos hzero]⟩
        · refine ⟨s, ?_⟩
          rw [shapeOf, if_neg hzero]
          exact Option.bind_eq_some_iff.mpr ⟨t, ht, hs⟩

theorem isTypeId_le (h : IsTypeId g.types id) : id ≤ g.types.length := by
  rcases h with rfl | ⟨t, ht, -⟩
  · exact Nat.zero_le _
  · unfold btfTypeById at ht
    split at ht
    · cases ht
    · have := (List.getElem?_eq_some_iff.mp ht).1
      omega

/-- Every type id of the graph has a shape. -/
theorem exists_hasShape (h : IsTypeId g.types id) : ∃ s, HasShape g.find id s := by
  have hfin : {i | IsTypeId g.types i}.Finite :=
    (Set.finite_Iic g.types.length).subset fun i hi => isTypeId_le hi
  obtain ⟨n, hn⟩ := (Walk.exists_within_iff hfin h fun i hi r hr => g.closed i hi r hr).mpr
    (g.acyclic id)
  obtain ⟨s, hs⟩ := shapeOf_of_within h hn
  exact ⟨s, n, hs⟩

end Graph

end Pahole
