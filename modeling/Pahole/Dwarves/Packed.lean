import Pahole.Btf.Libbpf
import Pahole.Dwarves.Tag
import Pahole.Support.Marking

/-!
# Packed structs

Debug info does not say that a struct is packed.  It is inferred, for a struct at a time,
from holes, from offsets and sizes, and from where the struct is embedded.
-/

namespace Pahole

open Marking

/-- `struct class_member`, as far as layouts are concerned. -/
structure PackMember where
  type : TypeId
  isInheritance : Bool
  isVirtual : Bool
  isStatic : Bool
  bitOffset : ℕ
  byteOffset : ℕ
  byteSize : ℕ
  bitSize : ℕ
  bitfieldSize : ℕ
  deriving DecidableEq

/-- "XXX for now just skip these": virtual bases, and static members. -/
def PackMember.isSkipped (pos : PackMember) : Bool :=
  (pos.isInheritance && pos.isVirtual) || pos.isStatic

/-- `struct type`, of a struct or a union. -/
structure PackType where
  members : List PackMember
  size : ℕ
  alignment : ℕ
  deriving DecidableEq

/-- `struct tag`, as far as layouts are concerned. -/
inductive PackTag where
  | pointer
  | baseType (bitSize : ℕ)
  | enumeration (size : ℕ)
  | structType (ty : PackType)
  | unionType (ty : PackType)
  | array (type : TypeId)
  /-- typedefs and modifiers -/
  | indirect (type : TypeId)
  | other
  deriving DecidableEq

/-- The types that a type has in place. -/
def PackTag.parts : PackTag → List TypeId
  | .structType ty => ty.members.map PackMember.type
  | .unionType ty => ty.members.map PackMember.type
  | .array type => [type]
  | .indirect type => [type]
  | _ => []

/-- `cu__type` on a table. -/
def packTag? (entries : List (Option PackTag)) (id : TypeId) : Option PackTag :=
  if id = 0 then none else (entries[id]?).join

/-- A table of types none of which is, in the end, a part of itself. -/
structure PackTable where
  addrSize : ℕ
  entries : List (Option PackTag)
  /-- how deep the parts of a type go -/
  depth : TypeId → ℕ
  depth_lt : ∀ id tag, packTag? entries id = some tag → ∀ part ∈ tag.parts,
    depth part < depth id

/-! ## Holes -/

/-- An unsigned difference that is kept in an `int`. -/
def i32 (x : ℤ) : ℤ := if u32 x < 2147483648 then u32 x else u32 x - 4294967296

/-- The state of the loop of `class__find_holes`. -/
structure HoleSearch where
  curBitfieldEnd : ℕ
  curBitfieldSize : ℕ
  lastSeenBit : ℕ
  inBitfield : Bool
  nrHoles : ℕ

namespace HoleSearch

/-- The bits left of a bitfield before the member: their number, and where they end. -/
def trailing (s : HoleSearch) (bitStart : ℕ) : ℤ × ℕ :=
  if s.inBitfield then
    (i32 (min bitStart s.curBitfieldEnd - s.lastSeenBit), min bitStart s.curBitfieldEnd)
  else (0, s.lastSeenBit)

/-- The bytes left before the member. -/
def byteHoles (lastSeenBit : ℕ) (pos : PackMember) : ℤ :=
  if pos.bitfieldSize ≠ 0 then
    if lastSeenBit < u32 (pos.byteOffset * 8) ∧ u32 (pos.byteOffset * 8) ≤ pos.bitOffset then
      i32 (pos.byteOffset - (lastSeenBit / 8 : ℕ))
    else 0
  else i32 ((pos.bitOffset / 8 : ℕ) - (lastSeenBit / 8 : ℕ))

/-- The end of the bits of the member. -/
def bitEnd (pos : PackMember) : ℕ :=
  if pos.bitfieldSize ≠ 0 then u32 (pos.bitOffset + pos.bitfieldSize)
  else u32 (pos.bitOffset + pos.byteSize * 8)

/-- The end and the size of the bitfield after the member. -/
def bitfield (s : HoleSearch) (pos : PackMember) : ℕ × ℕ :=
  if pos.bitfieldSize ≠ 0 then
    if s.curBitfieldEnd < bitEnd pos ∨ s.curBitfieldSize < pos.bitSize then
      let curEnd := u32 (pos.byteOffset * 8 + pos.bitSize)
      (if curEnd < bitEnd pos then u32 (curEnd + pos.bitSize) else curEnd, pos.bitSize)
    else (s.curBitfieldEnd, s.curBitfieldSize)
  else (bitEnd pos, 0)

/-- The body of the loop of `class__find_holes`. -/
def step (s : HoleSearch) (pos : PackMember) : HoleSearch :=
  if (pos.isInheritance && (pos.isVirtual || pos.byteSize == 0)) || pos.isStatic then s
  else
    let lastSeenBit := (s.trailing pos.bitOffset).2
    { curBitfieldEnd := (s.bitfield pos).1
      curBitfieldSize := (s.bitfield pos).2
      lastSeenBit := bitEnd pos
      inBitfield := pos.bitfieldSize ≠ 0
      nrHoles := if 0 < byteHoles lastSeenBit pos then (s.nrHoles + 1) % 256 else s.nrHoles }

end HoleSearch

namespace PackType

/-- `class__find_holes` -/
def findHoles (ty : PackType) : HoleSearch :=
  ty.members.foldl HoleSearch.step ⟨u32 (ty.size * 8), 0, 0, false, 0⟩

/-- `class->padding`, in 16 bits. -/
def padding (ty : PackType) : ℕ :=
  let s := ty.findHoles
  let lastSeenBit :=
    if s.inBitfield then min (u32 (ty.size * 8)) s.curBitfieldEnd else s.lastSeenBit
  u32 ((ty.size : ℤ) - (lastSeenBit / 8 : ℕ)) % 65536

def hasHoles (ty : PackType) : Bool := ty.padding ≠ 0 || ty.findHoles.nrHoles ≠ 0

end PackType

namespace PackTable

variable (tbl : PackTable)

def tag? (id : TypeId) : Option PackTag := packTag? tbl.entries id

/-- `tag__strip_typedefs_and_modifiers`: the type behind an id. -/
def stripFrom : ℕ → TypeId → Option TypeId
  | 0, _ => none
  | fuel + 1, id =>
      match tbl.tag? id with
      | none => none
      | some (.indirect type) => stripFrom fuel type
      | some _ => some id

def strip (id : TypeId) : Option TypeId := tbl.stripFrom (tbl.depth id + 1) id

/-- The loop of `type__natural_alignment`, whose result is kept in 16 bits. -/
def typeNaturalAlignment (natural : TypeId → ℕ) (members : List PackMember) : ℕ :=
  members.foldl (fun current member =>
    if member.isSkipped then current
    else
      match tbl.strip member.type with
      | none => current
      | some type => if current < natural type then natural type % 65536 else current) 0

/-- `tag__natural_alignment`.  What is memoised is the same for every call. -/
def naturalFrom : ℕ → TypeId → ℕ
  | 0, _ => 1
  | fuel + 1, id =>
      let natural :=
        match tbl.tag? id with
        | some .pointer => tbl.addrSize
        | some (.baseType bitSize) => bitSize / 8 % 65536
        | some (.enumeration size) => size / 8
        | some (.structType ty) => tbl.typeNaturalAlignment (naturalFrom fuel) ty.members
        | some (.unionType ty) => tbl.typeNaturalAlignment (naturalFrom fuel) ty.members
        | some (.array type) =>
            match tbl.strip type with
            | none => 1
            | some elem => naturalFrom fuel elem
        | _ => 1
      if natural = 0 then 1 else natural

def naturalAlignment (id : TypeId) : ℕ := tbl.naturalFrom (tbl.depth id + 1) id

def isStruct (id : TypeId) : Bool :=
  match tbl.tag? id with
  | some (.structType _) => true
  | _ => false

def isStructOrUnion (id : TypeId) : Bool :=
  match tbl.tag? id with
  | some (.structType _) => true
  | some (.unionType _) => true
  | _ => false

/-- The structs among the types of members that are where the predicate says. -/
def structsWhere (misplaced : PackMember → ℕ → Bool) (members : List PackMember) :
    List TypeId :=
  members.filterMap fun member =>
    match tbl.strip member.type with
    | none => none
    | some type =>
        if tbl.isStruct type && misplaced member (tbl.naturalAlignment type) then some type
        else none

/-- `type__check_structs_at_unnatural_alignments`: the structs it marks. -/
def structsAtUnnaturalAlignments (ty : PackType) : List TypeId :=
  tbl.structsWhere (fun member natural => member.byteOffset % natural ≠ 0) ty.members

/-- The structs that `union__infer_packed_attributes` marks. -/
def structsOfUnevenSize (ty : PackType) : List TypeId :=
  tbl.structsWhere (fun _ natural => ty.size % natural ≠ 0) ty.members

/-- The natural alignment of a member, of which a type that is not there has one. -/
def memberNatural (pos : PackMember) : ℕ :=
  match tbl.strip pos.type with
  | none => 1
  | some type => tbl.naturalAlignment type

/-- The loop of `class__infer_packed_attributes`, from the largest natural alignment so
far on, with what comes after it. -/
def looksPacked (ty : PackType) : ℕ → List PackMember → Bool
  | maxNatural, [] =>
      (maxNatural ≠ 1 && ty.alignment = 1) || ty.size % maxNatural ≠ 0
  | maxNatural, pos :: rest =>
      if pos.isSkipped then looksPacked ty maxNatural rest
      else
        let natural := tbl.memberNatural pos
        if natural = 1 then looksPacked ty maxNatural rest
        else if pos.byteOffset % natural = 0 then
          looksPacked ty (if maxNatural < natural then natural % 65536 else maxNatural) rest
        else true

end PackTable

/-! ## Inference -/

/-- `is_packed` and `packed_attributes_inferred` of every type. -/
structure PackFlags where
  isPacked : TypeId → Bool
  inferred : TypeId → Bool

namespace PackFlags

def start : PackFlags := ⟨fun _ => false, fun _ => false⟩

def setPacked (s : PackFlags) (id : TypeId) (b : Bool) : PackFlags :=
  { s with isPacked := Function.update s.isPacked id b }

def setInferred (s : PackFlags) (id : TypeId) : PackFlags :=
  { s with inferred := Function.update s.inferred id true }

/-- The structs are packed, and that is settled. -/
def mark (s : PackFlags) (ids : List TypeId) : PackFlags :=
  ids.foldl (fun s id => (s.setPacked id true).setInferred id) s

end PackFlags

namespace PackTable

variable (tbl : PackTable)

/-- `class__infer_packed_attributes` -/
def classInfer (s : PackFlags) (id : TypeId) (ty : PackType) : PackFlags :=
  if s.inferred id then s
  else if ty.hasHoles then
    ((s.mark (tbl.structsAtUnnaturalAlignments ty)).setPacked id false).setInferred id
  else if tbl.looksPacked ty 1 ty.members then (s.setPacked id true).setInferred id
  else s.setInferred id

/-- `union__infer_packed_attributes` -/
def unionInfer (s : PackFlags) (id : TypeId) (ty : PackType) : PackFlags :=
  if s.inferred id then s
  else (s.mark (tbl.structsOfUnevenSize ty)).setInferred id

/-- `class__infer_packed_attributes` or `union__infer_packed_attributes`, by the tag of the
type. -/
def infer (s : PackFlags) (id : TypeId) : PackFlags :=
  match tbl.tag? id with
  | some (.structType ty) => tbl.classInfer s id ty
  | some (.unionType ty) => tbl.unionInfer s id ty
  | _ => s

def inferAll (order : List TypeId) : PackFlags := order.foldl tbl.infer .start

/-- The flags of all types are the same in whatever order they are inferred. -/
def OrderIndependent : Prop :=
  ∀ order order', order.Perm (List.range tbl.entries.length) →
    order'.Perm (List.range tbl.entries.length) →
    ∀ id < tbl.entries.length,
      (tbl.inferAll order).isPacked id = (tbl.inferAll order').isPacked id

/-! ## Inference as marking -/

/-- The structs that the inference of a type marks. -/
def targets (id : TypeId) : List TypeId :=
  match tbl.tag? id with
  | some (.structType ty) =>
      if ty.hasHoles then tbl.structsAtUnnaturalAlignments ty else []
  | some (.unionType ty) => tbl.structsOfUnevenSize ty
  | _ => []

/-- The inference of a type marks a struct. -/
def Pushes (embedder embedded : TypeId) : Prop := embedded ∈ tbl.targets embedder

instance (a b : TypeId) : Decidable (tbl.Pushes a b) := inferInstanceAs (Decidable (_ ∈ _))

/-- A struct has no holes and `looksPacked` from its own members. -/
def Own (id : TypeId) : Prop :=
  match tbl.tag? id with
  | some (.structType ty) => ty.hasHoles = false ∧ tbl.looksPacked ty 1 ty.members = true
  | _ => False

/-- The types inferred are those settled, and the flags are set for those that are marked. -/
structure Represents (s : PackFlags) (active : List TypeId) : Prop where
  inferred : ∀ id, tbl.isStructOrUnion id = true →
    (s.inferred id = true ↔ Settled tbl.Pushes active id)
  isPacked : ∀ id, s.isPacked id = true ↔ Marked tbl.Pushes tbl.Own active id

section Refinement

variable {tbl} {s : PackFlags} {active : List TypeId}

theorem isPacked_mark (s : PackFlags) (ids : List TypeId) (id : TypeId) :
    (s.mark ids).isPacked id = true ↔ s.isPacked id = true ∨ id ∈ ids := by
  unfold PackFlags.mark
  induction ids generalizing s with
  | nil => simp
  | cons x ids ih =>
      rw [List.foldl_cons, ih]
      by_cases hid : id = x
      · subst hid
        simp [PackFlags.setPacked, PackFlags.setInferred]
      · simp [PackFlags.setPacked, PackFlags.setInferred, hid]

theorem inferred_mark (s : PackFlags) (ids : List TypeId) (id : TypeId) :
    (s.mark ids).inferred id = true ↔ s.inferred id = true ∨ id ∈ ids := by
  unfold PackFlags.mark
  induction ids generalizing s with
  | nil => simp
  | cons x ids ih =>
      rw [List.foldl_cons, ih]
      by_cases hid : id = x
      · subst hid
        simp [PackFlags.setPacked, PackFlags.setInferred]
      · simp [PackFlags.setPacked, PackFlags.setInferred, hid]

theorem stripFrom_eq {fuel : ℕ} {id type : TypeId} (h : tbl.stripFrom fuel id = some type) :
    tbl.depth type ≤ tbl.depth id := by
  induction fuel generalizing id with
  | zero => nomatch h
  | succ fuel ih =>
      unfold stripFrom at h
      cases htag : tbl.tag? id with
      | none => simp [htag] at h
      | some tag =>
          rw [htag] at h
          cases tag with
          | indirect target =>
              have hlt := tbl.depth_lt id _ htag target (by simp [PackTag.parts])
              exact (ih h).trans (le_of_lt hlt)
          | _ =>
              obtain rfl := Option.some.inj h
              exact le_refl _

theorem mem_structsWhere {misplaced : PackMember → ℕ → Bool} {members : List PackMember}
    {id : TypeId} (h : id ∈ tbl.structsWhere misplaced members) :
    tbl.isStruct id = true ∧ ∃ member ∈ members, tbl.strip member.type = some id := by
  obtain ⟨member, hmem, hsome⟩ := List.mem_filterMap.mp h
  cases hstrip : tbl.strip member.type with
  | none => simp [hstrip] at hsome
  | some type =>
      rw [hstrip] at hsome
      dsimp only at hsome
      split at hsome
      · rename_i hcond
        obtain rfl := Option.some.inj hsome
        exact ⟨(Bool.and_eq_true_iff.mp hcond).1, member, hmem, hstrip⟩
      · nomatch hsome

/-- Only structs are marked, and only by types that have them in place. -/
theorem pushes_spec {a b : TypeId} (h : tbl.Pushes a b) :
    tbl.isStruct b = true ∧ tbl.depth b < tbl.depth a := by
  unfold Pushes targets at h
  cases htag : tbl.tag? a with
  | none => simp [htag] at h
  | some tag =>
      rw [htag] at h
      have hparts : ∀ members misplaced, b ∈ tbl.structsWhere misplaced members →
          tag.parts = members.map PackMember.type →
          tbl.isStruct b = true ∧ tbl.depth b < tbl.depth a := by
        intro members misplaced hmem hdef
        obtain ⟨hstruct, member, hm, hstrip⟩ := mem_structsWhere hmem
        refine ⟨hstruct, lt_of_le_of_lt (stripFrom_eq hstrip) ?_⟩
        exact tbl.depth_lt a tag htag _ (hdef ▸ List.mem_map.mpr ⟨member, hm, rfl⟩)
      cases tag with
      | structType ty =>
          dsimp only at h
          split at h
          · exact hparts _ _ h rfl
          · nomatch h
      | unionType ty => exact hparts _ _ h rfl
      | _ => nomatch h

theorem settled_cons {id other : TypeId} : Settled tbl.Pushes (id :: active) other ↔
    other = id ∨ Settled tbl.Pushes active other ∨ other ∈ tbl.targets id := by
  simp only [Settled, List.mem_cons, exists_eq_or_imp]
  constructor
  · rintro ((h | h) | h | h)
    · exact Or.inl h
    · exact Or.inr (Or.inl (Or.inl h))
    · exact Or.inr (Or.inr h)
    · exact Or.inr (Or.inl (Or.inr h))
  · rintro (h | (h | h) | h)
    · exact Or.inl (Or.inl h)
    · exact Or.inl (Or.inr h)
    · exact Or.inr (Or.inr h)
    · exact Or.inr (Or.inl h)

theorem marked_cons {id other : TypeId} : Marked tbl.Pushes tbl.Own (id :: active) other ↔
    (other = id ∧ tbl.Own id) ∨ Marked tbl.Pushes tbl.Own active other ∨
      other ∈ tbl.targets id := by
  simp only [Marked, List.mem_cons, exists_eq_or_imp]
  constructor
  · rintro (⟨rfl | h, hown⟩ | h | h)
    · exact Or.inl ⟨rfl, hown⟩
    · exact Or.inr (Or.inl (Or.inl ⟨h, hown⟩))
    · exact Or.inr (Or.inr h)
    · exact Or.inr (Or.inl (Or.inr h))
  · rintro (⟨rfl, hown⟩ | (⟨h, hown⟩ | h) | h)
    · exact Or.inl ⟨Or.inl rfl, hown⟩
    · exact Or.inl ⟨Or.inr h, hown⟩
    · exact Or.inr (Or.inr h)
    · exact Or.inr (Or.inl h)

/-- The first inference of a type: it marks what it pushes to, and itself for a reason of
its own. -/
theorem Represents.first (h : tbl.Represents s active) {id : TypeId} {s' : PackFlags}
    (hid : tbl.isStructOrUnion id = true) (hnew : ¬s.inferred id = true)
    (hinferred : ∀ other, s'.inferred other = true ↔
      other = id ∨ s.inferred other = true ∨ other ∈ tbl.targets id)
    (hpacked : ∀ other, s'.isPacked other = true ↔
      (other = id ∧ tbl.Own id) ∨ s.isPacked other = true ∨ other ∈ tbl.targets id) :
    tbl.Represents s' (visit tbl.Pushes active id) := by
  have hvisit : visit tbl.Pushes active id = id :: active :=
    if_neg fun hsettled => hnew ((h.inferred id hid).mpr hsettled)
  rw [hvisit]
  constructor
  · intro other hother
    rw [hinferred, settled_cons, h.inferred other hother]
  · intro other
    rw [hpacked, marked_cons, h.isPacked]

/-- Inferring a type that is marked as inferred changes nothing. -/
theorem Represents.again (h : tbl.Represents s active) {id : TypeId}
    (hid : tbl.isStructOrUnion id = true) (hold : s.inferred id = true) :
    tbl.Represents s (visit tbl.Pushes active id) := by
  rw [visit, if_pos ((h.inferred id hid).mp hold)]
  exact h

/-- Types other than structs and unions neither mark nor are marked. -/
theorem Represents.other (h : tbl.Represents s active) {id : TypeId}
    (hid : tbl.isStructOrUnion id = false) (htargets : tbl.targets id = [])
    (hown : ¬tbl.Own id) : tbl.Represents s (visit tbl.Pushes active id) := by
  unfold visit
  split
  · exact h
  · constructor
    · intro other hother
      rw [settled_cons, htargets, h.inferred other hother]
      constructor
      · exact fun hsettled => Or.inr (Or.inl hsettled)
      · rintro (rfl | hsettled | hmem)
        · simp [hid] at hother
        · exact hsettled
        · nomatch hmem
    · intro other
      rw [marked_cons, htargets, h.isPacked]
      constructor
      · exact fun hmarked => Or.inr (Or.inl hmarked)
      · rintro (⟨-, hreason⟩ | hmarked | hmem)
        · exact absurd hreason hown
        · exact hmarked
        · nomatch hmem

theorem represents_infer (h : tbl.Represents s active) (id : TypeId) :
    tbl.Represents (tbl.infer s id) (visit tbl.Pushes active id) := by
  have hself : id ∉ tbl.targets id := fun hmem =>
    absurd (pushes_spec (a := id) (b := id) hmem).2 (lt_irrefl _)
  cases htag : tbl.tag? id with
  | none =>
      have hinfer : tbl.infer s id = s := by simp [infer, htag]
      rw [hinfer]
      exact h.other (by simp [isStructOrUnion, htag]) (by simp [targets, htag])
        (by simp [Own, htag])
  | some tag =>
      cases tag with
      | structType ty =>
          have hid : tbl.isStructOrUnion id = true := by simp [isStructOrUnion, htag]
          have hinfer : tbl.infer s id = tbl.classInfer s id ty := by simp [infer, htag]
          rw [hinfer]
          unfold classInfer
          split
          · rename_i hold
            exact h.again hid hold
          · rename_i hnew
            have hunmarked : ¬s.isPacked id = true := by
              intro hpacked
              refine hnew ((h.inferred id hid).mpr ?_)
              rcases (h.isPacked id).mp hpacked with hact | hpush
              · exact Or.inl hact.1
              · exact Or.inr hpush
            split
            · rename_i hholes
              have htargets : tbl.targets id = tbl.structsAtUnnaturalAlignments ty := by
                simp [targets, htag, hholes]
              have hown : ¬tbl.Own id := by simp [Own, htag, hholes]
              rw [← htargets]
              refine h.first hid hnew (fun other => ?_) fun other => ?_
              · by_cases hsame : other = id
                · simp [PackFlags.setInferred, hsame]
                · simp [PackFlags.setInferred, PackFlags.setPacked, hsame, inferred_mark]
              · by_cases hsame : other = id
                · subst hsame
                  simp [PackFlags.setInferred, PackFlags.setPacked, hown, hself, hunmarked]
                · simp [PackFlags.setInferred, PackFlags.setPacked, hsame, isPacked_mark]
            · rename_i hholes
              have htargets : tbl.targets id = [] := by simp [targets, htag, hholes]
              split
              · rename_i hlooks
                have hown : tbl.Own id := by
                  simp only [Own, htag]
                  exact ⟨by simpa using hholes, hlooks⟩
                refine h.first hid hnew (fun other => ?_) fun other => ?_
                · by_cases hsame : other = id
                  · simp [PackFlags.setInferred, hsame]
                  · simp [PackFlags.setInferred, PackFlags.setPacked, hsame, htargets]
                · by_cases hsame : other = id
                  · simp [PackFlags.setInferred, PackFlags.setPacked, hsame, hown]
                  · simp [PackFlags.setInferred, PackFlags.setPacked, hsame, htargets]
              · rename_i hlooks
                have hown : ¬tbl.Own id := by
                  simp only [Own, htag]
                  exact fun hreason => hlooks hreason.2
                refine h.first hid hnew (fun other => ?_) fun other => ?_
                · by_cases hsame : other = id
                  · simp [PackFlags.setInferred, hsame]
                  · simp [PackFlags.setInferred, hsame, htargets]
                · simp [PackFlags.setInferred, hown, htargets]
      | unionType ty =>
          have hid : tbl.isStructOrUnion id = true := by simp [isStructOrUnion, htag]
          have hinfer : tbl.infer s id = tbl.unionInfer s id ty := by simp [infer, htag]
          have htargets : tbl.targets id = tbl.structsOfUnevenSize ty := by
            simp [targets, htag]
          have hown : ¬tbl.Own id := by simp [Own, htag]
          rw [hinfer]
          unfold unionInfer
          split
          · rename_i hold
            exact h.again hid hold
          · rename_i hnew
            rw [← htargets]
            refine h.first hid hnew (fun other => ?_) fun other => ?_
            · by_cases hsame : other = id
              · simp [PackFlags.setInferred, hsame]
              · simp [PackFlags.setInferred, hsame, inferred_mark]
            · simp [PackFlags.setInferred, hown, isPacked_mark]
      | _ =>
          have hinfer : tbl.infer s id = s := by simp [infer, htag]
          rw [hinfer]
          exact h.other (by simp [isStructOrUnion, htag]) (by simp [targets, htag])
            (by simp [Own, htag])

theorem represents_start : tbl.Represents .start [] := by
  constructor
  · intro id _
    simp [PackFlags.start, Settled]
  · intro id
    simp [PackFlags.start, Marked]

theorem represents_inferAll (order : List TypeId) :
    tbl.Represents (tbl.inferAll order) (visitAll tbl.Pushes order) := by
  have hfold : ∀ s active, tbl.Represents s active →
      tbl.Represents (order.foldl tbl.infer s) (order.foldl (visit tbl.Pushes) active) := by
    induction order with
    | nil => exact fun _ _ h => h
    | cons id order ih => exact fun _ _ h => ih _ _ (represents_infer h id)
  exact hfold _ _ represents_start

end Refinement

/-- The inferred flags do not depend on the order of inference if and only if every struct that
another type marks, and that does not look packed itself, is marked by one that only types which
mark the struct may mark. -/
theorem orderIndependent_iff : tbl.OrderIndependent ↔
    Unpreventable tbl.Pushes tbl.Own (List.range tbl.entries.length) := by
  have hdepth : ∀ a b, tbl.Pushes a b → tbl.depth b < tbl.depth a :=
    fun a b h => (pushes_spec h).2
  rw [← order_irrelevant_iff hdepth]
  unfold OrderIndependent
  constructor
  · intro h order order' horder horder' id hid
    rw [← (represents_inferAll order).isPacked, ← (represents_inferAll order').isPacked,
      h order order' horder horder' id (List.mem_range.mp hid)]
  · intro h order order' horder horder' id hid
    have hiff := h order order' horder horder' id (List.mem_range.mpr hid)
    rw [← (represents_inferAll order).isPacked, ← (represents_inferAll order').isPacked] at hiff
    exact Bool.eq_iff_iff.mpr hiff

/-- A member that is no bitfield. -/
def plainMember (type : TypeId) (byteOffset byteSize : ℕ) : PackMember :=
  ⟨type, false, false, false, byteOffset * 8, byteOffset, byteSize, byteSize * 8, 0⟩

def nestedEntries : List (Option PackTag) :=
  [none, some (.baseType 8), some (.baseType 32),
    some (.structType ⟨[plainMember 2 0 4], 4, 0⟩),
    some (.structType ⟨[plainMember 1 0 1, plainMember 3 1 4, plainMember 2 8 4], 12, 0⟩),
    some (.structType ⟨[plainMember 1 0 1, plainMember 4 1 12], 14, 0⟩)]

/-- A struct with an `int`, in a struct with a hole, in a struct with padding, each at an
odd offset. -/
def nestedTable : PackTable where
  addrSize := 8
  entries := nestedEntries
  depth := fun id => id
  depth_lt := by
    intro id tag h part hpart
    have hsmall : ∀ id < 6, ∀ part ∈ (packTag? nestedEntries id).elim [] PackTag.parts,
        part < id := by decide
    rcases lt_or_ge id 6 with hlt | hge
    · exact hsmall id hlt part (by rw [h]; exact hpart)
    · have hnone : nestedEntries[id]? = none := List.getElem?_eq_none hge
      simp [packTag?, hnone] at h

/-- The innermost struct is packed only if the middle one is inferred before the outer
one. -/
theorem not_orderIndependent_nestedTable : ¬nestedTable.OrderIndependent := by
  intro h
  have hsame := h [5, 4, 3, 2, 1, 0] [0, 1, 2, 3, 4, 5] (by decide) (by decide) 3 (by decide)
  exact absurd hsame (by decide)

end PackTable

end Pahole
