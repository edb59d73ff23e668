import Pahole.Dwarves.PtrTable
import Pahole.DwarfLoader.HashBits
import Pahole.Support.BinarySearch

/-!
# Pruning the partial units of an alternate file

All partial units of a dwz alternate file are processed before the units that refer to
them.  Those that were never referenced are pruned afterwards: their tags are taken out
of the hash tables, and with that out of the tables of the CU, under the id that each of
them is supposed to have there.
-/

namespace Pahole

open Transition

/-! ## Partial units -/

/-- `struct alt_pu` -/
structure AltPu where
  start : ℕ
  stop : ℕ
  hit : Bool

namespace AltPu

/-- Where an offset is, seen from a partial unit. -/
def cmp (offset : ℕ) (pu : AltPu) : ℤ :=
  if offset < pu.start then -1 else if pu.stop ≤ offset then 1 else 0

def Contains (pu : AltPu) (offset : ℕ) : Prop := pu.start ≤ offset ∧ offset < pu.stop

def range (pu : AltPu) : ℕ × ℕ := (pu.start, pu.stop)

end AltPu

/-- `dwarf_cu__find_alt_pu` -/
def findAltPu (pus : List AltPu) (offset : ℕ) : Option ℕ := bsearch (AltPu.cmp offset) pus

/-- `dwarf_cu__alt_pu_is_hit` -/
def altPuIsHit (pus : List AltPu) (offset : ℕ) : Bool :=
  ((findAltPu pus offset).bind fun i => pus[i]?).any AltPu.hit

/-- `dwarf_cu__mark_alt_pu_hit` -/
def markAltPuHit (pus : List AltPu) (offset : ℕ) : List AltPu :=
  match findAltPu pus offset with
  | some i => pus.modify i fun pu => { pu with hit := true }
  | none => pus

/-- The units of an alternate file, as `dwarf_nextcu` finds them. -/
structure AltUnits where
  ranges : List (ℕ × ℕ)
  nonempty : ∀ r ∈ ranges, r.1 < r.2
  sorted : ranges.Pairwise fun a b => a.2 ≤ b.1

/-- The partial units before anything refers to them. -/
def AltUnits.pus (units : AltUnits) : List AltPu := units.ranges.map fun r => ⟨r.1, r.2, false⟩

section FindAltPu

variable {units : AltUnits} {pus : List AltPu} {offset : ℕ}

theorem cmp_eq_zero {pu : AltPu} : pu.cmp offset = 0 ↔ pu.Contains offset := by
  unfold AltPu.cmp AltPu.Contains
  split
  · simp only [neg_eq_zero, one_ne_zero, false_iff]
    omega
  · split
    · simp only [one_ne_zero, false_iff]
      omega
    · simp only [true_iff]
      omega

theorem cmp_neg {pu : AltPu} : pu.cmp offset < 0 ↔ offset < pu.start := by
  unfold AltPu.cmp
  split
  · next h => simp [h]
  · split <;> simpa using by omega

theorem cmp_pos {pu : AltPu} : 0 < pu.cmp offset ↔ pu.start ≤ offset ∧ pu.stop ≤ offset := by
  unfold AltPu.cmp
  split
  · next h => simpa using fun hle => absurd h (not_lt.mpr hle)
  · next h =>
      have hle := not_lt.mp h
      split
      · next h' => simp [hle, h']
      · next h' => simpa [hle] using h'

theorem nonempty_of_ranges (h : pus.map AltPu.range = units.ranges) {pu : AltPu} (hpu : pu ∈ pus) :
    pu.start < pu.stop :=
  units.nonempty pu.range (h ▸ List.mem_map_of_mem hpu)

theorem sorted_of_ranges (h : pus.map AltPu.range = units.ranges) :
    pus.Pairwise fun a b => a.stop ≤ b.start := by
  have hsorted := units.sorted
  rw [← h, List.pairwise_map] at hsorted
  exact hsorted

theorem searchOrdered_of_ranges (h : pus.map AltPu.range = units.ranges) :
    SearchOrdered (AltPu.cmp offset) pus := by
  refine (sorted_of_ranges h).imp_of_mem fun ha hb hle => ?_
  have hlt := nonempty_of_ranges h ha
  have hlt' := nonempty_of_ranges h hb
  rw [cmp_neg, cmp_neg, cmp_pos, cmp_pos]
  omega

/-- At most one partial unit contains an offset. -/
theorem unique_of_ranges (h : pus.map AltPu.range = units.ranges) {i j : ℕ} {pu pu' : AltPu}
    (hi : pus[i]? = some pu) (hj : pus[j]? = some pu') (hpu : pu.Contains offset)
    (hpu' : pu'.Contains offset) : i = j := by
  have hsorted := List.pairwise_iff_getElem.mp (sorted_of_ranges h)
  obtain ⟨hilt, rfl⟩ := List.getElem?_eq_some_iff.mp hi
  obtain ⟨hjlt, rfl⟩ := List.getElem?_eq_some_iff.mp hj
  obtain ⟨hstart, hstop⟩ := hpu
  obtain ⟨hstart', hstop'⟩ := hpu'
  rcases lt_trichotomy i j with hlt | heq | hlt
  · have hle := hsorted i j hilt hjlt hlt
    omega
  · exact heq
  · have hle := hsorted j i hjlt hilt hlt
    omega

/-- `alt_pu__is_hit` of an offset is the mark of the unit that contains it. -/
theorem altPuIsHit_of_contains (h : pus.map AltPu.range = units.ranges) {pu : AltPu}
    (hpu : pu ∈ pus) (hin : pu.Contains offset) : altPuIsHit pus offset = pu.hit := by
  have hsome := (bsearch_isSome_iff (searchOrdered_of_ranges h)).mpr ⟨pu, hpu, cmp_eq_zero.mpr hin⟩
  obtain ⟨i, hi⟩ := Option.isSome_iff_exists.mp hsome
  obtain ⟨found, hfound, hcmp⟩ := bsearch_sound hi
  obtain ⟨j, hj⟩ := List.mem_iff_getElem?.mp hpu
  obtain rfl := unique_of_ranges h hfound hj (cmp_eq_zero.mp hcmp) hin
  obtain rfl := Option.some.inj (hfound.symm.trans hj)
  rw [altPuIsHit, findAltPu, hi, Option.bind_some, hfound, Option.any_some]

/-- Marking a unit leaves the bounds of all units as they are. -/
theorem ranges_markAltPuHit (pus : List AltPu) (offset : ℕ) :
    (markAltPuHit pus offset).map AltPu.range = pus.map AltPu.range := by
  unfold markAltPuHit
  split
  · next i _ =>
      apply List.ext_getElem?
      intro j
      rw [List.getElem?_map, List.getElem?_map, List.getElem?_modify]
      cases pus[j]? with
      | none => rfl
      | some pu =>
          by_cases hij : i = j
          · simp [hij, AltPu.range]
          · simp [hij]
  · rfl

end FindAltPu

/-! ## Loading tags -/

/-- The table of the CU that a tag belongs in. -/
inductive TagClass where
  /-- `tag__is_tag_type` -/
  | type
  /-- `tag__is_function` -/
  | function
  | other
  deriving DecidableEq

/-- The hash table that a tag belongs in. -/
def TagClass.hashKind : TagClass → HashKind
  | .type => .types
  | _ => .tags

/-- A merged CU with its `dwarf_cu` and that of the alternate file.  Tags are allocated
one after the other. -/
structure MergedCu where
  tables : TagClass → PtrTable ℕ
  dcu : DwarfCu
  alt : DwarfCu
  altPus : List AltPu
  processingAlt : Bool
  nrTags : ℕ
  tagClass : ℕ → TagClass
  /-- `small_id` of the `dwarf_tag` -/
  smallId : ℕ → ℕ

/-- The effect of processing a DIE on the tables. -/
inductive TagEvent where
  /-- a tag that gets an entry in a table of the CU -/
  | entry (cls : TagClass) (id : DwarfOff) (id_ne_zero : id ≠ 0)
  /-- an enumerator, or a member of a CU that is not C++ -/
  | member (id : DwarfOff) (id_ne_zero : id ≠ 0)
  /-- a `DW_TAG_unspecified_type` of a unit -/
  | unspecifiedType (id : DwarfOff) (id_ne_zero : id ≠ 0)
  /-- a reference into the alternate file -/
  | mark (offset : ℕ)
  /-- `processing_alt` is set or reset -/
  | processAlt (on : Bool)

namespace MergedCu

/-- A CU before the alternate file is processed.  The first type is `void`. -/
def start (bits : ℕ) (units : AltUnits) : MergedCu where
  tables cls := if cls = .type then [none] else []
  dcu := .init bits
  alt := .init bits
  altPus := units.pus
  processingAlt := false
  nrTags := 0
  tagClass := fun _ => .other
  smallId := fun _ => 0

/-- `tag__alloc`.  What is allocated is zeroed. -/
def tagAlloc (cu : MergedCu) (cls : TagClass) : MergedCu :=
  { cu with
    nrTags := cu.nrTags + 1
    tagClass := Function.update cu.tagClass cu.nrTags cls
    smallId := Function.update cu.smallId cu.nrTags 0 }

/-- `cu__table_add_tag`, with the id stored in the tag. -/
def tableAddTag (cu : MergedCu) (tag : ℕ) : MergedCu :=
  let cls := cu.tagClass tag
  { cu with
    tables := Function.update cu.tables cls ((cu.tables cls).add (some tag))
    smallId := Function.update cu.smallId tag (cu.tables cls).length }

/-- The `dwarf_cu` that tags are hashed into. -/
def target (cu : MergedCu) : DwarfCu := if cu.processingAlt then cu.alt else cu.dcu

def setTarget (cu : MergedCu) (dcu : DwarfCu) : MergedCu :=
  if cu.processingAlt then { cu with alt := dcu } else { cu with dcu := dcu }

/-- `cu__hash` -/
def hash (bits : ℕ) (cu : MergedCu) (dtag : DwarfTag) : Option MergedCu :=
  let kind := (cu.tagClass dtag.addr).hashKind
  let logged := cu.target.table kind
  (logged.table.hash bits dtag).map fun table =>
    cu.setTarget (cu.target.setTable kind ⟨table, dtag :: logged.hashed⟩)

/-- The next step of loading. -/
def step (bits : ℕ) (cu : MergedCu) : TagEvent → Option MergedCu
  | .entry cls id hid =>
      ((cu.tagAlloc cls).tableAddTag cu.nrTags).hash bits ⟨cu.nrTags, id, hid⟩
  | .member id hid => (cu.tagAlloc .other).hash bits ⟨cu.nrTags, id, hid⟩
  | .unspecifiedType id hid => (cu.tagAlloc .type).hash bits ⟨cu.nrTags, id, hid⟩
  | .mark offset => some { cu with altPus := markAltPuHit cu.altPus offset }
  | .processAlt on => some { cu with processingAlt := on }

/-- While the alternate file is processed, every DIE offset is in one of its units. -/
def InUnits (cu : MergedCu) (id : DwarfOff) : Prop :=
  cu.processingAlt = true → ∃ pu ∈ cu.altPus, pu.Contains id.toNat

/-- The DIE of an event is in a unit of the alternate file while that is processed. -/
def Meets (cu : MergedCu) : TagEvent → Prop
  | .entry _ id _ => cu.InUnits id
  | .member id _ => cu.InUnits id
  | .unspecifiedType id _ => cu.InUnits id
  | .mark _ => True
  | .processAlt _ => True

/-! ## Pruning -/

/-- The class that a tag in a bucket of `hash_tags` is pruned as. -/
def tagsClass (cu : MergedCu) (dtag : DwarfTag) : TagClass :=
  if cu.tagClass dtag.addr = .function then .function else .other

/-- The tags in the order of the loops over the buckets, with the table of each. -/
def visits (bits : ℕ) (cu : MergedCu) : List (TagClass × DwarfTag) :=
  (List.range (2 ^ bits)).flatMap fun i =>
    (((cu.alt.table .types).table.bucket i).map fun dtag => (TagClass.type, dtag)) ++
      ((cu.alt.table .tags).table.bucket i).map fun dtag => (cu.tagsClass dtag, dtag)

/-- Clear an entry; without any entry the array is `NULL`. -/
def clearEntry (tables : TagClass → PtrTable ℕ) (cls : TagClass) (id : ℕ) :
    Option (TagClass → PtrTable ℕ) :=
  if tables cls = [] then none
  else some (Function.update tables cls ((tables cls).set id none))

/-- A tag of a unit that is not hit is pruned. -/
def pruneTag (cu : MergedCu) (tables : TagClass → PtrTable ℕ) (visit : TagClass × DwarfTag) :
    Option (TagClass → PtrTable ℕ) :=
  if altPuIsHit cu.altPus visit.2.id.toNat then some tables
  else clearEntry tables visit.1 (cu.smallId visit.2.addr)

/-- The table without the tags of units that are not hit. -/
def pruneHash (bits : ℕ) (pus : List AltPu) (logged : LoggedTable) : LoggedTable :=
  ⟨logged.table.prune bits fun id => altPuIsHit pus id.toNat,
    logged.hashed.filter fun dtag => altPuIsHit pus dtag.id.toNat⟩

/-- `dwarf_cu__prune_unreferenced_alt_pus`.  There is no result when an array is written
to that is not there. -/
def pruneUnreferencedAltPus (bits : ℕ) (cu : MergedCu) : Option MergedCu :=
  if cu.altPus = [] then some cu
  else
    ((cu.visits bits).foldlM cu.pruneTag cu.tables).map fun tables =>
      { cu with
        tables := tables
        alt :=
          { cu.alt with
            hashTypes := pruneHash bits cu.altPus cu.alt.hashTypes
            hashTags := pruneHash bits cu.altPus cu.alt.hashTags } }

/-- The entry of a tag. -/
def entry (cu : MergedCu) (cls : TagClass) (id : ℕ) : Option ℕ := (cu.tables cls).entry id

/-- A tag was hashed from the alternate file. -/
def FromAlt (cu : MergedCu) (dtag : DwarfTag) : Prop := ∃ kind, dtag ∈ (cu.alt.table kind).hashed

/-- A tag was hashed from a partial unit that is not hit. -/
def Unused (cu : MergedCu) (tag : ℕ) : Prop :=
  ∃ dtag, cu.FromAlt dtag ∧ dtag.addr = tag ∧
    ∃ pu ∈ cu.altPus, pu.Contains dtag.id.toNat ∧ pu.hit = false

/-- Pruning returns, clears every entry of an unused tag, and leaves all other entries alone. -/
def PrunesUnused (bits : ℕ) (cu : MergedCu) : Prop :=
  ∃ cu', cu.pruneUnreferencedAltPus bits = some cu' ∧
    (∀ cls id, cu'.entry cls id = none ↔
      cu.entry cls id = none ∨ ∃ tag, cu.entry cls id = some tag ∧ cu.Unused tag) ∧
    ∀ cls id tag, cu.entry cls id = some tag → ¬cu.Unused tag → cu'.entry cls id = some tag

/-- An unused enumerator or member, which no table has an entry for. -/
def HasUnusedMember (cu : MergedCu) : Prop :=
  ∃ tag, cu.Unused tag ∧ cu.tagClass tag = .other ∧ ∀ id, cu.entry .other id ≠ some tag

/-- The first entry of `tags_table` is that of a tag that is unused itself. -/
def FirstUnused (cu : MergedCu) : Prop := ∃ tag, cu.entry .other 0 = some tag ∧ cu.Unused tag

/-! ## The invariant of loading -/

/-- A tag is where its `small_id` says, or it has no entry and the id is the default. -/
def Placed (cu : MergedCu) (tag : ℕ) : Prop :=
  cu.entry (cu.tagClass tag) (cu.smallId tag) = some tag ∨
    cu.smallId tag = 0 ∧ cu.tagClass tag ≠ .function ∧
      ∀ id, cu.entry (cu.tagClass tag) id ≠ some tag

/-- All tables of a `dwarf_cu` have `bits` hash bits and hold the tags hashed into them. -/
def Hashes (bits : ℕ) (dcu : DwarfCu) : Prop :=
  ∀ kind, (dcu.table kind).table.bits = bits ∧ (dcu.table kind).table.Holds (dcu.table kind).hashed

/-- The invariant of a tag hashed from the alternate file: it has been allocated, its kind is
that of its table, it is in a unit, and its entry is `Placed`. -/
structure HashedInv (cu : MergedCu) (kind : HashKind) (dtag : DwarfTag) : Prop where
  lt : dtag.addr < cu.nrTags
  kind : (cu.tagClass dtag.addr).hashKind = kind
  inUnits : ∃ pu ∈ cu.altPus, pu.Contains dtag.id.toNat
  placed : cu.Placed dtag.addr

structure LoadInv (bits : ℕ) (units : AltUnits) (cu : MergedCu) : Prop where
  ranges : cu.altPus.map AltPu.range = units.ranges
  main : Hashes bits cu.dcu
  alt : Hashes bits cu.alt
  entries : ∀ cls id tag, cu.entry cls id = some tag →
    tag < cu.nrTags ∧ cu.tagClass tag = cls ∧ cu.smallId tag = id
  void : cu.tables .type ≠ [] ∧ cu.entry .type 0 = none
  filled : cu.tables .other ≠ [] → cu.entry .other 0 ≠ none
  hashed : ∀ kind, ∀ dtag ∈ (cu.alt.table kind).hashed, cu.HashedInv kind dtag

section Steps

variable {bits : ℕ} {units : AltUnits} {cu cu' : MergedCu} {tag : ℕ} {cls : TagClass}

theorem loadInv_start (hpos : 0 < bits) (hlt : bits < 32) : (start bits units).LoadInv bits units where
  ranges := by
    rw [start, AltUnits.pus, List.map_map]
    exact List.map_id _
  main kind := by
    cases kind <;> exact ⟨rfl, HashTable.holds_init hpos hlt⟩
  alt kind := by
    cases kind <;> exact ⟨rfl, HashTable.holds_init hpos hlt⟩
  entries cls id tag h := by
    have hnone : (start bits units).entry cls id = none := by
      cases cls with
      | type => cases id <;> rfl
      | function => rfl
      | other => rfl
    rw [hnone] at h
    cases h
  void := ⟨List.cons_ne_nil _ _, rfl⟩
  filled h := absurd rfl h
  hashed kind dtag hmem := by
    cases kind <;> cases hmem

/-- A tag that is placed stays so when others are given entries. -/
theorem Placed.mono (h : cu.Placed tag) (hcls : cu'.tagClass tag = cu.tagClass tag)
    (hid : cu'.smallId tag = cu.smallId tag)
    (hentry : ∀ id, cu'.entry (cu.tagClass tag) id = some tag ↔
      cu.entry (cu.tagClass tag) id = some tag) : cu'.Placed tag := by
  unfold Placed
  rw [hcls, hid]
  rcases h with hplaced | ⟨hzero, hfunction, hnone⟩
  · exact Or.inl ((hentry _).mpr hplaced)
  · exact Or.inr ⟨hzero, hfunction, fun id hentry' => hnone id ((hentry id).mp hentry')⟩

theorem tagClass_tagAlloc_of_lt (h : tag < cu.nrTags) :
    (cu.tagAlloc cls).tagClass tag = cu.tagClass tag :=
  Function.update_of_ne h.ne _ _

theorem smallId_tagAlloc_of_lt (h : tag < cu.nrTags) :
    (cu.tagAlloc cls).smallId tag = cu.smallId tag :=
  Function.update_of_ne h.ne _ _

theorem LoadInv.tagAlloc (h : cu.LoadInv bits units) (cls : TagClass) :
    (cu.tagAlloc cls).LoadInv bits units where
  ranges := h.ranges
  main := h.main
  alt := h.alt
  entries cls' id tag hentry := by
    obtain ⟨hlt, hcls, hid⟩ := h.entries cls' id tag hentry
    exact ⟨Nat.lt_succ_of_lt hlt, (tagClass_tagAlloc_of_lt hlt).trans hcls,
      (smallId_tagAlloc_of_lt hlt).trans hid⟩
  void := h.void
  filled := h.filled
  hashed kind dtag hmem := by
    have hold := h.hashed kind dtag hmem
    have hcls : (cu.tagAlloc cls).tagClass dtag.addr = cu.tagClass dtag.addr :=
      tagClass_tagAlloc_of_lt hold.lt
    have hid : (cu.tagAlloc cls).smallId dtag.addr = cu.smallId dtag.addr :=
      smallId_tagAlloc_of_lt hold.lt
    exact ⟨Nat.lt_succ_of_lt hold.lt, hcls ▸ hold.kind, hold.inUnits,
      hold.placed.mono hcls hid fun _ => Iff.rfl⟩

/-- No entry of the tables is the tag that is allocated next. -/
theorem LoadInv.entry_ne_new (h : cu.LoadInv bits units) (cls : TagClass) (id : ℕ) :
    cu.entry cls id ≠ some cu.nrTags := fun hentry =>
  absurd (h.entries cls id cu.nrTags hentry).1 (lt_irrefl _)

theorem placed_tagAlloc (h : cu.LoadInv bits units) (hcls : cls ≠ .function) :
    (cu.tagAlloc cls).Placed cu.nrTags := by
  have hown : (cu.tagAlloc cls).tagClass cu.nrTags = cls := Function.update_self _ _ _
  refine Or.inr ⟨Function.update_self _ _ _, ?_, ?_⟩
  · rw [hown]
    exact hcls
  · rw [hown]
    exact h.entry_ne_new cls

theorem tables_tableAddTag (cu : MergedCu) (tag : ℕ) (cls : TagClass) :
    (cu.tableAddTag tag).tables cls =
      if cls = cu.tagClass tag then (cu.tables cls).add (some tag) else cu.tables cls := by
  unfold tableAddTag
  dsimp only
  split
  · next hcls =>
      subst hcls
      exact Function.update_self _ _ _
  · next hcls => exact Function.update_of_ne hcls _ _

theorem entry_tableAddTag (cu : MergedCu) (tag : ℕ) (cls : TagClass) (id : ℕ) :
    (cu.tableAddTag tag).entry cls id =
      if cls = cu.tagClass tag ∧ id = (cu.tables cls).length then some tag
      else cu.entry cls id := by
  unfold entry
  rw [tables_tableAddTag]
  by_cases hcls : cls = cu.tagClass tag
  · rw [if_pos hcls, PtrTable.entry_add]
    simp only [hcls, true_and]
  · rw [if_neg hcls, if_neg fun h => hcls h.1]

/-- Giving an entry to a tag that has none and is not hashed keeps the invariant. -/
theorem LoadInv.tableAddTag (h : cu.LoadInv bits units) (hlt : tag < cu.nrTags)
    (hnone : ∀ cls id, cu.entry cls id ≠ some tag)
    (hnew : ∀ kind, ∀ dtag ∈ (cu.alt.table kind).hashed, dtag.addr ≠ tag) :
    (cu.tableAddTag tag).LoadInv bits units ∧ (cu.tableAddTag tag).Placed tag := by
  have hid_self : (cu.tableAddTag tag).smallId tag = (cu.tables (cu.tagClass tag)).length :=
    Function.update_self _ _ _
  have hid_ne : ∀ {other}, other ≠ tag → (cu.tableAddTag tag).smallId other = cu.smallId other :=
    fun hne => Function.update_of_ne hne _ _
  have hkeep : ∀ {other}, other ≠ tag → ∀ cls id,
      (cu.tableAddTag tag).entry cls id = some other ↔ cu.entry cls id = some other := by
    intro other hne cls id
    rw [entry_tableAddTag]
    split
    · next hhere =>
        rw [entry, hhere.2, PtrTable.entry_of_length_le (le_refl _)]
        exact ⟨fun heq => absurd (Option.some.inj heq).symm hne, fun heq => by cases heq⟩
    · exact Iff.rfl
  have hplaced : (cu.tableAddTag tag).Placed tag := by
    refine Or.inl ?_
    rw [hid_self, entry_tableAddTag]
    exact if_pos ⟨rfl, rfl⟩
  refine ⟨?_, hplaced⟩
  constructor
  · exact h.ranges
  · exact h.main
  · exact h.alt
  · intro cls id other hentry
    rw [entry_tableAddTag] at hentry
    split at hentry
    · next hhere =>
        obtain rfl := Option.some.inj hentry
        refine ⟨hlt, hhere.1.symm, ?_⟩
        rw [hid_self, ← hhere.1, hhere.2]
    · have hne : other ≠ tag := by
        rintro rfl
        exact hnone cls id hentry
      obtain ⟨hlt', hcls, hid⟩ := h.entries cls id other hentry
      exact ⟨hlt', hcls, (hid_ne hne).trans hid⟩
  · constructor
    · rw [tables_tableAddTag]
      split
      · exact List.concat_ne_nil _ _
      · exact h.void.1
    · rw [entry_tableAddTag, if_neg]
      · exact h.void.2
      · rintro ⟨-, hzero⟩
        exact h.void.1 (List.length_eq_zero_iff.mp hzero.symm)
  · intro hne
    rw [entry_tableAddTag]
    split
    · exact Option.some_ne_none tag
    · next hother =>
        apply h.filled
        intro hnil
        have hcls : TagClass.other ≠ cu.tagClass tag := fun heq =>
          hother ⟨heq, by rw [hnil]; rfl⟩
        rw [tables_tableAddTag, if_neg hcls] at hne
        exact hne hnil
  · intro kind dtag hmem
    have hold := h.hashed kind dtag hmem
    have hne := hnew kind dtag hmem
    exact ⟨hold.lt, hold.kind, hold.inUnits, hold.placed.mono rfl (hid_ne hne) (hkeep hne _)⟩

/-- A tag can be hashed into a table of a `dwarf_cu`, which then logs it. -/
theorem Hashes.hash {dcu : DwarfCu} (h : Hashes bits dcu) (kind : HashKind) (dtag : DwarfTag) :
    ∃ table, (dcu.table kind).table.hash bits dtag = some table ∧
      Hashes bits (dcu.setTable kind ⟨table, dtag :: (dcu.table kind).hashed⟩) := by
  obtain ⟨hbits, hholds⟩ := h kind
  obtain ⟨table, htable, hbits', hholds'⟩ := hholds.hash dtag
  rw [hbits] at htable hbits'
  refine ⟨table, htable, fun kind' => ?_⟩
  rw [DwarfCu.table_setTable]
  split
  · exact ⟨hbits', hholds'⟩
  · exact h kind'

/-- `cu__hash` of a tag that is placed succeeds and keeps the invariant. -/
theorem LoadInv.hash (h : cu.LoadInv bits units) {dtag : DwarfTag} (hlt : dtag.addr < cu.nrTags)
    (hplaced : cu.Placed dtag.addr) (hin : cu.InUnits dtag.id) :
    ∃ cu', cu.hash bits dtag = some cu' ∧ cu'.LoadInv bits units := by
  set kind := (cu.tagClass dtag.addr).hashKind with hkind
  by_cases halt : cu.processingAlt = true
  · obtain ⟨table, htable, hhashes⟩ := h.alt.hash kind dtag
    refine ⟨{ cu with alt := cu.alt.setTable kind ⟨table, dtag :: (cu.alt.table kind).hashed⟩ },
      ?_, ?_⟩
    · have htarget : cu.target = cu.alt := if_pos halt
      have hset : ∀ dcu, cu.setTarget dcu = { cu with alt := dcu } := fun _ => if_pos halt
      simp only [MergedCu.hash, htarget, hset, ← hkind, htable, Option.map_some]
    · refine ⟨h.ranges, h.main, hhashes, h.entries, h.void, h.filled, fun kind' other hmem => ?_⟩
      rw [DwarfCu.table_setTable] at hmem
      have hown : cu.HashedInv kind dtag := ⟨hlt, rfl, hin halt, hplaced⟩
      have hinv : cu.HashedInv kind' other := by
        split at hmem
        · next heq =>
            rw [heq]
            rcases List.mem_cons.mp hmem with rfl | hmem
            · exact hown
            · exact h.hashed kind other hmem
        · exact h.hashed kind' other hmem
      exact ⟨hinv.lt, hinv.kind, hinv.inUnits, hinv.placed⟩
  · obtain ⟨table, htable, hhashes⟩ := h.main.hash kind dtag
    refine ⟨{ cu with dcu := cu.dcu.setTable kind ⟨table, dtag :: (cu.dcu.table kind).hashed⟩ },
      ?_, ?_⟩
    · have htarget : cu.target = cu.dcu := if_neg halt
      have hset : ∀ dcu, cu.setTarget dcu = { cu with dcu := dcu } := fun _ => if_neg halt
      simp only [MergedCu.hash, htarget, hset, ← hkind, htable, Option.map_some]
    · refine ⟨h.ranges, hhashes, h.alt, h.entries, h.void, h.filled, fun kind' other hmem => ?_⟩
      have hinv := h.hashed kind' other hmem
      exact ⟨hinv.lt, hinv.kind, hinv.inUnits, hinv.placed⟩

/-- Marking the unit of an offset keeps the invariant. -/
theorem LoadInv.mark (h : cu.LoadInv bits units) (offset : ℕ) :
    ({ cu with altPus := markAltPuHit cu.altPus offset } : MergedCu).LoadInv bits units := by
  have hranges := ranges_markAltPuHit cu.altPus offset
  refine ⟨hranges.trans h.ranges, h.main, h.alt, h.entries, h.void, h.filled,
    fun kind dtag hmem => ?_⟩
  have hinv := h.hashed kind dtag hmem
  refine ⟨hinv.lt, hinv.kind, ?_, hinv.placed⟩
  obtain ⟨pu, hpu, hin⟩ := hinv.inUnits
  have hmem' : pu.range ∈ (markAltPuHit cu.altPus offset).map AltPu.range := by
    rw [hranges]
    exact List.mem_map_of_mem hpu
  obtain ⟨pu', hpu', hrange⟩ := List.mem_map.mp hmem'
  obtain ⟨hstart, hstop⟩ := Prod.mk.inj hrange
  refine ⟨pu', hpu', ?_⟩
  unfold AltPu.Contains
  rw [hstart, hstop]
  exact hin

/-- Every event that can come next succeeds and keeps the invariant. -/
theorem LoadInv.step (h : cu.LoadInv bits units) {e : TagEvent} (hmeets : cu.Meets e) :
    ∃ cu', cu.step bits e = some cu' ∧ cu'.LoadInv bits units := by
  have hself : ∀ cls, cu.nrTags < (cu.tagAlloc cls).nrTags := fun _ => Nat.lt_succ_self _
  cases e with
  | entry cls id hid =>
      obtain ⟨hinv, hplaced⟩ := (h.tagAlloc cls).tableAddTag (hself cls) h.entry_ne_new
        fun kind dtag hmem => (h.hashed kind dtag hmem).lt.ne
      have hin : ((cu.tagAlloc cls).tableAddTag cu.nrTags).InUnits id := hmeets
      exact hinv.hash (hself cls) hplaced hin
  | member id hid =>
      have hin : (cu.tagAlloc .other).InUnits id := hmeets
      exact (h.tagAlloc .other).hash (hself .other) (placed_tagAlloc h (by decide)) hin
  | unspecifiedType id hid =>
      have hin : (cu.tagAlloc .type).InUnits id := hmeets
      exact (h.tagAlloc .type).hash (hself .type) (placed_tagAlloc h (by decide)) hin
  | mark offset => exact ⟨_, rfl, h.mark offset⟩
  | processAlt on =>
      refine ⟨_, rfl, h.ranges, h.main, h.alt, h.entries, h.void, h.filled, ?_⟩
      intro kind dtag hmem
      have hinv := h.hashed kind dtag hmem
      exact ⟨hinv.lt, hinv.kind, hinv.inUnits, hinv.placed⟩

/-- The invariant holds after any sequence of tags has been loaded. -/
theorem loadInv_run {events : List TagEvent} (hpos : 0 < bits) (hlt : bits < 32)
    (hrun : Run (step bits) Meets (start bits units) events cu) : cu.LoadInv bits units := by
  refine hrun.invariant (loadInv_start hpos hlt) fun s₁ e s₂ hinv hmeets hstep => ?_
  obtain ⟨s₂', hstep', hinv'⟩ := hinv.step hmeets
  rw [hstep] at hstep'
  obtain rfl := Option.some.inj hstep'
  exact hinv'

end Steps

/-! ## The effect of pruning -/

/-- A visit to a tag clears an entry. -/
def Clears (cu : MergedCu) (visit : TagClass × DwarfTag) (cls : TagClass) (id : ℕ) : Prop :=
  altPuIsHit cu.altPus visit.2.id.toNat = false ∧ visit.1 = cls ∧
    cu.smallId visit.2.addr = id

section Prune

variable {cu : MergedCu} {tables tables' : TagClass → PtrTable ℕ} {cls : TagClass} {id : ℕ}
  {visit : TagClass × DwarfTag} {visits : List (TagClass × DwarfTag)}

theorem pruneTag_of_hit (h : altPuIsHit cu.altPus visit.2.id.toNat = true) :
    cu.pruneTag tables visit = some tables :=
  if_pos h

theorem pruneTag_of_unhit (h : altPuIsHit cu.altPus visit.2.id.toNat = false)
    (hne : tables visit.1 ≠ []) :
    cu.pruneTag tables visit = some (Function.update tables visit.1
      ((tables visit.1).set (cu.smallId visit.2.addr) none)) := by
  rw [pruneTag, if_neg (by rw [h]; decide), clearEntry, if_neg hne]

/-- Clearing an entry returns only if the table is not `NULL`. -/
theorem ne_nil_of_pruneTag (h : cu.pruneTag tables visit = some tables')
    (hunhit : altPuIsHit cu.altPus visit.2.id.toNat = false) : tables visit.1 ≠ [] := by
  intro hnil
  rw [pruneTag, if_neg (by rw [hunhit]; decide), clearEntry, if_pos hnil] at h
  cases h

/-- After pruning a table is empty if and only if it was empty before. -/
theorem eq_nil_iff_of_pruneTag (h : cu.pruneTag tables visit = some tables') (cls : TagClass) :
    tables' cls = [] ↔ tables cls = [] := by
  cases hhit : altPuIsHit cu.altPus visit.2.id.toNat with
  | true =>
      rw [pruneTag_of_hit hhit] at h
      rw [Option.some.inj h]
  | false =>
      rw [pruneTag_of_unhit hhit (ne_nil_of_pruneTag h hhit)] at h
      rw [← Option.some.inj h]
      by_cases hcls : cls = visit.1
      · subst hcls
        rw [Function.update_self, List.set_eq_nil_iff]
      · rw [Function.update_of_ne hcls]

theorem entry_pruneTag (h : cu.pruneTag tables visit = some tables') (cls : TagClass) (id : ℕ) :
    (cu.Clears visit cls id → (tables' cls).entry id = none) ∧
      (¬cu.Clears visit cls id → (tables' cls).entry id = (tables cls).entry id) := by
  cases hhit : altPuIsHit cu.altPus visit.2.id.toNat with
  | true =>
      rw [pruneTag_of_hit hhit] at h
      rw [Option.some.inj h]
      exact ⟨fun hclears => absurd (hhit.symm.trans hclears.1) (by decide), fun _ => rfl⟩
  | false =>
      rw [pruneTag_of_unhit hhit (ne_nil_of_pruneTag h hhit)] at h
      rw [← Option.some.inj h]
      by_cases hcls : cls = visit.1
      · subst hcls
        rw [Function.update_self, PtrTable.entry_set_none]
        constructor
        · rintro ⟨-, -, hid⟩
          exact if_pos hid.symm
        · intro hnot
          exact if_neg fun hid => hnot ⟨hhit, rfl, hid.symm⟩
      · rw [Function.update_of_ne hcls]
        exact ⟨fun hclears => absurd hclears.2.1.symm hcls, fun _ => rfl⟩

/-- The loops clear an entry if and only if one of their visits clears it. -/
theorem entry_foldlM (h : visits.foldlM cu.pruneTag tables = some tables') (cls : TagClass)
    (id : ℕ) :
    ((∃ visit ∈ visits, cu.Clears visit cls id) → (tables' cls).entry id = none) ∧
      ((¬∃ visit ∈ visits, cu.Clears visit cls id) →
        (tables' cls).entry id = (tables cls).entry id) := by
  induction visits generalizing tables with
  | nil =>
      obtain rfl := Option.some.inj h
      exact ⟨fun ⟨_, hmem, _⟩ => absurd hmem List.not_mem_nil, fun _ => rfl⟩
  | cons visit visits ih =>
      rw [List.foldlM_cons] at h
      obtain ⟨tables₁, hfirst, hrest⟩ := Option.bind_eq_some_iff.mp h
      obtain ⟨hclears, hkeeps⟩ := entry_pruneTag hfirst cls id
      obtain ⟨hlater, hnever⟩ := ih hrest
      rw [List.exists_mem_cons_iff, not_or]
      constructor
      · intro hor
        by_cases hrest' : ∃ visit ∈ visits, cu.Clears visit cls id
        · exact hlater hrest'
        · rw [hnever hrest']
          exact hclears (hor.resolve_right hrest')
      · rintro ⟨hnot, hrest'⟩
        rw [hnever hrest', hkeeps hnot]

/-- The loops return if and only if every table that they clear entries of is not `NULL`. -/
theorem exists_foldlM_iff :
    (∃ tables', visits.foldlM cu.pruneTag tables = some tables') ↔
      ∀ visit ∈ visits, altPuIsHit cu.altPus visit.2.id.toNat = false → tables visit.1 ≠ [] := by
  induction visits generalizing tables with
  | nil => exact ⟨fun _ _ hmem => absurd hmem List.not_mem_nil, fun _ => ⟨tables, rfl⟩⟩
  | cons visit visits ih =>
      rw [List.forall_mem_cons, List.foldlM_cons]
      constructor
      · rintro ⟨tables', h⟩
        obtain ⟨tables₁, hfirst, hrest⟩ := Option.bind_eq_some_iff.mp h
        refine ⟨ne_nil_of_pruneTag hfirst, fun visit' hmem hunhit => ?_⟩
        have hne := ih.mp ⟨tables', hrest⟩ visit' hmem hunhit
        exact fun hnil => hne ((eq_nil_iff_of_pruneTag hfirst _).mpr hnil)
      · rintro ⟨hne, hrest⟩
        obtain ⟨tables₁, hfirst⟩ : ∃ tables₁, cu.pruneTag tables visit = some tables₁ := by
          cases hhit : altPuIsHit cu.altPus visit.2.id.toNat with
          | true => exact ⟨_, pruneTag_of_hit hhit⟩
          | false => exact ⟨_, pruneTag_of_unhit hhit (hne hhit)⟩
        have hrest' : ∀ visit' ∈ visits, altPuIsHit cu.altPus visit'.2.id.toNat = false →
            tables₁ visit'.1 ≠ [] := fun visit' hmem hunhit hnil =>
          hrest visit' hmem hunhit ((eq_nil_iff_of_pruneTag hfirst _).mp hnil)
        obtain ⟨tables', hfold⟩ := ih.mpr hrest'
        refine ⟨tables', ?_⟩
        rw [hfirst]
        exact hfold

end Prune

section Loaded

variable {bits : ℕ} {units : AltUnits} {cu cu' : MergedCu} {tag : ℕ} {cls : TagClass}

/-- The tags in the buckets are those that were hashed. -/
theorem LoadInv.mem_bucket (h : cu.LoadInv bits units) (hpos : 0 < bits) (hlt : bits < 32)
    {kind : HashKind} {dtag : DwarfTag} :
    (∃ i < 2 ^ bits, dtag ∈ (cu.alt.table kind).table.bucket i) ↔
      dtag ∈ (cu.alt.table kind).hashed := by
  obtain ⟨hbits, hholds⟩ := h.alt kind
  simp only [hholds.bucket, List.mem_filter, decide_eq_true_eq, hbits]
  constructor
  · rintro ⟨i, -, hmem, -⟩
    exact hmem
  · intro hmem
    exact ⟨_, hashtagsFn_lt hpos hlt dtag.id, hmem, rfl⟩

/-- The tags in the buckets of `hash_types` are types. -/
theorem type_of_hashKind (h : cls.hashKind = .types) : cls = .type := by
  cases cls with
  | type => rfl
  | function => cases h
  | other => cases h

/-- The loops know the class of the tags in the buckets of `hash_tags`. -/
theorem tagsClass_of_hashKind {dtag : DwarfTag} (h : (cu.tagClass dtag.addr).hashKind = .tags) :
    cu.tagsClass dtag = cu.tagClass dtag.addr := by
  rw [tagsClass]
  cases hcls : cu.tagClass dtag.addr with
  | type =>
      rw [hcls] at h
      cases h
  | function => rfl
  | other => rfl

/-- The loops visit every tag of the alternate file, with the table of its class, and no others.
-/
theorem LoadInv.mem_visits (h : cu.LoadInv bits units) (hpos : 0 < bits) (hlt : bits < 32)
    {dtag : DwarfTag} :
    (cls, dtag) ∈ cu.visits bits ↔ cls = cu.tagClass dtag.addr ∧ cu.FromAlt dtag := by
  have hclass : ∀ kind, dtag ∈ (cu.alt.table kind).hashed →
      (cu.tagClass dtag.addr).hashKind = kind := fun kind hmem => (h.hashed kind dtag hmem).kind
  constructor
  · intro hvisit
    obtain ⟨i, hi, hmem⟩ := List.mem_flatMap.mp hvisit
    have hi' := List.mem_range.mp hi
    rcases List.mem_append.mp hmem with hmem | hmem
    · obtain ⟨dtag', hbucket, heq⟩ := List.mem_map.mp hmem
      obtain ⟨rfl, rfl⟩ := Prod.mk.inj heq
      have hhashed := (h.mem_bucket hpos hlt).mp ⟨i, hi', hbucket⟩
      exact ⟨(type_of_hashKind (hclass _ hhashed)).symm, .types, hhashed⟩
    · obtain ⟨dtag', hbucket, heq⟩ := List.mem_map.mp hmem
      obtain ⟨rfl, rfl⟩ := Prod.mk.inj heq
      have hhashed := (h.mem_bucket hpos hlt).mp ⟨i, hi', hbucket⟩
      exact ⟨tagsClass_of_hashKind (hclass _ hhashed), .tags, hhashed⟩
  · rintro ⟨rfl, kind, hhashed⟩
    obtain ⟨i, hi, hbucket⟩ := (h.mem_bucket hpos hlt).mpr hhashed
    have hkind := hclass kind hhashed
    refine List.mem_flatMap.mpr ⟨i, List.mem_range.mpr hi, List.mem_append.mpr ?_⟩
    cases kind with
    | types =>
        refine Or.inl (List.mem_map.mpr ⟨dtag, hbucket, ?_⟩)
        rw [type_of_hashKind hkind]
    | tags =>
        refine Or.inr (List.mem_map.mpr ⟨dtag, hbucket, ?_⟩)
        rw [tagsClass_of_hashKind hkind]

/-- A tag of the alternate file is unused when its unit is not hit. -/
theorem LoadInv.unhit_iff (h : cu.LoadInv bits units) {dtag : DwarfTag} (hfrom : cu.FromAlt dtag) :
    altPuIsHit cu.altPus dtag.id.toNat = false ↔
      ∃ pu ∈ cu.altPus, pu.Contains dtag.id.toNat ∧ pu.hit = false := by
  obtain ⟨kind, hmem⟩ := hfrom
  constructor
  · intro hunhit
    obtain ⟨pu, hpu, hin⟩ := (h.hashed kind dtag hmem).inUnits
    rw [altPuIsHit_of_contains h.ranges hpu hin] at hunhit
    exact ⟨pu, hpu, hin, hunhit⟩
  · rintro ⟨pu, hpu, hin, hunhit⟩
    rw [altPuIsHit_of_contains h.ranges hpu hin, hunhit]

/-- The entries that pruning clears are those under the ids of unused tags. -/
theorem LoadInv.exists_clears_iff (h : cu.LoadInv bits units) (hpos : 0 < bits) (hlt : bits < 32)
    {id : ℕ} :
    (∃ visit ∈ cu.visits bits, cu.Clears visit cls id) ↔
      ∃ tag, cu.Unused tag ∧ cu.tagClass tag = cls ∧ cu.smallId tag = id := by
  constructor
  · rintro ⟨⟨cls', dtag⟩, hvisit, hunhit, rfl, hid⟩
    obtain ⟨hcls, hfrom⟩ := (h.mem_visits hpos hlt).mp hvisit
    exact ⟨dtag.addr, ⟨dtag, hfrom, rfl, (h.unhit_iff hfrom).mp hunhit⟩, hcls.symm, hid⟩
  · rintro ⟨_, ⟨dtag, hfrom, rfl, hunhit⟩, hcls, hid⟩
    exact ⟨(cls, dtag), (h.mem_visits hpos hlt).mpr ⟨hcls.symm, hfrom⟩,
      (h.unhit_iff hfrom).mpr hunhit, rfl, hid⟩

/-- Pruning returns if and only if no table of an unused tag is `NULL`. -/
theorem LoadInv.exists_prune_iff (h : cu.LoadInv bits units) (hpos : 0 < bits) (hlt : bits < 32) :
    (∃ cu', cu.pruneUnreferencedAltPus bits = some cu') ↔
      ∀ tag, cu.Unused tag → cu.tables (cu.tagClass tag) ≠ [] := by
  have hfold : (∃ tables', (cu.visits bits).foldlM cu.pruneTag cu.tables = some tables') ↔
      ∀ tag, cu.Unused tag → cu.tables (cu.tagClass tag) ≠ [] := by
    rw [exists_foldlM_iff]
    constructor
    · rintro hall _ ⟨dtag, hfrom, rfl, hunhit⟩
      exact hall (cu.tagClass dtag.addr, dtag) ((h.mem_visits hpos hlt).mpr ⟨rfl, hfrom⟩)
        ((h.unhit_iff hfrom).mpr hunhit)
    · rintro hall ⟨cls, dtag⟩ hvisit hunhit
      obtain ⟨rfl, hfrom⟩ := (h.mem_visits hpos hlt).mp hvisit
      exact hall dtag.addr ⟨dtag, hfrom, rfl, (h.unhit_iff hfrom).mp hunhit⟩
  rw [← hfold, pruneUnreferencedAltPus]
  by_cases hnil : cu.altPus = []
  · rw [if_pos hnil]
    have hnone : ∀ tag, ¬cu.Unused tag := by
      rintro tag ⟨dtag, -, -, pu, hpu, -⟩
      rw [hnil] at hpu
      exact absurd hpu List.not_mem_nil
    exact ⟨fun _ => hfold.mpr fun tag hunused => absurd hunused (hnone tag), fun _ => ⟨cu, rfl⟩⟩
  · rw [if_neg hnil]
    constructor
    · rintro ⟨cu', hcu'⟩
      obtain ⟨tables', htables', -⟩ := Option.map_eq_some_iff.mp hcu'
      exact ⟨tables', htables'⟩
    · rintro ⟨tables', htables'⟩
      rw [htables']
      exact ⟨_, rfl⟩

/-- Pruning clears the entry that an unused tag has by its class and `small_id`, and no other.
-/
theorem LoadInv.entry_prune (h : cu.LoadInv bits units) (hpos : 0 < bits) (hlt : bits < 32)
    (hprune : cu.pruneUnreferencedAltPus bits = some cu') (cls : TagClass) (id : ℕ) :
    ((∃ tag, cu.Unused tag ∧ cu.tagClass tag = cls ∧ cu.smallId tag = id) →
        cu'.entry cls id = none) ∧
      ((¬∃ tag, cu.Unused tag ∧ cu.tagClass tag = cls ∧ cu.smallId tag = id) →
        cu'.entry cls id = cu.entry cls id) := by
  rw [pruneUnreferencedAltPus] at hprune
  by_cases hnil : cu.altPus = []
  · rw [if_pos hnil] at hprune
    obtain rfl := Option.some.inj hprune
    refine ⟨?_, fun _ => rfl⟩
    rintro ⟨tag, ⟨dtag, -, -, pu, hpu, -⟩, -⟩
    rw [hnil] at hpu
    exact absurd hpu List.not_mem_nil
  · rw [if_neg hnil] at hprune
    obtain ⟨tables', htables', rfl⟩ := Option.map_eq_some_iff.mp hprune
    rw [← h.exists_clears_iff hpos hlt]
    exact entry_foldlM htables' cls id

/-- The entry of an unused tag is cleared. -/
theorem LoadInv.cleared_of_unused (h : cu.LoadInv bits units) {id : ℕ}
    (hentry : cu.entry cls id = some tag) (hunused : cu.Unused tag) :
    ∃ tag, cu.Unused tag ∧ cu.tagClass tag = cls ∧ cu.smallId tag = id := by
  obtain ⟨-, hcls, hid⟩ := h.entries cls id tag hentry
  exact ⟨tag, hunused, hcls, hid⟩

/-- The first type has no entry, and the other tables have no gaps. -/
theorem LoadInv.firstUnused_of_prunes (h : cu.LoadInv bits units) (hpos : 0 < bits)
    (hlt : bits < 32) (hprunes : cu.PrunesUnused bits) (hmember : cu.HasUnusedMember) :
    cu.FirstUnused := by
  obtain ⟨tag, hunused, hcls, hnone⟩ := hmember
  obtain ⟨cu', hprune, hiff, -⟩ := hprunes
  have hthere := (h.exists_prune_iff hpos hlt).mp ⟨cu', hprune⟩ tag hunused
  rw [hcls] at hthere
  have hzero : cu.smallId tag = 0 := by
    obtain ⟨dtag, ⟨kind, hmem⟩, rfl, -⟩ := hunused
    rcases (h.hashed kind dtag hmem).placed with hplaced | ⟨hzero, -⟩
    · rw [hcls] at hplaced
      exact absurd hplaced (hnone _)
    · exact hzero
  have hcleared := ((h.entry_prune hpos hlt hprune .other 0).1 ⟨tag, hunused, hcls, hzero⟩)
  rcases (hiff .other 0).mp hcleared with hnull | hfirst
  · exact absurd hnull (h.filled hthere)
  · exact hfirst

/-- If the first entries are of unused tags, an entry that is cleared is of an unused tag. -/
theorem LoadInv.unused_of_cleared (h : cu.LoadInv bits units)
    (hfirst : cu.HasUnusedMember → cu.FirstUnused) {id : ℕ} (hentry : cu.entry cls id = some tag)
    (hcleared : ∃ tag, cu.Unused tag ∧ cu.tagClass tag = cls ∧ cu.smallId tag = id) :
    cu.Unused tag := by
  obtain ⟨_, hunused, rfl, rfl⟩ := hcleared
  obtain ⟨dtag, hfrom, rfl, hunhit⟩ := hunused
  obtain ⟨kind, hmem⟩ := hfrom
  rcases (h.hashed kind dtag hmem).placed with hplaced | ⟨hzero, hfunction, hnone⟩
  · obtain rfl := Option.some.inj (hplaced.symm.trans hentry)
    exact ⟨dtag, ⟨kind, hmem⟩, rfl, hunhit⟩
  · rw [hzero] at hentry
    cases hcls : cu.tagClass dtag.addr with
    | type =>
        rw [hcls, h.void.2] at hentry
        cases hentry
    | function => exact absurd hcls hfunction
    | other =>
        rw [hcls] at hentry hnone
        obtain ⟨first, hfirst', hunused⟩ :=
          hfirst ⟨dtag.addr, ⟨dtag, ⟨kind, hmem⟩, rfl, hunhit⟩, hcls, hnone⟩
        obtain rfl := Option.some.inj (hentry.symm.trans hfirst')
        exact hunused

theorem LoadInv.prunes_of_firstUnused (h : cu.LoadInv bits units) (hpos : 0 < bits)
    (hlt : bits < 32) (hfirst : cu.HasUnusedMember → cu.FirstUnused) : cu.PrunesUnused bits := by
  have hthere : ∀ tag, cu.Unused tag → cu.tables (cu.tagClass tag) ≠ [] := by
    rintro tag hunused hnil
    have hempty : ∀ id, cu.entry (cu.tagClass tag) id ≠ some tag := by
      intro id hentry
      rw [MergedCu.entry, hnil] at hentry
      cases hentry
    cases hcls : cu.tagClass tag with
    | type =>
        rw [hcls] at hnil
        exact h.void.1 hnil
    | function =>
        obtain ⟨dtag, ⟨kind, hmem⟩, rfl, -⟩ := hunused
        rcases (h.hashed kind dtag hmem).placed with hplaced | ⟨-, hfunction, -⟩
        · exact hempty _ hplaced
        · exact hfunction hcls
    | other =>
        rw [hcls] at hempty hnil
        obtain ⟨first, hfirst', -⟩ := hfirst ⟨tag, hunused, hcls, hempty⟩
        rw [MergedCu.entry, hnil] at hfirst'
        cases hfirst'
  obtain ⟨cu', hprune⟩ := (h.exists_prune_iff hpos hlt).mpr hthere
  refine ⟨cu', hprune, fun cls id => ?_, fun cls id tag hentry hused => ?_⟩
  · obtain ⟨hclears, hkeeps⟩ := h.entry_prune hpos hlt hprune cls id
    constructor
    · intro hnull
      by_cases hcleared : ∃ tag, cu.Unused tag ∧ cu.tagClass tag = cls ∧ cu.smallId tag = id
      · cases hentry : cu.entry cls id with
        | none => exact Or.inl rfl
        | some tag =>
            exact Or.inr ⟨tag, rfl, h.unused_of_cleared hfirst hentry hcleared⟩
      · rw [hkeeps hcleared] at hnull
        exact Or.inl hnull
    · rintro (hnull | ⟨tag, hentry, hunused⟩)
      · by_cases hcleared : ∃ tag, cu.Unused tag ∧ cu.tagClass tag = cls ∧ cu.smallId tag = id
        · exact hclears hcleared
        · rw [hkeeps hcleared, hnull]
      · exact hclears (h.cleared_of_unused hentry hunused)
  · rw [(h.entry_prune hpos hlt hprune cls id).2 fun hcleared =>
      hused (h.unused_of_cleared hfirst hentry hcleared), hentry]

/-- Pruning removes the entries of unused tags and no others if and only if no unused enumerator
or member was hashed without an entry, or the first entry of `tags_table` is that of an unused
tag. -/
theorem prunesUnused_iff {events : List TagEvent} (hpos : 0 < bits) (hlt : bits < 32)
    (hrun : Run (step bits) Meets (start bits units) events cu) :
    cu.PrunesUnused bits ↔ (cu.HasUnusedMember → cu.FirstUnused) := by
  have h := loadInv_run hpos hlt hrun
  constructor
  · exact h.firstUnused_of_prunes hpos hlt
  · exact h.prunes_of_firstUnused hpos hlt

end Loaded

/-! ## An enumeration in an unused unit -/

/-- A partial unit with an enumeration that nothing refers to, and a unit with a
variable. -/
def enumUnits : AltUnits where
  ranges := [(11, 100)]
  nonempty := by
    intro r hr
    rw [List.mem_singleton.mp hr]
    decide
  sorted := List.pairwise_singleton _ _

/-- The enumerator, its enumeration and then the variable. -/
def enumEvents : List TagEvent :=
  [.processAlt true, .member 20 (by decide), .entry .type 15 (by decide), .processAlt false,
    .entry .other 50 (by decide)]

instance (cu : MergedCu) (id : DwarfOff) : Decidable (cu.InUnits id) :=
  inferInstanceAs (Decidable (cu.processingAlt = true →
    ∃ pu ∈ cu.altPus, pu.start ≤ id.toNat ∧ id.toNat < pu.stop))

instance (cu : MergedCu) : (e : TagEvent) → Decidable (cu.Meets e)
  | .entry _ id _ => inferInstanceAs (Decidable (cu.InUnits id))
  | .member id _ => inferInstanceAs (Decidable (cu.InUnits id))
  | .unspecifiedType id _ => inferInstanceAs (Decidable (cu.InUnits id))
  | .mark _ => isTrue trivial
  | .processAlt _ => isTrue trivial

/-- After `enumEvents` the variable has the only entry among the other tags, and the enumerator,
which has none, is hashed. -/
theorem feed_enumEvents :
    ∃ cu, feed (step 12) Meets (start 12 enumUnits) enumEvents = some cu ∧
      cu.tables .other = [some 2] ∧ cu.altPus = [⟨11, 100, false⟩] ∧ cu.tagClass 0 = .other ∧
        (cu.alt.table .tags).hashed = [⟨0, 20, by decide⟩] ∧
          (cu.alt.table .types).hashed = [⟨1, 15, by decide⟩] :=
  ⟨_, rfl, rfl, rfl, rfl, rfl, rfl⟩

/-- After `enumEvents` pruning clears the entry of the variable. -/
theorem not_prunesUnused_enum :
    ∃ cu, Run (step 12) Meets (start 12 enumUnits) enumEvents cu ∧ ¬cu.PrunesUnused 12 := by
  obtain ⟨cu, hfeed, htable, hpus, hcls, htags, htypes⟩ := feed_enumEvents
  have hrun := Run.of_feed hfeed
  refine ⟨cu, hrun, fun hprunes => ?_⟩
  have hunit : ∃ pu ∈ cu.altPus, pu.Contains (20 : DwarfOff).toNat ∧ pu.hit = false := by
    rw [hpus]
    exact ⟨⟨11, 100, false⟩, List.mem_cons_self, ⟨by decide, by decide⟩, rfl⟩
  have hmember : cu.HasUnusedMember := by
    refine ⟨0, ⟨⟨0, 20, by decide⟩, ⟨.tags, ?_⟩, rfl, hunit⟩, hcls, fun id hentry => ?_⟩
    · rw [htags]
      exact List.mem_cons_self
    · rw [MergedCu.entry, htable] at hentry
      rcases id with _ | id
      · exact absurd (Option.some.inj hentry) (by decide)
      · cases hentry
  have h := loadInv_run (by decide) (by decide) hrun
  obtain ⟨first, hfirst, ⟨dtag, ⟨kind, hmem⟩, haddr, -⟩⟩ :=
    h.firstUnused_of_prunes (by decide) (by decide) hprunes hmember
  rw [MergedCu.entry, htable] at hfirst
  obtain rfl : 2 = first := Option.some.inj hfirst
  cases kind with
  | tags =>
      rw [htags] at hmem
      rw [List.mem_singleton.mp hmem] at haddr
      exact absurd haddr (by decide)
  | types =>
      rw [htypes] at hmem
      rw [List.mem_singleton.mp hmem] at haddr
      exact absurd haddr (by decide)

/-- After `enumEvents` and a reference into the enumeration pruning is right. -/
theorem prunesUnused_iff_enum :
    ∃ cu, Run (step 12) Meets (start 12 enumUnits) (enumEvents ++ [.mark 15]) cu ∧
      cu.PrunesUnused 12 := by
  obtain ⟨cu, hfeed, hpus⟩ : ∃ cu,
      feed (step 12) Meets (start 12 enumUnits) (enumEvents ++ [.mark 15]) = some cu ∧
        cu.altPus = [⟨11, 100, true⟩] := ⟨_, rfl, rfl⟩
  have hrun := Run.of_feed hfeed
  refine ⟨cu, hrun, (prunesUnused_iff (by decide) (by decide) hrun).mpr ?_⟩
  rintro ⟨_, ⟨dtag, -, -, pu, hpu, -, hunhit⟩, -⟩
  rw [hpus] at hpu
  rw [List.mem_singleton.mp hpu] at hunhit
  cases hunhit

end MergedCu

end Pahole
