import Pahole.Dwarves.FixupAlignment
import Pahole.Dwarves.HoleCounts

/-!
# Layouts after the alignment fix-up

A struct without bitfields is laid out by the gaps before its members and their sizes.  As
long as the holes that are kept along agree with the offsets, the fix-up changes one gap
after the other, and what comes of each depends on where it starts.
-/

namespace Pahole

/-! ## Holes of structs without bitfields -/

/-- The end of a member. -/
def FixMember.stop (m : FixMember) : ℕ :=
  m.byteOffset + m.byteSize

/-- The member, as `class__find_holes` sees it. -/
def FixMember.toPack (m : FixMember) : PackMember where
  type := m.type
  isInheritance := m.tag = .inheritance
  isVirtual := false
  isStatic := m.isStatic
  bitOffset := m.bitOffset
  byteOffset := m.byteOffset
  byteSize := m.byteSize
  bitSize := m.bitSize
  bitfieldSize := m.bitfieldSize

/-- The class, as `class__find_holes` sees it. -/
def FixClass.packType (c : FixClass) : PackType :=
  ⟨c.members.map FixMember.toPack, c.size, 0⟩

/-- A data member that is not a bitfield. -/
structure FixMember.Plain (m : FixMember) : Prop where
  tag : m.tag = .member
  isStatic : m.isStatic = false
  bitfieldSize : m.bitfieldSize = 0

/-- The holes, their number and the padding are those that `class__find_holes` finds. -/
structure FixClass.HolesExact (c : FixClass) : Prop where
  holes : (c.members.map FixMember.hole).dropLast = c.packType.classHoles.holes
  lastHole : ∀ hole ∈ (c.members.map FixMember.hole).getLast?, hole = 0
  nrHoles : c.nrHoles = c.packType.classHoles.nrHoles
  padding : c.padding = c.packType.classHoles.padding

/-- A struct without bitfields whose members are in ascending order, disjoint and inside, with
the holes and the padding of `class__find_holes`. -/
structure FixClass.Valid (c : FixClass) : Prop where
  plain : ∀ m ∈ c.members, m.Plain
  placed : c.packType.WellPlaced
  holes : c.HolesExact

/-- `b` starts where `a` ends, after the hole of `a`. -/
def Touches (a b : FixMember) : Prop :=
  0 ≤ a.hole ∧ (b.byteOffset : ℤ) = a.stop + a.hole

/-- The gaps before members. -/
def gapsFrom : ℕ → List FixMember → List ℕ
  | _, [] => []
  | start, m :: ms => (m.byteOffset - start) :: gapsFrom m.stop ms

section Gaps

variable {c : FixClass} {m : FixMember} {ms : List FixMember} {start : ℕ}

theorem endBit_toPack (h : m.Plain) (hbit : m.bitOffset = 8 * m.byteOffset) :
    m.toPack.endBit = 8 * m.stop := by
  have hbits : m.toPack.bits = m.byteSize * 8 := if_neg (not_not_intro h.bitfieldSize)
  have hoffset : m.toPack.bitOffset = 8 * m.byteOffset := hbit
  rw [PackMember.endBit, hbits, hoffset, FixMember.stop]
  omega

theorem seen_packType (h : ∀ m ∈ c.members, m.Plain) :
    c.packType.seen = c.members.map FixMember.toPack := by
  refine List.filter_eq_self.mpr fun p hp => ?_
  obtain ⟨m, hm, rfl⟩ := List.mem_map.mp hp
  have htag : m.toPack.isInheritance = false := by simp [FixMember.toPack, (h m hm).tag]
  have hstatic : m.toPack.isStatic = false := (h m hm).isStatic
  simp [PackMember.isUnseen, htag, hstatic]

/-- A struct of plain members in ascending order and inside its size is `WellPlaced`. -/
theorem wellPlaced_packType (hplain : ∀ m ∈ c.members, m.Plain) (hsize : c.size < 536870912)
    (hbits : ∀ m ∈ c.members, m.bitOffset = 8 * m.byteOffset)
    (hascending : c.members.Pairwise fun a b => a.stop ≤ b.byteOffset)
    (hinside : ∀ m ∈ c.members, m.stop ≤ c.size) : c.packType.WellPlaced := by
  have hseen := seen_packType hplain
  exact
    { size := hsize
      field := by
        rw [hseen]
        intro p hp _
        obtain ⟨m, hm, rfl⟩ := List.mem_map.mp hp
        exact hbits m hm
      bitfield := by
        rw [hseen]
        intro p hp hbit
        obtain ⟨m, hm, rfl⟩ := List.mem_map.mp hp
        exact absurd (hplain m hm).bitfieldSize hbit
      ascending := by
        rw [hseen, List.pairwise_map]
        refine hascending.imp_of_mem fun {a b} ha hb hab => ?_
        have hoffset : b.toPack.bitOffset = 8 * b.byteOffset := hbits b hb
        rw [endBit_toPack (hplain a ha) (hbits a ha), hoffset]
        omega
      inside := by
        rw [hseen]
        intro p hp
        obtain ⟨m, hm, rfl⟩ := List.mem_map.mp hp
        rw [endBit_toPack (hplain m hm) (hbits m hm)]
        exact Nat.mul_le_mul_left 8 (hinside m hm) }

theorem bits_of_placed (hplain : ∀ m ∈ c.members, m.Plain) (h : c.packType.WellPlaced)
    (hm : m ∈ c.members) : m.bitOffset = 8 * m.byteOffset := by
  have hmem : m.toPack ∈ c.packType.seen := by
    rw [seen_packType hplain]
    exact List.mem_map_of_mem hm
  exact h.field m.toPack hmem (hplain m hm).bitfieldSize

theorem ascending_of_placed (hplain : ∀ m ∈ c.members, m.Plain) (h : c.packType.WellPlaced) :
    c.members.Pairwise fun a b => a.stop ≤ b.byteOffset := by
  have hasc := h.ascending
  rw [seen_packType hplain, List.pairwise_map] at hasc
  refine hasc.imp_of_mem fun {a b} ha hb hab => ?_
  have hoffset : b.toPack.bitOffset = 8 * b.byteOffset := bits_of_placed hplain h hb
  rw [endBit_toPack (hplain a ha) (bits_of_placed hplain h ha), hoffset] at hab
  omega

theorem inside_of_placed (hplain : ∀ m ∈ c.members, m.Plain) (h : c.packType.WellPlaced)
    (hm : m ∈ c.members) : m.stop ≤ c.size := by
  have hmem : m.toPack ∈ c.packType.seen := by
    rw [seen_packType hplain]
    exact List.mem_map_of_mem hm
  have hle := h.inside m.toPack hmem
  rw [endBit_toPack (hplain m hm) (bits_of_placed hplain h hm)] at hle
  have hsize : c.packType.size = c.size := rfl
  omega

theorem storageFits_packType (hplain : ∀ m ∈ c.members, m.Plain) : c.packType.StorageFits := by
  intro p hp hbit
  rw [seen_packType hplain] at hp
  obtain ⟨m, hm, rfl⟩ := List.mem_map.mp hp
  exact absurd (hplain m hm).bitfieldSize hbit

/-- After a plain member the cursor is at its end, with no bitfield open. -/
theorem after_toPack (h : m.Plain) (hbit : m.bitOffset = 8 * m.byteOffset) (cur : Cursor) :
    cur.after m.toPack = ⟨8 * m.stop, none⟩ := by
  have hfield : m.toPack.bitfieldSize = 0 := h.bitfieldSize
  rw [Cursor.after, endBit_toPack h hbit, if_neg (not_not_intro hfield)]

theorem frees_toPack (start : ℕ) (h : ∀ m ∈ ms, m.Plain)
    (hbits : ∀ m ∈ ms, m.bitOffset = 8 * m.byteOffset) :
    ((⟨8 * start, none⟩ : Cursor).frees (ms.map FixMember.toPack)).map Prod.fst =
      gapsFrom start ms := by
  induction ms generalizing start with
  | nil => rfl
  | cons m ms ih =>
      obtain ⟨hm, hms⟩ := List.forall_mem_cons.mp h
      obtain ⟨hbit, hbits⟩ := List.forall_mem_cons.mp hbits
      have hfield : m.toPack.bitfieldSize = 0 := hm.bitfieldSize
      have hoffset : m.toPack.bitOffset = 8 * m.byteOffset := hbit
      have hreach : (⟨8 * start, none⟩ : Cursor).reach m.toPack.bitOffset = 8 * start := rfl
      have hfree : ((⟨8 * start, none⟩ : Cursor).free m.toPack).1 = m.byteOffset - start := by
        rw [Cursor.free, if_neg (not_not_intro hfield), hreach, hoffset]
        dsimp only
        omega
      rw [List.map_cons, Cursor.frees, List.map_cons, hfree, after_toPack hm hbit, ih _ hms hbits,
        gapsFrom]

theorem foldl_toPack (h : ∀ m ∈ ms, m.Plain) (hbits : ∀ m ∈ ms, m.bitOffset = 8 * m.byteOffset)
    (cur : Cursor) (hne : ms ≠ []) :
    (ms.map FixMember.toPack).foldl Cursor.after cur = ⟨8 * (ms.getLast hne).stop, none⟩ := by
  have hlast := List.getLast_mem hne
  conv_lhs => rw [← List.dropLast_append_getLast hne]
  rw [List.map_append, List.foldl_append]
  exact after_toPack (h _ hlast) (hbits _ hlast) _

/-- The holes that are kept are the gaps exactly when each leads to the next member. -/
theorem dropLast_hole_eq_iff (h : (m :: ms).Pairwise fun a b => a.stop ≤ b.byteOffset) :
    ((m :: ms).map FixMember.hole).dropLast = (gapsFrom m.stop ms).map (Nat.cast : ℕ → ℤ) ↔
      (m :: ms).IsChain Touches := by
  induction ms generalizing m with
  | nil => simp [gapsFrom]
  | cons m' ms ih =>
      obtain ⟨hm, htail⟩ := List.pairwise_cons.mp h
      have hle := hm m' List.mem_cons_self
      rw [List.isChain_cons_cons, ← ih htail, gapsFrom, List.map_cons, List.map_cons,
        List.map_cons, List.dropLast_cons_cons, List.cons.injEq, Touches]
      refine and_congr_left' ?_
      push_cast [hle]
      omega

theorem countP_gapsFrom (h : (m :: ms).IsChain Touches)
    (hlast : ∀ hole ∈ ((m :: ms).map FixMember.hole).getLast?, hole = 0) :
    ((gapsFrom m.stop ms).countP fun gap => gap ≠ 0) = openHoles (m :: ms) := by
  induction ms generalizing m with
  | nil =>
      have hzero : m.hole = 0 := hlast m.hole rfl
      simp [gapsFrom, openHoles, hzero]
  | cons m' ms ih =>
      obtain ⟨⟨hnonneg, htouch⟩, htail⟩ := List.isChain_cons_cons.mp h
      have hrest := ih htail (by
        rw [List.map_cons, List.map_cons, List.getLast?_cons_cons] at hlast
        exact hlast)
      have hgap : m'.byteOffset - m.stop ≠ 0 ↔ m.hole ≠ 0 := by omega
      rw [openHoles_cons, ← hrest, gapsFrom, List.countP_cons]
      simp only [hgap, decide_eq_true_eq]

end Gaps

/-- The holes, `nr_holes` and the padding in terms of the offsets of the members. -/
structure FixHead.Spaced (head : FixHead) (m : FixMember) (ms : List FixMember) : Prop where
  chain : (m :: ms).IsChain Touches
  lastHole : ∀ hole ∈ ((m :: ms).map FixMember.hole).getLast?, hole = 0
  nrHoles : head.nrHoles = ((if m.byteOffset ≠ 0 then 1 else 0) + openHoles (m :: ms)) % 256
  padding : head.padding = (head.size - (ms.getLastD m).stop) % 65536

section Recompute

variable {c : FixClass} {m : FixMember} {ms : List FixMember}

theorem frees_packType (hmembers : c.members = m :: ms) (hplain : ∀ m ∈ c.members, m.Plain)
    (h : c.packType.WellPlaced) :
    c.packType.frees.map Prod.fst = m.byteOffset :: gapsFrom m.stop ms := by
  have hfrees := frees_toPack 0 hplain fun m hm => bits_of_placed hplain h hm
  rw [PackType.frees, seen_packType hplain]
  refine hfrees.trans ?_
  rw [hmembers, gapsFrom, Nat.sub_zero]

theorem holes_packType (hmembers : c.members = m :: ms) (hplain : ∀ m ∈ c.members, m.Plain)
    (h : c.packType.WellPlaced) :
    c.packType.classHoles.holes = (gapsFrom m.stop ms).map (Nat.cast : ℕ → ℤ) := by
  obtain ⟨hgaps, -⟩ := PackType.classHoles_eq h (storageFits_packType hplain)
  have hholes : c.packType.classHoles.holes = (c.packType.holeGaps.map Prod.fst).tail := by
    rw [← List.map_tail]
    rfl
  have hcast : c.packType.frees.map (fun f => (f.1 : ℤ)) =
      (c.packType.frees.map Prod.fst).map (Nat.cast : ℕ → ℤ) := (List.map_map ..).symm
  rw [hholes, hgaps, hcast, frees_packType hmembers hplain h]
  rfl

theorem nrHoles_packType (hmembers : c.members = m :: ms) (hplain : ∀ m ∈ c.members, m.Plain)
    (h : c.packType.WellPlaced) :
    c.packType.classHoles.nrHoles =
      ((if m.byteOffset ≠ 0 then 1 else 0) +
        (gapsFrom m.stop ms).countP fun gap => gap ≠ 0) % 256 := by
  obtain ⟨hnr, -⟩ := PackType.counts_mod (PackType.wellPlaced_inOrder h)
  obtain ⟨hplaces, -⟩ := PackType.places_eq_free h (storageFits_packType hplain)
  have hcount : (c.packType.frees.countP fun f => f.1 ≠ 0) =
      (c.packType.frees.map Prod.fst).countP fun gap => gap ≠ 0 := by
    rw [List.countP_map]
    rfl
  rw [hnr, hplaces, hcount, frees_packType hmembers hplain h, List.countP_cons, Nat.add_comm]
  simp only [decide_eq_true_eq]

theorem padding_packType (hmembers : c.members = m :: ms) (hplain : ∀ m ∈ c.members, m.Plain)
    (h : c.packType.WellPlaced) :
    c.packType.classHoles.padding = (c.size - (ms.getLastD m).stop) % 65536 := by
  obtain ⟨hpadding, -⟩ := PackType.padding_eq h (storageFits_packType hplain)
  have hne : c.members ≠ [] := hmembers ▸ List.cons_ne_nil m ms
  have hend := foldl_toPack hplain (fun m hm => bits_of_placed hplain h hm) Cursor.start hne
  refine hpadding.trans ?_
  have hlast : c.members.getLast hne = ms.getLastD m := by
    simp only [hmembers, List.getLast_eq_getLastD]
  have hsize : c.packType.size = c.size := rfl
  rw [PackType.freeTail, seen_packType hplain, hend, Cursor.tail, hlast, hsize]
  dsimp only
  rw [Nat.mul_div_cancel_left _ (by decide)]

/-- The holes, their number and the padding are exact if and only if the members are `Spaced`.
-/
theorem holesExact_iff (hmembers : c.members = m :: ms) (hplain : ∀ m ∈ c.members, m.Plain)
    (h : c.packType.WellPlaced) : c.HolesExact ↔ c.Spaced m ms := by
  have hasc := ascending_of_placed hplain h
  rw [hmembers] at hasc
  have hholes := holes_packType hmembers hplain h
  have hnr := nrHoles_packType hmembers hplain h
  have hpadding := padding_packType hmembers hplain h
  constructor
  · intro hexact
    have hlast : ∀ hole ∈ ((m :: ms).map FixMember.hole).getLast?, hole = 0 :=
      hmembers ▸ hexact.lastHole
    have hchain : (m :: ms).IsChain Touches := by
      rw [← dropLast_hole_eq_iff hasc, ← hholes, ← hexact.holes, hmembers]
    exact
      { chain := hchain
        lastHole := hlast
        nrHoles := by rw [hexact.nrHoles, hnr, countP_gapsFrom hchain hlast]
        padding := hexact.padding.trans hpadding }
  · intro hspaced
    exact
      { holes := by
          rw [hholes, hmembers]
          exact (dropLast_hole_eq_iff hasc).mpr hspaced.chain
        lastHole := hmembers ▸ hspaced.lastHole
        nrHoles := by
          rw [hspaced.nrHoles, hnr, countP_gapsFrom hspaced.chain hspaced.lastHole]
        padding := hspaced.padding.trans hpadding.symm }

end Recompute

end Pahole
