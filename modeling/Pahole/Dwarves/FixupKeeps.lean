import Pahole.Dwarves.FixupSpacing

/-!
# What the alignment fix-up keeps

The fix-up is to keep a struct without bitfields laid out well, with its holes known.  It
does not when the first member is not at the start, when a large hole hides that a member is
not aligned or is too large for 16 bits, or when the padding is lost on the way.
-/

namespace Pahole

/-! ## The biggest member does not depend on offsets -/

/-- Equality of the fields that the search for the biggest member reads. -/
structure SameField (a b : ClassMember) : Prop where
  tag : a.tag = b.tag
  isStatic : a.isStatic = b.isStatic
  type : a.type = b.type
  byteSize : a.byteSize = b.byteSize

/-- The size of the member that is found. -/
def foundSize (r : Except BiggestError (Option ClassMember)) : Except BiggestError (Option ℕ) :=
  r.map (Option.map ClassMember.byteSize)

section Search

variable {addrSize depth : ℕ} {tbl : TypesTable} {pos pos' : ClassMember}
  {ms ms' : List ClassMember} {result result' : Option ClassMember} {resultSize : ℕ}
  {recurse : Aggregate → Except BiggestError (Option ClassMember)}

theorem weighMember_congr
    {next next' : Option ClassMember → ℕ → Except BiggestError (Option ClassMember)}
    (hpos : pos.byteSize = pos'.byteSize)
    (hnext : ∀ r r' n, r.map ClassMember.byteSize = r'.map ClassMember.byteSize →
      foundSize (next r n) = foundSize (next' r' n))
    (hresult : result.map ClassMember.byteSize = result'.map ClassMember.byteSize)
    (inner : Option ClassMember) (memberSize : ℕ) :
    foundSize (weighMember addrSize pos next result resultSize inner memberSize) =
      foundSize (weighMember addrSize pos' next' result' resultSize inner memberSize) := by
  have hchosen : (inner.getD pos).byteSize = (inner.getD pos').byteSize := by
    cases inner with
    | none => exact hpos
    | some inner => rfl
  have hsome : ∀ a b : ClassMember, a.byteSize = b.byteSize →
      foundSize (.ok (some a)) = foundSize (.ok (some b)) := by
    intro a b hab
    rw [foundSize, foundSize, Except.map, Except.map, Option.map_some, Option.map_some, hab]
  rw [weighMember, weighMember]
  split
  · exact hsome _ _ hpos
  · split
    · exact hnext _ _ _ hresult
    · split
      · exact hsome _ _ hchosen
      · refine hnext _ _ _ ?_
        rw [Option.map_some, Option.map_some, hchosen]

theorem biggestLoop_congr (h : List.Forall₂ SameField ms ms')
    (hresult : result.map ClassMember.byteSize = result'.map ClassMember.byteSize) :
    foundSize (biggestLoop addrSize tbl depth recurse ms result resultSize) =
      foundSize (biggestLoop addrSize tbl depth recurse ms' result' resultSize) := by
  induction h generalizing result result' resultSize with
  | nil =>
      rw [biggestLoop, biggestLoop, foundSize, foundSize, Except.map, Except.map, hresult]
  | @cons pos pos' ms ms' hsame _ ih =>
      have hweigh : ∀ inner memberSize,
          foundSize (weighMember addrSize pos (biggestLoop addrSize tbl depth recurse ms) result
              resultSize inner memberSize) =
            foundSize (weighMember addrSize pos' (biggestLoop addrSize tbl depth recurse ms')
              result' resultSize inner memberSize) :=
        weighMember_congr hsame.byteSize (fun _ _ _ hr => ih hr) hresult
      rw [biggestLoop, biggestLoop, hsame.isStatic, hsame.type]
      split
      · exact ih hresult
      · split
        · exact ih hresult
        · split
          · rfl
          · exact ih hresult
          · exact hweigh none _
          · split
            · exact ih hresult
            · split
              · rfl
              · rfl
              · exact hweigh _ _

theorem sameField_of_key {a b : FixMember} (h : a.key = b.key) :
    SameField a.toClassMember b.toClassMember := by
  have hmember := congrArg FixMember.toClassMember h
  simp only [FixMember.key, ClassMember.mk.injEq] at hmember
  exact ⟨hmember.1, by simp only [hmember], by simp only [hmember], by simp only [hmember]⟩

/-- Offsets do not matter for the size of the biggest member. -/
theorem typeFindFirstBiggest_congr {members members' : List FixMember} (size size' : ℕ)
    (h : members.map FixMember.key = members'.map FixMember.key) :
    foundSize (typeFindFirstBiggest addrSize tbl depth (fixType size members)) =
      foundSize (typeFindFirstBiggest addrSize tbl depth (fixType size' members')) := by
  cases depth with
  | zero => rfl
  | succ depth =>
      rw [typeFindFirstBiggest, typeFindFirstBiggest]
      refine biggestLoop_congr ?_ rfl
      have hkeys : List.Forall₂ (fun a b : FixMember => a.key = b.key) members members' := by
        rw [← List.forall₂_eq_eq_eq] at h
        exact List.forall₂_map_left_iff.mp (List.forall₂_map_right_iff.mp h)
      have hfields : List.Forall₂ SameField (members.map FixMember.toClassMember)
          (members'.map FixMember.toClassMember) := by
        refine List.forall₂_map_left_iff.mpr (List.forall₂_map_right_iff.mpr ?_)
        exact hkeys.imp fun a b hab => sameField_of_key hab
      refine List.rel_filter (fun a b hab => ?_) hfields
      simp only [hab.tag]

end Search

/-! ## The whole fix-up -/

/-- The fix-up returns a valid struct with the same members in the same order, all of them
aligned. -/
def KeepsLayout (addrSize : ℕ) (tbl : TypesTable) (depth : ℕ) (c : FixClass) : Prop :=
  ∃ c', fixupAlignment addrSize tbl depth c = .ok c' ∧ c'.Valid ∧
    c'.members.map FixMember.key = c.members.map FixMember.key ∧ AllAligned addrSize c'.members

/-- The padding is computed again because the end is not a multiple of the size of the biggest
member, or the bytes by which members were pulled back are still padding. -/
def PadsRight (addrSize : ℕ) (c : FixClass) (m : FixMember) (ms : List FixMember)
    (biggestSize : ℕ) : Prop :=
  biggestSize ≠ 0 ∧
      (m.byteSize + extent (respace addrSize m.byteSize (stretches m ms))) % biggestSize ≠ 0 ∨
    PaddingKept (c.size - (m.byteSize + extent (stretches m ms)))
      (pulls addrSize m.byteSize (stretches m ms))

/-- The first member is at offset 0, the gaps behind it settle, there is a biggest member, and
the padding is right for its size. -/
structure Fixable (addrSize : ℕ) (tbl : TypesTable) (depth : ℕ) (c : FixClass) (m : FixMember)
    (ms : List FixMember) : Prop where
  first : m.byteOffset = 0
  settles : Settles addrSize m.byteSize (stretches m ms)
  biggest : ∃ b,
    typeFindFirstBiggest addrSize tbl depth (fixType c.size c.members) = .ok (some b) ∧
      PadsRight addrSize c m ms b.byteSize

/-- The effect of the first step: `m` goes to offset 0, and those behind it move by `y`. -/
structure FixFirst (head : FixHead) (m : FixMember) (ms : List FixMember) (y : ℤ)
    (p : FixPoint) : Prop where
  last : p.last = none
  pos : p.pos = { m with byteOffset := 0, bitOffset := 0 }
  rest : p.rest = ms.map (FixMember.shift y)
  size : p.head.size = head.size
  nrHoles : p.head.nrHoles = head.nrHoles
  still : m.byteOffset = 0 → p = ⟨head, none, m, ms⟩

section Whole

variable {addrSize k depth : ℕ} {tbl : TypesTable} {c : FixClass} {m : FixMember}
  {ms : List FixMember}

/-- With holes on the way and none behind the last member, holes are no more than what the
members behind the first take. -/
theorem holes_of_chain (h : (m :: ms).IsChain Touches)
    (hlast : ∀ hole ∈ ((m :: ms).map FixMember.hole).getLast?, hole = 0) :
    (∀ b ∈ m :: ms, 0 ≤ b.hole) ∧
      m.stop + (m.hole + (ms.map FixMember.hole).sum) ≤ (ms.getLastD m).stop := by
  induction ms generalizing m with
  | nil =>
      have hzero : m.hole = 0 := hlast m.hole rfl
      simp [hzero]
  | cons m' ms ih =>
      obtain ⟨⟨hhole, htouch⟩, htail⟩ := List.isChain_cons_cons.mp h
      obtain ⟨hholes, hsum⟩ := ih htail (by
        rw [List.map_cons, List.map_cons, List.getLast?_cons_cons] at hlast
        exact hlast)
      have hstop : m'.stop = m'.byteOffset + m'.byteSize := rfl
      refine ⟨List.forall_mem_cons.mpr ⟨hhole, hholes⟩, ?_⟩
      rw [List.getLastD_cons, List.map_cons, List.sum_cons]
      omega

theorem atStart_eq (hbyte : m.byteOffset = 0) (hbit : m.bitOffset = 0) :
    { m with byteOffset := 0, bitOffset := 0 } = m := by
  obtain ⟨member, hole⟩ := m
  cases member
  dsimp only at hbyte hbit
  subst hbyte hbit
  rfl

theorem fixStep_first (addrSize : ℕ) (head : FixHead)
    (hbit : m.byteOffset = 0 → m.bitOffset = 0) (hfits : ∀ b ∈ ms, b.Fits) :
    ∃ p y, fixStep addrSize ⟨head, none, m, ms⟩ = .ok p ∧ FixFirst head m ms y p := by
  by_cases hzero : m.byteOffset = 0
  · have hstep : fixStep addrSize ⟨head, none, m, ms⟩ = .ok ⟨head, none, m, ms⟩ := by
      have hloop : fixStep addrSize ⟨head, none, m, ms⟩ =
          alignLoop addrSize addrSize ⟨head, none, m, ms⟩ := if_neg (not_not_intro hzero)
      exact hloop.trans (alignLoop_of_zero hzero)
    refine ⟨_, 0, hstep, ?_⟩
    exact
      { last := rfl
        pos := (atStart_eq hzero (hbit hzero)).symm
        rest := by
          refine ((List.map_congr_left fun b hb => ?_).trans (List.map_id ms)).symm
          exact (hfits b hb).shift_zero
        size := rfl
        nrHoles := rfl
        still := fun _ => rfl }
  · have hmoved : subtractOffsetsFrom head m ms (((m.byteOffset : ℤ) - m.byteSize) % 65536).toNat =
        _ := subtractOffsetsFrom_eq _ _ rfl
    refine ⟨moveFirst head m ms,
      -((((m.byteOffset : ℤ) - m.byteSize) % 65536).toNat % 65536 : ℕ), if_pos hzero, ?_⟩
    rw [moveFirst, hmoved]
    exact
      { last := rfl
        pos := rfl
        rest := rfl
        size := rfl
        nrHoles := rfl
        still := fun h => absurd h hzero }

theorem fixLoop_first {head head' : FixHead} {members' : List FixMember} {p : FixPoint}
    (hstep : fixStep addrSize ⟨head, none, m, ms⟩ = .ok p) (hlast : p.last = none)
    (hloop : fixLoop addrSize ms.length p.head (some p.pos) p.rest = .ok (head', members')) :
    fixLoop addrSize (m :: ms).length head none (m :: ms) = .ok (head', members') := by
  rw [List.length_cons, fixLoop, hstep, Except.bind, hloop, hlast]
  rfl

/-- After the first member the loop is in a `FixState`. -/
theorem fixState_first {y : ℤ} {p : FixPoint} (hvalid : c.Valid) (hmembers : c.members = m :: ms)
    (hroom : c.size + addrSize * c.members.length + 65536 < 536870912)
    (hfirst : FixFirst c.toFixHead m ms y p) : FixState addrSize p.head p.pos p.rest := by
  have hspaced := (holesExact_iff hmembers hvalid.plain hvalid.placed).mp hvalid.holes
  obtain ⟨hholes, hsum⟩ := holes_of_chain hspaced.chain hspaced.lastHole
  obtain ⟨hhole, hholes⟩ := List.forall_mem_cons.mp hholes
  have hmem : ms.getLastD m ∈ c.members := by
    rw [hmembers]
    exact List.getLastD_mem_cons
  have hinside := inside_of_placed hvalid.plain hvalid.placed hmem
  have hrest : p.rest.map FixMember.hole = ms.map FixMember.hole := by
    rw [hfirst.rest, List.map_map]
    rfl
  rw [hmembers, List.length_cons, Nat.mul_succ] at hroom
  exact
    { fits := by
        rw [hfirst.rest]
        intro b hb
        obtain ⟨b, -, rfl⟩ := List.mem_map.mp hb
        exact b.shift_fits y
      bits := by
        rw [hfirst.rest]
        intro b hb
        obtain ⟨a, ha, rfl⟩ := List.mem_map.mp hb
        have hmem : a ∈ c.members := hmembers ▸ List.mem_cons_of_mem m ha
        refine bitsAgree_shift ?_
        rw [FixMember.BitsAgree, bits_of_placed hvalid.plain hvalid.placed hmem]
        have hle := inside_of_placed hvalid.plain hvalid.placed hmem
        have hstop : a.stop = a.byteOffset + a.byteSize := rfl
        rw [u32]
        omega
      holes := by
        rw [hfirst.pos, hfirst.rest]
        refine List.forall_mem_cons.mpr ⟨hhole, fun b hb => ?_⟩
        obtain ⟨a, ha, rfl⟩ := List.mem_map.mp hb
        exact hholes a ha
      sum := by
        rw [hrest, hfirst.pos, hfirst.size]
        dsimp only
        omega
      room := by
        rw [hfirst.rest, List.length_map, hfirst.size]
        omega
      nrHoles := by
        rw [hfirst.nrHoles, hspaced.nrHoles]
        exact Nat.mod_lt _ (by decide) }

/-- The effect of the whole fix-up on `c`, from the point `p` after its first member to the end
of its loop. -/
structure FixResult (addrSize : ℕ) (tbl : TypesTable) (depth : ℕ) (c : FixClass)
    (p : FixPoint) (head' : FixHead) (last' : FixMember) (rest' : List FixMember) : Prop where
  state : FixState addrSize p.head p.pos p.rest
  loop : fixLoop addrSize p.rest.length p.head (some p.pos) p.rest = .ok (head', last' :: rest')
  run : FixRun addrSize p.head p.pos p.rest head' last' rest'
  fixup : fixupAlignment addrSize tbl depth c =
    fixEnd head' (last' :: rest') (rest'.getLastD last')
      (typeFindFirstBiggest addrSize tbl depth (fixType head'.size (last' :: rest')))

/-- `class__fixup_alignment` of a valid struct with members ends in a `FixResult`. -/
theorem fixupAlignment_spec (tbl : TypesTable) (depth : ℕ) (haddr : addrSize = 2 ^ k)
    (hwidth : addrSize < 65536) (hvalid : c.Valid) (hmembers : c.members = m :: ms)
    (hroom : c.size + addrSize * c.members.length + 65536 < 536870912) :
    ∃ p y head' last' rest', FixFirst c.toFixHead m ms y p ∧
      FixResult addrSize tbl depth c p head' last' rest' := by
  have hbits : ∀ b ∈ m :: ms, b.bitOffset = 8 * b.byteOffset ∧ b.Fits := by
    intro b hb
    have hmem : b ∈ c.members := hmembers ▸ hb
    have hbit := bits_of_placed hvalid.plain hvalid.placed hmem
    have hle := inside_of_placed hvalid.plain hvalid.placed hmem
    have hstop : b.stop = b.byteOffset + b.byteSize := rfl
    exact ⟨hbit, by omega, by omega⟩
  obtain ⟨⟨hbit, -⟩, hrest⟩ := List.forall_mem_cons.mp hbits
  obtain ⟨p, y, hstep, hfirst⟩ := fixStep_first addrSize c.toFixHead
    (fun hzero => by rw [hbit, hzero]) fun b hb => (hrest b hb).2
  have hstate := fixState_first hvalid hmembers hroom hfirst
  obtain ⟨head', last', rest', hloop, hrun⟩ := fixLoop_run haddr hwidth hstate
  have hlength : p.rest.length = ms.length := by rw [hfirst.rest, List.length_map]
  refine ⟨p, y, head', last', rest', hfirst, ?_⟩
  exact
    { state := hstate
      loop := hloop
      run := hrun
      fixup := by
        have hwhole := fixLoop_first hstep hfirst.last (hlength ▸ hloop)
        have hlast : (last' :: rest').getLast? = some (rest'.getLastD last') := by
          rw [List.getLast?_cons, List.getLastD_eq_getLast?]
        rw [fixupAlignment, hmembers, hwhole]
        dsimp only
        rw [hlast] }

theorem valid_of_spaced (hmembers : c.members = m :: ms) (hplain : ∀ b ∈ c.members, b.Plain)
    (hbits : ∀ b ∈ c.members, b.bitOffset = 8 * b.byteOffset) (hsize : c.size < 536870912)
    (hinside : (ms.getLastD m).stop ≤ c.size) (hspaced : c.Spaced m ms) : c.Valid := by
  have hplaced : c.packType.WellPlaced := by
    refine wellPlaced_packType hplain hsize hbits ?_ ?_
    · rw [hmembers]
      exact pairwise_of_chain hspaced.chain
    · rw [hmembers]
      exact fun b hb => (stop_le_getLastD hspaced.chain b hb).trans hinside
  exact ⟨hplain, hplaced, (holesExact_iff hmembers hplain hplaced).mpr hspaced⟩

section End

variable {p : FixPoint} {y : ℤ} {head' : FixHead} {last' : FixMember} {rest' : List FixMember}

theorem keys_of_run (hmembers : c.members = m :: ms) (hfirst : FixFirst c.toFixHead m ms y p)
    (hrun : FixRun addrSize p.head p.pos p.rest head' last' rest') :
    (last' :: rest').map FixMember.key = c.members.map FixMember.key := by
  obtain ⟨hole, hsame⟩ := hrun.same
  have hkey : last'.key = m.key := by
    rw [hsame, hfirst.pos]
    rfl
  rw [hmembers, List.map_cons, List.map_cons, hkey, hrun.keys, hfirst.rest, List.map_map]
  rfl

theorem plain_of_keys {members members' : List FixMember}
    (hkeys : members'.map FixMember.key = members.map FixMember.key)
    (hplain : ∀ m ∈ members, m.Plain) : ∀ m ∈ members', m.Plain := by
  intro b hb
  have hmem : b.key ∈ members.map FixMember.key := hkeys ▸ List.mem_map_of_mem hb
  obtain ⟨a, ha, hab⟩ := List.mem_map.mp hmem
  have hkey : b.key.Plain := by
    rw [← hab]
    exact ⟨(hplain a ha).tag, (hplain a ha).isStatic, (hplain a ha).bitfieldSize⟩
  exact ⟨hkey.tag, hkey.isStatic, hkey.bitfieldSize⟩

theorem fixPadding_nrHoles (head : FixHead) (last : FixMember) (b : ClassMember) :
    (fixPadding head last b).nrHoles = head.nrHoles := by
  rw [fixPadding]
  dsimp only
  split
  · rfl
  · split <;> rfl

/-- The padding behind the last member is either computed again or what has been kept. -/
theorem fixPadding_spec {head : FixHead} {last : FixMember} {n : ℕ} (b : ClassMember)
    (hsize : head.size = last.stop + n) (hroom : head.size + 65536 < 536870912) :
    last.stop ≤ (fixPadding head last b).size ∧ (fixPadding head last b).size < 536870912 ∧
      ((fixPadding head last b).padding = ((fixPadding head last b).size - last.stop) % 65536 ↔
        b.byteSize ≠ 0 ∧ last.stop % b.byteSize ≠ 0 ∨ head.padding = n % 65536) := by
  have hstop : last.byteOffset + last.byteSize = last.stop := rfl
  have hkept : (head.padding = (head.size - last.stop) % 65536) ↔ head.padding = n % 65536 := by
    rw [hsize, Nat.add_sub_cancel_left]
  rw [fixPadding, hstop]
  dsimp only
  by_cases hzero : b.byteSize = 0
  · rw [if_pos hzero]
    refine ⟨by omega, by omega, hkept.trans ⟨Or.inr, fun h => ?_⟩⟩
    exact h.resolve_left fun hodd => hodd.1 hzero
  · rw [if_neg hzero]
    by_cases hodd : last.stop % b.byteSize = 0
    · rw [if_neg (not_not_intro hodd)]
      refine ⟨by omega, by omega, hkept.trans ⟨Or.inr, fun h => ?_⟩⟩
      exact h.resolve_left fun hne => hne.2 hodd
    · rw [if_pos hodd]
      have hpadding := Nat.mod_lt (b.byteSize - last.stop % b.byteSize) (by decide : 0 < 65536)
      have hsize : u32 ((last.stop + (b.byteSize - last.stop % b.byteSize) % 65536 : ℕ) : ℤ) =
          last.stop + (b.byteSize - last.stop % b.byteSize) % 65536 := u32_of_lt (by omega)
      refine ⟨?_, ?_, iff_of_true ?_ (Or.inl ⟨hzero, hodd⟩)⟩
      · dsimp only
        rw [hsize]
        exact Nat.le_add_right _ _
      · dsimp only
        rw [hsize]
        omega
      · dsimp only
        rw [hsize, Nat.add_sub_cancel_left, Nat.mod_mod]

/-- A result with a first member that was not at the start counts one hole too many. -/
theorem first_of_valid {head : FixHead} (hvalid : c.Valid) (hmembers : c.members = m :: ms)
    (hfirst : FixFirst c.toFixHead m ms y p)
    (hrun : FixRun addrSize p.head p.pos p.rest head' last' rest')
    (hspaced : head.Spaced last' rest') (hnr : head.nrHoles = head'.nrHoles) :
    m.byteOffset = 0 := by
  by_contra hne
  have hbefore := ((holesExact_iff hmembers hvalid.plain hvalid.placed).mp hvalid.holes).nrHoles
  have hafter := hspaced.nrHoles
  obtain ⟨hole, hsame⟩ := hrun.same
  have hoffset : last'.byteOffset = 0 := by
    rw [hsame, hfirst.pos]
  have hopen : openHoles (p.pos :: p.rest) = openHoles (m :: ms) := by
    rw [openHoles_cons, openHoles_cons, hfirst.rest, openHoles_shift, hfirst.pos]
  have hcount := hrun.nrHoles
  rw [if_pos hne] at hbefore
  rw [if_neg (not_not_intro hoffset), hnr] at hafter
  rw [hopen, hfirst.nrHoles] at hcount
  omega

/-- If the first member is at 0, the loop leaves the members touching and aligned if and only if
the stretches `Settles`. -/
theorem loop_of_first (haddr : addrSize = 2 ^ k) (hwidth : addrSize < 65536) (hvalid : c.Valid)
    (hmembers : c.members = m :: ms) (hzero : m.byteOffset = 0)
    (hfirst : FixFirst c.toFixHead m ms y p)
    (hresult : FixResult addrSize tbl depth c p head' last' rest') :
    ((last' :: rest').IsChain Touches ∧ AllAligned addrSize rest' ↔
        Settles addrSize m.stop (stretches m ms)) ∧
      (Settles addrSize m.stop (stretches m ms) →
        FixSettled addrSize c.toFixHead m ms (c.size - (m.stop + extent (stretches m ms))) head'
          last' rest') := by
  have hspaced := (holesExact_iff hmembers hvalid.plain hvalid.placed).mp hvalid.holes
  have hmem : ms.getLastD m ∈ c.members := by
    rw [hmembers]
    exact List.getLastD_mem_cons
  have hinside := inside_of_placed hvalid.plain hvalid.placed hmem
  have hpadding := hspaced.padding
  have hextent := stop_getLastD hspaced.chain
  obtain rfl := hfirst.still hzero
  rw [hextent] at hinside hpadding
  exact fixLoop_settles haddr hwidth hresult.state hspaced.chain
    (by rw [hextent]; exact (Nat.add_sub_of_le hinside).symm) (fun _ => hpadding) hresult.loop

/-- Where the gaps settle, the members are aligned, and the padding is that behind the last
member if it has not been lost. -/
theorem end_of_settles (haddr : addrSize = 2 ^ k) (hwidth : addrSize < 65536) (hvalid : c.Valid)
    (hmembers : c.members = m :: ms) (hzero : m.byteOffset = 0)
    (hfirst : FixFirst c.toFixHead m ms y p)
    (hresult : FixResult addrSize tbl depth c p head' last' rest')
    (hsettles : Settles addrSize m.byteSize (stretches m ms)) :
    (last' :: rest').IsChain Touches ∧ AllAligned addrSize rest' ∧
      (rest'.getLastD last').stop =
        m.byteSize + extent (respace addrSize m.byteSize (stretches m ms)) ∧
      ∃ n, head'.size = (rest'.getLastD last').stop + n ∧
        (head'.padding = n % 65536 ↔
          PaddingKept (c.size - (m.byteSize + extent (stretches m ms)))
            (pulls addrSize m.byteSize (stretches m ms))) := by
  have hstop : m.stop = m.byteSize := by rw [FixMember.stop, hzero, Nat.zero_add]
  obtain ⟨hiff, hsettled⟩ := loop_of_first haddr hwidth hvalid hmembers hzero hfirst hresult
  rw [hstop] at hiff hsettled
  obtain ⟨hchain, haligned⟩ := hiff.mpr hsettles
  have hend := hsettled hsettles
  obtain ⟨hole, hsame⟩ := hresult.run.same
  have hlast : last'.stop = m.byteSize := by
    rw [hsame, hfirst.pos]
    exact Nat.zero_add _
  have hspaced := hend.spaced
  have hsize := hend.size
  have hpadding := hend.padding
  rw [hstop] at hspaced hsize hpadding
  refine ⟨hchain, haligned, ?_, _, hsize, ?_⟩
  · rw [stop_getLastD hchain, hlast, hspaced]
  · have hkept : head'.padding =
        paddingAfter (c.size - (m.byteSize + extent (stretches m ms)))
          (pulls addrSize m.byteSize (stretches m ms)) := by
      rw [hpadding]
      split
      · next hnone =>
          have hbefore := (holesExact_iff hmembers hvalid.plain hvalid.placed).mp hvalid.holes
          have hpad := hbefore.padding
          rw [stop_getLastD hbefore.chain, hstop] at hpad
          exact (paddingAfter_of_zero _ (hpad.symm.trans hnone)).symm
      · rfl
    rw [hkept]
    exact paddingAfter_eq_iff _ _

/-- The struct after the fix-up is valid and aligned if and only if the first member is at
offset 0, the gaps settle and the padding is right. -/
theorem valid_iff (haddr : addrSize = 2 ^ k) (hwidth : addrSize < 65536) (hvalid : c.Valid)
    (hmembers : c.members = m :: ms)
    (hroom : c.size + addrSize * c.members.length + 65536 < 536870912)
    (hfirst : FixFirst c.toFixHead m ms y p)
    (hresult : FixResult addrSize tbl depth c p head' last' rest') (b : ClassMember) :
    FixClass.Valid { fixPadding head' (rest'.getLastD last') b with members := last' :: rest' } ∧
        AllAligned addrSize (last' :: rest') ↔
      m.byteOffset = 0 ∧ Settles addrSize m.byteSize (stretches m ms) ∧
        PadsRight addrSize c m ms b.byteSize := by
  have hrun := hresult.run
  have hroom' : head'.size + 65536 < 536870912 := by
    have hsize := hrun.size
    rw [hfirst.rest, List.length_map, hfirst.size] at hsize
    rw [hmembers, List.length_cons, Nat.mul_succ] at hroom
    omega
  constructor
  · rintro ⟨hvalid', haligned⟩
    have hspaced := (holesExact_iff rfl hvalid'.plain hvalid'.placed).mp hvalid'.holes
    have hzero := first_of_valid hvalid hmembers hfirst hrun hspaced (fixPadding_nrHoles _ _ _)
    have hstop : m.stop = m.byteSize := by rw [FixMember.stop, hzero, Nat.zero_add]
    obtain ⟨hiff, -⟩ := loop_of_first haddr hwidth hvalid hmembers hzero hfirst hresult
    have hsettles := hiff.mp ⟨hspaced.chain, fun a ha => haligned a (List.mem_cons_of_mem _ ha)⟩
    rw [hstop] at hsettles
    obtain ⟨-, -, hend, n, hsize, hkept⟩ :=
      end_of_settles haddr hwidth hvalid hmembers hzero hfirst hresult hsettles
    obtain ⟨-, -, hpads⟩ := fixPadding_spec b hsize hroom'
    refine ⟨hzero, hsettles, ?_⟩
    rw [PadsRight, ← hend, ← hkept]
    exact hpads.mp hspaced.padding
  · rintro ⟨hzero, hsettles, hpads⟩
    obtain ⟨hchain, haligned, hend, n, hsize, hkept⟩ :=
      end_of_settles haddr hwidth hvalid hmembers hzero hfirst hresult hsettles
    rw [PadsRight, ← hend, ← hkept] at hpads
    obtain ⟨hinside, hsmall, hpadding⟩ := fixPadding_spec b hsize hroom'
    have hbefore := (holesExact_iff hmembers hvalid.plain hvalid.placed).mp hvalid.holes
    have hplain := plain_of_keys (keys_of_run hmembers hfirst hrun) hvalid.plain
    obtain ⟨hole, hsame⟩ := hrun.same
    have hoffset : last'.byteOffset = 0 := by
      rw [hsame, hfirst.pos]
    have hbit : last'.bitOffset = 0 := by
      rw [hsame, hfirst.pos]
    have hbits : ∀ a ∈ last' :: rest', a.bitOffset = 8 * a.byteOffset := by
      refine List.forall_mem_cons.mpr ⟨by rw [hbit, hoffset], fun a ha => ?_⟩
      have hle := stop_le_getLastD hchain a (List.mem_cons_of_mem _ ha)
      have hstop : a.stop = a.byteOffset + a.byteSize := rfl
      have hagree := hrun.bits a ha
      rw [FixMember.BitsAgree, u32] at hagree
      omega
    have hnr : head'.nrHoles = (0 + openHoles (last' :: rest')) % 256 := by
      have hcount := hrun.nrHoles
      have hopen : openHoles (p.pos :: p.rest) = openHoles (m :: ms) := by
        rw [openHoles_cons, openHoles_cons, hfirst.rest, openHoles_shift, hfirst.pos]
      have hfew := hrun.small
      have hfewBefore := hbefore.nrHoles
      rw [if_neg (not_not_intro hzero)] at hfewBefore
      rw [hopen, hfirst.nrHoles] at hcount
      omega
    refine ⟨valid_of_spaced rfl hplain hbits hsmall hinside ?_, ?_⟩
    · exact
        { chain := hchain
          lastHole := by
            rw [hrun.lastHole, hfirst.still hzero]
            exact hbefore.lastHole
          nrHoles := by
            rw [if_neg (not_not_intro hoffset), ← hnr]
            exact fixPadding_nrHoles _ _ _
          padding := hpadding.mpr hpads }
    · refine List.forall_mem_cons.mpr ⟨fun _ => ?_, haligned⟩
      rw [hoffset]
      exact dvd_zero _

end End

/-- `foundSize` is `n` if and only if the search has found a member of size `n`. -/
theorem foundSize_eq_some_iff {r : Except BiggestError (Option ClassMember)} {n : ℕ} :
    foundSize r = .ok (some n) ↔ ∃ b, r = .ok (some b) ∧ b.byteSize = n := by
  constructor
  · intro h
    cases r with
    | error err => cases h
    | ok found =>
        obtain ⟨b, rfl, hb⟩ := Option.map_eq_some_iff.mp (Except.ok.inj h)
        exact ⟨b, rfl, hb⟩
  · rintro ⟨b, rfl, rfl⟩
    rfl

theorem fixEnd_eq_ok {head : FixHead} {members : List FixMember} {last : FixMember}
    {r : Except BiggestError (Option ClassMember)} {c' : FixClass} :
    fixEnd head members last r = .ok c' ↔
      ∃ b, r = .ok (some b) ∧ c' = { fixPadding head last b with members := members } := by
  constructor
  · intro h
    rcases r with err | _ | b
    · cases h
    · cases h
    · exact ⟨b, rfl, (Except.ok.inj h).symm⟩
  · rintro ⟨b, rfl, rfl⟩
    rfl

theorem fixEnd_ne_nullLast {head : FixHead} {members : List FixMember} {last : FixMember}
    (r : Except BiggestError (Option ClassMember)) :
    fixEnd head members last r ≠ .error .nullLast := by
  rcases r with err | _ | b <;> simp [fixEnd]

/-- The fix-up never follows a `NULL` member before, and it keeps a valid layout if and only if
the struct is `Fixable`. -/
theorem fixupAlignment_keeps_iff (tbl : TypesTable) (depth addrSize : ℕ) (c : FixClass)
    (haddr : addrSize = 4 ∨ addrSize = 8) (hvalid : c.Valid)
    (hroom : c.size + addrSize * c.members.length + 65536 < 536870912) :
    fixupAlignment addrSize tbl depth c ≠ .error .nullLast ∧
      (KeepsLayout addrSize tbl depth c ↔
        ∀ m ms, c.members = m :: ms → Fixable addrSize tbl depth c m ms) := by
  obtain ⟨k, hpow, hwidth⟩ : ∃ k, addrSize = 2 ^ k ∧ addrSize < 65536 := by
    rcases haddr with rfl | rfl
    · exact ⟨2, rfl, by decide⟩
    · exact ⟨3, rfl, by decide⟩
  cases hmembers : c.members with
  | nil =>
      have hsame : fixupAlignment addrSize tbl depth c = .ok c := by
        obtain ⟨head, members⟩ := c
        dsimp only at hmembers
        subst hmembers
        rfl
      rw [hsame]
      refine ⟨by simp, iff_of_true ⟨c, hsame, hvalid, rfl, ?_⟩ (by simp)⟩
      rw [hmembers, AllAligned]
      simp
  | cons m ms =>
      obtain ⟨p, y, head', last', rest', hfirst, hresult⟩ :=
        fixupAlignment_spec tbl depth hpow hwidth hvalid hmembers hroom
      have hkeys := keys_of_run hmembers hfirst hresult.run
      have hsearch := @typeFindFirstBiggest_congr addrSize depth tbl _ _ head'.size c.size hkeys
      refine ⟨hresult.fixup ▸ fixEnd_ne_nullLast _, ?_⟩
      constructor
      · rintro ⟨c', hc', hvalid', -, haligned⟩ m' ms' hsame
        obtain ⟨rfl, rfl⟩ := List.cons.inj hsame
        rw [hresult.fixup, fixEnd_eq_ok] at hc'
        obtain ⟨b, hb, rfl⟩ := hc'
        obtain ⟨hzero, hsettles, hpads⟩ :=
          (valid_iff hpow hwidth hvalid hmembers hroom hfirst hresult b).mp ⟨hvalid', haligned⟩
        rw [hb] at hsearch
        obtain ⟨biggest, hbiggest, hsize⟩ := foundSize_eq_some_iff.mp hsearch.symm
        exact ⟨hzero, hsettles, biggest, hbiggest, hsize ▸ hpads⟩
      · intro hfixable
        obtain ⟨hzero, hsettles, biggest, hbiggest, hpads⟩ := hfixable m ms rfl
        rw [hbiggest] at hsearch
        obtain ⟨b, hb, hsize⟩ := foundSize_eq_some_iff.mp hsearch
        obtain ⟨hvalid', haligned⟩ :=
          (valid_iff hpow hwidth hvalid hmembers hroom hfirst hresult b).mpr
            ⟨hzero, hsettles, hsize ▸ hpads⟩
        exact ⟨_, hresult.fixup.trans (fixEnd_eq_ok.mpr ⟨b, hb, rfl⟩), hvalid', hkeys, haligned⟩

end Whole

/-- `int` and `char` -/
def scalarTypes : TypesTable :=
  [none, some (.baseType plainInt),
    some (.baseType { plainInt with name := some "char", bitSize := 8 })]

/-- A member at some offset, with the hole behind it. -/
def plainFixMember (name : String) (type : TypeId) (byteOffset byteSize hole : ℕ) : FixMember where
  toClassMember :=
    { plainMember name type byteSize with byteOffset := byteOffset, bitOffset := 8 * byteOffset }
  hole := hole

/-- `struct { int a; long :64; int b; char c; }`, where unnamed bitfields are not in debug info. -/
def holeStruct : FixClass where
  size := 20
  padding := 3
  nrHoles := 1
  members :=
    [plainFixMember "a" 1 0 4 8, plainFixMember "b" 1 12 4 0, plainFixMember "c" 2 16 1 0]

theorem valid_holeStruct : holeStruct.Valid where
  plain := by
    intro m hm
    fin_cases hm <;> exact ⟨rfl, rfl, rfl⟩
  placed := ⟨by decide, by decide, by decide, by decide, by decide⟩
  holes := ⟨rfl, by decide, rfl, rfl⟩

/-- The fix-up of `holeStruct` closes its hole and keeps the members behind it together. -/
theorem fixupAlignment_keeps_iff_hole :
    fixupAlignment 8 scalarTypes 2 holeStruct = .ok
        { size := 12, padding := 3, nrHoles := 0,
          members :=
            [plainFixMember "a" 1 0 4 0, plainFixMember "b" 1 4 4 0, plainFixMember "c" 2 8 1 0] } ∧
      KeepsLayout 8 scalarTypes 2 holeStruct := by
  refine ⟨by decide, ?_⟩
  refine (fixupAlignment_keeps_iff scalarTypes 2 8 holeStruct (by decide) valid_holeStruct
    (by decide)).2.mpr ?_
  rintro m ms hmembers
  obtain ⟨rfl, rfl⟩ := List.cons.inj hmembers
  refine ⟨rfl, ?_, _, rfl, Or.inl ⟨by decide, by decide⟩⟩
  refine ⟨fun _ => ⟨fun _ => by decide, fun _ => by decide⟩, fun hlarge => ?_, trivial⟩
  exact absurd hlarge (by decide)

/-- `struct { char a; int :24; int :24; int :24; int b; }`, packed: unnamed bitfields are not
in debug info. -/
def unnamedStruct : FixClass where
  size := 14
  padding := 0
  nrHoles := 1
  members := [plainFixMember "a" 2 0 1 9, plainFixMember "b" 1 10 4 0]

theorem valid_unnamedStruct : unnamedStruct.Valid where
  plain := by
    intro m hm
    fin_cases hm <;> exact ⟨rfl, rfl, rfl⟩
  placed := ⟨by decide, by decide, by decide, by decide, by decide⟩
  holes := ⟨rfl, by decide, rfl, rfl⟩

/-- The fix-up of `unnamedStruct` does not keep its layout. -/
theorem not_keepsLayout_unnamedStruct :
    unnamedStruct.Valid ∧ ¬KeepsLayout 8 scalarTypes 2 unnamedStruct := by
  refine ⟨valid_unnamedStruct, ?_⟩
  rintro ⟨c', hc', -, -, haligned⟩
  have hfixed : fixupAlignment 8 scalarTypes 2 unnamedStruct =
      .ok { size := 8, padding := 2, nrHoles := 1, members :=
        [plainFixMember "a" 2 0 1 1, plainFixMember "b" 1 2 4 0] } := rfl
  obtain rfl := Except.ok.inj (hc'.symm.trans hfixed)
  have hword : IsWord 8 4 := by decide
  exact absurd (haligned (plainFixMember "b" 1 2 4 0) (by simp) hword) (by decide)

end Pahole
