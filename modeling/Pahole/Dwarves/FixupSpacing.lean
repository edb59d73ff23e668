import Pahole.Dwarves.FixupLayout

/-!
# Where the alignment fix-up keeps a layout

As long as the holes agree with the offsets, a step changes the gap before one member and
moves all that is behind it by as much.  That it comes to a valid layout can so be told from
the gaps and the sizes alone.
-/

namespace Pahole

/-! ## Gaps and sizes -/

/-- A gap and the member behind it. -/
structure Stretch where
  gap : ℕ
  size : ℕ
  deriving DecidableEq

/-- The gap before a member after the fix-up. -/
def newGap (addrSize start : ℕ) (b : Stretch) : ℕ :=
  if addrSize ≤ b.gap then b.gap % addrSize
  else if IsWord addrSize b.size ∧ (start + b.gap) % b.size ≠ 0 then
    if (start + b.gap) % b.size ≤ b.gap then b.gap - (start + b.gap) % b.size
    else b.gap + (b.size - (start + b.gap) % b.size)
  else b.gap

/-- The bytes added behind the last member: those by which a member is moved back to where it is
aligned, as the struct keeps its size. -/
def pulled (addrSize start : ℕ) (b : Stretch) : ℕ :=
  if b.gap < addrSize ∧ IsWord addrSize b.size ∧ (start + b.gap) % b.size ≤ b.gap then
    (start + b.gap) % b.size
  else 0

/-- The end of a member after the fix-up. -/
def newStop (addrSize start : ℕ) (b : Stretch) : ℕ :=
  start + newGap addrSize start b + b.size

/-- Some members behind a place after the fix-up. -/
def respace (addrSize : ℕ) : ℕ → List Stretch → List Stretch
  | _, [] => []
  | start, b :: bs =>
      { b with gap := newGap addrSize start b } :: respace addrSize (newStop addrSize start b) bs

def pulls (addrSize : ℕ) : ℕ → List Stretch → List ℕ
  | _, [] => []
  | start, b :: bs => pulled addrSize start b :: pulls addrSize (newStop addrSize start b) bs

/-- The bytes that some members and the gaps before them take. -/
def extent (bs : List Stretch) : ℕ :=
  (bs.map fun b => b.gap + b.size).sum

/-- For every gap of at least the address size, the rest of the gap aligns the member behind it,
and the members after that one move by less than 2^16 bytes. -/
def Settles (addrSize : ℕ) : ℕ → List Stretch → Prop
  | _, [] => True
  | start, b :: bs =>
      (addrSize ≤ b.gap →
        (IsWord addrSize b.size → b.size ∣ start + b.gap % addrSize) ∧
          (bs ≠ [] → b.gap / addrSize * addrSize < 65536)) ∧
        Settles addrSize (newStop addrSize start b) bs

/-- The padding as it is kept along, in 16 bits: once it is zero, it is not looked at. -/
def paddingAfter : ℕ → List ℕ → ℕ
  | behind, [] => behind % 65536
  | behind, n :: ns => if behind % 65536 = 0 then 0 else paddingAfter (behind + n) ns

/-- If the padding is a multiple of 2^16 after some pulls, and so zero, it is one after all of
them. -/
def PaddingKept (behind : ℕ) (ns : List ℕ) : Prop :=
  ∀ k, (behind + (ns.take k).sum) % 65536 = 0 → (behind + ns.sum) % 65536 = 0

/-- The members behind one, with the holes. -/
def stretches : FixMember → List FixMember → List Stretch
  | _, [] => []
  | m, m' :: ms => ⟨m.hole.toNat, m'.byteSize⟩ :: stretches m' ms

/-- Members whose size is a word are at multiples of it. -/
def AllAligned (addrSize : ℕ) (ms : List FixMember) : Prop :=
  ∀ m ∈ ms, IsWord addrSize m.byteSize → m.byteSize ∣ m.byteOffset

theorem paddingAfter_of_zero {behind : ℕ} (ns : List ℕ) (h : behind % 65536 = 0) :
    paddingAfter behind ns = 0 := by
  cases ns with
  | nil => exact h
  | cons n ns => exact if_pos h

/-- The padding is right at the end exactly when it never goes through zero to something
else. -/
theorem paddingAfter_eq_iff (behind : ℕ) (ns : List ℕ) :
    paddingAfter behind ns = (behind + ns.sum) % 65536 ↔ PaddingKept behind ns := by
  rw [PaddingKept]
  induction ns generalizing behind with
  | nil => simp [paddingAfter]
  | cons n ns ih =>
      rw [paddingAfter, List.sum_cons, ← Nat.add_assoc]
      by_cases hzero : behind % 65536 = 0
      · rw [if_pos hzero]
        constructor
        · exact fun h _ _ => h.symm
        · exact fun h => (h 0 hzero).symm
      · rw [if_neg hzero, ih]
        constructor
        · intro h k hk
          cases k with
          | zero => exact absurd hk hzero
          | succ k =>
              rw [List.take_succ_cons, List.sum_cons, ← Nat.add_assoc] at hk
              exact h k hk
        · intro h k hk
          refine h (k + 1) ?_
          rw [List.take_succ_cons, List.sum_cons, ← Nat.add_assoc]
          exact hk

section Moves

variable {addrSize start offset size gap : ℕ} {hole x y d : ℤ} {looks : Bool}

theorem wholeWords_natCast : wholeWords addrSize gap = gap / addrSize * addrSize := by
  rw [wholeWords]
  exact_mod_cast Int.toNat_natCast (gap / addrSize * addrSize)

/-- A move changes the gap to `newGap`, and adds `pulled` behind the last member. -/
theorem FixMove.newGap_eq (h : FixMove addrSize gap (start + gap) size x y d looks) :
    gap + x = newGap addrSize start ⟨gap, size⟩ ∧
      d - x = pulled addrSize start ⟨gap, size⟩ ∧ (looks = false → d = x) := by
  rw [newGap, pulled]
  dsimp only
  cases h with
  | shrink hlarge =>
      have hlarge : addrSize ≤ gap := by exact_mod_cast hlarge
      have hmod := Nat.div_add_mod' gap addrSize
      rw [if_pos hlarge, if_neg fun hsmall => absurd hlarge (not_le.mpr hsmall.1),
        wholeWords_natCast]
      exact ⟨by omega, by simp, by simp⟩
  | pull hsmall hword hodd hroom =>
      have hsmall : gap < addrSize := by exact_mod_cast hsmall
      have hroom : (start + gap) % size ≤ gap := by exact_mod_cast hroom
      rw [if_neg (not_le.mpr hsmall), if_pos ⟨hword, hodd⟩, if_pos hroom,
        if_pos ⟨hsmall, hword, hroom⟩]
      exact ⟨by omega, by omega, by simp⟩
  | push hsmall hword hodd hroom =>
      have hsmall : gap < addrSize := by exact_mod_cast hsmall
      have hroom : gap < (start + gap) % size := by exact_mod_cast hroom
      rw [if_neg (not_le.mpr hsmall), if_pos ⟨hword, hodd⟩, if_neg (not_le.mpr hroom),
        if_neg fun hpull => absurd hpull.2.2 (not_le.mpr hroom)]
      exact ⟨by push_cast; rfl, by simp, fun _ => rfl⟩
  | stay hsmall heven =>
      have hsmall : gap < addrSize := by exact_mod_cast hsmall
      rw [if_neg (not_le.mpr hsmall), if_neg fun hodd => hodd.2 (heven hodd.1)]
      refine ⟨by simp, ?_, fun _ => rfl⟩
      split
      · next hpull => simp [heven hpull.2.1]
      · rfl

/-- A member is aligned after the fix-up if and only if what is left of a large gap aligns it.
-/
theorem newGap_aligned_iff :
    (IsWord addrSize size → size ∣ start + newGap addrSize start ⟨gap, size⟩) ↔
      (addrSize ≤ gap → IsWord addrSize size → size ∣ start + gap % addrSize) := by
  rw [newGap]
  dsimp only
  by_cases hlarge : addrSize ≤ gap
  · rw [if_pos hlarge]
    exact ⟨fun h _ => h, fun h => h hlarge⟩
  · rw [if_neg hlarge]
    refine iff_of_true (fun hword => ?_) fun h => absurd h hlarge
    have hlt : (start + gap) % size < size :=
      Nat.mod_lt _ (Nat.lt_of_lt_of_le (by decide) hword.1)
    have hmod := Nat.div_add_mod (start + gap) size
    split
    · split
      · have hpull : start + (gap - (start + gap) % size) = size * ((start + gap) / size) := by
          omega
        exact hpull ▸ dvd_mul_right _ _
      · have hpush : start + (gap + (size - (start + gap) % size)) =
            size * ((start + gap) / size) + size := by omega
        exact hpush ▸ dvd_add (dvd_mul_right _ _) (dvd_refl _)
    · next hodd =>
        by_contra hnot
        exact hodd ⟨hword, fun hzero => hnot (Nat.dvd_of_mod_eq_zero hzero)⟩

/-- The members behind one are moved as far as it if and only if the distance fits in 16 bits.
-/
theorem FixMove.together_iff (h : FixMove addrSize gap (start + gap) size x y d looks) :
    x = y ↔ (addrSize ≤ gap → gap / addrSize * addrSize < 65536) := by
  cases h with
  | shrink hlarge =>
      have hlarge : addrSize ≤ gap := by exact_mod_cast hlarge
      rw [wholeWords_natCast]
      constructor
      · intro heq _
        omega
      · intro hlt
        rw [Nat.mod_eq_of_lt (hlt hlarge)]
  | pull hsmall | push hsmall | stay hsmall =>
      have hsmall : gap < addrSize := by exact_mod_cast hsmall
      exact iff_of_true rfl fun hlarge => absurd hlarge (not_le.mpr hsmall)

/-- If the distances to the last and to the next member differ, they differ modulo 2^32. -/
theorem FixMove.apart (h : FixMove addrSize gap (start + gap) size x y d looks)
    (hgap : gap < 4294967296) (hne : x ≠ y) : (x - y) % 4294967296 ≠ 0 := by
  cases h with
  | shrink hlarge =>
      have hle := Nat.div_mul_le_self gap addrSize
      rw [wholeWords_natCast] at hne ⊢
      omega
  | pull | push | stay => exact absurd rfl hne

end Moves

section Shift

variable {x : ℤ} {a b m : FixMember} {ms : List FixMember}

theorem u32_of_bounds {n : ℤ} (hlow : 0 ≤ n) (hhigh : n < 4294967296) : (u32 n : ℤ) = n := by
  rw [u32]
  omega

theorem shift_byteOffset_exact (hlow : 0 ≤ m.byteOffset + x)
    (hhigh : m.byteOffset + x < 4294967296) :
    ((m.shift x).byteOffset : ℤ) = m.byteOffset + x :=
  u32_of_bounds hlow hhigh

theorem touches_shift (hx : (b.byteOffset : ℤ) - a.byteOffset =
    (b.shift x).byteOffset - (a.shift x).byteOffset) (h : Touches a b) :
    Touches (a.shift x) (b.shift x) := by
  obtain ⟨hhole, htouch⟩ := h
  rw [FixMember.stop] at htouch
  refine ⟨hhole, ?_⟩
  rw [FixMember.stop, FixMember.shift_hole, FixMember.shift_byteSize]
  omega

theorem pairwise_of_chain (h : ms.IsChain Touches) :
    ms.Pairwise fun a b => a.stop ≤ b.byteOffset := by
  induction ms with
  | nil => exact .nil
  | cons m ms ih =>
      refine List.pairwise_cons.mpr ⟨?_, ih h.tail⟩
      cases ms with
      | nil => simp
      | cons m' ms =>
          obtain ⟨⟨hhole, htouch⟩, htail⟩ := List.isChain_cons_cons.mp h
          have hle : m.stop ≤ m'.byteOffset := by omega
          refine List.forall_mem_cons.mpr ⟨hle, fun b hb => ?_⟩
          have hnext := (List.pairwise_cons.mp (ih htail)).1 b hb
          exact (hle.trans (Nat.le_add_right _ _)).trans hnext

/-- No member of a chain ends behind the last one. -/
theorem stop_le_getLastD (h : (m :: ms).IsChain Touches) :
    ∀ b ∈ m :: ms, b.stop ≤ (ms.getLastD m).stop := by
  induction ms generalizing m with
  | nil => simp
  | cons m' ms ih =>
      obtain ⟨⟨hhole, htouch⟩, htail⟩ := List.isChain_cons_cons.mp h
      have hrest := ih htail
      rw [List.getLastD_cons]
      refine List.forall_mem_cons.mpr ⟨?_, hrest⟩
      have hnext := hrest m' List.mem_cons_self
      have hstop : m'.stop = m'.byteOffset + m'.byteSize := rfl
      omega

theorem chain_shift (h : (m :: ms).IsChain Touches)
    (hexact : ∀ b ∈ m :: ms, ((b.shift x).byteOffset : ℤ) = b.byteOffset + x) :
    (m.shift x :: ms.map (FixMember.shift x)).IsChain Touches := by
  induction ms generalizing m with
  | nil => exact List.isChain_singleton _
  | cons m' ms ih =>
      obtain ⟨htouch, htail⟩ := List.isChain_cons_cons.mp h
      obtain ⟨hm, hrest⟩ := List.forall_mem_cons.mp hexact
      have hm' := hrest m' List.mem_cons_self
      refine List.isChain_cons_cons.mpr ⟨touches_shift (by omega) htouch, ih htail hrest⟩

theorem stretches_shift : stretches (m.shift x) (ms.map (FixMember.shift x)) = stretches m ms := by
  induction ms generalizing m with
  | nil => rfl
  | cons m' ms ih => rw [List.map_cons, stretches, stretches, ih]; rfl

/-- The bytes that the members behind one take are those of the gaps and the sizes. -/
theorem stop_getLastD (h : (m :: ms).IsChain Touches) :
    (ms.getLastD m).stop = m.stop + extent (stretches m ms) := by
  induction ms generalizing m with
  | nil => rfl
  | cons m' ms ih =>
      obtain ⟨⟨hhole, htouch⟩, htail⟩ := List.isChain_cons_cons.mp h
      have hstop : m'.stop = m'.byteOffset + m'.byteSize := rfl
      rw [List.getLastD_cons, ih htail, stretches, extent, extent, List.map_cons, List.sum_cons]
      dsimp only
      omega

end Shift

/-! ## The loop in terms of gaps -/

/-- The effect of the loop in terms of gaps: the spacing is `respace` of the one before, and
size and padding grow by the pulls. `behind` are the bytes behind the last member. -/
structure FixSettled (addrSize : ℕ) (head : FixHead) (last : FixMember) (rest : List FixMember)
    (behind : ℕ) (head' : FixHead) (last' : FixMember) (rest' : List FixMember) : Prop where
  spaced : stretches last' rest' = respace addrSize last.stop (stretches last rest)
  size : head'.size = (rest'.getLastD last').stop +
    (behind + (pulls addrSize last.stop (stretches last rest)).sum)
  padding : head'.padding =
    if head.padding = 0 then 0
    else paddingAfter behind (pulls addrSize last.stop (stretches last rest))

section Loop

variable {addrSize k behind : ℕ} {head head' : FixHead} {last last' pos : FixMember}
  {rest rest' : List FixMember} {x y d : ℤ} {looks : Bool} {p : FixPoint}

theorem paddingBehind_eq {size : ℕ} (h : size = last.stop + behind) :
    paddingBehind size last = behind % 65536 := by
  have hstop : last.stop = last.byteOffset + last.byteSize := rfl
  rw [paddingBehind]
  split <;> omega

/-- The loop over one member more makes a step and goes on from there. -/
theorem fixLoop_cons (haddr : addrSize = 2 ^ k) (hwidth : addrSize < 65536)
    (h : FixState addrSize head last (pos :: rest))
    (hloop : fixLoop addrSize (pos :: rest).length head (some last) (pos :: rest) =
      .ok (head', last' :: rest')) :
    ∃ p x y d looks pos' rest'',
      FixMove addrSize last.hole pos.byteOffset pos.byteSize x y d looks ∧
      FixStep head last pos rest x y d looks p ∧
      FixState addrSize p.head p.pos p.rest ∧ (p.head.size : ℤ) = head.size + d ∧
      fixLoop addrSize p.rest.length p.head (some p.pos) p.rest = .ok (head', pos' :: rest'') ∧
      FixRun addrSize p.head p.pos p.rest head' pos' rest'' ∧
      last' = { last with hole := last.hole + x } ∧ rest' = pos' :: rest'' := by
  have hpos : 0 < addrSize := haddr ▸ Nat.two_pow_pos k
  have hroom := h.room
  have hhole := h.holes last List.mem_cons_self
  obtain ⟨p, x, y, d, looks, hp, hmove, hstep⟩ :=
    fixStep_spec pos rest haddr hwidth (by omega : head.size < 4294967296) hhole h.fits
  obtain ⟨hnext, hsize⟩ := h.step hpos hmove hstep
  obtain ⟨head'', pos', rest'', hloop', hrun⟩ := fixLoop_run haddr hwidth hnext
  have hlength : p.rest.length = rest.length := by rw [hstep.rest, List.length_map]
  have hturn := fixLoop_turn hp (hlength ▸ hloop')
  rw [hstep.last] at hturn
  obtain ⟨hhead, hrest⟩ := Prod.mk.inj (Except.ok.inj (hloop.symm.trans hturn))
  obtain ⟨hlast, hrest⟩ := List.cons.inj hrest
  subst hhead
  exact ⟨p, x, y, d, looks, pos', rest'', hmove, hstep, hnext, hsize, hloop', hrun, hlast, hrest⟩

/-- If the members behind one are not moved as far as it, the result has members that do not
touch. -/
theorem not_chain_of_apart {pos' : FixMember} {rest'' : List FixMember}
    (hchain : (pos :: rest).IsChain Touches) (hne : rest ≠ [])
    (hpos : (p.pos.byteOffset : ℤ) = pos.byteOffset + x)
    (hstep : FixStep head last pos rest x y d looks p)
    (hapart : (x - y) % 4294967296 ≠ 0)
    (hrun : FixRun addrSize p.head p.pos p.rest head' pos' rest'') :
    ¬(pos' :: rest'').IsChain Touches := by
  intro hchain'
  obtain ⟨b, rest, rfl⟩ := List.exists_cons_of_ne_nil hne
  obtain ⟨⟨-, htouch⟩, -⟩ := List.isChain_cons_cons.mp hchain
  have hhead : b.shift y ∈ p.rest.head? := by
    rw [hstep.rest]
    rfl
  obtain ⟨b', hb', hnext⟩ := hrun.next _ hhead
  obtain ⟨hole, hsame⟩ := hrun.same
  obtain ⟨rest, rfl⟩ : ∃ bs, rest'' = b' :: bs := List.head?_eq_some_iff.mp hb'
  obtain ⟨⟨-, htouch'⟩, -⟩ := List.isChain_cons_cons.mp hchain'
  have hsize : pos'.byteSize = pos.byteSize := by
    rw [hsame, hstep.pos]
    rfl
  have hoffset : (pos'.byteOffset : ℤ) = pos.byteOffset + x := by
    rw [hsame]
    exact hpos
  have hhole : p.pos.hole = pos.hole := by
    rw [hstep.pos]
    rfl
  rw [FixMember.stop] at htouch htouch'
  rw [FixMember.shift_byteOffset, u32, hhole] at hnext
  omega

/-- All that is behind a member is moved as far as it, unless the gap is very large. -/
theorem rest_of_together (hstep : FixStep head last pos rest x y d looks p)
    (h : rest = [] ∨ x = y) : p.rest = rest.map (FixMember.shift x) := by
  rw [hstep.rest]
  rcases h with rfl | rfl <;> rfl

/-- After a step the padding is the bytes behind the last member in 16 bits, unless it was zero.
-/
theorem padding_of_step (hstep : FixStep head last pos rest x y d looks p) {n : ℕ}
    (hsize : p.head.size = (p.rest.getLastD p.pos).stop + (behind + n))
    (hlook : looks = false → n = 0) (hpadding : head.padding ≠ 0 → head.padding = behind % 65536) :
    p.head.padding = if head.padding = 0 then 0 else (behind + n) % 65536 := by
  rw [hstep.padding, paddingBehind_eq hsize]
  by_cases hzero : head.padding = 0
  · rw [if_pos hzero, if_neg fun h => h.2 hzero, hzero]
  · rw [if_neg hzero]
    cases looks with
    | true => rw [if_pos ⟨rfl, hzero⟩]
    | false => rw [if_neg fun h => Bool.false_ne_true h.1, hpadding hzero, hlook rfl, Nat.add_zero]

/-- A member and those behind it can all be moved if the first is not moved out on the left
and the last not past 32 bits. -/
theorem exact_of_chain (hchain : (pos :: rest).IsChain Touches) (hlow : 0 ≤ pos.byteOffset + x)
    (hhigh : (rest.getLastD pos).stop + x < 4294967296) :
    ∀ b ∈ pos :: rest, ((b.shift x).byteOffset : ℤ) = b.byteOffset + x := by
  intro b hb
  have hlast := stop_le_getLastD hchain b hb
  have hstop : b.stop = b.byteOffset + b.byteSize := rfl
  have hle : pos.byteOffset ≤ b.byteOffset := by
    rcases List.mem_cons.mp hb with rfl | hb
    · exact le_rfl
    · have hpair := (List.pairwise_cons.mp (pairwise_of_chain hchain)).1 b hb
      exact (Nat.le_add_right _ _).trans hpair
  exact shift_byteOffset_exact (by omega) (by omega)

/-- The effect of a turn in terms of gaps: the new hole and the new end are those of `newGap`
and `newStop`, and the member is aligned exactly when a large gap allows it. -/
structure FixTurn (addrSize gap : ℕ) (last pos : FixMember) (x : ℤ) (p : FixPoint)
    (pos' : FixMember) : Prop where
  hole : last.hole + x = newGap addrSize last.stop ⟨gap, pos.byteSize⟩
  stop : p.pos.stop = newStop addrSize last.stop ⟨gap, pos.byteSize⟩
  size : pos'.byteSize = pos.byteSize
  touches : Touches { last with hole := last.hole + x } pos'
  aligned : (IsWord addrSize pos'.byteSize → pos'.byteSize ∣ pos'.byteOffset) ↔
    (addrSize ≤ gap → IsWord addrSize pos.byteSize → pos.byteSize ∣ last.stop + gap % addrSize)

theorem fixTurn_of_step {gap : ℕ} {pos' : FixMember} (hgap : last.hole = gap)
    (hoffset : pos.byteOffset = last.stop + gap)
    (hnew : gap + x = newGap addrSize last.stop ⟨gap, pos.byteSize⟩)
    (hstep : FixStep head last pos rest x y d looks p)
    (hpos : (p.pos.byteOffset : ℤ) = pos.byteOffset + x)
    (hsame : ∃ hole, pos' = { p.pos with hole := hole }) :
    FixTurn addrSize gap last pos x p pos' := by
  obtain ⟨hole, rfl⟩ := hsame
  have hsize : p.pos.byteSize = pos.byteSize := by
    rw [hstep.pos]
    rfl
  have hnat : p.pos.byteOffset = last.stop + newGap addrSize last.stop ⟨gap, pos.byteSize⟩ := by
    omega
  exact
    { hole := hgap ▸ hnew
      stop := by rw [newStop, FixMember.stop, hsize, hnat]
      size := hsize
      touches := by
        have hstop : FixMember.stop { last with hole := last.hole + x } = last.stop := rfl
        refine ⟨?_, ?_⟩
        · dsimp only
          omega
        · rw [hstop]
          dsimp only
          omega
      aligned := by
        dsimp only
        rw [hsize, hnat]
        exact newGap_aligned_iff }

/-- A turn, followed by a run that settles the rest, settles the list. -/
theorem settled_cons {gap : ℕ} {pos' : FixMember} {rest'' : List FixMember}
    (hgap : last.hole = gap) (hturn : FixTurn addrSize gap last pos x p pos')
    (hspaced : stretches p.pos p.rest = stretches pos rest)
    (hpad : p.head.padding = if head.padding = 0 then 0
      else (behind + pulled addrSize last.stop ⟨gap, pos.byteSize⟩) % 65536)
    (hpadding : head.padding ≠ 0 → head.padding = behind % 65536)
    (hrun : FixSettled addrSize p.head p.pos p.rest
      (behind + pulled addrSize last.stop ⟨gap, pos.byteSize⟩) head' pos' rest'') :
    FixSettled addrSize head last (pos :: rest) behind head'
      { last with hole := last.hole + x } (pos' :: rest'') := by
  have hnat : (last.hole + x).toNat = newGap addrSize last.stop ⟨gap, pos.byteSize⟩ := by
    rw [hturn.hole, Int.toNat_natCast]
  have hnatGap : last.hole.toNat = gap := by rw [hgap, Int.toNat_natCast]
  exact
    { spaced := by
        rw [stretches, stretches, respace, hrun.spaced, hturn.size, hnat, hspaced, hturn.stop,
          hnatGap]
      size := by
        rw [stretches, pulls, List.sum_cons, List.getLastD_cons, hrun.size, hspaced, hturn.stop,
          hnatGap]
        omega
      padding := by
        rw [stretches, pulls, hrun.padding, hpad, hspaced, hturn.stop, hnatGap]
        by_cases hzero : head.padding = 0
        · rw [if_pos hzero, if_pos rfl, if_pos hzero]
        · have hbehind : behind % 65536 ≠ 0 := hpadding hzero ▸ hzero
          rw [if_neg hzero, if_neg hzero, paddingAfter, if_neg hbehind]
          split
          · next hnone => rw [paddingAfter_of_zero _ hnone]
          · rfl }

/-- The loop keeps a chain, with all words aligned, exactly where the gaps settle. -/
theorem fixLoop_settles (haddr : addrSize = 2 ^ k) (hwidth : addrSize < 65536)
    (h : FixState addrSize head last rest) (hchain : (last :: rest).IsChain Touches)
    (hsize : head.size = (rest.getLastD last).stop + behind)
    (hpadding : head.padding ≠ 0 → head.padding = behind % 65536)
    (hloop : fixLoop addrSize rest.length head (some last) rest = .ok (head', last' :: rest')) :
    ((last' :: rest').IsChain Touches ∧ AllAligned addrSize rest' ↔
        Settles addrSize last.stop (stretches last rest)) ∧
      (Settles addrSize last.stop (stretches last rest) →
        FixSettled addrSize head last rest behind head' last' rest') := by
  generalize hlength : rest.length = fuel at hloop
  induction fuel generalizing head last rest behind last' rest' with
  | zero =>
      obtain rfl := List.length_eq_zero_iff.mp hlength
      obtain ⟨rfl, hrest⟩ := Prod.mk.inj (Except.ok.inj hloop)
      obtain ⟨rfl, rfl⟩ := List.cons.inj hrest
      refine ⟨iff_of_true ⟨List.isChain_singleton _, by simp [AllAligned]⟩ trivial, fun _ => ?_⟩
      exact
        { spaced := rfl
          size := hsize
          padding := by
            split
            · next hzero => exact hzero
            · next hpad => exact hpadding hpad }
  | succ fuel ih =>
      obtain ⟨pos, rest, rfl⟩ := List.exists_cons_of_length_eq_add_one hlength
      have hlength := Nat.succ.inj hlength
      obtain ⟨p, x, y, d, looks, pos', rest'', hmove, hstep, hnext, hgrown, hloop', hrun, rfl,
        rfl⟩ := fixLoop_cons haddr hwidth h (hlength ▸ hloop)
      obtain ⟨⟨hhole, htouch⟩, htail⟩ := List.isChain_cons_cons.mp hchain
      obtain ⟨gap, hgap⟩ := Int.eq_ofNat_of_zero_le hhole
      have hoffset : pos.byteOffset = last.stop + gap := by omega
      rw [hgap, hoffset] at hmove
      obtain ⟨hnew, hpulled, hlook⟩ := hmove.newGap_eq
      have htogether := hmove.together_iff
      obtain ⟨-, -, hxd, hd⟩ := hmove.bounds (Int.natCast_nonneg gap)
        (haddr ▸ Nat.two_pow_pos k : 0 < addrSize)
      have hstretch : stretches last (pos :: rest) =
          ⟨gap, pos.byteSize⟩ :: stretches pos rest := by
        rw [stretches, hgap]
        rfl
      have hroom := h.room
      rw [List.length_cons, Nat.mul_succ] at hroom
      rw [List.getLastD_cons] at hsize
      have hexact := exact_of_chain (x := x) htail (by omega) (by omega)
      have hpos : (p.pos.byteOffset : ℤ) = pos.byteOffset + x := by
        rw [hstep.pos]
        exact hexact pos List.mem_cons_self
      have hturn := fixTurn_of_step hgap hoffset hnew hstep hpos hrun.same
      have hall : AllAligned addrSize (pos' :: rest'') ↔
          (addrSize ≤ gap → IsWord addrSize pos.byteSize →
            pos.byteSize ∣ last.stop + gap % addrSize) ∧ AllAligned addrSize rest'' := by
        rw [AllAligned, List.forall_mem_cons, hturn.aligned]
        rfl
      rw [hstretch, Settles, List.isChain_cons_cons, hall]
      by_cases hmoved : rest = [] ∨ x = y
      · have hrest := rest_of_together hstep hmoved
        have hchain' : (p.pos :: p.rest).IsChain Touches := by
          rw [hstep.pos, hrest]
          exact chain_shift htail hexact
        have hspaced : stretches p.pos p.rest = stretches pos rest := by
          rw [hstep.pos, hrest, stretches_shift]
        have hstop : ((p.rest.getLastD p.pos).stop : ℤ) = (rest.getLastD pos).stop + x := by
          rw [hstep.pos, hrest, List.getLastD_map]
          have hlast := hexact _ List.getLastD_mem_cons
          have hstop : (rest.getLastD pos).stop =
              (rest.getLastD pos).byteOffset + (rest.getLastD pos).byteSize := rfl
          rw [FixMember.stop, FixMember.shift_byteSize]
          omega
        have hbehind : p.head.size = (p.rest.getLastD p.pos).stop +
            (behind + pulled addrSize last.stop ⟨gap, pos.byteSize⟩) := by omega
        have hpad := padding_of_step hstep hbehind (fun h => by
          have := hlook h
          omega) hpadding
        have hlength' : p.rest.length = fuel := by rw [hrest, List.length_map, hlength]
        obtain ⟨hiff, hsettled⟩ := ih hnext hchain' hbehind (fun hne => by
          rw [hpad] at hne ⊢
          exact if_neg fun hzero => hne (if_pos hzero)) hlength' (hlength' ▸ hloop')
        rw [hspaced, hturn.stop] at hiff hsettled
        have hlarge : addrSize ≤ gap → stretches pos rest ≠ [] →
            gap / addrSize * addrSize < 65536 := by
          intro hle hne
          rcases hmoved with rfl | hmoved
          · exact absurd rfl hne
          · exact htogether.mp hmoved hle
        constructor
        · rw [← hiff]
          constructor
          · rintro ⟨⟨-, hchain⟩, hcond, haligned⟩
            exact ⟨fun hle => ⟨hcond hle, hlarge hle⟩, hchain, haligned⟩
          · rintro ⟨hcond, hchain, haligned⟩
            exact ⟨⟨hturn.touches, hchain⟩, fun hle => (hcond hle).1, haligned⟩
        · rintro ⟨-, hsettles⟩
          exact settled_cons hgap hturn hspaced hpad hpadding (hsettled hsettles)
      · obtain ⟨hne, hapart⟩ := not_or.mp hmoved
        have hstretches : stretches pos rest ≠ [] := by
          obtain ⟨b, rest, rfl⟩ := List.exists_cons_of_ne_nil hne
          exact List.cons_ne_nil _ _
        have hnot : ¬Settles addrSize last.stop (stretches last (pos :: rest)) := by
          rw [hstretch]
          rintro ⟨hcond, -⟩
          exact hapart (htogether.mpr fun hle => (hcond hle).2 hstretches)
        rw [hstretch] at hnot
        refine ⟨iff_of_false ?_ hnot, fun hsettles => absurd hsettles hnot⟩
        rintro ⟨⟨-, hchain⟩, -⟩
        have hlast := stop_le_getLastD htail pos List.mem_cons_self
        have hstop : pos.stop = pos.byteOffset + pos.byteSize := rfl
        exact not_chain_of_apart htail hne hpos hstep (hmove.apart (by omega) hapart) hrun hchain

end Loop

end Pahole
