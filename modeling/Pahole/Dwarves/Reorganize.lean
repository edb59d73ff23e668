import Pahole.Dwarves.Holes

/-!
# Reorganising structs

`class__reorganize` moves members to holes before them, one at a time, and after each move
looks at the struct from the start again.  Each time it also sets the padding, with the
address size in the place of the alignment that it has found.
-/

namespace Pahole

/-- `struct class_member`, with its name. -/
structure ReorgMember extends PackMember where
  name : Option String
  deriving DecidableEq

/-- `struct class`, of which holes and padding are those that the last search has left. -/
structure ReorgClass where
  members : List ReorgMember
  size : ℕ
  deriving DecidableEq

/-- The choice of the search loops: which member is moved behind which, and whether it is moved
for the padding. -/
structure ReorgMove where
  dest : ℕ
  source : ℕ
  fromPadding : Bool
  deriving DecidableEq

namespace ReorgClass

variable (addrSize : ℕ) (c : ReorgClass)

def packType : PackType := ⟨c.members.map ReorgMember.toPackMember, c.size, 0⟩

/-- `hole` of the members, when all are data members. -/
def memberHoles : List ℤ := c.packType.classHoles.holes ++ [0]

/-- `hole` of a member. -/
def hole (i : ℕ) : ℤ := c.memberHoles.getD i 0

/-- `padding` -/
def padding : ℕ := c.packType.padding

def nrHoles : ℕ := c.packType.classHoles.nrHoles

/-! ## The padding -/

/-- `alignment_size`: the largest size with the hole behind it that is not more than the size
of an address. -/
def alignmentSize : ℕ :=
  let largest := (c.members.zip c.memberHoles).foldl (fun alignment p =>
    let alignedSize := (((p.1.byteSize : ℤ) + p.2) % 18446744073709551616).toNat
    if alignedSize ≤ addrSize ∧ alignment < alignedSize then alignedSize else alignment) 0
  if 1 < largest then (largest + 1) / 2 * 2 else largest

/-- `new_padding`, in 16 bits. -/
def newPadding (last : ReorgMember) : ℕ :=
  let modulo := (last.byteOffset + last.byteSize) % c.alignmentSize addrSize
  if modulo ≠ 0 then (addrSize - modulo) % 65536 else 0

/-- The struct and its padding after the first part of the loop. -/
def setPadding (last : ReorgMember) : ReorgClass × ℕ :=
  if c.alignmentSize addrSize ≠ 0 then
    let newPadding := c.newPadding addrSize last
    if newPadding ≠ c.padding then
      ({ c with size := u32 ((last.byteOffset + last.byteSize + newPadding : ℕ) : ℤ) }, newPadding)
    else (c, c.padding)
  else (c, c.padding)

/-! ## The searches -/

/-- The loop of `class__find_next_hole_of_size`, from a place on: `bitfield_head` is the place
where a bitfield has started. -/
def findNextHoleFrom (size : ℤ) : Option ℕ → ℕ → List ReorgMember → Option ℕ
  | _, _, [] => none
  | head, i, member :: members =>
      let head := if member.bitfieldSize ≠ 0 then some (head.getD i) else none
      if c.hole i ≠ 0 ∧ member.byteSize ≠ 0 ∧ (member.byteSize : ℤ) ≤ size then
        some (head.getD i)
      else findNextHoleFrom size head (i + 1) members

/-- `class__find_next_hole_of_size`, after the member at a place. -/
def findNextHoleOfSize (i : ℕ) (size : ℤ) : Option ℕ :=
  c.findNextHoleFrom size none (i + 1) (c.members.drop (i + 1))

/-- `class__find_last_member_of_size`, down to the member at a place. -/
def findLastMemberOfSize (dest : ℕ) (size : ℤ) : ℕ → Option ℕ
  | 0 => none
  | i + 1 =>
      if i ≤ dest then none
      else
        match c.members[i]? with
        | none => findLastMemberOfSize dest size i
        | some member =>
            let inBitfield := member.bitfieldSize ≠ 0 && member.byteOffset ≠ 0 &&
              c.members[i - 1]?.any fun prev => prev.bitfieldSize ≠ 0
            if inBitfield = false ∧ member.byteSize ≠ 0 ∧ (member.byteSize : ℤ) ≤ size then some i
            else findLastMemberOfSize dest size i

/-- Whether `class__move_member` moves the member: it refuses bitfields. -/
def isMovable (i : ℕ) : Bool :=
  match c.members[i]? with
  | none => false
  | some member => member.bitfieldSize = 0

/-- `size_t` of a hole. -/
def holeSize (i : ℕ) : ℤ := c.hole i % 18446744073709551616

/-- The first loop, at one member. -/
def combineHoles (padding i : ℕ) : Option ReorgMove :=
  if c.hole i = 0 then none
  else
    let brother := (c.findNextHoleOfSize i (c.holeSize i)).filter fun j =>
      j ≠ i + 1 && c.isMovable j
    match brother with
    | some j => some ⟨i, j, false⟩
    | none =>
        let last := c.members.length - 1
        match c.members[last]? with
        | none => none
        | some member =>
            if 0 < padding ∧ i ≠ last ∧ member.byteSize ≠ 0 ∧
                (member.byteSize : ℤ) ≤ c.holeSize i ∧ c.isMovable last then
              some ⟨i, last, true⟩
            else none

/-- The second loop, at one member. -/
def moveTail (i : ℕ) : Option ReorgMove :=
  if c.hole i = 0 then none
  else
    ((c.findLastMemberOfSize i (c.holeSize i) c.members.length).filter fun j =>
      j ≠ i + 1 && c.isMovable j).map fun j => ⟨i, j, false⟩

/-- The member that is moved, if any. -/
def nextMove (padding : ℕ) : Option ReorgMove :=
  match (List.range c.members.length).findSome? (c.combineHoles padding) with
  | some move => some move
  | none =>
      if c.nrHoles = 0 then none
      else (List.range c.members.length).findSome? c.moveTail

/-! ## Moving -/

/-- `offset` and `new_from_offset`, in 16 bits. -/
def newFromOffset (hole : ℤ) (dest source : ReorgMember) : ℕ :=
  let unit := if addrSize < source.byteSize then addrSize else source.byteSize
  let offset := (hole % 18446744073709551616 % unit).toNat % 65536
  (dest.byteOffset + dest.byteSize + offset) % 65536

end ReorgClass

/-- `class__subtract_offsets_from`, for one member. -/
def ReorgMember.subtract (size : ℕ) (m : ReorgMember) : ReorgMember :=
  { m with
    byteOffset := u32 ((m.byteOffset : ℤ) - size)
    bitOffset := u32 ((m.bitOffset : ℤ) - size * 8) }

/-- The member at another offset, where it is not a bitfield. -/
def ReorgMember.moveTo (byteOffset : ℕ) (m : ReorgMember) : ReorgMember :=
  { m with byteOffset := byteOffset, bitOffset := byteOffset * 8 }

namespace ReorgClass

variable (addrSize : ℕ)

/-- `class__move_member`, for a member that is not a bitfield, with the hole after the one it
is put behind, the hole after itself and the padding of the struct. -/
def moveMember (c : ReorgClass) (padding : ℕ) (holeDest holeSource : ℤ) (move : ReorgMove)
    (dest source : ReorgMember) : ReorgClass :=
  let moved := source.moveTo (newFromOffset addrSize holeDest dest source)
  let before := c.members.take (move.dest + 1)
  let between := (c.members.take move.source).drop (move.dest + 1)
  let after := c.members.drop (move.source + 1)
  let shrunk := u32 ((c.size : ℤ) - (source.byteSize + padding : ℕ))
  if move.fromPadding then
    { members := before ++ moved :: between ++ after
      size := if source.byteOffset % 65536 % addrSize = 0 then shrunk else c.size }
  else if after = [] then
    { members := before ++ moved :: between ++ after
      size := shrunk }
  else if addrSize ≤ (holeSource % 65536).toNat + source.byteSize then
    { members := before ++ moved :: between ++ after.map (ReorgMember.subtract addrSize)
      size := u32 ((c.size : ℤ) - addrSize) }
  else
    { members := before ++ moved :: between ++ after
      size := c.size }

/-- From `restart` to the next `goto restart`, if there is one. -/
def pass (c : ReorgClass) : ReorgClass × Bool :=
  match c.members.getLast? with
  | none => (c, false)
  | some last =>
      let (padded, padding) := c.setPadding addrSize last
      match c.nextMove padding with
      | none => (padded, false)
      | some move =>
          match c.members[move.dest]?, c.members[move.source]? with
          | some dest, some source =>
              (padded.moveMember addrSize padding (c.hole move.dest) (c.hole move.source) move
                dest source, true)
          | _, _ => (padded, false)

/-- `class__reorganize`, none when it has not returned after some passes. -/
def reorganize : ℕ → ReorgClass → Option ReorgClass
  | 0, _ => none
  | fuel + 1, c =>
      match pass addrSize c with
      | (c, true) => reorganize fuel c
      | (c, false) => some c

/-! ## Moves that the searches choose -/

/-- The move is of a member with a size that is no bitfield to a place before it: with another
member between, or the last member where it is moved for the padding. -/
structure MoveOf (c : ReorgClass) (move : ReorgMove) : Prop where
  before : move.dest < move.source
  apart : move.fromPadding = false → move.dest + 1 < move.source
  last : move.fromPadding = true → move.source + 1 = c.members.length
  source : ∃ m, c.members[move.source]? = some m ∧ m.bitfieldSize = 0 ∧ 0 < m.byteSize

section Search

variable {c : ReorgClass} {addrSize : ℕ}

theorem isMovable_iff {i : ℕ} :
    c.isMovable i = true ↔ ∃ m, c.members[i]? = some m ∧ m.bitfieldSize = 0 := by
  unfold isMovable
  cases c.members[i]? <;> simp

/-- The member found is the start of a bitfield, or has a size. -/
theorem findNextHoleFrom_spec {size : ℤ} {head : Option ℕ} {i j : ℕ} {ms : List ReorgMember}
    (hms : ms = c.members.drop i)
    (hhead : ∀ k, head = some k → k < i ∧ ∃ m, c.members[k]? = some m ∧ m.bitfieldSize ≠ 0)
    {low : ℕ} (hlow : low ≤ i) (hheadLow : ∀ k, head = some k → low ≤ k)
    (h : c.findNextHoleFrom size head i ms = some j) :
    low ≤ j ∧ ∃ m, c.members[j]? = some m ∧ (m.bitfieldSize = 0 → 0 < m.byteSize) := by
  induction ms generalizing i head with
  | nil => simp [findNextHoleFrom] at h
  | cons member ms ih =>
      have hget : c.members[i]? = some member := by
        have := congrArg (fun l => l[0]?) hms
        simpa using this.symm
      have hrest : ms = c.members.drop (i + 1) := by
        have := congrArg List.tail hms
        simpa using this
      simp only [findNextHoleFrom] at h
      by_cases hbit : member.bitfieldSize ≠ 0
      · have hstart : ∀ k, some (head.getD i) = some k →
            low ≤ k ∧ k < i + 1 ∧ ∃ m, c.members[k]? = some m ∧ m.bitfieldSize ≠ 0 := by
          intro k hk
          obtain rfl := Option.some.inj hk
          cases hcase : head with
          | none => exact ⟨hlow, Nat.lt_succ_self i, member, hget, hbit⟩
          | some k =>
              obtain ⟨hlt, hm⟩ := hhead k hcase
              exact ⟨hheadLow k hcase, Nat.lt_succ_of_lt hlt, hm⟩
        rw [if_pos hbit] at h
        split at h
        · simp only [Option.getD_some, Option.some.injEq] at h
          obtain ⟨hle, -, m, hm, hmbit⟩ := hstart j (congrArg some h)
          exact ⟨hle, m, hm, fun hzero => absurd hzero hmbit⟩
        · exact ih hrest (fun k hk => (hstart k hk).2) (Nat.le_succ_of_le hlow)
            (fun k hk => (hstart k hk).1) h
      · rw [if_neg hbit] at h
        split at h
        · rename_i hfit
          simp only [Option.getD_none, Option.some.injEq] at h
          subst h
          exact ⟨hlow, member, hget, fun _ => Nat.pos_of_ne_zero hfit.2.1⟩
        · exact ih hrest (fun k hk => by simp at hk) (Nat.le_succ_of_le hlow)
            (fun k hk => by simp at hk) h

theorem findNextHoleOfSize_spec {size : ℤ} {i j : ℕ}
    (h : c.findNextHoleOfSize i size = some j) :
    i + 1 ≤ j ∧ ∃ m, c.members[j]? = some m ∧ (m.bitfieldSize = 0 → 0 < m.byteSize) :=
  findNextHoleFrom_spec rfl (fun k hk => by simp at hk) le_rfl (fun k hk => by simp at hk) h

theorem findLastMemberOfSize_spec {size : ℤ} {dest n j : ℕ}
    (h : c.findLastMemberOfSize dest size n = some j) :
    dest < j ∧ ∃ m, c.members[j]? = some m ∧ 0 < m.byteSize := by
  induction n with
  | zero => simp [findLastMemberOfSize] at h
  | succ i ih =>
      unfold findLastMemberOfSize at h
      split at h
      · simp at h
      · rename_i hlt
        split at h
        · exact ih h
        · rename_i member hmember
          dsimp only at h
          split at h
          · rename_i hfit
            obtain rfl := Option.some.inj h
            exact ⟨Nat.lt_of_not_le hlt, member, hmember, Nat.pos_of_ne_zero hfit.2.1⟩
          · exact ih h

theorem combineHoles_spec {padding i : ℕ} {move : ReorgMove} (hi : i < c.members.length)
    (h : c.combineHoles padding i = some move) : c.MoveOf move := by
  unfold combineHoles at h
  split at h
  · simp at h
  · dsimp only at h
    split at h
    · rename_i j hbrother
      obtain rfl := Option.some.inj h
      obtain ⟨hfound, hcond⟩ := Option.filter_eq_some_iff.mp hbrother
      obtain ⟨hle, m, hm, hpos⟩ := findNextHoleOfSize_spec hfound
      rw [Bool.and_eq_true] at hcond
      obtain ⟨m', hm', hplain⟩ := isMovable_iff.mp hcond.2
      obtain rfl := Option.some.inj (hm.symm.trans hm')
      have hne : j ≠ i + 1 := by simpa using hcond.1
      exact
        { before := hle
          apart := fun _ => lt_of_le_of_ne hle (Ne.symm hne)
          last := fun hpad => by simp at hpad
          source := ⟨m, hm, hplain, hpos hplain⟩ }
    · split at h
      · simp at h
      · rename_i member hmember
        split at h
        · rename_i hcond
          obtain rfl := Option.some.inj h
          obtain ⟨-, hne, hbytes, -, hmovable⟩ := hcond
          obtain ⟨m, hm, hplain⟩ := isMovable_iff.mp hmovable
          obtain rfl := Option.some.inj (hmember.symm.trans hm)
          exact
            { before := by simp only; omega
              apart := fun hpad => by simp at hpad
              last := fun _ => by simp only; omega
              source := ⟨member, hm, hplain, Nat.pos_of_ne_zero hbytes⟩ }
        · simp at h

theorem moveTail_spec {i : ℕ} {move : ReorgMove} (h : c.moveTail i = some move) :
    c.MoveOf move := by
  unfold moveTail at h
  split at h
  · simp at h
  · obtain ⟨j, hfilter, rfl⟩ := Option.map_eq_some_iff.mp h
    obtain ⟨hfound, hcond⟩ := Option.filter_eq_some_iff.mp hfilter
    obtain ⟨hlt, m, hm, hpos⟩ := findLastMemberOfSize_spec hfound
    rw [Bool.and_eq_true] at hcond
    obtain ⟨m', hm', hplain⟩ := isMovable_iff.mp hcond.2
    obtain rfl := Option.some.inj (hm.symm.trans hm')
    have hne : j ≠ i + 1 := by simpa using hcond.1
    exact
      { before := hlt
        apart := fun _ => lt_of_le_of_ne hlt (Ne.symm hne)
        last := fun hpad => by simp at hpad
        source := ⟨m, hm, hplain, hpos⟩ }

theorem nextMove_spec {padding : ℕ} {move : ReorgMove}
    (h : c.nextMove padding = some move) : c.MoveOf move := by
  unfold nextMove at h
  split at h
  · rename_i move' hfound
    obtain rfl := Option.some.inj h
    obtain ⟨i, hi, hcombine⟩ := List.exists_of_findSome?_eq_some hfound
    exact combineHoles_spec (List.mem_range.mp hi) hcombine
  · split at h
    · simp at h
    · obtain ⟨i, -, htail⟩ := List.exists_of_findSome?_eq_some h
      exact moveTail_spec htail

end Search

/-! ## Layouts -/

/-- A data member: a field starts at a byte, and a bitfield is in its storage, below 2^32 bits.
-/
structure Proper (m : ReorgMember) : Prop where
  data : m.isInheritance = false ∧ m.isStatic = false
  field : m.bitfieldSize = 0 → m.bitOffset = 8 * m.byteOffset
  bitfield : m.bitfieldSize ≠ 0 → m.bitSize = 8 * m.byteSize ∧
    8 * m.byteOffset ≤ m.bitOffset ∧ m.endBit ≤ 8 * (m.byteOffset + m.byteSize)
  storage : m.bitfieldSize ≠ 0 → 8 * m.byteOffset + m.bitSize < 4294967296

/-- The members are in ascending order, disjoint in bits and inside `size`. -/
structure Laid (ms : List ReorgMember) (size : ℕ) : Prop where
  proper : ∀ m ∈ ms, Proper m
  ascending : ms.Pairwise fun a b => a.endBit ≤ b.bitOffset
  inside : ∀ m ∈ ms, m.endBit ≤ 8 * size

/-- A struct with a valid layout, of less than 2^29 bytes. -/
structure Valid (c : ReorgClass) : Prop where
  laid : Laid c.members c.size
  size : c.size < 536870912

section Layout

variable {c : ReorgClass} {addrSize : ℕ}

theorem Proper.end_le {m : ReorgMember} (h : Proper m) :
    8 * m.byteOffset ≤ m.bitOffset ∧ m.bitOffset ≤ m.endBit ∧
      m.endBit ≤ 8 * (m.byteOffset + m.byteSize) := by
  by_cases hbit : m.bitfieldSize = 0
  · have hfield := h.field hbit
    have hend : m.endBit = m.bitOffset + m.byteSize * 8 := by
      simp [PackMember.endBit, PackMember.bits, hbit]
    omega
  · obtain ⟨-, hstart, hend⟩ := h.bitfield hbit
    exact ⟨hstart, Nat.le_add_right _ _, hend⟩

theorem Proper.endBit_eq {m : ReorgMember} (h : Proper m) (hbit : m.bitfieldSize = 0) :
    m.endBit = 8 * (m.byteOffset + m.byteSize) := by
  have hfield := h.field hbit
  simp [PackMember.endBit, PackMember.bits, hbit]
  omega

theorem Valid.seen (h : Valid c) : c.packType.seen = c.members.map ReorgMember.toPackMember := by
  refine List.filter_eq_self.mpr fun m hm => ?_
  obtain ⟨m', hm', rfl⟩ := List.mem_map.mp hm
  obtain ⟨hbase, hstatic⟩ := (h.laid.proper m' hm').data
  simp [PackMember.isUnseen, hbase, hstatic]

theorem Valid.wellPlaced (h : Valid c) : c.packType.WellPlaced := by
  have hmem : ∀ m ∈ c.packType.seen, ∃ m' ∈ c.members, m'.toPackMember = m := by
    intro m hm
    rw [h.seen] at hm
    exact List.mem_map.mp hm
  exact
    { size := h.size
      field := by
        intro m hm
        obtain ⟨m', hm', rfl⟩ := hmem m hm
        exact (h.laid.proper m' hm').field
      bitfield := by
        intro m hm
        obtain ⟨m', hm', rfl⟩ := hmem m hm
        exact (h.laid.proper m' hm').bitfield
      ascending := by
        rw [h.seen]
        exact List.pairwise_map.mpr h.laid.ascending
      inside := by
        intro m hm
        obtain ⟨m', hm', rfl⟩ := hmem m hm
        exact h.laid.inside m' hm' }

theorem Valid.storageFits (h : Valid c) : c.packType.StorageFits := by
  intro m hm
  rw [h.seen] at hm
  obtain ⟨m', hm', rfl⟩ := List.mem_map.mp hm
  exact (h.laid.proper m' hm').storage

/-- The free space before a member is that from where the search is after the one before. -/
theorem getElem?_frees {pre post : List PackMember} {m next : PackMember} {cur : Cursor} :
    (cur.frees (pre ++ m :: next :: post))[pre.length + 1]? =
      some (((pre.foldl Cursor.after cur).after m).free next) := by
  induction pre generalizing cur with
  | nil => rfl
  | cons p pre ih => exact ih

/-- The hole after a member is not larger than the space up to the next member. -/
theorem Valid.hole_le (h : Valid c) {pre post : List ReorgMember} {m next : ReorgMember}
    (hsplit : c.members = pre ++ m :: next :: post) (hbit : m.bitfieldSize = 0) :
    ∃ n : ℕ, c.hole pre.length = n ∧ m.endBit + 8 * n ≤ next.bitOffset := by
  obtain ⟨hbytes, -⟩ := PackType.classHoles_eq h.wellPlaced h.storageFits
  let cur := (pre.map ReorgMember.toPackMember).foldl Cursor.after Cursor.start
  have hfree : c.packType.frees[pre.length + 1]? =
      some ((cur.after m.toPackMember).free next.toPackMember) := by
    unfold PackType.frees
    rw [h.seen, hsplit, List.map_append, List.map_cons, List.map_cons]
    have hget := @getElem?_frees (pre.map ReorgMember.toPackMember)
      (post.map ReorgMember.toPackMember) m.toPackMember next.toPackMember Cursor.start
    rwa [List.length_map] at hget
  have hgap := congrArg (fun l => l[pre.length + 1]?) hbytes
  simp only [List.getElem?_map, hfree, Option.map_some] at hgap
  have hhole : c.hole pre.length = (((cur.after m.toPackMember).free next.toPackMember).1 : ℤ) := by
    unfold hole memberHoles
    have htail : c.packType.classHoles.holes[pre.length]? =
        some (((cur.after m.toPackMember).free next.toPackMember).1 : ℤ) := by
      change (c.packType.holeGaps.tail.map fun g => g.1)[pre.length]? = _
      rw [List.getElem?_map, List.getElem?_tail]
      exact hgap
    have hlt : pre.length < c.packType.classHoles.holes.length :=
      (List.getElem?_eq_some_iff.mp htail).1
    rw [List.getD_eq_getElem?_getD, List.getElem?_append_left hlt, htail]
    rfl
  refine ⟨_, hhole, ?_⟩
  have hm : m ∈ c.members := by simp [hsplit]
  have hnext : next ∈ c.members := by simp [hsplit]
  have hasc : m.endBit ≤ next.bitOffset := by
    have hpair := h.laid.ascending
    rw [hsplit, List.pairwise_append, List.pairwise_cons] at hpair
    exact hpair.2.1.1 next List.mem_cons_self
  have hend := (h.laid.proper m hm).endBit_eq hbit
  have hafter : cur.after m.toPackMember = ⟨m.endBit, none⟩ := by
    simp [Cursor.after, hbit]
  rw [hafter]
  unfold Cursor.free Cursor.reach
  dsimp only
  split
  · rename_i hnextBit
    obtain ⟨-, hstart, -⟩ := (h.laid.proper next hnext).bitfield hnextBit
    split
    · dsimp only
      omega
    · dsimp only
      omega
  · dsimp only
    omega

/-- The padding is not larger than the space after the last member. -/
theorem Valid.padding_le (h : Valid c) {pre : List ReorgMember} {last : ReorgMember}
    (hsplit : c.members = pre ++ [last]) (hbit : last.bitfieldSize = 0) :
    last.byteOffset + last.byteSize + c.padding ≤ c.size := by
  obtain ⟨hpad, -⟩ := PackType.padding_eq h.wellPlaced h.storageFits
  have hlast : last ∈ c.members := by simp [hsplit]
  have hend := (h.laid.proper last hlast).endBit_eq hbit
  have hinside := h.laid.inside last hlast
  have htail : c.packType.freeTail.1 = c.size - last.endBit / 8 := by
    unfold PackType.freeTail
    rw [h.seen, hsplit, List.map_append, List.foldl_append]
    simp [Cursor.after, hbit, Cursor.tail, packType]
  have hmod := Nat.mod_le c.packType.freeTail.1 65536
  rw [padding, hpad]
  omega

theorem newPadding_lt {last : ReorgMember} : c.newPadding addrSize last < 65536 := by
  unfold newPadding
  dsimp only
  split
  · exact Nat.mod_lt _ (by decide)
  · decide

/-- The first part of the loop changes nothing, or sets the padding and the size to the new
padding. -/
theorem setPadding_cases (last : ReorgMember) :
    c.setPadding addrSize last = (c, c.padding) ∨
      c.alignmentSize addrSize ≠ 0 ∧ c.newPadding addrSize last ≠ c.padding ∧
        c.setPadding addrSize last =
          ({ c with
              size := u32 ((last.byteOffset + last.byteSize + c.newPadding addrSize last : ℕ) : ℤ) },
            c.newPadding addrSize last) := by
  unfold setPadding
  split
  · rename_i halign
    dsimp only
    split
    · rename_i hne
      exact Or.inr ⟨halign, hne, rfl⟩
    · exact Or.inl rfl
  · exact Or.inl rfl

theorem Proper.byte_end_lt {m : ReorgMember} (h : Proper m) (hend : m.endBit < 4294967296) :
    m.byteOffset + m.byteSize < 536870912 := by
  by_cases hbit : m.bitfieldSize = 0
  · have hplain := h.endBit_eq hbit
    omega
  · have hstorage := h.storage hbit
    obtain ⟨hsize, -, -⟩ := h.bitfield hbit
    omega

/-- The members are inside the size that goes with the padding, and the last one leaves room
for the padding. -/
theorem Valid.setPadding (h : Valid c) {pre : List ReorgMember} {last : ReorgMember}
    (hsplit : c.members = pre ++ [last]) :
    (c.setPadding addrSize last).1.members = c.members ∧
      Laid c.members (c.setPadding addrSize last).1.size ∧
      (last.bitfieldSize = 0 → last.byteOffset + last.byteSize +
        (c.setPadding addrSize last).2 ≤ (c.setPadding addrSize last).1.size) := by
  have hlast : last ∈ c.members := by simp [hsplit]
  have hproper := h.laid.proper last hlast
  rcases setPadding_cases last with hsame | ⟨-, -, hnew⟩
  · rw [hsame]
    exact ⟨rfl, h.laid, h.padding_le hsplit⟩
  · have hinside := h.laid.inside last hlast
    have hsize := h.size
    have hend := hproper.byte_end_lt (by omega)
    have hnp := @newPadding_lt c addrSize last
    have hexact : u32 ((last.byteOffset + last.byteSize + c.newPadding addrSize last : ℕ) : ℤ) =
        last.byteOffset + last.byteSize + c.newPadding addrSize last := u32_of_lt (by omega)
    rw [hnew]
    dsimp only
    rw [hexact]
    refine ⟨rfl, ⟨h.laid.proper, h.laid.ascending, fun m hm => ?_⟩, fun _ => le_rfl⟩
    have hle : m.endBit ≤ last.endBit := by
      have hpair := h.laid.ascending
      rw [hsplit] at hpair hm
      rcases List.mem_append.mp hm with hm | hm
      · have hcross := (List.pairwise_append.mp hpair).2.2 m hm last List.mem_cons_self
        exact hcross.trans hproper.end_le.2.1
      · rw [List.mem_singleton.mp hm]
    have hlastEnd := hproper.end_le.2.2
    omega

end Layout

/-! ## Moving a member -/

/-- The member some bytes before. -/
def lower (k : ℕ) (m : ReorgMember) : ReorgMember :=
  { m with byteOffset := m.byteOffset - k, bitOffset := m.bitOffset - 8 * k }

/-- The fields of a member that no move changes. -/
def key (m : ReorgMember) : Option String × TypeId × ℕ × ℕ × ℕ :=
  (m.name, m.type, m.byteSize, m.bitSize, m.bitfieldSize)

section Move

variable {pre mid post : List ReorgMember} {d s : ReorgMember} {k n size size' : ℕ}

theorem subtract_eq {m : ReorgMember} (h : Proper m) (hend : m.endBit < 4294967296)
    (hk : k ≤ m.byteOffset) : m.subtract k = lower k m := by
  obtain ⟨hstart, hle, -⟩ := h.end_le
  have hbyte : u32 ((m.byteOffset : ℤ) - k) = m.byteOffset - k := by
    rw [show (m.byteOffset : ℤ) - k = ((m.byteOffset - k : ℕ) : ℤ) by omega]
    exact u32_of_lt (by omega)
  have hbit : u32 ((m.bitOffset : ℤ) - k * 8) = m.bitOffset - 8 * k := by
    rw [show (m.bitOffset : ℤ) - k * 8 = ((m.bitOffset - 8 * k : ℕ) : ℤ) by omega]
    exact u32_of_lt (by omega)
  rw [ReorgMember.subtract, lower, hbyte, hbit]

theorem proper_lower {m : ReorgMember} (h : Proper m) (hk : k ≤ m.byteOffset) :
    Proper (lower k m) ∧ (lower k m).endBit + 8 * k = m.endBit ∧
      (lower k m).bitOffset + 8 * k = m.bitOffset := by
  obtain ⟨hstart, -, -⟩ := h.end_le
  have hbyte : (lower k m).byteOffset = m.byteOffset - k := rfl
  have hbyteSize : (lower k m).byteSize = m.byteSize := rfl
  have hbits : (lower k m).endBit = m.bitOffset - 8 * k + m.bits := rfl
  have hend : (lower k m).endBit + 8 * k = m.endBit := by
    rw [hbits, PackMember.endBit]
    omega
  refine ⟨⟨h.data, fun hbit => ?_, fun hbit => ?_, fun hbit => ?_⟩, hend, ?_⟩
  · have hfield := h.field hbit
    simp only [lower]
    omega
  · obtain ⟨hsize, hunit, hinside⟩ := h.bitfield hbit
    refine ⟨hsize, ?_, ?_⟩
    · simp only [lower]
      omega
    · omega
  · have hstorage := h.storage hbit
    simp only [lower]
    omega
  · simp only [lower]
    omega

theorem proper_moveTo (h : Proper s) (hbit : s.bitfieldSize = 0) (n : ℕ) :
    Proper (s.moveTo n) ∧ (s.moveTo n).endBit = 8 * (n + s.byteSize) ∧
      (s.moveTo n).bitOffset = 8 * n := by
  have hend : (s.moveTo n).endBit = 8 * (n + s.byteSize) := by
    simp only [PackMember.endBit, PackMember.bits, ReorgMember.moveTo, hbit]
    simp
    omega
  refine ⟨⟨h.data, fun _ => ?_, fun hne => absurd hbit hne, fun hne => absurd hbit hne⟩, hend, ?_⟩
  · simp only [ReorgMember.moveTo]
    omega
  · simp only [ReorgMember.moveTo]
    omega

/-- A member that is put into a hole, with the members after it put down, is where it can be
and all others are. -/
theorem laid_move (h : Laid (pre ++ d :: (mid ++ s :: post)) size) (hbit : s.bitfieldSize = 0)
    (hdest : d.byteOffset + d.byteSize ≤ n)
    (hroom : ∀ m ∈ mid ++ [s], 8 * (n + s.byteSize) ≤ m.bitOffset)
    (hk : ∀ m ∈ post, k ≤ m.byteOffset ∧ s.bitOffset + 8 * k ≤ m.bitOffset ∧
      m.endBit ≤ 8 * (size' + k)) (hsize : s.bitOffset ≤ 8 * size') :
    Laid (pre ++ d :: (s.moveTo n :: (mid ++ post.map (lower k)))) size' := by
  obtain ⟨hproper, hasc, hinside⟩ := h
  have hsProper : Proper s := hproper s (by simp)
  obtain ⟨hmoved, hmovedEnd, hmovedBit⟩ := proper_moveTo hsProper hbit n
  have hsField := hsProper.field hbit
  rw [List.pairwise_append, List.pairwise_cons, List.pairwise_append, List.pairwise_cons] at hasc
  obtain ⟨hpre, ⟨hd, hmid, ⟨hs, hpost⟩, hmidCross⟩, hpreCross⟩ := hasc
  have hdProper : Proper d := hproper d (by simp)
  have hmovedLe : ∀ m ∈ mid ++ [s], (s.moveTo n).endBit ≤ m.bitOffset := by
    intro m hm
    rw [hmovedEnd]
    exact hroom m hm
  have hmovedS : (s.moveTo n).endBit ≤ s.bitOffset := hmovedLe s (by simp)
  have hmidS : ∀ m ∈ mid, m.endBit ≤ s.bitOffset :=
    fun m hm => hmidCross m hm s List.mem_cons_self
  have hdS : d.endBit ≤ s.bitOffset := hd s (by simp)
  have hpreS : ∀ m ∈ pre, m.endBit ≤ s.bitOffset := fun m hm => hpreCross m hm s (by simp)
  have hdMoved : d.endBit ≤ (s.moveTo n).bitOffset := by
    have := hdProper.end_le.2.2
    omega
  have hpreMoved : ∀ m ∈ pre, m.endBit ≤ (s.moveTo n).bitOffset := by
    intro m hm
    have hmd := hpreCross m hm d List.mem_cons_self
    have := hdProper.end_le.2.1
    omega
  have hlow : ∀ m ∈ post, Proper (lower k m) ∧ s.bitOffset ≤ (lower k m).bitOffset ∧
      (lower k m).endBit ≤ 8 * size' := by
    intro m hm
    obtain ⟨hkm, hafter, hend⟩ := hk m hm
    obtain ⟨hlower, hlowerEnd, hlowerBit⟩ := proper_lower (hproper m (by simp [hm])) hkm
    exact ⟨hlower, by omega, by omega⟩
  refine ⟨fun m hm => ?_, ?_, fun m hm => ?_⟩
  · simp only [List.mem_append, List.mem_cons, List.mem_map] at hm
    rcases hm with hm | rfl | rfl | hm | ⟨m', hm', rfl⟩
    · exact hproper m (by simp [hm])
    · exact hdProper
    · exact hmoved
    · exact hproper m (by simp [hm])
    · exact (hlow m' hm').1
  · rw [List.pairwise_append, List.pairwise_cons, List.pairwise_cons, List.pairwise_append]
    have hpostLow : (post.map (lower k)).Pairwise fun a b => a.endBit ≤ b.bitOffset := by
      refine List.pairwise_map.mpr (hpost.imp_of_mem fun {a b} ha hb hab => ?_)
      obtain ⟨-, haEnd, -⟩ := proper_lower (hproper a (by simp [ha])) (hk a ha).1
      obtain ⟨-, -, hbBit⟩ := proper_lower (hproper b (by simp [hb])) (hk b hb).1
      omega
    refine ⟨hpre, ⟨fun m hm => ?_, fun m hm => ?_, hmid, hpostLow, fun m hm m' hm' => ?_⟩,
      fun m hm m' hm' => ?_⟩
    · simp only [List.mem_cons, List.mem_append, List.mem_map] at hm
      rcases hm with rfl | hm | ⟨m', hm', rfl⟩
      · exact hdMoved
      · exact hd m (by simp [hm])
      · exact hdS.trans (hlow m' hm').2.1
    · simp only [List.mem_append, List.mem_map] at hm
      rcases hm with hm | ⟨m', hm', rfl⟩
      · exact hmovedLe m (by simp [hm])
      · exact hmovedS.trans (hlow m' hm').2.1
    · obtain ⟨m'', hm'', rfl⟩ := List.mem_map.mp hm'
      exact (hmidS m hm).trans (hlow m'' hm'').2.1
    · simp only [List.mem_cons, List.mem_append, List.mem_map] at hm'
      rcases hm' with rfl | rfl | hm' | ⟨m'', hm'', rfl⟩
      · exact hpreCross m hm m' List.mem_cons_self
      · exact hpreMoved m hm
      · exact hpreCross m hm m' (by simp [hm'])
      · exact (hpreS m hm).trans (hlow m'' hm'').2.1
  · simp only [List.mem_append, List.mem_cons, List.mem_map] at hm
    rcases hm with hm | rfl | rfl | hm | ⟨m', hm', rfl⟩
    · exact (hpreS m hm).trans hsize
    · exact hdS.trans hsize
    · exact hmovedS.trans hsize
    · exact (hmidS m hm).trans hsize
    · exact (hlow m' hm').2.2

/-- Moving a member keeps the names, types and sizes of the members. -/
theorem perm_move : ((pre ++ d :: (s.moveTo n :: (mid ++ post.map (lower k)))).map key).Perm
    ((pre ++ d :: (mid ++ s :: post)).map key) := by
  have hlower : (post.map (lower k)).map key = post.map key := by
    rw [List.map_map]
    rfl
  simp only [List.map_append, List.map_cons, hlower]
  refine List.Perm.append_left _ (List.Perm.cons _ ?_)
  exact List.perm_middle.symm

/-- Moving a member down, and lowering those after it, lowers the sum of the offsets. -/
theorem sum_move_lt (hn : n < s.byteOffset) :
    ((pre ++ d :: (s.moveTo n :: (mid ++ post.map (lower k)))).map fun m => m.byteOffset).sum <
      ((pre ++ d :: (mid ++ s :: post)).map fun m => m.byteOffset).sum := by
  have hlower : ((post.map (lower k)).map fun m => m.byteOffset).sum ≤
      (post.map fun m => m.byteOffset).sum := by
    rw [List.map_map]
    exact List.sum_le_sum fun m _ => Nat.sub_le _ _
  simp only [List.map_append, List.map_cons, List.sum_append, List.sum_cons]
  have hmoved : (s.moveTo n).byteOffset = n := rfl
  omega

/-- `class__move_member` puts a member that has room down, and moves those behind it down by an
address where they are moved. -/
theorem moveMember_spec {addrSize padding : ℕ} {holeDest holeSource : ℤ} {move : ReorgMove}
    {c : ReorgClass} (hmembers : c.members = pre ++ d :: (mid ++ s :: post))
    (hdest : move.dest = pre.length) (hsource : move.source = pre.length + 1 + mid.length)
    (hvalid : Valid c) (hbit : s.bitfieldSize = 0) (hpos : 0 < s.byteSize)
    (hlast : move.fromPadding = true → post = [])
    (hpadding : post = [] → s.byteOffset + s.byteSize + padding ≤ c.size)
    (hhole : ∀ p ps, post = p :: ps →
      ∃ h : ℕ, holeSource = h ∧ s.endBit + 8 * h ≤ p.bitOffset)
    (hshift : addrSize ≤ (holeSource % 65536).toNat + s.byteSize →
      ∀ m ∈ post, addrSize ≤ m.byteOffset)
    (hstart : d.byteOffset + d.byteSize ≤ newFromOffset addrSize holeDest d s)
    (hroom : ∀ m ∈ mid ++ [s],
      8 * (newFromOffset addrSize holeDest d s + s.byteSize) ≤ m.bitOffset) :
    let moved := moveMember addrSize c padding holeDest holeSource move d s
    Laid moved.members moved.size ∧ moved.size ≤ c.size ∧
      (moved.members.map key).Perm (c.members.map key) ∧
        (moved.members.map fun m => m.byteOffset).sum <
          (c.members.map fun m => m.byteOffset).sum := by
  obtain ⟨hlaid, hsize⟩ := hvalid
  have hsProper : Proper s := hlaid.proper s (by simp [hmembers])
  have hsField := hsProper.field hbit
  have hsEnd := hsProper.endBit_eq hbit
  have hsInside := hlaid.inside s (by simp [hmembers])
  have hn : newFromOffset addrSize holeDest d s < s.byteOffset := by
    have := hroom s (by simp)
    omega
  have hbefore : c.members.take (move.dest + 1) = pre ++ [d] := by
    rw [hmembers, hdest, show pre ++ d :: (mid ++ s :: post) = (pre ++ [d]) ++ (mid ++ s :: post)
      by simp]
    exact List.take_left' (by simp)
  have hbetween : (c.members.take move.source).drop (move.dest + 1) = mid := by
    rw [hmembers, hdest, hsource,
      show pre ++ d :: (mid ++ s :: post) = (pre ++ [d] ++ mid) ++ (s :: post) by simp,
      List.take_left' (by simp; omega), List.drop_left' (by simp)]
  have hafter : c.members.drop (move.source + 1) = post := by
    rw [hmembers, hsource,
      show pre ++ d :: (mid ++ s :: post) = (pre ++ [d] ++ mid ++ [s]) ++ post by simp]
    exact List.drop_left' (by simp; omega)
  have hresult : ∀ k size', size' ≤ c.size → s.bitOffset ≤ 8 * size' →
      (∀ m ∈ post, k ≤ m.byteOffset ∧ s.bitOffset + 8 * k ≤ m.bitOffset ∧
        m.endBit ≤ 8 * (size' + k)) →
      Laid (pre ++ d :: (s.moveTo (newFromOffset addrSize holeDest d s) ::
          (mid ++ post.map (lower k)))) size' ∧ size' ≤ c.size ∧
        ((pre ++ d :: (s.moveTo (newFromOffset addrSize holeDest d s) ::
          (mid ++ post.map (lower k)))).map key).Perm (c.members.map key) ∧
        ((pre ++ d :: (s.moveTo (newFromOffset addrSize holeDest d s) ::
          (mid ++ post.map (lower k)))).map fun m => m.byteOffset).sum <
            (c.members.map fun m => m.byteOffset).sum := by
    intro k size' hle hin hk
    have hlaid' := hlaid
    rw [hmembers] at hlaid' ⊢
    exact ⟨laid_move hlaid' hbit hstart hroom hk hin, hle, perm_move, sum_move_lt hn⟩
  have hkeep : ∀ m ∈ post, 0 ≤ m.byteOffset ∧ s.bitOffset + 8 * 0 ≤ m.bitOffset ∧
      m.endBit ≤ 8 * (c.size + 0) := by
    intro m hm
    have hasc := hlaid.ascending
    rw [hmembers, List.pairwise_append, List.pairwise_cons, List.pairwise_append,
      List.pairwise_cons] at hasc
    have hsm := hasc.2.1.2.2.1.1 m hm
    exact ⟨Nat.zero_le _, by omega, hlaid.inside m (by simp [hmembers, hm])⟩
  have hshrunk : post = [] → u32 ((c.size : ℤ) - (s.byteSize + padding : ℕ)) =
      c.size - (s.byteSize + padding) ∧ s.byteOffset ≤ c.size - (s.byteSize + padding) := by
    intro hnil
    have := hpadding hnil
    refine ⟨?_, by omega⟩
    rw [show (c.size : ℤ) - (s.byteSize + padding : ℕ) =
      ((c.size - (s.byteSize + padding) : ℕ) : ℤ) by omega]
    exact u32_of_lt (by omega)
  have hmap : post.map (lower 0) = post := List.map_id' post
  unfold moveMember
  simp only [hbefore, hbetween, hafter]
  split
  · rename_i hpad
    obtain rfl := hlast hpad
    obtain ⟨hexact, hge⟩ := hshrunk rfl
    have hzero := hresult 0
    simp only [List.map_nil, List.append_nil] at hzero
    split
    · rw [hexact]
      simpa using hzero _ (Nat.sub_le _ _) (by omega) (by simp)
    · simpa using hzero c.size le_rfl (by omega) (by simp)
  · split
    · rename_i hnil
      subst hnil
      obtain ⟨hexact, hge⟩ := hshrunk rfl
      have hzero := hresult 0
      simp only [List.map_nil, List.append_nil] at hzero
      rw [hexact]
      simpa using hzero _ (Nat.sub_le _ _) (by omega) (by simp)
    · rename_i hmore
      split
      · rename_i hword
        have hsub : post.map (ReorgMember.subtract addrSize) = post.map (lower addrSize) := by
          refine List.map_congr_left fun m hm => ?_
          have hmem : m ∈ c.members := by simp [hmembers, hm]
          have := hlaid.inside m hmem
          exact subtract_eq (hlaid.proper m hmem) (by omega) (hshift hword m hm)
        obtain ⟨p, ps, hp⟩ := List.exists_cons_of_ne_nil hmore
        obtain ⟨h, rfl, hgap⟩ := hhole p ps hp
        have hmod : ((h : ℤ) % 65536).toNat ≤ h := by omega
        have hpMem : p ∈ c.members := by simp [hmembers, hp]
        have hpInside := hlaid.inside p hpMem
        have hpLe := (hlaid.proper p hpMem).end_le.2.1
        have hexact : u32 ((c.size : ℤ) - addrSize) = c.size - addrSize := by
          rw [show (c.size : ℤ) - addrSize = ((c.size - addrSize : ℕ) : ℤ) by omega]
          exact u32_of_lt (by omega)
        rw [hsub, hexact]
        have hfar := hresult addrSize (c.size - addrSize) (Nat.sub_le _ _) (by omega) (by
          intro m hm
          have hinside := hlaid.inside m (by simp [hmembers, hm])
          refine ⟨hshift hword m hm, ?_, by omega⟩
          have hasc := hlaid.ascending
          rw [hmembers, List.pairwise_append, List.pairwise_cons, List.pairwise_append,
            List.pairwise_cons, hp, List.pairwise_cons] at hasc
          rw [hp] at hm
          rcases List.mem_cons.mp hm with rfl | hm
          · omega
          · have := hasc.2.1.2.2.1.2.1 m hm
            omega)
        simpa using hfar
      · have hstay := hresult 0 c.size le_rfl (by omega) hkeep
        rw [hmap] at hstay
        simpa using hstay

end Move

/-! ## Runs -/

/-- The member that is moved has room between the one that it is put behind and the next, and
what is put down with it is not put down below zero. -/
structure MoveFits (addrSize : ℕ) (c : ReorgClass) (move : ReorgMove) : Prop where
  start : ∀ dest source, c.members[move.dest]? = some dest →
    c.members[move.source]? = some source →
      dest.byteOffset + dest.byteSize ≤ newFromOffset addrSize (c.hole move.dest) dest source
  room : ∀ dest source next, c.members[move.dest]? = some dest →
    c.members[move.source]? = some source → c.members[move.dest + 1]? = some next →
      8 * (newFromOffset addrSize (c.hole move.dest) dest source + source.byteSize) ≤
        next.bitOffset
  shift : ∀ source, c.members[move.source]? = some source →
    addrSize ≤ (c.hole move.source % 65536).toNat + source.byteSize →
      ∀ m ∈ c.members.drop (move.source + 1), addrSize ≤ m.byteOffset

/-- Before a pass: what it moves fits. -/
def MovesFit (addrSize : ℕ) (c : ReorgClass) : Prop :=
  ∀ last, c.members.getLast? = some last → ∀ move,
    c.nextMove (c.setPadding addrSize last).2 = some move → MoveFits addrSize c move

/-- Before a pass: the size that it sets is less than 2^29 bytes. -/
def StaysSmall (addrSize : ℕ) (c : ReorgClass) : Prop :=
  ∀ last, c.members.getLast? = some last → (c.setPadding addrSize last).1.size < 536870912

/-- Before a pass: where the padding changes, there is room for the new one. -/
def PadFits (addrSize : ℕ) (c : ReorgClass) : Prop :=
  ∀ last, c.members.getLast? = some last → c.alignmentSize addrSize ≠ 0 →
    c.newPadding addrSize last ≠ c.padding →
      last.byteOffset + last.byteSize + c.newPadding addrSize last ≤ c.size

/-- The states that the passes go through. -/
inductive Reaches (addrSize : ℕ) (c : ReorgClass) : ReorgClass → Prop where
  | start : Reaches addrSize c c
  | next {c' : ReorgClass} (h : Reaches addrSize c c') (hmore : (pass addrSize c').2 = true) :
      Reaches addrSize c (pass addrSize c').1

section Run

variable {addrSize : ℕ} {c : ReorgClass}

theorem Reaches.head {c' : ReorgClass} (hmore : (pass addrSize c).2 = true)
    (h : Reaches addrSize (pass addrSize c).1 c') : Reaches addrSize c c' := by
  induction h with
  | start => exact .next .start hmore
  | next _ hmore' ih => exact .next ih hmore'

theorem Reaches.eq_or_tail {c' : ReorgClass} (h : Reaches addrSize c c') :
    c' = c ∨ (pass addrSize c).2 = true ∧ Reaches addrSize (pass addrSize c).1 c' := by
  induction h with
  | start => exact Or.inl rfl
  | next _ hmore ih =>
      rcases ih with rfl | ⟨hfirst, htail⟩
      · exact Or.inr ⟨hmore, .start⟩
      · exact Or.inr ⟨hfirst, .next htail hmore⟩

/-- A move splits the members at the place it goes to and at the member that is moved. -/
theorem MoveOf.split {move : ReorgMove} (h : c.MoveOf move) :
    ∃ pre d mid s post, c.members = pre ++ d :: (mid ++ s :: post) ∧ move.dest = pre.length ∧
      move.source = pre.length + 1 + mid.length ∧ s.bitfieldSize = 0 ∧ 0 < s.byteSize ∧
      (move.fromPadding = true → post = []) := by
  obtain ⟨s, hs, hbit, hpos⟩ := h.source
  obtain ⟨hlt, hget⟩ := List.getElem?_eq_some_iff.mp hs
  have hbefore := h.before
  have hdest : move.dest < c.members.length := by omega
  let rest := c.members.drop (move.dest + 1)
  have hsplit : c.members = c.members.take move.dest ++ c.members[move.dest] :: rest := by
    rw [← List.drop_eq_getElem_cons hdest, List.take_append_drop]
  have hrestLt : move.source - move.dest - 1 < rest.length := by
    rw [List.length_drop]
    omega
  have hrestGet : rest[move.source - move.dest - 1] = s := by
    rw [List.getElem_drop, ← hget]
    congr 1
    omega
  have hrest : rest = rest.take (move.source - move.dest - 1) ++
      s :: rest.drop (move.source - move.dest - 1 + 1) := by
    rw [← hrestGet, ← List.drop_eq_getElem_cons hrestLt, List.take_append_drop]
  refine ⟨_, _, _, _, _, hrest ▸ hsplit, ?_, ?_, hbit, hpos, fun hpad => ?_⟩
  · rw [List.length_take]
    omega
  · rw [List.length_take, List.length_take]
    omega
  · have hend := h.last hpad
    refine List.drop_eq_nil_of_le ?_
    rw [List.length_drop]
    omega

/-- The padding does not enlarge the struct exactly when there is room for it. -/
theorem setPadding_size_le_iff (hvalid : Valid c) {last : ReorgMember}
    (hlast : c.members.getLast? = some last) :
    (c.setPadding addrSize last).1.size ≤ c.size ↔ PadFits addrSize c := by
  have hmem : last ∈ c.members := List.mem_of_getLast? hlast
  have hinside := hvalid.laid.inside last hmem
  have hsize := hvalid.size
  have hend := (hvalid.laid.proper last hmem).byte_end_lt (by omega)
  have hnp := @newPadding_lt c addrSize last
  have hexact : u32 ((last.byteOffset + last.byteSize + c.newPadding addrSize last : ℕ) : ℤ) =
      last.byteOffset + last.byteSize + c.newPadding addrSize last := u32_of_lt (by omega)
  constructor
  · intro hle last' hlast' halign hne
    obtain rfl := Option.some.inj (hlast.symm.trans hlast')
    rcases @setPadding_cases c addrSize last with hsame | ⟨-, -, hnew⟩
    · rw [setPadding, if_pos halign, if_pos hne] at hsame
      exact absurd (Prod.mk.inj hsame).2 hne
    · rw [hnew] at hle
      dsimp only at hle
      rwa [hexact] at hle
  · intro hpad
    rcases @setPadding_cases c addrSize last with hsame | ⟨halign, hne, hnew⟩
    · rw [hsame]
    · rw [hnew]
      dsimp only
      rw [hexact]
      exact hpad last hlast halign hne

/-- One pass keeps a valid layout and the members, and does not enlarge the struct beyond
the size that goes with the padding. -/
theorem pass_spec (hvalid : Valid c) (hfits : MovesFit addrSize c)
    (hstays : StaysSmall addrSize c) :
    Valid (pass addrSize c).1 ∧
      ((pass addrSize c).1.members.map key).Perm (c.members.map key) ∧
      ((pass addrSize c).2 = true →
        ((pass addrSize c).1.members.map fun m => m.byteOffset).sum <
          (c.members.map fun m => m.byteOffset).sum) ∧
      (PadFits addrSize c → (pass addrSize c).1.size ≤ c.size) := by
  unfold pass
  split
  · exact ⟨hvalid, .refl _, by simp, fun _ => le_rfl⟩
  · rename_i last hlast
    obtain ⟨pre', hpre'⟩ := List.getLast?_eq_some_iff.mp hlast
    obtain ⟨hmembers, hlaid, hroomLast⟩ := @Valid.setPadding c addrSize hvalid pre' last hpre'
    have hsmall := hstays last hlast
    have hle : PadFits addrSize c → (c.setPadding addrSize last).1.size ≤ c.size :=
      (setPadding_size_le_iff hvalid hlast).mpr
    have hmove := hfits last hlast
    generalize c.setPadding addrSize last = r at *
    obtain ⟨padded, padding⟩ := r
    dsimp only at *
    have hpadded : Valid padded := ⟨hmembers ▸ hlaid, hsmall⟩
    split
    · exact ⟨hpadded, hmembers ▸ .refl _, by simp, hle⟩
    · rename_i move hnext
      have hof := nextMove_spec hnext
      obtain ⟨pre, d, mid, s, post, hsplit, hdest, hsource, hbit, hpos, hend⟩ := hof.split
      have hgetD : c.members[move.dest]? = some d := by
        rw [hsplit, hdest]
        simp
      have hgetS : c.members[move.source]? = some s := by
        rw [hsplit, hsource, List.getElem?_append_right (by omega)]
        rw [show pre.length + 1 + mid.length - pre.length = mid.length + 1 by omega]
        simp
      obtain ⟨hstart, hroom, hshift⟩ := hmove move hnext
      rw [hgetD, hgetS]
      dsimp only
      have hspec := @moveMember_spec pre mid post d s addrSize padding (c.hole move.dest)
        (c.hole move.source) move padded (hmembers.trans hsplit) hdest hsource hpadded hbit hpos hend ?_ ?_ ?_
        (hstart d s hgetD hgetS) ?_
      · obtain ⟨hlaid', hsize', hperm, hsum⟩ := hspec
        rw [hmembers] at hperm hsum
        exact ⟨⟨hlaid', lt_of_le_of_lt hsize' hsmall⟩, hperm, fun _ => hsum,
          fun hpad => hsize'.trans (hle hpad)⟩
      · intro hnil
        have heq : last = s := by
          have hlast' := hlast
          rw [hsplit, hnil, show pre ++ d :: (mid ++ [s]) = (pre ++ d :: mid) ++ [s] by simp,
            List.getLast?_concat] at hlast'
          exact (Option.some.inj hlast').symm
        rw [← heq]
        exact hroomLast (heq ▸ hbit)
      · intro p ps hp
        have hvalidSplit : c.members = (pre ++ d :: mid) ++ s :: p :: ps := by
          rw [hsplit, hp]
          simp
        obtain ⟨n, hn, hgap⟩ := hvalid.hole_le hvalidSplit hbit
        refine ⟨n, ?_, hgap⟩
        rw [← hn, hsource]
        congr 1
        simp
        omega
      · intro hword m hm
        refine hshift s hgetS hword m ?_
        rw [hsplit, hsource, show pre ++ d :: (mid ++ s :: post) =
          (pre ++ [d] ++ mid ++ [s]) ++ post by simp, List.drop_left' (by simp; omega)]
        exact hm
      · intro m hm
        obtain ⟨next, rest, hnextSplit⟩ : ∃ next rest, mid ++ [s] = next :: rest :=
          List.exists_cons_of_ne_nil (by simp)
        have hgetNext : c.members[move.dest + 1]? = some next := by
          rw [hsplit, hdest, show pre ++ d :: (mid ++ s :: post) =
            (pre ++ [d]) ++ (mid ++ [s] ++ post) by simp,
            List.getElem?_append_right (by simp), hnextSplit]
          simp
        have hfirst := hroom d s next hgetD hgetS hgetNext
        rw [hnextSplit] at hm
        rcases List.mem_cons.mp hm with rfl | hm
        · exact hfirst
        · have hasc := hvalid.laid.ascending
          rw [hsplit, show pre ++ d :: (mid ++ s :: post) =
            (pre ++ [d]) ++ (mid ++ [s] ++ post) by simp, hnextSplit,
            List.pairwise_append, List.cons_append, List.pairwise_cons] at hasc
          have hnextLe := hasc.2.1.1 m (List.mem_append_left _ hm)
          have hnextMem : next ∈ c.members := List.mem_of_getElem? hgetNext
          have := (hvalid.laid.proper next hnextMem).end_le.2.1
          omega

/-- `class__reorganize` returns a valid layout of the same members. -/
theorem reorganize_spec {n : ℕ} (hn : (c.members.map fun m => m.byteOffset).sum < n)
    (hvalid : Valid c)
    (hfits : ∀ c', Reaches addrSize c c' → MovesFit addrSize c' ∧ StaysSmall addrSize c') :
    ∃ c', reorganize addrSize n c = some c' ∧ Valid c' ∧
      (c'.members.map key).Perm (c.members.map key) ∧
      ((∀ c', Reaches addrSize c c' → PadFits addrSize c') → c'.size ≤ c.size) := by
  induction n generalizing c with
  | zero => omega
  | succ n ih =>
      obtain ⟨hmoves, hstays⟩ := hfits c .start
      obtain ⟨hvalid', hperm, hsum, hsize⟩ := pass_spec hvalid hmoves hstays
      unfold reorganize
      cases hmore : (pass addrSize c).2 with
      | false =>
          refine ⟨(pass addrSize c).1, ?_, hvalid', hperm, fun hpad => hsize (hpad c .start)⟩
          rw [show pass addrSize c = ((pass addrSize c).1, false) from Prod.ext rfl hmore]
      | true =>
          have hlt := hsum hmore
          obtain ⟨c', hc', hvalid'', hperm', hsize'⟩ :=
            ih (by omega) hvalid' fun c' hc' => hfits c' (hc'.head hmore)
          refine ⟨c', ?_, hvalid'', hperm'.trans hperm, fun hpad => ?_⟩
          · rw [show pass addrSize c = ((pass addrSize c).1, true) from Prod.ext rfl hmore]
            exact hc'
          · exact (hsize' fun c' hc' => hpad c' (hc'.head hmore)).trans (hsize (hpad c .start))

/-- The layout is valid after every pass if all passes have room for what they move and for the
padding. -/
theorem Reaches.valid (hvalid : Valid c)
    (hfits : ∀ c', Reaches addrSize c c' → MovesFit addrSize c' ∧ PadFits addrSize c')
    {c' : ReorgClass} (h : Reaches addrSize c c') : Valid c' ∧ StaysSmall addrSize c' := by
  have hsmall : ∀ {c' : ReorgClass}, Reaches addrSize c c' → Valid c' →
      StaysSmall addrSize c' := by
    intro c' hc' hvalid' last hlast
    have hle := (setPadding_size_le_iff hvalid' hlast).mpr (hfits c' hc').2
    exact lt_of_le_of_lt hle hvalid'.size
  induction h with
  | start => exact ⟨hvalid, hsmall .start hvalid⟩
  | next h hmore ih =>
      have hpass := pass_spec ih.1 (hfits _ h).1 ih.2
      exact ⟨hpass.1, hsmall (.next h hmore) hpass.1⟩

/-- Without holes there is one pass, that sets the padding. -/
theorem reorganize_of_no_holes (hholes : ∀ i, c.hole i = 0) {last : ReorgMember}
    (hlast : c.members.getLast? = some last) (n : ℕ) :
    reorganize addrSize (n + 1) c = some (c.setPadding addrSize last).1 := by
  have hcombine : ∀ padding i, c.combineHoles padding i = none := by
    intro padding i
    rw [combineHoles, if_pos (hholes i)]
  have htail : ∀ i, c.moveTail i = none := by
    intro i
    rw [moveTail, if_pos (hholes i)]
  have hnone : ∀ padding, c.nextMove padding = none := by
    intro padding
    unfold nextMove
    rw [List.findSome?_eq_none_iff.mpr fun i _ => hcombine padding i]
    dsimp only
    rw [List.findSome?_eq_none_iff.mpr fun i _ => htail i, ite_self]
  have hpass : pass addrSize c = ((c.setPadding addrSize last).1, false) := by
    unfold pass
    rw [hlast]
    simp only [hnone]
  rw [reorganize, hpass]

/-- When every pass has room for what it moves, `class__reorganize` returns the same members
in a valid layout. -/
theorem reorganize_keeps_layout (addrSize : ℕ) (c : ReorgClass) (hvalid : Valid c)
    (hfits : ∀ c', Reaches addrSize c c' → MovesFit addrSize c' ∧ StaysSmall addrSize c') :
    ∃ n c', reorganize addrSize n c = some c' ∧ Laid c'.members c'.size ∧
      (c'.members.map key).Perm (c.members.map key) := by
  obtain ⟨c', hc', hvalid', hperm, -⟩ := reorganize_spec (Nat.lt_succ_self _) hvalid hfits
  exact ⟨_, c', hc', hvalid'.laid, hperm⟩

/-- When every pass has room for what it moves and for the padding that it sets, the struct
does not get larger; without holes, exactly when there is room for the padding. -/
theorem reorganize_not_larger (addrSize : ℕ) (c : ReorgClass) (hvalid : Valid c) :
    ((∀ c', Reaches addrSize c c' → MovesFit addrSize c' ∧ PadFits addrSize c') →
      ∃ n c', reorganize addrSize n c = some c' ∧ c'.size ≤ c.size) ∧
    ((∀ i, c.hole i = 0) →
      ((∃ n c', reorganize addrSize n c = some c' ∧ c'.size ≤ c.size) ↔ PadFits addrSize c)) := by
  constructor
  · intro hfits
    obtain ⟨c', hc', -, -, hsize⟩ := reorganize_spec (Nat.lt_succ_self _) hvalid
      fun c' hc' => ⟨(hfits c' hc').1, (hc'.valid hvalid hfits).2⟩
    exact ⟨_, c', hc', hsize fun c' hc' => (hfits c' hc').2⟩
  · intro hholes
    cases hlast : c.members.getLast? with
    | none =>
        have hpad : PadFits addrSize c := by
          intro last hlast'
          rw [hlast] at hlast'
          exact absurd hlast' (by simp)
        have hpass : pass addrSize c = (c, false) := by
          unfold pass
          rw [hlast]
        refine iff_of_true ⟨1, c, ?_, le_rfl⟩ hpad
        rw [reorganize, hpass]
    | some last =>
        rw [← setPadding_size_le_iff hvalid hlast]
        constructor
        · rintro ⟨n, c', hc', hle⟩
          cases n with
          | zero => simp [reorganize] at hc'
          | succ n =>
              rw [reorganize_of_no_holes hholes hlast] at hc'
              rw [Option.some.inj hc']
              exact hle
        · intro hle
          exact ⟨1, _, reorganize_of_no_holes hholes hlast 0, hle⟩

end Run

def charA : ReorgMember := ⟨⟨1, false, false, false, 0, 0, 1, 8, 0⟩, some "a"⟩
def longB : ReorgMember := ⟨⟨2, false, false, false, 64, 8, 8, 64, 0⟩, some "b"⟩
def charC : ReorgMember := ⟨⟨1, false, false, false, 128, 16, 1, 8, 0⟩, some "c"⟩

/-- `struct { char a; long b; char c; }` -/
def twoChars : ReorgClass := ⟨[charA, longB, charC], 24⟩

/-- `struct { char a; char c; long b; }` -/
def twoCharsMoved : ReorgClass := ⟨[charA, charC.moveTo 1, longB], 16⟩

theorem valid_twoChars : Valid twoChars where
  laid :=
    { proper := by
        intro m hm
        simp only [twoChars, List.mem_cons, List.not_mem_nil, or_false] at hm
        rcases hm with rfl | rfl | rfl <;>
          exact ⟨⟨rfl, rfl⟩, fun _ => rfl, fun hne => absurd rfl hne, fun hne => absurd rfl hne⟩
      ascending := by decide
      inside := by decide }
  size := by decide

theorem pass_twoChars : pass 8 twoChars = (twoCharsMoved, true) := by decide +kernel

theorem pass_twoCharsMoved : (pass 8 twoCharsMoved).2 = false := by decide +kernel

theorem fits_twoChars {c' : ReorgClass} (h : Reaches 8 twoChars c') :
    MovesFit 8 c' ∧ StaysSmall 8 c' ∧ PadFits 8 c' := by
  have hstates : c' = twoChars ∨ c' = twoCharsMoved := by
    rcases h.eq_or_tail with rfl | ⟨-, htail⟩
    · exact Or.inl rfl
    · rw [pass_twoChars] at htail
      rcases htail.eq_or_tail with rfl | ⟨hmore, -⟩
      · exact Or.inr rfl
      · rw [pass_twoCharsMoved] at hmore
        exact absurd hmore (by decide)
  rcases hstates with rfl | rfl
  · refine ⟨fun last hlast move hmove => ?_, fun last hlast => ?_, fun last hlast _ hne => ?_⟩
    · obtain rfl : charC = last := Option.some.inj hlast
      have hnext : twoChars.nextMove (twoChars.setPadding 8 charC).2 = some ⟨0, 2, true⟩ := by
        decide +kernel
      obtain rfl := Option.some.inj (hnext.symm.trans hmove)
      refine ⟨fun dest source hdest hsource => ?_, fun dest source next hdest hsource hnext => ?_,
        fun source hsource hword => by simp [twoChars]⟩
      · obtain rfl : charA = dest := Option.some.inj hdest
        obtain rfl : charC = source := Option.some.inj hsource
        decide +kernel
      · obtain rfl : charA = dest := Option.some.inj hdest
        obtain rfl : charC = source := Option.some.inj hsource
        obtain rfl : longB = next := Option.some.inj hnext
        decide +kernel
    · obtain rfl : charC = last := Option.some.inj hlast
      decide +kernel
    · obtain rfl : charC = last := Option.some.inj hlast
      exact absurd (by decide +kernel) hne
  · refine ⟨fun last hlast move hmove => ?_, fun last hlast => ?_, fun last hlast _ hne => ?_⟩
    · obtain rfl : longB = last := Option.some.inj hlast
      have hnext : twoCharsMoved.nextMove (twoCharsMoved.setPadding 8 longB).2 = none := by
        decide +kernel
      rw [hnext] at hmove
      exact absurd hmove (by simp)
    · obtain rfl : longB = last := Option.some.inj hlast
      decide +kernel
    · obtain rfl : longB = last := Option.some.inj hlast
      exact absurd (by decide +kernel) hne

theorem reorganize_keeps_layout_twoChars : ∃ n c', reorganize 8 n twoChars = some c' ∧
    Laid c'.members c'.size ∧ (c'.members.map key).Perm (twoChars.members.map key) :=
  reorganize_keeps_layout 8 twoChars valid_twoChars fun _ h =>
    ⟨(fits_twoChars h).1, (fits_twoChars h).2.1⟩

theorem reorganize_not_larger_twoChars :
    ∃ n c', reorganize 8 n twoChars = some c' ∧ c'.size ≤ twoChars.size :=
  (reorganize_not_larger 8 twoChars valid_twoChars).1 fun _ h =>
    ⟨(fits_twoChars h).1, (fits_twoChars h).2.2⟩

/-- `struct { char a; long b __attribute__((aligned(16))); char c[12]; }` -/
def alignedLong : ReorgClass where
  members := [⟨⟨1, false, false, false, 0, 0, 1, 8, 0⟩, some "a"⟩,
    ⟨⟨2, false, false, false, 128, 16, 8, 64, 0⟩, some "b"⟩,
    ⟨⟨3, false, false, false, 192, 24, 12, 96, 0⟩, some "c"⟩]
  size := 48

/-- The array goes to the end of the first word of the hole, and over what comes after it. -/
theorem reorganize_overlaps_alignedLong : ∃ c', reorganize 8 4 alignedLong = some c' ∧
    ¬c'.members.Pairwise fun a b => a.endBit ≤ b.bitOffset := by
  refine ⟨(reorganize 8 4 alignedLong).getD alignedLong, ?_, ?_⟩
  · decide +kernel
  · decide +kernel

/-- `struct { short a; char b; }` -/
def shortChar : ReorgClass where
  members := [⟨⟨1, false, false, false, 0, 0, 2, 16, 0⟩, some "a"⟩,
    ⟨⟨2, false, false, false, 16, 2, 1, 8, 0⟩, some "b"⟩]
  size := 4

theorem reorganize_enlarges_shortChar :
    ∃ c', reorganize 8 1 shortChar = some c' ∧ shortChar.size < c'.size := by
  refine ⟨(reorganize 8 1 shortChar).getD shortChar, ?_, ?_⟩
  · decide +kernel
  · decide +kernel

end ReorgClass

end Pahole
