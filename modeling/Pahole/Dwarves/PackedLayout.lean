import Pahole.Dwarves.Packed
import Pahole.Support.Layout

/-!
# The layouts that packed flags give

Structs are printed with the packed attribute exactly when they have been inferred to be
packed.  A compiler then lays them out anew.
-/

namespace Pahole

open Layout Marking

/-- A member of a C struct that is no bitfield. -/
structure PackMember.Plain (m : PackMember) : Prop where
  isInheritance : m.isInheritance = false
  isStatic : m.isStatic = false
  bitfieldSize : m.bitfieldSize = 0
  bitOffset : m.bitOffset = m.byteOffset * 8

namespace PackTable

/-- A table of C structs of plain members, with no bitfields and no explicit alignments. -/
structure CTable (tbl : PackTable) : Prop where
  addrSize : tbl.addrSize.isPowerOfTwo ∧ tbl.addrSize < 65536
  baseType : ∀ id bitSize, tbl.tag? id = some (.baseType bitSize) →
    (bitSize / 8).isPowerOfTwo ∧ bitSize / 8 < 65536
  enumeration : ∀ id size, tbl.tag? id = some (.enumeration size) →
    (size / 8).isPowerOfTwo ∧ size / 8 < 65536
  unionType : ∀ id ty, tbl.tag? id ≠ some (.unionType ty)
  members : ∀ id ty, tbl.tag? id = some (.structType ty) → ∀ m ∈ ty.members, m.Plain
  alignment : ∀ id ty, tbl.tag? id = some (.structType ty) → ty.alignment = 0
  /-- bits are counted in 32 bits -/
  size : ∀ id ty, tbl.tag? id = some (.structType ty) → ty.size * 8 < 4294967296

variable (tbl : PackTable)

/-- The alignment of a type when some structs are packed. -/
def alignFrom (packed : TypeId → Bool) : ℕ → TypeId → ℕ
  | 0, _ => 1
  | fuel + 1, id =>
      match tbl.tag? id with
      | some .pointer => tbl.addrSize
      | some (.baseType bitSize) => bitSize / 8
      | some (.enumeration size) => size / 8
      | some (.structType ty) =>
          if packed id then 1
          else Layout.alignment 1 (ty.members.map fun m =>
            ⟨m.byteSize, (tbl.strip m.type).elim 1 (alignFrom packed fuel)⟩)
      | some (.array type) => (tbl.strip type).elim 1 (alignFrom packed fuel)
      | _ => 1

def alignOf (packed : TypeId → Bool) (id : TypeId) : ℕ :=
  tbl.alignFrom packed (tbl.depth id + 1) id

/-- The members of a struct that is not packed, for the rules of C. -/
def naturalFields (packed : TypeId → Bool) (ty : PackType) : List Field :=
  ty.members.map fun m => ⟨m.byteSize, (tbl.strip m.type).elim 1 (tbl.alignOf packed)⟩

end PackTable

/-- The members are at the offsets of the fields, and the struct has their size. -/
def PackType.LaidOutAs (ty : PackType) (fields : List Field) : Prop :=
  ty.members.map PackMember.byteOffset = offsets 0 fields ∧ ty.size = Layout.size 1 fields

/-- The struct has neither holes nor padding. -/
def PackType.Tight (ty : PackType) : Prop :=
  ty.LaidOutAs (ty.members.map fun m => ⟨m.byteSize, 1⟩)

instance (ty : PackType) (fields : List Field) : Decidable (ty.LaidOutAs fields) :=
  inferInstanceAs (Decidable (_ ∧ _))

instance (ty : PackType) : Decidable ty.Tight := inferInstanceAs (Decidable (ty.LaidOutAs _))

namespace PackTable

variable (tbl : PackTable)

/-- Every packed struct is tight, and every other one has the natural layout of its members. -/
def LaidOut (packed : TypeId → Bool) : Prop :=
  ∀ id ty, tbl.tag? id = some (.structType ty) →
    if packed id then ty.Tight else ty.LaidOutAs (tbl.naturalFields packed ty)

/-- A struct looks packed by itself, or another one has it at an unnatural offset. -/
def showsPacked (id : TypeId) : Bool :=
  (match tbl.tag? id with
    | some (.structType ty) => !ty.hasHoles && tbl.looksPacked ty 1 ty.members
    | _ => false) ||
  (List.range tbl.entries.length).any fun e => decide (tbl.Pushes e id)

/-- Structs that show to be packed are tight, and structs that are not tight have the natural
layout where those that show to be packed are packed. -/
structure Recoverable : Prop where
  tight : ∀ id ty, tbl.tag? id = some (.structType ty) → tbl.showsPacked id = true → ty.Tight
  natural : ∀ id ty, tbl.tag? id = some (.structType ty) → ¬ty.Tight →
    ty.LaidOutAs (tbl.naturalFields tbl.showsPacked ty)

end PackTable

/-! ## Structs without holes -/

section Tight

variable {ty : PackType}

/-- After members without gaps the search is at their end and has found no hole. -/
theorem findHoles_tight {ms : List PackMember} {s : HoleSearch} {start : ℕ}
    (hplain : ∀ m ∈ ms, m.Plain)
    (hoffsets : ms.map PackMember.byteOffset =
      offsets start (ms.map fun m => ⟨m.byteSize, 1⟩))
    (hfits : finish start (ms.map fun m => ⟨m.byteSize, 1⟩) * 8 < 4294967296)
    (hbit : s.lastSeenBit = start * 8) (hin : s.inBitfield = false) (hholes : s.nrHoles = 0) :
    (ms.foldl HoleSearch.step s).lastSeenBit =
        finish start (ms.map fun m => ⟨m.byteSize, 1⟩) * 8 ∧
      (ms.foldl HoleSearch.step s).inBitfield = false ∧
      (ms.foldl HoleSearch.step s).nrHoles = 0 := by
  induction ms generalizing s start with
  | nil => exact ⟨hbit, hin, hholes⟩
  | cons m ms ih =>
      have hm := hplain m (List.mem_cons_self ..)
      simp only [List.map_cons, offsets, roundUp_one] at hoffsets
      obtain ⟨hoff, hrest⟩ := List.cons.inj hoffsets
      simp only [List.map_cons, finish, roundUp_one] at hfits ⊢
      have hle : start + m.byteSize ≤
          finish (start + m.byteSize) (ms.map fun m => ⟨m.byteSize, 1⟩) := by
        refine le_finish fun f hf => ?_
        obtain ⟨m', -, rfl⟩ := List.mem_map.mp hf
        exact one_pos
      have hend : HoleSearch.bitEnd m = (start + m.byteSize) * 8 := by
        have hcast : ((m.byteOffset * 8 : ℕ) : ℤ) + (m.byteSize : ℤ) * 8 =
            (((start + m.byteSize) * 8 : ℕ) : ℤ) := by
          rw [hoff]
          push_cast
          ring
        simp only [HoleSearch.bitEnd, hm.bitfieldSize, ne_eq, not_true_eq_false, ↓reduceIte,
          hm.bitOffset]
        rw [hcast]
        exact u32_of_lt (by omega)
      have hnone : HoleSearch.byteHoles s.lastSeenBit m = 0 := by
        simp [HoleSearch.byteHoles, hm.bitfieldSize, hm.bitOffset, hoff, hbit, i32, u32]
      rw [List.foldl_cons]
      refine ih (fun m' hm' => hplain m' (List.mem_cons_of_mem m hm')) hrest hfits ?_ ?_ ?_
      · simp [HoleSearch.step, hm.isInheritance, hm.isStatic, hend]
      · simp [HoleSearch.step, hm.isInheritance, hm.isStatic, hm.bitfieldSize]
      · simp [HoleSearch.step, hm.isInheritance, hm.isStatic, HoleSearch.trailing, hin, hnone,
          hholes]

/-- Without alignments of their own, members need none. -/
theorem alignment_packed (ms : List PackMember) :
    Layout.alignment 1 (ms.map fun m => (⟨m.byteSize, 1⟩ : Field)) = 1 := by
  refine Layout.alignment_eq_least fun f hf => ?_
  obtain ⟨m, -, rfl⟩ := List.mem_map.mp hf
  exact le_rfl

theorem hasHoles_of_tight (hplain : ∀ m ∈ ty.members, m.Plain)
    (hfits : ty.size * 8 < 4294967296) (h : ty.Tight) : ty.hasHoles = false := by
  obtain ⟨hoffsets, hsize⟩ := h
  rw [Layout.size, alignment_packed, roundUp_one] at hsize
  rw [hsize] at hfits
  obtain ⟨hlast, hin, hnr⟩ := findHoles_tight (s := ⟨u32 (ty.size * 8), 0, 0, false, 0⟩) hplain
    hoffsets hfits (by simp) rfl rfl
  change ty.findHoles.lastSeenBit = _ at hlast
  change ty.findHoles.inBitfield = _ at hin
  change ty.findHoles.nrHoles = _ at hnr
  simp [PackType.hasHoles, PackType.padding, hin, hnr, hlast, hsize, u32]

/-- Alignments that divide the offsets there are leave members where they are. -/
theorem offsets_of_dvd {ms : List PackMember} {align : PackMember → ℕ} {start : ℕ}
    (hoffsets : ms.map PackMember.byteOffset =
      offsets start (ms.map fun m => ⟨m.byteSize, 1⟩))
    (hpos : ∀ m ∈ ms, 0 < align m) (hdvd : ∀ m ∈ ms, align m ∣ m.byteOffset) :
    offsets start (ms.map fun m => (⟨m.byteSize, align m⟩ : Field)) =
        ms.map PackMember.byteOffset ∧
      finish start (ms.map fun m => (⟨m.byteSize, align m⟩ : Field)) =
        finish start (ms.map fun m => ⟨m.byteSize, 1⟩) := by
  induction ms generalizing start with
  | nil => exact ⟨rfl, rfl⟩
  | cons m ms ih =>
      simp only [List.map_cons, offsets, roundUp_one] at hoffsets
      obtain ⟨hoff, hrest⟩ := List.cons.inj hoffsets
      have hplace : roundUp (align m) start = start :=
        roundUp_of_dvd (hpos m (List.mem_cons_self ..))
          (hoff ▸ hdvd m (List.mem_cons_self ..))
      obtain ⟨hrest', hfinish⟩ := ih hrest
        (fun m' hm' => hpos m' (List.mem_cons_of_mem m hm'))
        fun m' hm' => hdvd m' (List.mem_cons_of_mem m hm')
      simp only [List.map_cons, offsets, finish, hplace, roundUp_one, hoff]
      exact ⟨congrArg _ hrest', hfinish⟩

end Tight

/-! ## Alignments -/

namespace PackTable

section Alignments

variable {tbl : PackTable}

/-- One turn of the loop of `type__natural_alignment`. -/
def naturalStep (tbl : PackTable) (natural : TypeId → ℕ) (current : ℕ) (member : PackMember) : ℕ :=
  if member.isSkipped then current
  else
    match tbl.strip member.type with
    | none => current
    | some type => if current < natural type then natural type % 65536 else current

/-- The alignment that `type__natural_alignment` returns is zero or a power of two, and is not
below that of any member. -/
theorem typeNaturalAlignment_spec {natural : TypeId → ℕ} {members : List PackMember}
    (hnat : ∀ id, (natural id).isPowerOfTwo ∧ natural id < 65536)
    (hplain : ∀ m ∈ members, m.Plain) :
    (tbl.typeNaturalAlignment natural members = 0 ∨
      (tbl.typeNaturalAlignment natural members).isPowerOfTwo ∧
        tbl.typeNaturalAlignment natural members < 65536) ∧
    ∀ m ∈ members, ∀ type, tbl.strip m.type = some type →
      natural type ≤ tbl.typeNaturalAlignment natural members := by
  have hloop : ∀ current, (current = 0 ∨ current.isPowerOfTwo ∧ current < 65536) →
      ∀ r, members.foldl (tbl.naturalStep natural) current = r →
      (r = 0 ∨ r.isPowerOfTwo ∧ r < 65536) ∧ current ≤ r ∧
        ∀ m ∈ members, ∀ type, tbl.strip m.type = some type → natural type ≤ r := by
    induction members with
    | nil =>
        intro current hcurrent r hr
        obtain rfl := hr
        exact ⟨hcurrent, le_refl _, fun m hm => absurd hm List.not_mem_nil⟩
    | cons m ms ih =>
        intro current hcurrent r hr
        have hm := hplain m (List.mem_cons_self ..)
        have hkept : m.isSkipped = false := by
          simp [PackMember.isSkipped, hm.isInheritance, hm.isStatic]
        have ih' := ih fun m' hm' => hplain m' (List.mem_cons_of_mem m hm')
        rw [List.foldl_cons] at hr
        simp only [naturalStep, hkept, Bool.false_eq_true, ↓reduceIte] at hr
        cases hstrip : tbl.strip m.type with
        | none =>
            rw [hstrip] at hr
            obtain ⟨hr', hle, hall⟩ := ih' current hcurrent r hr
            refine ⟨hr', hle, fun m' hm' type htype => ?_⟩
            rcases List.mem_cons.mp hm' with rfl | hm'
            · simp [hstrip] at htype
            · exact hall m' hm' type htype
        | some type =>
            rw [hstrip] at hr
            dsimp only at hr
            obtain ⟨hpow, hlt⟩ := hnat type
            rw [Nat.mod_eq_of_lt hlt] at hr
            have hnext : (if current < natural type then natural type else current) = 0 ∨
                (if current < natural type then natural type else current).isPowerOfTwo ∧
                  (if current < natural type then natural type else current) < 65536 := by
              split
              · exact Or.inr ⟨hpow, hlt⟩
              · exact hcurrent
            obtain ⟨hr', hle, hall⟩ := ih' _ hnext r hr
            have hboth : current ≤ r ∧ natural type ≤ r := by
              split at hle <;> omega
            refine ⟨hr', hboth.1, fun m' hm' type' htype => ?_⟩
            rcases List.mem_cons.mp hm' with rfl | hm'
            · obtain rfl := Option.some.inj (hstrip.symm.trans htype)
              exact hboth.2
            · exact hall m' hm' type' htype
  obtain ⟨hval, -, hall⟩ := hloop 0 (Or.inl rfl) _ rfl
  exact ⟨hval, hall⟩

theorem naturalFrom_spec (hc : tbl.CTable) (fuel : ℕ) (id : TypeId) :
    (tbl.naturalFrom fuel id).isPowerOfTwo ∧ tbl.naturalFrom fuel id < 65536 := by
  have hone : (1 : ℕ).isPowerOfTwo ∧ 1 < 65536 := ⟨Nat.isPowerOfTwo_one, by decide⟩
  have hfix : ∀ n : ℕ, (n = 0 ∨ n.isPowerOfTwo ∧ n < 65536) →
      (if n = 0 then 1 else n).isPowerOfTwo ∧ (if n = 0 then 1 else n) < 65536 := by
    intro n hn
    split
    · exact hone
    · rename_i hne
      exact hn.resolve_left hne
  induction fuel generalizing id with
  | zero => exact hone
  | succ fuel ih =>
      unfold naturalFrom
      dsimp only
      refine hfix _ ?_
      cases htag : tbl.tag? id with
      | none => exact Or.inr hone
      | some tag =>
          cases tag with
          | pointer => exact Or.inr hc.addrSize
          | baseType bitSize =>
              have hbase := hc.baseType id bitSize htag
              dsimp only
              rw [Nat.mod_eq_of_lt hbase.2]
              exact Or.inr hbase
          | enumeration size => exact Or.inr (hc.enumeration id size htag)
          | structType ty =>
              exact (typeNaturalAlignment_spec ih (hc.members id ty htag)).1
          | unionType ty => exact absurd htag (hc.unionType id ty)
          | array type =>
              dsimp only
              cases hstrip : tbl.strip type with
              | none => exact Or.inr hone
              | some elem => exact Or.inr (ih elem)
          | indirect type => exact Or.inr hone
          | other => exact Or.inr hone

/-- The alignment of a type is a power of two and at most its natural alignment. -/
theorem alignFrom_spec (hc : tbl.CTable) (packed : TypeId → Bool) (fuel : ℕ) (id : TypeId) :
    (tbl.alignFrom packed fuel id).isPowerOfTwo ∧
      tbl.alignFrom packed fuel id ≤ tbl.naturalFrom fuel id := by
  have hpos : ∀ fuel id, 1 ≤ tbl.naturalFrom fuel id := fun fuel id =>
    Nat.pos_of_isPowerOfTwo (naturalFrom_spec hc fuel id).1
  have hfix : ∀ n : ℕ, n ≤ if n = 0 then 1 else n := by
    intro n
    split <;> omega
  induction fuel generalizing id with
  | zero => exact ⟨Nat.isPowerOfTwo_one, le_refl 1⟩
  | succ fuel ih =>
      have hone : (1 : ℕ).isPowerOfTwo ∧ 1 ≤ tbl.naturalFrom (fuel + 1) id :=
        ⟨Nat.isPowerOfTwo_one, hpos _ _⟩
      cases htag : tbl.tag? id with
      | none => simpa [alignFrom, htag] using hone
      | some tag =>
          cases tag with
          | pointer =>
              simp only [alignFrom, naturalFrom, htag]
              exact ⟨hc.addrSize.1, hfix _⟩
          | baseType bitSize =>
              have hbase := hc.baseType id bitSize htag
              simp only [alignFrom, naturalFrom, htag, Nat.mod_eq_of_lt hbase.2]
              exact ⟨hbase.1, hfix _⟩
          | enumeration size =>
              simp only [alignFrom, naturalFrom, htag]
              exact ⟨(hc.enumeration id size htag).1, hfix _⟩
          | structType ty =>
              have hnat : ∀ m ∈ ty.members, ∀ type, tbl.strip m.type = some type →
                  tbl.naturalFrom fuel type ≤
                    tbl.typeNaturalAlignment (tbl.naturalFrom fuel) ty.members :=
                (typeNaturalAlignment_spec (naturalFrom_spec hc fuel)
                  (hc.members id ty htag)).2
              have hnatural : tbl.naturalFrom (fuel + 1) id =
                  if tbl.typeNaturalAlignment (tbl.naturalFrom fuel) ty.members = 0 then 1
                  else tbl.typeNaturalAlignment (tbl.naturalFrom fuel) ty.members := by
                simp only [naturalFrom, htag]
              have halign : tbl.alignFrom packed (fuel + 1) id = if packed id then 1
                  else Layout.alignment 1 (ty.members.map fun m =>
                    ⟨m.byteSize, (tbl.strip m.type).elim 1 (tbl.alignFrom packed fuel)⟩) := by
                simp only [alignFrom, htag]
              rw [halign]
              split
              · exact hone
              · constructor
                · refine isPowerOfTwo_alignment Nat.isPowerOfTwo_one fun f hf => ?_
                  obtain ⟨m, -, rfl⟩ := List.mem_map.mp hf
                  cases hstrip : tbl.strip m.type with
                  | none => exact Nat.isPowerOfTwo_one
                  | some type => exact (ih type).1
                · refine alignment_le hone.2 fun f hf => ?_
                  obtain ⟨m, hm, rfl⟩ := List.mem_map.mp hf
                  cases hstrip : tbl.strip m.type with
                  | none => exact hone.2
                  | some type =>
                      rw [hnatural]
                      exact ((ih type).2.trans (hnat m hm type hstrip)).trans (hfix _)
          | unionType ty => exact absurd htag (hc.unionType id ty)
          | array type =>
              simp only [alignFrom, naturalFrom, htag]
              cases hstrip : tbl.strip type with
              | none => exact ⟨Nat.isPowerOfTwo_one, hfix _⟩
              | some elem => exact ⟨(ih elem).1, (ih elem).2.trans (hfix _)⟩
          | indirect type => simpa [alignFrom, htag] using hone
          | other => simpa [alignFrom, htag] using hone

/-- In a struct that does not look packed all members are aligned, and the size is a multiple of
all their alignments. -/
theorem looksPacked_false {ty : PackType} (hc : tbl.CTable) {ms : List PackMember}
    (hplain : ∀ m ∈ ms, m.Plain) {maxNatural : ℕ} (hmax : maxNatural.isPowerOfTwo)
    (h : tbl.looksPacked ty maxNatural ms = false) :
    (∀ m ∈ ms, tbl.memberNatural m ∣ m.byteOffset) ∧
      ∃ n, n.isPowerOfTwo ∧ n ∣ ty.size ∧ maxNatural ≤ n ∧ ∀ m ∈ ms, tbl.memberNatural m ≤ n := by
  induction ms generalizing maxNatural with
  | nil =>
      unfold looksPacked at h
      obtain ⟨-, hsize⟩ := Bool.or_eq_false_iff.mp h
      refine ⟨fun m hm => absurd hm List.not_mem_nil, maxNatural, hmax, ?_, le_refl _,
        fun m hm => absurd hm List.not_mem_nil⟩
      exact Nat.dvd_of_mod_eq_zero (by simpa using hsize)
  | cons m ms ih =>
      have hm := hplain m (List.mem_cons_self ..)
      have hkept : m.isSkipped = false := by
        simp [PackMember.isSkipped, hm.isInheritance, hm.isStatic]
      have hnat : (tbl.memberNatural m).isPowerOfTwo ∧ tbl.memberNatural m < 65536 := by
        unfold memberNatural
        cases tbl.strip m.type with
        | none => exact ⟨Nat.isPowerOfTwo_one, show 1 < 65536 by decide⟩
        | some type => exact naturalFrom_spec hc _ type
      have ih' := @ih fun m' hm' => hplain m' (List.mem_cons_of_mem m hm')
      unfold looksPacked at h
      simp only [hkept, Bool.false_eq_true, ↓reduceIte] at h
      split at h
      · rename_i hone
        obtain ⟨hdvd, n, hn, hsize, hle, hall⟩ := ih' hmax h
        refine ⟨fun m' hm' => ?_, n, hn, hsize, hle, fun m' hm' => ?_⟩
        · rcases List.mem_cons.mp hm' with rfl | hm'
          · exact hone ▸ one_dvd _
          · exact hdvd m' hm'
        · rcases List.mem_cons.mp hm' with rfl | hm'
          · exact hone ▸ Nat.pos_of_isPowerOfTwo hn
          · exact hall m' hm'
      · split at h
        · rename_i haligned
          rw [Nat.mod_eq_of_lt hnat.2] at h
          have hnext : (if maxNatural < tbl.memberNatural m then tbl.memberNatural m
              else maxNatural).isPowerOfTwo := by
            split
            · exact hnat.1
            · exact hmax
          obtain ⟨hdvd, n, hn, hsize, hle, hall⟩ := ih' hnext h
          have hboth : maxNatural ≤ n ∧ tbl.memberNatural m ≤ n := by
            split at hle <;> omega
          refine ⟨fun m' hm' => ?_, n, hn, hsize, hboth.1, fun m' hm' => ?_⟩
          · rcases List.mem_cons.mp hm' with rfl | hm'
            · exact Nat.dvd_of_mod_eq_zero haligned
            · exact hdvd m' hm'
          · rcases List.mem_cons.mp hm' with rfl | hm'
            · exact hboth.2
            · exact hall m' hm'
        · nomatch h

/-- A struct without holes that does not look packed is laid out naturally, whatever is
packed. -/
theorem laidOut_of_not_looksPacked {ty : PackType} (hc : tbl.CTable)
    (hplain : ∀ m ∈ ty.members, m.Plain) (htight : ty.Tight)
    (h : tbl.looksPacked ty 1 ty.members = false) (packed : TypeId → Bool) :
    ty.LaidOutAs (tbl.naturalFields packed ty) := by
  obtain ⟨hdvd, n, hn, hsize, -, hall⟩ := looksPacked_false hc hplain Nat.isPowerOfTwo_one h
  obtain ⟨hoffsets, hend⟩ := htight
  have halign : ∀ m : PackMember, ((tbl.strip m.type).elim 1 (tbl.alignOf packed)).isPowerOfTwo ∧
      (tbl.strip m.type).elim 1 (tbl.alignOf packed) ≤ tbl.memberNatural m ∧
      (tbl.memberNatural m).isPowerOfTwo := by
    intro m
    unfold memberNatural
    cases tbl.strip m.type with
    | none => exact ⟨Nat.isPowerOfTwo_one, le_refl 1, Nat.isPowerOfTwo_one⟩
    | some type =>
        have hspec := alignFrom_spec hc packed (tbl.depth type + 1) type
        exact ⟨hspec.1, hspec.2, (naturalFrom_spec hc _ type).1⟩
  have hpos : ∀ m ∈ ty.members, 0 < (tbl.strip m.type).elim 1 (tbl.alignOf packed) :=
    fun m _ => Nat.pos_of_isPowerOfTwo (halign m).1
  obtain ⟨hplaces, hfinish⟩ := offsets_of_dvd hoffsets hpos fun m hm =>
    (dvd_of_le (halign m).1 (halign m).2.2 (halign m).2.1).trans (hdvd m hm)
  refine ⟨hplaces.symm, ?_⟩
  rw [Layout.size, alignment_packed, roundUp_one, ← hfinish] at hend
  have hpow : ∀ f ∈ tbl.naturalFields packed ty, f.alignment.isPowerOfTwo := by
    intro f hf
    obtain ⟨m, -, rfl⟩ := List.mem_map.mp hf
    exact (halign m).1
  have hle : Layout.alignment 1 (tbl.naturalFields packed ty) ≤ n := by
    refine alignment_le (Nat.pos_of_isPowerOfTwo hn) fun f hf => ?_
    obtain ⟨m, hm, rfl⟩ := List.mem_map.mp hf
    exact (halign m).2.1.trans (hall m hm)
  have halignment := isPowerOfTwo_alignment Nat.isPowerOfTwo_one hpow
  have hmultiple := (dvd_of_le halignment hn hle).trans hsize
  rw [hend] at hmultiple ⊢
  exact (roundUp_of_dvd (Nat.pos_of_isPowerOfTwo halignment) hmultiple).symm

end Alignments

/-! ## The flags that are inferred -/

section Flags

variable {tbl : PackTable}

theorem showsPacked_iff (id : TypeId) : tbl.showsPacked id = true ↔
    tbl.Own id ∨ ∃ e ∈ List.range tbl.entries.length, tbl.Pushes e id := by
  unfold showsPacked
  rw [Bool.or_eq_true, List.any_eq_true]
  refine or_congr ?_ ⟨?_, ?_⟩
  · unfold Own
    cases tbl.tag? id with
    | none => simp
    | some tag => cases tag <;> simp
  · rintro ⟨e, he, hpush⟩
    exact ⟨e, he, of_decide_eq_true hpush⟩
  · rintro ⟨e, he, hpush⟩
    exact ⟨e, he, decide_eq_true hpush⟩

theorem tag_lt {id : TypeId} {tag : PackTag} (h : tbl.tag? id = some tag) :
    id ∈ List.range tbl.entries.length := by
  unfold tag? packTag? at h
  split at h
  · nomatch h
  · rw [List.mem_range]
    by_contra hge
    rw [List.getElem?_eq_none (by omega)] at h
    nomatch h

/-- A type that marks another one has a hole or padding. -/
theorem pusher_not_tight (hc : tbl.CTable) {e c : TypeId} (h : tbl.Pushes e c) :
    ∃ ty, tbl.tag? e = some (.structType ty) ∧ ¬ty.Tight := by
  unfold Pushes targets at h
  cases htag : tbl.tag? e with
  | none => simp [htag] at h
  | some tag =>
      rw [htag] at h
      cases tag with
      | structType ty =>
          refine ⟨ty, rfl, fun htight => ?_⟩
          have hnone := hasHoles_of_tight (hc.members e ty htag) (hc.size e ty htag) htight
          simp [hnone] at h
      | unionType ty => exact absurd htag (hc.unionType e ty)
      | _ => nomatch h

theorem isPacked_of_notMem {order : List TypeId} {id : TypeId}
    (hid : id ∉ List.range tbl.entries.length) :
    (tbl.inferAll order).isPacked id = tbl.showsPacked id := by
  have hown : ¬tbl.Own id := by
    intro hown
    unfold Own at hown
    split at hown
    · rename_i htag
      exact hid (tag_lt htag)
    · exact hown
  have hpush : ∀ e, ¬tbl.Pushes e id := by
    intro e hpush
    have hstruct := (pushes_spec hpush).1
    unfold isStruct at hstruct
    split at hstruct
    · rename_i htag
      exact hid (tag_lt htag)
    · exact Bool.false_ne_true hstruct
  refine Bool.eq_iff_iff.mpr ?_
  rw [(represents_inferAll order).isPacked, showsPacked_iff]
  constructor
  · rintro (⟨-, h⟩ | ⟨e, -, h⟩)
    · exact absurd h hown
    · exact absurd h (hpush e)
  · rintro (h | ⟨e, -, h⟩)
    · exact absurd h hown
    · exact absurd h (hpush e)

/-- When everything that shows to be packed is tight, the flags are what shows. -/
theorem isPacked_eq (hc : tbl.CTable)
    (htight : ∀ id ty, tbl.tag? id = some (.structType ty) → tbl.showsPacked id = true →
      ty.Tight) {order : List TypeId}
    (horder : order.Perm (List.range tbl.entries.length)) :
    (tbl.inferAll order).isPacked = tbl.showsPacked := by
  have hunpreventable : Unpreventable tbl.Pushes tbl.Own (List.range tbl.entries.length) := by
    intro c _ e he hpush
    refine Or.inr ⟨e, he, hpush, fun f hf hfe => ?_⟩
    obtain ⟨ty, htag, hnot⟩ := pusher_not_tight hc hpush
    exact absurd (htight e ty htag ((showsPacked_iff e).mpr (Or.inr ⟨f, hf, hfe⟩))) hnot
  funext id
  by_cases hid : id ∈ List.range tbl.entries.length
  · refine Bool.eq_iff_iff.mpr ?_
    rw [(represents_inferAll order).isPacked, marked_iff hunpreventable horder hid,
      showsPacked_iff]
  · exact isPacked_of_notMem hid

/-- Flags that reproduce the layout leave nothing with holes packed that shows to be. -/
theorem tight_of_laidOut (hc : tbl.CTable) {order : List TypeId}
    (horder : order.Perm (List.range tbl.entries.length))
    (h : tbl.LaidOut (tbl.inferAll order).isPacked) :
    ∀ id ty, tbl.tag? id = some (.structType ty) → tbl.showsPacked id = true → ty.Tight := by
  have htight : ∀ id ty, tbl.tag? id = some (.structType ty) →
      Marked tbl.Pushes tbl.Own (visitAll tbl.Pushes order) id → ty.Tight := by
    intro id ty htag hmarked
    have hid := h id ty htag
    rwa [if_pos (((represents_inferAll order).isPacked id).mpr hmarked)] at hid
  have hsettled : ∀ i ∈ List.range tbl.entries.length,
      Settled tbl.Pushes (visitAll tbl.Pushes order) i := fun i hi =>
    settled_visits [] (horder.mem_iff.mpr hi)
  intro id ty htag hshows
  refine htight id ty htag ?_
  rcases (showsPacked_iff id).mp hshows with hown | ⟨e, he, hpush⟩
  · rcases hsettled id (tag_lt htag) with hact | hpushed
    · exact Or.inl ⟨hact, hown⟩
    · exact Or.inr hpushed
  · rcases hsettled e he with hact | hpushed
    · exact Or.inr ⟨e, hact, hpush⟩
    · obtain ⟨ty', htag', hnot⟩ := pusher_not_tight hc hpush
      exact absurd (htight e ty' htag' (Or.inr hpushed)) hnot

end Flags

/-- A packed struct of the size of its one member, at the start of a struct with a hole. -/
def packedMemberEntries : List (Option PackTag) :=
  [none, some (.baseType 8), some (.baseType 16), some (.baseType 32),
    some (.structType ⟨[plainMember 3 0 4], 4, 0⟩),
    some (.structType ⟨[plainMember 4 0 4, plainMember 1 4 1, plainMember 2 6 2,
      plainMember 1 8 1], 10, 0⟩)]

def packedMemberTable : PackTable where
  addrSize := 8
  entries := packedMemberEntries
  depth := fun id => id
  depth_lt := by
    intro id tag h part hpart
    have hsmall : ∀ id < 6, ∀ part ∈ (packTag? packedMemberEntries id).elim [] PackTag.parts,
        part < id := by decide
    rcases lt_or_ge id 6 with hlt | hge
    · exact hsmall id hlt part (by rw [h]; exact hpart)
    · have hnone : packedMemberEntries[id]? = none := List.getElem?_eq_none hge
      simp [packTag?, hnone] at h

theorem tag_packedMemberTable {id : TypeId} {tag : PackTag}
    (h : packedMemberTable.tag? id = some tag) : some tag ∈ packedMemberEntries := by
  unfold tag? packTag? at h
  split at h
  · nomatch h
  · rw [Option.join_eq_some_iff] at h
    exact List.mem_of_getElem? h

theorem cTable_packedMemberTable : packedMemberTable.CTable where
  addrSize := by decide
  baseType := by
    intro id bitSize h
    have hmem := tag_packedMemberTable h
    simp only [packedMemberEntries, List.mem_cons, Option.some.injEq, PackTag.baseType.injEq,
      reduceCtorEq, List.not_mem_nil, false_or, or_false] at hmem
    rcases hmem with rfl | rfl | rfl <;> decide
  enumeration := by
    intro id size h
    have hmem := tag_packedMemberTable h
    simp [packedMemberEntries] at hmem
  unionType := by
    intro id ty h
    have hmem := tag_packedMemberTable h
    simp [packedMemberEntries] at hmem
  members := by
    intro id ty h m hm
    have hmem := tag_packedMemberTable h
    simp only [packedMemberEntries, List.mem_cons, Option.some.injEq, PackTag.structType.injEq,
      reduceCtorEq, List.not_mem_nil, false_or, or_false] at hmem
    rcases hmem with rfl | rfl
    · obtain rfl := List.mem_singleton.mp hm
      exact ⟨rfl, rfl, rfl, rfl⟩
    · simp only [List.mem_cons, List.not_mem_nil, or_false] at hm
      rcases hm with rfl | rfl | rfl | rfl <;> exact ⟨rfl, rfl, rfl, rfl⟩
  alignment := by
    intro id ty h
    have hmem := tag_packedMemberTable h
    simp only [packedMemberEntries, List.mem_cons, Option.some.injEq, PackTag.structType.injEq,
      reduceCtorEq, List.not_mem_nil, false_or, or_false] at hmem
    rcases hmem with rfl | rfl <;> rfl
  size := by
    intro id ty h
    have hmem := tag_packedMemberTable h
    simp only [packedMemberEntries, List.mem_cons, Option.some.injEq, PackTag.structType.injEq,
      reduceCtorEq, List.not_mem_nil, false_or, or_false] at hmem
    rcases hmem with rfl | rfl <;> decide

theorem struct_packedMemberTable {id : ℕ} {ty : PackType}
    (h : packedMemberTable.tag? id = some (.structType ty)) :
    (id = 4 ∧ packedMemberEntries[4]? = some (some (.structType ty))) ∨
      (id = 5 ∧ packedMemberEntries[5]? = some (some (.structType ty))) := by
  have hlt : id < 6 := List.mem_range.mp (tag_lt h)
  interval_cases id
  · nomatch h
  · nomatch h
  · nomatch h
  · nomatch h
  · exact Or.inl ⟨rfl, congrArg some h⟩
  · exact Or.inr ⟨rfl, congrArg some h⟩

end PackTable

end Pahole
