import Pahole.Btf.Libbpf
import Pahole.Support.Layout

/-!
# Inferring alignments

BTF says where members are but not how they are aligned.  The loader guesses from the
gaps before members.
-/

namespace Pahole

open Layout

/-- The data of a member's type that the loader reads, past typedefs and modifiers. -/
structure MemberType where
  size : ℕ
  naturalAlignment : ℕ
  isBaseOrEnum : Bool

/-- `struct class_member`, as loaded from BTF. -/
structure LoadedMember where
  type : Option MemberType
  bitOffset : ℕ
  byteOffset : ℕ
  bitfieldSize : ℕ
  bitfieldOffset : ℤ
  byteSize : ℕ
  bitSize : ℕ
  alignment : ℕ

/-- `struct type`, as loaded from BTF. -/
structure LoadedStruct where
  members : List LoadedMember
  size : ℕ
  alignment : ℕ

/-- `class__infer_alignment`.  The shift is by the number of bits of the delta. -/
def classInferAlignment (cachelineSize byteOffset naturalAlignment smallestOffset : ℕ) : ℕ :=
  let offsetDelta := u32 ((byteOffset : ℤ) - smallestOffset)
  let alignment :=
    if offsetDelta ≠ 0 then
      if byteOffset % 2 = 0 then u32 (2 ^ offsetDelta.size) else 0
    else 0
  if alignment ≤ naturalAlignment ∨ alignment = 1 then 0
  else if alignment < cachelineSize ∧ cachelineSize % alignment = 0 ∧
      byteOffset % cachelineSize = 0 then cachelineSize
  else alignment

namespace LoadedMember

/-- The offsets of a bitfield. -/
def fixupBitfield (pos : LoadedMember) : LoadedMember :=
  let byteOffset := pos.bitOffset / pos.bitSize * pos.bitSize / 8
  let bitfieldOffset := (pos.bitOffset : ℤ) - byteOffset * 8
  if bitfieldOffset < 0 then
    { pos with
      bitfieldOffset := bitfieldOffset + pos.bitSize
      byteOffset := u32 ((byteOffset : ℤ) - pos.byteSize)
      bitOffset := u32 (u32 ((byteOffset : ℤ) - pos.byteSize) * 8 +
        (bitfieldOffset + pos.bitSize)) }
  else { pos with byteOffset := byteOffset, bitfieldOffset := bitfieldOffset }

def fixupOffset (pos : LoadedMember) (type : MemberType) : LoadedMember :=
  if type.isBaseOrEnum then
    if pos.bitfieldSize ≠ 0 then pos.fixupBitfield
    else { pos with byteOffset := pos.bitOffset / 8 }
  else pos

def infer (pos : LoadedMember) (cachelineSize : ℕ) (type : MemberType) (smallestOffset : ℕ) :
    LoadedMember :=
  { pos with alignment :=
      classInferAlignment cachelineSize pos.byteOffset type.naturalAlignment smallestOffset }

/-- The smallest offset at which the next member could have been. -/
def smallestNext (pos : LoadedMember) : ℕ :=
  u32 (pos.byteOffset + if pos.bitfieldSize ≠ 0 then
    (pos.bitfieldOffset + pos.bitfieldSize + 7) / 8 else pos.byteSize)

/-- The body of the loop of `class__fixup_btf_bitfields`: the member, and the smallest
offset of the next one. -/
def fixup (cachelineSize smallestOffset : ℕ) (pos : LoadedMember) : LoadedMember × ℕ :=
  match pos.type with
  | none => (pos, smallestOffset)
  | some type =>
      let pos := { pos with
        bitfieldOffset := 0
        byteSize := type.size
        bitSize := type.size * 8 }
      if type.size = 0 then (pos.infer cachelineSize type smallestOffset, smallestOffset)
      else
        let pos := (pos.fixupOffset type).infer cachelineSize type smallestOffset
        (pos, pos.smallestNext)

end LoadedMember

def fixupMembers (cachelineSize : ℕ) : ℕ → List LoadedMember → List LoadedMember × ℕ
  | smallestOffset, [] => ([], smallestOffset)
  | smallestOffset, pos :: rest =>
      let (pos', next) := pos.fixup cachelineSize smallestOffset
      let (rest', last) := fixupMembers cachelineSize next rest
      (pos' :: rest', last)

/-- `type__natural_alignment`, which is kept in 16 bits. -/
def typeNaturalAlignment : List LoadedMember → ℕ
  | [] => 0
  | pos :: rest =>
      match pos.type with
      | none => typeNaturalAlignment rest
      | some type => max (type.naturalAlignment % 65536) (typeNaturalAlignment rest)

/-- `class__fixup_btf_bitfields` -/
def classFixupBtfBitfields (cachelineSize : ℕ) (ty : LoadedStruct) : LoadedStruct :=
  let (members, smallestOffset) := fixupMembers cachelineSize 0 ty.members
  let natural := typeNaturalAlignment ty.members
  { ty with
    members := members
    alignment := classInferAlignment cachelineSize ty.size
      (if natural = 0 then 1 else natural) smallestOffset }

/-! ## Declared structs -/

/-- A member as it is declared, with the alignment it has been given. -/
structure DeclaredMember where
  size : ℕ
  natural : ℕ
  alignment : ℕ
  isBaseOrEnum : Bool
  natural_pow : natural.isPowerOfTwo
  natural_lt : natural < 65536
  alignment_pow : alignment.isPowerOfTwo
  natural_le : natural ≤ alignment

def DeclaredMember.field (m : DeclaredMember) : Field := ⟨m.size, m.alignment⟩

/-- A struct as it is declared, with the alignment it has been given, which is one if
it has not been given any.  BTF has 32 bits for the offset of a bit. -/
structure DeclaredStruct where
  members : List DeclaredMember
  alignment : ℕ
  alignment_pow : alignment.isPowerOfTwo
  fits : Layout.size alignment (members.map DeclaredMember.field) * 8 < 4294967296

namespace DeclaredStruct

def fields (ty : DeclaredStruct) : List Field := ty.members.map DeclaredMember.field

/-- The members as BTF has them. -/
def loadedMembers : ℕ → List DeclaredMember → List LoadedMember
  | _, [] => []
  | start, m :: ms =>
      { type := some ⟨m.size, m.natural, m.isBaseOrEnum⟩
        bitOffset := roundUp m.alignment start * 8
        byteOffset := roundUp m.alignment start
        bitfieldSize := 0
        bitfieldOffset := 0
        byteSize := m.size
        bitSize := m.size * 8
        alignment := 0 } :: loadedMembers (roundUp m.alignment start + m.size) ms

def loaded (ty : DeclaredStruct) : LoadedStruct where
  members := loadedMembers 0 ty.members
  size := Layout.size ty.alignment ty.fields
  alignment := 0

/-- Members with their natural alignment raised to the inferred one. -/
def inferredFields : List DeclaredMember → List LoadedMember → List Field
  | m :: ms, pos :: rest => ⟨m.size, max m.natural pos.alignment⟩ :: inferredFields ms rest
  | _, _ => []

/-- The inferred alignments give the struct the same offsets and the same size as its declared
ones. -/
def Reproduced (cachelineSize : ℕ) (ty : DeclaredStruct) : Prop :=
  let inferred := classFixupBtfBitfields cachelineSize ty.loaded
  offsets 0 (inferredFields ty.members inferred.members) = offsets 0 ty.fields ∧
    Layout.size (max 1 inferred.alignment) (inferredFields ty.members inferred.members) =
      Layout.size ty.alignment ty.fields

end DeclaredStruct

/-- A gap before an offset that suggests an alignment above the natural one and below
the cacheline size, at a multiple of the cacheline size. -/
def Widened (cachelineSize natural smallest offset : ℕ) : Prop :=
  smallest < offset ∧ natural < 2 ^ (offset - smallest).size ∧
    2 ^ (offset - smallest).size < cachelineSize ∧ cachelineSize ∣ offset

/-- Some member of the list is `Widened`. -/
def AnyWidened (cachelineSize : ℕ) : ℕ → ℕ → List DeclaredMember → Prop
  | _, _, [] => False
  | start, smallest, m :: ms =>
      let offset := roundUp m.alignment start
      Widened cachelineSize m.natural smallest offset ∨
        AnyWidened cachelineSize (offset + m.size)
          (if m.size = 0 then smallest else offset + m.size) ms

/-! ## Inferred alignments -/

section Infer

variable {cachelineSize natural smallest offset reach : ℕ}

/-- The alignment inferred is none, the power of two that the gap suggests, or, where the gap is
`Widened`, the cacheline size. -/
theorem classInferAlignment_cases (hle : smallest ≤ offset) (hfits : offset * 8 < 4294967296)
    (hnat : 0 < natural) (hreach : reach.isPowerOfTwo) (hdvd : reach ∣ offset)
    (hlt : offset < smallest + reach) (hcache : cachelineSize.isPowerOfTwo) :
    (classInferAlignment cachelineSize offset natural smallest = 0 ∧
        offset < smallest + natural ∧ ¬Widened cachelineSize natural smallest offset) ∨
      (classInferAlignment cachelineSize offset natural smallest =
          2 ^ (offset - smallest).size ∧ natural < 2 ^ (offset - smallest).size ∧
        2 ^ (offset - smallest).size ≤ reach ∧
        ¬Widened cachelineSize natural smallest offset) ∨
      (classInferAlignment cachelineSize offset natural smallest = cachelineSize ∧
        Widened cachelineSize natural smallest offset) := by
  have hdelta : u32 ((offset : ℤ) - smallest) = offset - smallest := by
    rw [← Nat.cast_sub hle]
    exact u32_of_lt (by omega)
  have hself := Nat.lt_size_self (offset - smallest)
  unfold classInferAlignment
  dsimp only
  rw [hdelta]
  by_cases hgap : offset - smallest = 0
  · left
    refine ⟨by simp [hgap], by omega, fun hwide => ?_⟩
    have := hwide.1
    omega
  · have hpow := two_pow_size_le hreach (show offset - smallest < reach by omega)
    have hsize : 0 < (offset - smallest).size := Nat.size_pos.mpr (by omega)
    have htwo : 2 ≤ 2 ^ (offset - smallest).size :=
      Nat.le_self_pow (by omega) 2
    have heven : offset % 2 = 0 := by
      have h2 : (2 : ℕ) ∣ reach :=
        dvd_of_le (isPowerOfTwo_two_pow 1) hreach (htwo.trans hpow)
      exact Nat.mod_eq_zero_of_dvd (h2.trans hdvd)
    have hbig : reach ≤ offset := Nat.le_of_dvd (by omega) hdvd
    have hval : u32 (2 ^ (offset - smallest).size) = 2 ^ (offset - smallest).size := by
      have hcast : ((2 ^ (offset - smallest).size : ℕ) : ℤ) = 2 ^ (offset - smallest).size :=
        Nat.cast_pow 2 _
      rw [← hcast]
      exact u32_of_lt (by omega)
    rw [if_pos hgap, if_pos heven, hval]
    by_cases hnatural : 2 ^ (offset - smallest).size ≤ natural
    · left
      refine ⟨if_pos (Or.inl hnatural), by omega, fun hwide => ?_⟩
      have := hwide.2.1
      omega
    · rw [if_neg (by omega)]
      right
      by_cases hwide : Widened cachelineSize natural smallest offset
      · right
        refine ⟨if_pos ⟨hwide.2.2.1, ?_, Nat.mod_eq_zero_of_dvd hwide.2.2.2⟩, hwide⟩
        exact Nat.mod_eq_zero_of_dvd
          (dvd_of_le (isPowerOfTwo_two_pow _) hcache (le_of_lt hwide.2.2.1))
      · left
        refine ⟨if_neg fun hcond => hwide ?_, by omega, hpow, hwide⟩
        exact ⟨by omega, by omega, hcond.1, Nat.dvd_of_mod_eq_zero hcond.2.2⟩

end Infer

/-- `offset` is the first multiple of the power of two `reach` that is not below `smallest`. -/
structure Reach (reach smallest offset : ℕ) : Prop where
  pow : reach.isPowerOfTwo
  le : smallest ≤ offset
  dvd : reach ∣ offset
  lt : offset < smallest + reach

theorem Reach.refl (offset : ℕ) : Reach 1 offset offset where
  pow := Nat.isPowerOfTwo_one
  le := le_refl offset
  dvd := one_dvd offset
  lt := Nat.lt_succ_self offset

theorem Reach.roundUp {reach smallest start a : ℕ} (h : Reach reach smallest start)
    (ha : a.isPowerOfTwo) : Reach (max reach a) smallest (roundUp a start) where
  pow := isPowerOfTwo_max h.pow ha
  le := h.le.trans (le_roundUp (Nat.pos_of_isPowerOfTwo ha) start)
  dvd := (roundUp_reach h.pow ha h.dvd h.lt).1
  lt := (roundUp_reach h.pow ha h.dvd h.lt).2

section Members

variable {cachelineSize smallest start reach : ℕ}

/-- The alignment that a natural one is raised to. -/
def raised (cachelineSize natural smallest offset : ℕ) : ℕ :=
  max natural (classInferAlignment cachelineSize offset natural smallest)

/-- The inferred alignment puts a member where it is, and spoils the alignment of the
struct only if it was widened. -/
theorem raised_spec {natural a : ℕ} (hcache : cachelineSize.isPowerOfTwo)
    (hnat : natural.isPowerOfTwo) (ha : a.isPowerOfTwo) (hle : natural ≤ a)
    (h : Reach reach smallest start) (hfits : roundUp a start * 8 < 4294967296) :
    (raised cachelineSize natural smallest (roundUp a start)).isPowerOfTwo ∧
      roundUp (raised cachelineSize natural smallest (roundUp a start)) start =
        roundUp a start ∧
      roundUp a start <
        smallest + raised cachelineSize natural smallest (roundUp a start) ∧
      ∀ s, a ∣ s → reach ∣ s →
        (raised cachelineSize natural smallest (roundUp a start) ∣ s ↔
          (Widened cachelineSize natural smallest (roundUp a start) → cachelineSize ∣ s)) := by
  have hoff := h.roundUp ha
  have hself := Nat.lt_size_self (roundUp a start - smallest)
  have hstart := le_roundUp (Nat.pos_of_isPowerOfTwo ha) start
  have hnatdvd : ∀ s, a ∣ s → natural ∣ s := fun s => (dvd_of_le hnat ha hle).trans
  have hcases := classInferAlignment_cases hoff.le hfits (Nat.pos_of_isPowerOfTwo hnat)
    hoff.pow hoff.dvd hoff.lt hcache
  have hsmallest := h.le
  suffices hraised : ∃ r, raised cachelineSize natural smallest (roundUp a start) = r ∧
      r.isPowerOfTwo ∧ r ∣ roundUp a start ∧ roundUp a start < smallest + r ∧
      ∀ s, a ∣ s → reach ∣ s →
        (r ∣ s ↔ (Widened cachelineSize natural smallest (roundUp a start) →
          cachelineSize ∣ s)) by
    obtain ⟨r, hr, hpow, hdvd, hlt, hspoils⟩ := hraised
    rw [hr]
    exact ⟨hpow, roundUp_eq hdvd hstart (by omega), hlt, hspoils⟩
  unfold raised
  rcases hcases with ⟨hzero, hlt, hnot⟩ | ⟨hval, hgt, hreach, hnot⟩ | ⟨hval, hwide⟩
  · refine ⟨natural, by rw [hzero, max_eq_left (Nat.zero_le _)], hnat,
      hnatdvd _ (dvd_roundUp a start), hlt, fun s ha' _ => ?_⟩
    exact ⟨fun _ hwide => absurd hwide hnot, fun _ => hnatdvd s ha'⟩
  · refine ⟨_, by rw [hval, max_eq_right (le_of_lt hgt)], isPowerOfTwo_two_pow _,
      (dvd_of_le (isPowerOfTwo_two_pow _) hoff.pow hreach).trans hoff.dvd, by omega,
      fun s ha' hr' => ?_⟩
    exact ⟨fun _ hwide => absurd hwide hnot, fun _ =>
      (dvd_of_le (isPowerOfTwo_two_pow _) hoff.pow hreach).trans (max_dvd hr' ha')⟩
  · obtain ⟨hgap, hgt, hcap, hdvd⟩ := hwide
    refine ⟨_, by rw [hval, max_eq_right (by omega)], hcache, hdvd, by omega,
      fun s _ _ => ?_⟩
    exact ⟨fun hs _ => hs, fun hs => hs ⟨hgap, hgt, hcap, hdvd⟩⟩

theorem fixup_loaded (m : DeclaredMember) {offset : ℕ}
    (hfits : (offset + m.size) * 8 < 4294967296) :
    ∃ pos, LoadedMember.fixup cachelineSize smallest
        { type := some ⟨m.size, m.natural, m.isBaseOrEnum⟩
          bitOffset := offset * 8
          byteOffset := offset
          bitfieldSize := 0
          bitfieldOffset := 0
          byteSize := m.size
          bitSize := m.size * 8
          alignment := 0 } = (pos, if m.size = 0 then smallest else offset + m.size) ∧
      max m.natural pos.alignment = raised cachelineSize m.natural smallest offset := by
  unfold LoadedMember.fixup
  dsimp only
  by_cases hzero : m.size = 0
  · rw [if_pos hzero, if_pos hzero]
    exact ⟨_, rfl, rfl⟩
  · rw [if_neg hzero, if_neg hzero]
    have hnext : u32 ((offset : ℤ) + m.size) = offset + m.size := by
      rw [← Nat.cast_add]
      exact u32_of_lt (by omega)
    cases m.isBaseOrEnum with
    | false =>
        refine ⟨_, Prod.ext rfl ?_, rfl⟩
        simpa [LoadedMember.smallestNext, LoadedMember.infer, LoadedMember.fixupOffset] using
          hnext
    | true =>
        refine ⟨_, Prod.ext rfl ?_, ?_⟩
        · simpa [LoadedMember.smallestNext, LoadedMember.infer, LoadedMember.fixupOffset] using
            hnext
        · simp [LoadedMember.infer, LoadedMember.fixupOffset, raised]

/-- The invariant of the inference over the members: the inferred alignments are powers of two
that keep all offsets and are not below the natural ones, and they divide `s` exactly when the
cacheline size does if a member was widened. -/
structure Inferred (cachelineSize start smallest reach : ℕ) (ms : List DeclaredMember)
    (rest : List LoadedMember) (last : ℕ) : Prop where
  offsets : offsets start (DeclaredStruct.inferredFields ms rest) =
    offsets start (ms.map DeclaredMember.field)
  finish : finish start (DeclaredStruct.inferredFields ms rest) =
    finish start (ms.map DeclaredMember.field)
  pow : ∀ f ∈ DeclaredStruct.inferredFields ms rest, f.alignment.isPowerOfTwo
  /-- natural alignments are kept -/
  natural : ∀ m ∈ ms, ∃ f ∈ DeclaredStruct.inferredFields ms rest, m.natural ≤ f.alignment
  last : ∃ reach', Reach reach' last (Layout.finish start (ms.map DeclaredMember.field)) ∧
    ∀ s, (∀ m ∈ ms, m.alignment ∣ s) → reach ∣ s → reach' ∣ s
  dvd : ∀ s, (∀ m ∈ ms, m.alignment ∣ s) → reach ∣ s →
    ((∀ f ∈ DeclaredStruct.inferredFields ms rest, f.alignment ∣ s) ↔
      (AnyWidened cachelineSize start smallest ms → cachelineSize ∣ s))

theorem inferred_members (hcache : cachelineSize.isPowerOfTwo) (ms : List DeclaredMember)
    (h : Reach reach smallest start)
    (hfits : finish start (ms.map DeclaredMember.field) * 8 < 4294967296) :
    ∃ rest last, fixupMembers cachelineSize smallest
        (DeclaredStruct.loadedMembers start ms) = (rest, last) ∧
      Inferred cachelineSize start smallest reach ms rest last := by
  induction ms generalizing start smallest reach with
  | nil =>
      refine ⟨[], smallest, rfl, rfl, rfl, ?_, ?_, ⟨reach, h, fun s _ hs => hs⟩, ?_⟩
      · intro f hf
        nomatch hf
      · intro m hm
        nomatch hm
      · intro s _ _
        constructor
        · intro _ hwide
          exact hwide.elim
        · intro _ f hf
          nomatch hf
  | cons m ms ih =>
      have hpos : ∀ f ∈ ms.map DeclaredMember.field, 0 < f.alignment := by
        intro f hf
        obtain ⟨m', -, rfl⟩ := List.mem_map.mp hf
        exact Nat.pos_of_isPowerOfTwo m'.alignment_pow
      have hend : (roundUp m.alignment start + m.size) * 8 < 4294967296 :=
        lt_of_le_of_lt (Nat.mul_le_mul_right 8 (le_finish hpos)) hfits
      obtain ⟨pos, hfixup, hraised⟩ := @fixup_loaded cachelineSize smallest m _ hend
      obtain ⟨hpow, hplace, -, hspoils⟩ := raised_spec hcache m.natural_pow m.alignment_pow
        m.natural_le h (by omega)
      have hnext : ∃ reach', Reach reach'
          (if m.size = 0 then smallest else roundUp m.alignment start + m.size)
          (roundUp m.alignment start + m.size) ∧
          ∀ s, m.alignment ∣ s → reach ∣ s → reach' ∣ s := by
        by_cases hzero : m.size = 0
        · rw [if_pos hzero, hzero, Nat.add_zero]
          exact ⟨_, h.roundUp m.alignment_pow, fun s ha hr => max_dvd hr ha⟩
        · rw [if_neg hzero]
          exact ⟨1, Reach.refl _, fun s _ _ => one_dvd s⟩
      obtain ⟨reach', hreach', hdvd'⟩ := hnext
      obtain ⟨rest, last, hrest, hinferred⟩ := ih hreach' hfits
      refine ⟨pos :: rest, last, ?_, ?_⟩
      · unfold DeclaredStruct.loadedMembers fixupMembers
        rw [hfixup]
        dsimp only
        rw [hrest]
      · have hfield : DeclaredStruct.inferredFields (m :: ms) (pos :: rest) =
            ⟨m.size, raised cachelineSize m.natural smallest (roundUp m.alignment start)⟩ ::
              DeclaredStruct.inferredFields ms rest := by
          rw [DeclaredStruct.inferredFields, hraised]
        obtain ⟨reach'', hlast, hlastdvd⟩ := hinferred.last
        constructor
        · rw [hfield]
          simp only [Layout.offsets, List.map_cons, DeclaredMember.field, hplace]
          exact congrArg _ hinferred.offsets
        · rw [hfield]
          simp only [Layout.finish, List.map_cons, DeclaredMember.field, hplace]
          exact hinferred.finish
        · intro f hf
          rw [hfield] at hf
          rcases List.mem_cons.mp hf with rfl | hf
          · exact hpow
          · exact hinferred.pow f hf
        · intro m' hm'
          rw [hfield]
          rcases List.mem_cons.mp hm' with rfl | hm'
          · exact ⟨_, List.mem_cons_self .., le_max_left _ _⟩
          · obtain ⟨f, hf, hle⟩ := hinferred.natural m' hm'
            exact ⟨f, List.mem_cons_of_mem _ hf, hle⟩
        · refine ⟨reach'', hlast, fun s hall hr => hlastdvd s ?_ ?_⟩
          · exact fun m' hm' => hall m' (List.mem_cons_of_mem m hm')
          · exact hdvd' s (hall m (List.mem_cons_self ..)) hr
        · intro s hall hr
          have ha := hall m (List.mem_cons_self ..)
          have htail := hinferred.dvd s (fun m' hm' => hall m' (List.mem_cons_of_mem m hm'))
            (hdvd' s ha hr)
          have hhead := hspoils s ha hr
          rw [hfield, List.forall_mem_cons, htail, hhead, ← or_imp]
          rfl

end Members

section Structs

variable {cachelineSize : ℕ} {ty : DeclaredStruct}

theorem typeNaturalAlignment_loaded (start : ℕ) (ms : List DeclaredMember) :
    (∀ m ∈ ms, m.natural ≤ typeNaturalAlignment (DeclaredStruct.loadedMembers start ms)) ∧
      (typeNaturalAlignment (DeclaredStruct.loadedMembers start ms) = 0 ∨
        ∃ m ∈ ms, typeNaturalAlignment (DeclaredStruct.loadedMembers start ms) =
          m.natural) := by
  induction ms generalizing start with
  | nil =>
      refine ⟨fun m hm => ?_, Or.inl rfl⟩
      nomatch hm
  | cons m ms ih =>
      obtain ⟨hle, hval⟩ := ih (roundUp m.alignment start + m.size)
      have hmod : m.natural % 65536 = m.natural := Nat.mod_eq_of_lt m.natural_lt
      simp only [DeclaredStruct.loadedMembers, typeNaturalAlignment, hmod]
      refine ⟨fun m' hm' => ?_, ?_⟩
      · rcases List.mem_cons.mp hm' with rfl | hm'
        · exact le_max_left _ _
        · exact (hle m' hm').trans (le_max_right _ _)
      · right
        rcases le_total (typeNaturalAlignment (DeclaredStruct.loadedMembers
          (roundUp m.alignment start + m.size) ms)) m.natural with h | h
        · exact ⟨m, List.mem_cons_self .., max_eq_left h⟩
        · rcases hval with hzero | ⟨m', hm', heq⟩
          · have hpos := Nat.pos_of_isPowerOfTwo m.natural_pow
            omega
          · exact ⟨m', List.mem_cons_of_mem m hm', (max_eq_right h).trans heq⟩

/-- The inferred alignment is a power of two that divides the size of the struct. -/
theorem inferredAlignment_dvd {natural last offset reach : ℕ}
    (hcache : cachelineSize.isPowerOfTwo) (hnat : 0 < natural) (h : Reach reach last offset)
    (hfits : offset * 8 < 4294967296) :
    (max 1 (classInferAlignment cachelineSize offset natural last)).isPowerOfTwo ∧
      max 1 (classInferAlignment cachelineSize offset natural last) ∣ offset := by
  rcases classInferAlignment_cases h.le hfits hnat h.pow h.dvd h.lt hcache with
    ⟨hval, -, -⟩ | ⟨hval, -, hle, -⟩ | ⟨hval, hwide⟩
  · rw [hval]
    exact ⟨Nat.isPowerOfTwo_one, one_dvd offset⟩
  · rw [hval, max_eq_right (Nat.one_le_two_pow)]
    have hpow := isPowerOfTwo_two_pow (offset - last).size
    exact ⟨hpow, (dvd_of_le hpow h.pow hle).trans h.dvd⟩
  · rw [hval, max_eq_right (Nat.pos_of_isPowerOfTwo hcache)]
    exact ⟨hcache, hwide.2.2.2⟩

/-- The natural alignment of a struct is no more than the alignment it gets from members
that have at least theirs. -/
theorem naturalAlignment_le {ms : List DeclaredMember} {fs : List Field} {least : ℕ}
    (hleast : 0 < least) (hms : ∀ m ∈ ms, ∃ f ∈ fs, m.natural ≤ f.alignment) :
    (if typeNaturalAlignment (DeclaredStruct.loadedMembers 0 ms) = 0 then 1
      else typeNaturalAlignment (DeclaredStruct.loadedMembers 0 ms)) ≤
        Layout.alignment least fs := by
  obtain ⟨-, hval⟩ := typeNaturalAlignment_loaded 0 ms
  split
  · exact hleast.trans_le (least_le_alignment least fs)
  · rename_i hne
    rcases hval with hzero | ⟨m, hm, heq⟩
    · exact absurd hzero hne
    · obtain ⟨f, hf, hle⟩ := hms m hm
      rw [heq]
      exact hle.trans (le_alignment hf)

theorem naturalAlignment_pow (ms : List DeclaredMember) :
    (if typeNaturalAlignment (DeclaredStruct.loadedMembers 0 ms) = 0 then 1
      else typeNaturalAlignment (DeclaredStruct.loadedMembers 0 ms)).isPowerOfTwo := by
  obtain ⟨-, hval⟩ := typeNaturalAlignment_loaded 0 ms
  split
  · exact Nat.isPowerOfTwo_one
  · rename_i hne
    rcases hval with hzero | ⟨m, -, heq⟩
    · exact absurd hzero hne
    · rw [heq]
      exact m.natural_pow

end Structs

/-- A member whose gap is widened to a cacheline, in a struct that is no multiple of a
cacheline. -/
def widenedStruct : DeclaredStruct where
  members :=
    [⟨58, 1, 1, false, by decide, by decide, by decide, by decide⟩,
      ⟨2, 2, 8, true, by decide, by decide, by decide, by decide⟩]
  alignment := 1
  alignment_pow := by decide
  fits := by decide

end Pahole
