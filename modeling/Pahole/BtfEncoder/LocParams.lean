import Pahole.BtfEncoder.CuSymbols

/-!
# Locations of the parameters of inline expansions

The encoder puts the location of a parameter into one or two values of 32 bits with flags,
and `pfunct` reads it back from them.  An address is encoded relative to the lowest address
of the object if it is not below that, and is taken to be relative always.
-/

namespace Pahole

/-! ## Recorded locations -/

/-- `PARAMETER_UNKNOWN_REG` -/
def parameterUnknownReg : ℤ := -1

namespace Parameter

/-- As `parameter__new` starts. -/
def new (name : Option String) (type : TypeId) (idx : ℕ) : Parameter where
  name := name
  type := type
  trueSigMemberName := none
  idx := idx
  hasLoc := false
  optimized := false
  locReg := parameterUnknownReg
  locReg2 := parameterUnknownReg
  locOffset := 0
  locValue := 0
  locSize := 0
  hasConstValue := false
  locConstValue := false
  locStack := false
  locDeref := false
  locAddr := false
  locSigned := false

/-- `INT32_MIN <= offset && offset <= INT32_MAX` -/
def IsInt32 (offset : ℤ) : Prop := -2147483648 ≤ offset ∧ offset ≤ 2147483647

instance (offset : ℤ) : Decidable (IsInt32 offset) := inferInstanceAs (Decidable (_ ∧ _))

/-- `parameter__set_loc_reg` -/
def setLocReg (parm : Parameter) (reg : ℤ) : Parameter :=
  if parm.locReg = parameterUnknownReg then { parm with locReg := reg } else parm

/-- `parameter__record_loc_reg` -/
def recordLocReg (parm : Parameter) (reg offset : ℤ) (isDeref : Bool) (size : ℕ) : Parameter :=
  if reg < dwOpReg0 ∨ size = 0 then parm
  else
    let parm := parm.setLocReg reg
    if parm.locReg ≠ reg then parm
    else if ¬IsInt32 offset then parm
    else { parm with locOffset := offset, locDeref := isDeref, locSize := size }

/-- `parameter__record_loc_reg_pair` -/
def recordLocRegPair (parm : Parameter) (reg reg2 : ℤ) (typeByteSize : ℕ) : Parameter :=
  if reg < dwOpReg0 ∨ reg2 < dwOpReg0 ∨ typeByteSize = 0 ∨ 16 < typeByteSize then parm
  else
    { parm with
      locReg := reg, locReg2 := reg2, locOffset := 0, locDeref := false, locSize := typeByteSize }

/-- `parameter__record_loc_const` -/
def recordLocConst (parm : Parameter) (value : BitVec 64) (size : ℕ) (isSigned isAddr : Bool) :
    Parameter :=
  if size = 0 then parm
  else
    { parm with
      locConstValue := true, locValue := value.toNat, locSize := size, locSigned := isSigned,
      locAddr := isAddr }

/-- `parameter__decode_location` at `DW_OP_fbreg`. -/
def recordFbreg (parm : Parameter) (offset : ℤ) (isDeref : Bool) (size : ℕ) : Parameter :=
  if size = 0 then parm
  else
    { parm with
      locStack := true, locOffset := if IsInt32 offset then offset else parm.locOffset,
      locSize := size, locDeref := isDeref }

end Parameter

/-! ## Reading it back -/

def btfLocParamSigned : ℕ := 0x1
def btfLocParamConst : ℕ := 0x2
def btfLocParamAddr : ℕ := 0x4
def btfLocParamReg : ℕ := 0x8
def btfLocParamDeref : ℕ := 0x10
def btfLocParamOffset : ℕ := 0x20
def btfLocParamFbreg : ℕ := 0xffffffff

/-- The register that `btf_reg_name` names. -/
inductive ShownReg where
  | fbreg
  | reg (reg : ℕ)
  deriving DecidableEq

/-- A location as `btf_inline_site__fprintf_loc` prints it: an address, or an offset from the
start of the section; a constant; a register, with a second one or an offset. -/
inductive ShownLoc where
  | addr (addr : BitVec 64)
  | sectionOffset (offset : BitVec 64)
  | signedConst (value : ℤ)
  | unsignedConst (value : ℕ)
  | reg (reg : ShownReg) (deref : Bool)
  | regOffset (reg : ShownReg) (offset : ℤ) (deref : Bool)
  | regPair (reg reg2 : ShownReg) (deref : Bool)
  deriving DecidableEq

/-- `btf_reg_name` -/
def btfRegName (reg : ℕ) : ShownReg := if reg = btfLocParamFbreg then .fbreg else .reg reg

/-- `(int32_t)value` -/
def int32 (value : ℕ) : ℤ := if value < 2147483648 then value else (value : ℤ) - 4294967296

/-- How `btf_inline_site__fprintf_loc` extends a constant by its sign. -/
def signExtended (size : ℕ) (value : BitVec 64) : BitVec 64 :=
  if size ≠ 0 ∧ size < 8 then
    let bits := size * 8
    if value &&& (1#64 <<< (bits - 1)) ≠ 0 then value ||| (BitVec.allOnes 64 <<< bits) else value
  else value

/-- `btf_inline_site__fprintf_loc`; nothing is shown where it returns false. -/
def btfInlineSiteFprintfLoc (size flags : ℕ) (values : List ℕ) (objectAddrBase : BitVec 64) :
    Option ShownLoc :=
  let value0 := values[0]?.getD 0
  let value1 := values[1]?.getD 0
  if flags &&& btfLocParamConst ≠ 0 then
    let value := BitVec.ofNat 64 value0
    let value := if 4 < size then value ||| (BitVec.ofNat 64 value1 <<< 32) else value
    if flags &&& btfLocParamAddr ≠ 0 then
      if objectAddrBase ≠ BitVec.allOnes 64 then some (.addr (objectAddrBase + value))
      else some (.sectionOffset value)
    else if flags &&& btfLocParamSigned ≠ 0 then
      some (.signedConst (signExtended size value).toInt)
    else some (.unsignedConst value.toNat)
  else if flags &&& btfLocParamReg = 0 then none
  else
    let reg := btfRegName value0
    let deref := decide (flags &&& btfLocParamDeref ≠ 0)
    if flags &&& btfLocParamOffset ≠ 0 then some (.regOffset reg (int32 value1) deref)
    else if flags = btfLocParamReg ∧ values.length = 2 then
      some (.regPair reg (btfRegName value1) deref)
    else some (.reg reg deref)

/-! ## Locations -/

/-- The locations that the loader keeps. -/
inductive Location where
  | const (value : BitVec 64) (size : ℕ) (isSigned : Bool)
  | addr (value : BitVec 64) (size : ℕ)
  | reg (reg : ℕ) (offset : ℤ) (deref : Bool) (size : ℕ)
  | regPair (reg reg2 size : ℕ)
  | frame (offset : ℤ) (deref : Bool) (size : ℕ)
  deriving DecidableEq

namespace Location

/-- The parameter with a location as the loader records it. -/
def keep (parm : Parameter) : Location → Parameter
  | const value size isSigned => parm.recordLocConst value size isSigned false
  | addr value size => parm.recordLocConst value size false true
  | reg r offset deref size => parm.recordLocReg (dwOpReg0 + r) offset deref size
  | regPair r r2 size => parm.recordLocRegPair (dwOpReg0 + r) (dwOpReg0 + r2) size
  | frame offset deref size => parm.recordFbreg offset deref size

/-- The locations that `parameter__record_loc_*` keep: constants and addresses of one to eight
bytes, registers below 32, and offsets that fit 32 bits. -/
def Kept : Location → Prop
  | const _ size _ => 1 ≤ size ∧ size ≤ 8
  | addr _ size => 1 ≤ size ∧ size ≤ 8
  | reg r offset _ size => r < 32 ∧ Parameter.IsInt32 offset ∧ 1 ≤ size ∧ size ≤ 16
  | regPair r r2 size => r < 32 ∧ r2 < 32 ∧ 1 ≤ size ∧ size ≤ 16
  | frame offset _ size => Parameter.IsInt32 offset ∧ 1 ≤ size ∧ size ≤ 16

/-- A register or the frame, with an offset that may be zero. -/
def shownOffset (reg : ShownReg) (offset : ℤ) (deref : Bool) : ShownLoc :=
  if offset = 0 then .reg reg deref else .regOffset reg offset deref

/-- How a location is shown. -/
def shown : Location → ShownLoc
  | const value _ true => .signedConst value.toInt
  | const value _ false => .unsignedConst value.toNat
  | addr value _ => .addr value
  | reg r offset deref _ => shownOffset (.reg r) offset deref
  | regPair r r2 _ => .regPair (.reg r) (.reg r2) false
  | frame offset deref _ => shownOffset .fbreg offset deref

/-- A constant of up to four bytes has no more than 32 bits, unless it is a negative one,
which has all bits from its sign on set; an address is not below the base, which is known,
and not too far above it for its size. -/
def Survives (base : BitVec 64) : Location → Prop
  | const value size isSigned =>
      if isSigned ∧ size < 8 ∧ value.getLsbD (size * 8 - 1) then
        ∀ i < 64, size * 8 ≤ i → value.getLsbD i
      else 4 < size ∨ value.toNat < 2 ^ 32
  | addr value size =>
      base ≠ BitVec.allOnes 64 ∧ base ≤ value ∧ (4 < size ∨ (value - base).toNat < 2 ^ 32)
  | _ => True

end Location

/-! ## Constants -/

section Constants

variable {value : BitVec 64} {size : ℕ}

/-- The words that a value is put into, read again. -/
theorem words_eq (value : BitVec 64) (size : ℕ) :
    (let values := (value.setWidth 32).toNat ::
        if 4 < size then [((value >>> 32).setWidth 32).toNat] else []
      let low := BitVec.ofNat 64 (values[0]?.getD 0)
      if 4 < size then low ||| (BitVec.ofNat 64 (values[1]?.getD 0) <<< 32) else low) =
      if 4 < size then value else (value.setWidth 32).setWidth 64 := by
  dsimp only
  split
  · apply BitVec.eq_of_getLsbD_eq
    intro i hi
    simp only [List.getElem?_cons_zero, List.getElem?_cons_succ, Option.getD_some,
      BitVec.ofNat_toNat, BitVec.getLsbD_or, BitVec.getLsbD_shiftLeft, BitVec.getLsbD_setWidth,
      BitVec.getLsbD_ushiftRight]
    by_cases hlow : i < 32
    · simp [hi, hlow]
    · have hsub : 32 + (i - 32) = i := by omega
      have hlt : i - 32 < 32 := by omega
      simp [hi, hlow, hsub, hlt, show i - 32 < 64 by omega]
  · simp only [List.getElem?_cons_zero, Option.getD_some, BitVec.ofNat_toNat]

theorem setWidth_eq_iff : (value.setWidth 32).setWidth 64 = value ↔ value.toNat < 2 ^ 32 := by
  rw [← BitVec.toNat_inj, BitVec.toNat_setWidth, BitVec.toNat_setWidth]
  have := value.isLt
  constructor
  · intro h
    omega
  · intro h
    rw [Nat.mod_eq_of_lt h, Nat.mod_eq_of_lt value.isLt]

/-- The words of a value, read back: all of it, or the low one. -/
def readBack (size : ℕ) (value : BitVec 64) : BitVec 64 :=
  if 4 < size then value else (value.setWidth 32).setWidth 64

theorem readBack_eq_iff : readBack size value = value ↔ 4 < size ∨ value.toNat < 2 ^ 32 := by
  rw [readBack]
  split
  · next h => exact ⟨fun _ => Or.inl h, fun _ => rfl⟩
  · next h => rw [setWidth_eq_iff, or_iff_right h]

theorem getLsbD_readBack {i : ℕ} (hi : i < size * 8) :
    (readBack size value).getLsbD i = value.getLsbD i := by
  rw [readBack]
  split
  · rfl
  · rw [BitVec.getLsbD_setWidth, BitVec.getLsbD_setWidth]
    simp [show i < 64 by omega, show i < 32 by omega]

theorem and_shiftLeft_ne_zero_iff {i : ℕ} (hi : i < 64) :
    value &&& (1#64 <<< i) ≠ 0 ↔ value.getLsbD i := by
  have hand := BitVec.and_twoPow value i
  rw [BitVec.twoPow] at hand
  rw [hand]
  cases hbit : value.getLsbD i with
  | false => simp
  | true =>
      have hne : (1#64 <<< i) ≠ 0#64 := fun hzero => by
        have hset : (1#64 <<< i).getLsbD i = true := by simp [hi]
        rw [hzero] at hset
        simp at hset
      simpa using hne

/-- A negative constant comes out as it is if all bits from its sign on are set. -/
theorem or_shiftLeft_eq_iff {low : BitVec 64} {bits : ℕ}
    (hlow : ∀ i < bits, low.getLsbD i = value.getLsbD i) :
    low ||| (BitVec.allOnes 64 <<< bits) = value ↔ ∀ i < 64, bits ≤ i → value.getLsbD i := by
  have hbit (i : ℕ) (hi : i < 64) : (low ||| (BitVec.allOnes 64 <<< bits)).getLsbD i =
      (low.getLsbD i || decide (bits ≤ i)) := by
    rw [BitVec.getLsbD_or, BitVec.getLsbD_shiftLeft, BitVec.getLsbD_allOnes]
    by_cases hle : bits ≤ i
    · simp [hi, hle, show i - bits < 64 by omega]
    · simp [show i < bits by omega, hle]
  constructor
  · intro h i hi hle
    rw [← h, hbit i hi]
    simp [hle]
  · intro h
    apply BitVec.eq_of_getLsbD_eq
    intro i hi
    rw [hbit i hi]
    by_cases hle : bits ≤ i
    · simp [hle, h i hi hle]
    · simp [hle, hlow i (not_le.mp hle)]

theorem signExtended_eq_iff (hpos : 1 ≤ size) (hle : size ≤ 8) :
    signExtended size (readBack size value) = value ↔
      if size < 8 ∧ value.getLsbD (size * 8 - 1) then
        ∀ i < 64, size * 8 ≤ i → value.getLsbD i
      else 4 < size ∨ value.toNat < 2 ^ 32 := by
  have hsign : readBack size value &&& (1#64 <<< (size * 8 - 1)) ≠ 0 ↔
      value.getLsbD (size * 8 - 1) := by
    rw [and_shiftLeft_ne_zero_iff (by omega), getLsbD_readBack (by omega)]
  rw [signExtended]
  by_cases hsize : size < 8
  · rw [if_pos ⟨by omega, hsize⟩]
    dsimp only
    by_cases hbit : value.getLsbD (size * 8 - 1)
    · rw [if_pos (hsign.mpr hbit), if_pos ⟨hsize, hbit⟩]
      exact or_shiftLeft_eq_iff fun i hi => getLsbD_readBack hi
    · rw [if_neg fun h => hbit (hsign.mp h), if_neg fun h => hbit h.2]
      exact readBack_eq_iff
  · rw [if_neg fun h => hsize h.2, if_neg fun h => hsize h.1]
    exact readBack_eq_iff

/-- An address that is not below the base comes out as it is, if the rest fits. -/
theorem base_add_readBack_eq_iff {base : BitVec 64} :
    base + readBack size (if base ≤ value then value - base else value) = value ↔
      base ≤ value ∧ (4 < size ∨ (value - base).toNat < 2 ^ 32) := by
  by_cases hle : base ≤ value
  · rw [if_pos hle, and_iff_right hle, ← readBack_eq_iff]
    constructor
    · intro h
      rw [← BitVec.add_sub_cancel (readBack size (value - base)) base, BitVec.add_comm, h]
    · intro h
      rw [h, BitVec.add_comm, BitVec.sub_add_cancel]
  · rw [if_neg hle]
    refine ⟨fun h => ?_, fun h => absurd h.1 hle⟩
    have hlt : value.toNat < base.toNat := by
      rw [BitVec.le_def] at hle
      omega
    have hnat := congrArg BitVec.toNat h
    rw [BitVec.toNat_add, readBack] at hnat
    have hbase := base.isLt
    split at hnat
    · omega
    · rw [BitVec.toNat_setWidth, BitVec.toNat_setWidth] at hnat
      omega

end Constants

/-! ## Encoding and reading back -/

/-- `addr_base` of the encoder, from the lowest address of an allocated section, which is
the highest one if there is none. -/
def encoderAddrBase (lowest : BitVec 64) : BitVec 64 :=
  if lowest = BitVec.allOnes 64 then 0 else lowest

namespace LocParam

/-- The location that is shown for a LOC_PARAM. -/
def shown (lp : LocParam) (objectAddrBase : BitVec 64) : Option ShownLoc :=
  btfInlineSiteFprintfLoc lp.size lp.flags lp.values objectAddrBase

/-- A constant or an address in its words. -/
def words (size flags : ℕ) (value : BitVec 64) : LocParam where
  size := size
  flags := flags
  values := (value.setWidth 32).toNat ::
    if 4 < size then [((value >>> 32).setWidth 32).toNat] else []

/-- The flags of a constant or an address. -/
def constFlags (isAddr isSigned : Bool) : ℕ :=
  0x2 ||| (if isAddr then 0x4 else 0) ||| if isSigned then 0x1 else 0

/-- A register, or the frame, with an offset that may be zero. -/
def regOffset (size reg : ℕ) (offset : ℤ) (deref : Bool) : LocParam where
  size := size
  flags := 0x8 ||| (if deref then 0x10 else 0) ||| if offset ≠ 0 then 0x20 ||| 0x1 else 0
  values := reg :: if offset ≠ 0 then [u32 offset] else []

end LocParam

section Encoding

variable {param : Parameter} {base : ℕ}

theorem u32_toNat (value : BitVec 64) : u32 value.toNat = (value.setWidth 32).toNat := by
  rw [u32, BitVec.toNat_setWidth]
  omega

theorem locParamOf_const (hconst : param.locConstValue = true) (hpos : 1 ≤ param.locSize)
    (hle : param.locSize ≤ 8) {value : BitVec 64}
    (hvalue : (if param.locAddr ∧ base ≤ param.locValue then param.locValue - base
      else param.locValue) = value.toNat) :
    locParamOf param base =
      LocParam.words param.locSize (LocParam.constFlags param.locAddr param.locSigned) value := by
  have hne : param.locSize ≠ 0 := Nat.one_le_iff_ne_zero.mp hpos
  have hhigh : u32 ((value.toNat / 4294967296 : ℕ) : ℤ) =
      ((value >>> 32).setWidth 32).toNat := by
    rw [← u32_toNat, BitVec.toNat_ushiftRight, Nat.shiftRight_eq_div_pow]
  rw [locParamOf, if_pos ⟨Or.inl hconst, hne⟩, if_pos hne, if_neg (not_lt.mpr hle), hvalue]
  dsimp only
  rw [LocParam.words, u32_toNat, ← hhigh]
  rfl

/-- The parameter recorded for a location without a constant value: a register pair, a register
with an offset, or an address. -/
theorem locParamOf_of_not_const (hconst : param.locConstValue = false)
    (hattr : param.hasConstValue = false) (hsize : param.locSize ≠ 0) :
    locParamOf param base =
      if dwOpReg0 ≤ param.locReg ∧ dwOpReg0 ≤ param.locReg2 then
        ⟨0x8, [u32 (param.locReg - dwOpReg0), u32 (param.locReg2 - dwOpReg0)], param.locSize⟩
      else if dwOpReg0 ≤ param.locReg then
        LocParam.regOffset param.locSize (u32 (param.locReg - dwOpReg0)) param.locOffset
          param.locDeref
      else if param.locStack then
        LocParam.regOffset param.locSize uint32Max param.locOffset param.locDeref
      else LocParam.zero := by
  have hne : ¬((param.locConstValue = true ∨ param.hasConstValue = true) ∧ param.locSize ≠ 0) := by
    simp [hconst, hattr]
  rw [locParamOf, if_neg hne, if_pos hsize]
  rfl

theorem locParamOf_of_stack (hconst : param.locConstValue = false)
    (hattr : param.hasConstValue = false) (hsize : param.locSize ≠ 0)
    (hreg : ¬dwOpReg0 ≤ param.locReg) (hstack : param.locStack = true) :
    locParamOf param base =
      LocParam.regOffset param.locSize btfLocParamFbreg param.locOffset param.locDeref := by
  rw [locParamOf_of_not_const hconst hattr hsize, if_neg fun h => hreg h.1, if_neg hreg,
    if_pos hstack]
  rfl

end Encoding

section Shown

variable {base value : BitVec 64} {size : ℕ}

theorem shown_unsignedConst :
    (LocParam.words size btfLocParamConst value).shown base =
      some (.unsignedConst (readBack size value).toNat) := by
  rw [LocParam.shown, LocParam.words, btfInlineSiteFprintfLoc,
    if_pos (by decide : btfLocParamConst &&& btfLocParamConst ≠ 0),
    if_neg (by decide : ¬btfLocParamConst &&& btfLocParamAddr ≠ 0),
    if_neg (by decide : ¬btfLocParamConst &&& btfLocParamSigned ≠ 0), readBack, ← words_eq]

theorem shown_signedConst :
    (LocParam.words size (btfLocParamConst ||| btfLocParamSigned) value).shown base =
      some (.signedConst (signExtended size (readBack size value)).toInt) := by
  rw [LocParam.shown, LocParam.words, btfInlineSiteFprintfLoc,
    if_pos (by decide : (btfLocParamConst ||| btfLocParamSigned) &&& btfLocParamConst ≠ 0),
    if_neg (by decide : ¬(btfLocParamConst ||| btfLocParamSigned) &&& btfLocParamAddr ≠ 0),
    if_pos (by decide : (btfLocParamConst ||| btfLocParamSigned) &&& btfLocParamSigned ≠ 0),
    readBack, ← words_eq]

theorem shown_addr :
    (LocParam.words size (btfLocParamConst ||| btfLocParamAddr) value).shown base =
      if base ≠ BitVec.allOnes 64 then some (.addr (base + readBack size value))
      else some (.sectionOffset (readBack size value)) := by
  rw [LocParam.shown, LocParam.words, btfInlineSiteFprintfLoc,
    if_pos (by decide : (btfLocParamConst ||| btfLocParamAddr) &&& btfLocParamConst ≠ 0),
    if_pos (by decide : (btfLocParamConst ||| btfLocParamAddr) &&& btfLocParamAddr ≠ 0),
    readBack, ← words_eq]

theorem int32_u32 {offset : ℤ} (h : Parameter.IsInt32 offset) : int32 (u32 offset) = offset := by
  obtain ⟨hlow, hhigh⟩ := h
  rw [int32, u32]
  split <;> omega

/-- A register with an offset of 32 bits is decoded to this register and offset. -/
theorem shown_regOffset {reg : ℕ} {offset : ℤ} {deref : Bool} (h : Parameter.IsInt32 offset) :
    (LocParam.regOffset size reg offset deref).shown base =
      some (Location.shownOffset (btfRegName reg) offset deref) := by
  rw [LocParam.shown, LocParam.regOffset, btfInlineSiteFprintfLoc, Location.shownOffset]
  by_cases hzero : offset = 0
  · rw [if_pos hzero]
    cases deref with
    | false => simp [hzero, btfLocParamConst, btfLocParamReg, btfLocParamOffset, btfLocParamDeref]
    | true => simp [hzero, btfLocParamConst, btfLocParamReg, btfLocParamOffset, btfLocParamDeref]
  · rw [if_neg hzero]
    cases deref with
    | false => simp [hzero, int32_u32 h, btfLocParamConst, btfLocParamReg, btfLocParamOffset,
        btfLocParamDeref]
    | true => simp [hzero, int32_u32 h, btfLocParamConst, btfLocParamReg, btfLocParamOffset,
        btfLocParamDeref]

theorem shown_regPair {reg reg2 : ℕ} :
    (⟨0x8, [reg, reg2], size⟩ : LocParam).shown base =
      some (.regPair (btfRegName reg) (btfRegName reg2) false) := by
  change (⟨btfLocParamReg, [reg, reg2], size⟩ : LocParam).shown base = _
  rw [LocParam.shown, btfInlineSiteFprintfLoc,
    if_neg (by decide : ¬btfLocParamReg &&& btfLocParamConst ≠ 0),
    if_neg (by decide : ¬btfLocParamReg &&& btfLocParamReg = 0),
    if_neg (by decide : ¬btfLocParamReg &&& btfLocParamOffset ≠ 0), if_pos ⟨rfl, rfl⟩,
    decide_eq_false (by decide : ¬btfLocParamReg &&& btfLocParamDeref ≠ 0)]
  rfl

end Shown

section Locations

variable {name : Option String} {type : TypeId} {idx : ℕ} {lowest value : BitVec 64} {size : ℕ}

/-- A constant or an address is encoded in its words. -/
theorem locParamOf_recordLocConst {isSigned isAddr : Bool} {base : ℕ} {value' : BitVec 64}
    (hpos : 1 ≤ size) (hle : size ≤ 8)
    (hvalue : (if isAddr ∧ base ≤ value.toNat then value.toNat - base else value.toNat) =
      value'.toNat) :
    locParamOf ((Parameter.new name type idx).recordLocConst value size isSigned isAddr) base =
      LocParam.words size (LocParam.constFlags isAddr isSigned) value' := by
  rw [Parameter.recordLocConst, if_neg (Nat.one_le_iff_ne_zero.mp hpos)]
  exact locParamOf_const rfl hpos hle hvalue

theorem encode_const {isSigned : Bool} {base : ℕ} (hpos : 1 ≤ size) (hle : size ≤ 8) :
    locParamOf ((Location.const value size isSigned).keep (Parameter.new name type idx)) base =
      LocParam.words size (LocParam.constFlags false isSigned) value := by
  rw [Location.keep, locParamOf_recordLocConst hpos hle (if_neg fun h => Bool.false_ne_true h.1)]

theorem toNat_relative (value base : BitVec 64) :
    (if base.toNat ≤ value.toNat then value.toNat - base.toNat else value.toNat) =
      (if base ≤ value then value - base else value).toNat := by
  by_cases hle : base ≤ value
  · rw [if_pos hle, if_pos (BitVec.le_def.mp hle), BitVec.toNat_sub_of_le hle]
  · rw [if_neg hle, if_neg fun h => hle (BitVec.le_def.mpr h)]

theorem encode_addr {base : BitVec 64} (hpos : 1 ≤ size) (hle : size ≤ 8) :
    locParamOf ((Location.addr value size).keep (Parameter.new name type idx)) base.toNat =
      LocParam.words size (LocParam.constFlags true false)
        (if base ≤ value then value - base else value) := by
  have hvalue : (if true ∧ base.toNat ≤ value.toNat then value.toNat - base.toNat
      else value.toNat) = (if base ≤ value then value - base else value).toNat := by
    simp only [true_and, toNat_relative]
  rw [Location.keep, locParamOf_recordLocConst hpos hle hvalue]

/-- Subtracting `DW_OP_reg0` from the opcode of one of the 32 registers gives its number. -/
theorem u32_reg {r : ℕ} (hr : r < 32) : u32 (dwOpReg0 + r - dwOpReg0) = r := by
  rw [add_sub_cancel_left]
  exact u32_of_lt (by omega)

theorem unknownReg_lt : ¬dwOpReg0 ≤ parameterUnknownReg := by decide

theorem setLocReg_new (reg : ℤ) :
    (Parameter.new name type idx).setLocReg reg =
      { Parameter.new name type idx with locReg := reg } :=
  if_pos rfl

theorem encode_reg {r : ℕ} {offset : ℤ} {deref : Bool} {base : ℕ} (hr : r < 32)
    (hoffset : Parameter.IsInt32 offset) (hpos : 1 ≤ size) :
    locParamOf ((Location.reg r offset deref size).keep (Parameter.new name type idx)) base =
      LocParam.regOffset size r offset deref := by
  have hne : size ≠ 0 := Nat.one_le_iff_ne_zero.mp hpos
  have hle : dwOpReg0 ≤ dwOpReg0 + (r : ℤ) := by omega
  have hkeep : (Location.reg r offset deref size).keep (Parameter.new name type idx) =
      { Parameter.new name type idx with
        locReg := dwOpReg0 + r, locOffset := offset, locDeref := deref, locSize := size } := by
    rw [Location.keep, Parameter.recordLocReg, if_neg (by omega), setLocReg_new]
    dsimp only
    rw [if_neg (not_not.mpr rfl), if_neg (not_not.mpr hoffset)]
  rw [hkeep, locParamOf_of_not_const rfl rfl hne, if_neg fun h => unknownReg_lt h.2, if_pos hle]
  dsimp only
  rw [u32_reg hr]

theorem encode_frame {offset : ℤ} {deref : Bool} {base : ℕ} (hoffset : Parameter.IsInt32 offset)
    (hpos : 1 ≤ size) :
    locParamOf ((Location.frame offset deref size).keep (Parameter.new name type idx)) base =
      LocParam.regOffset size btfLocParamFbreg offset deref := by
  have hne : size ≠ 0 := Nat.one_le_iff_ne_zero.mp hpos
  have hkeep : (Location.frame offset deref size).keep (Parameter.new name type idx) =
      { Parameter.new name type idx with
        locStack := true, locOffset := offset, locSize := size, locDeref := deref } := by
    rw [Location.keep, Parameter.recordFbreg, if_neg hne, if_pos hoffset]
  rw [hkeep, locParamOf_of_stack rfl rfl hne unknownReg_lt rfl]

theorem encode_regPair {r r2 : ℕ} {base : ℕ} (hr : r < 32) (hr2 : r2 < 32) (hpos : 1 ≤ size)
    (hle : size ≤ 16) :
    locParamOf ((Location.regPair r r2 size).keep (Parameter.new name type idx)) base =
      ⟨0x8, [r, r2], size⟩ := by
  have hne : size ≠ 0 := Nat.one_le_iff_ne_zero.mp hpos
  have hfst : dwOpReg0 ≤ dwOpReg0 + (r : ℤ) := by omega
  have hsnd : dwOpReg0 ≤ dwOpReg0 + (r2 : ℤ) := by omega
  have hkeep : (Location.regPair r r2 size).keep (Parameter.new name type idx) =
      { Parameter.new name type idx with
        locReg := dwOpReg0 + r, locReg2 := dwOpReg0 + r2, locOffset := 0, locDeref := false,
        locSize := size } := by
    rw [Location.keep, Parameter.recordLocRegPair, if_neg (by omega)]
  rw [hkeep, locParamOf_of_not_const rfl rfl hne, if_pos ⟨hfst, hsnd⟩]
  dsimp only
  rw [u32_reg hr, u32_reg hr2]

/-- Zero stands for a location that is not available, and a location that is kept has a
size. -/
theorem size_ne_zero {loc : Location} {base : BitVec 64} (h : loc.Kept) :
    (locParamOf (loc.keep (Parameter.new name type idx)) base.toNat).size ≠ 0 := by
  cases loc with
  | const value size isSigned =>
      rw [encode_const h.1 h.2]
      exact Nat.one_le_iff_ne_zero.mp h.1
  | addr value size =>
      rw [encode_addr h.1 h.2]
      exact Nat.one_le_iff_ne_zero.mp h.1
  | reg r offset deref size =>
      rw [encode_reg h.1 h.2.1 h.2.2.1]
      exact Nat.one_le_iff_ne_zero.mp h.2.2.1
  | regPair r r2 size =>
      rw [encode_regPair h.1 h.2.1 h.2.2.1 h.2.2.2]
      exact Nat.one_le_iff_ne_zero.mp h.2.2.1
  | frame offset deref size =>
      rw [encode_frame h.1 h.2.1]
      exact Nat.one_le_iff_ne_zero.mp h.2.1

theorem shown_const_iff {isSigned : Bool} (hpos : 1 ≤ size) (hle : size ≤ 8) :
    (LocParam.words size (LocParam.constFlags false isSigned) value).shown lowest =
        some (Location.const value size isSigned).shown ↔
      (Location.const value size isSigned).Survives lowest := by
  cases isSigned with
  | false =>
      have hflags : LocParam.constFlags false false = btfLocParamConst := by decide
      rw [hflags, shown_unsignedConst, Location.shown, Location.Survives, Option.some.injEq,
        ShownLoc.unsignedConst.injEq, BitVec.toNat_inj, readBack_eq_iff]
      simp
  | true =>
      have hflags : LocParam.constFlags false true = btfLocParamConst ||| btfLocParamSigned := by
        decide
      rw [hflags, shown_signedConst, Location.shown, Location.Survives, Option.some.injEq,
        ShownLoc.signedConst.injEq, BitVec.toInt_inj, signExtended_eq_iff hpos hle]
      simp

theorem shown_addr_iff :
    (LocParam.words size (LocParam.constFlags true false)
        (if encoderAddrBase lowest ≤ value then value - encoderAddrBase lowest
          else value)).shown lowest =
        some (Location.addr value size).shown ↔
      (Location.addr value size).Survives lowest := by
  have hflags : LocParam.constFlags true false = btfLocParamConst ||| btfLocParamAddr := by decide
  rw [hflags, shown_addr, Location.shown, Location.Survives]
  by_cases hbase : lowest = BitVec.allOnes 64
  · rw [if_neg (not_not.mpr hbase)]
    simp [hbase]
  · rw [if_pos hbase, and_iff_right hbase, Option.some.injEq, ShownLoc.addr.injEq,
      encoderAddrBase, if_neg hbase, base_add_readBack_eq_iff]

/-- A register number below 32 is printed as a register, not as the frame. -/
theorem btfRegName_of_lt {r : ℕ} (hr : r < 32) : btfRegName r = .reg r :=
  if_neg (by rw [btfLocParamFbreg]; omega)

/-- The location that is shown is the one that was encoded exactly when it survives. -/
theorem shown_iff_survives {loc : Location} (h : loc.Kept) :
    (locParamOf (loc.keep (Parameter.new name type idx)) (encoderAddrBase lowest).toNat).shown
        lowest = some loc.shown ↔
      loc.Survives lowest := by
  cases loc with
  | const value size isSigned =>
      rw [encode_const h.1 h.2]
      exact shown_const_iff h.1 h.2
  | addr value size =>
      rw [encode_addr h.1 h.2]
      exact shown_addr_iff
  | reg r offset deref size =>
      rw [encode_reg h.1 h.2.1 h.2.2.1, shown_regOffset h.2.1, btfRegName_of_lt h.1]
      exact iff_of_true rfl trivial
  | regPair r r2 size =>
      rw [encode_regPair h.1 h.2.1 h.2.2.1 h.2.2.2, shown_regPair, btfRegName_of_lt h.1,
        btfRegName_of_lt h.2.1]
      exact iff_of_true rfl trivial
  | frame offset deref size =>
      rw [encode_frame h.1 h.2.1, shown_regOffset h.1]
      exact iff_of_true rfl trivial

end Locations

end Pahole
