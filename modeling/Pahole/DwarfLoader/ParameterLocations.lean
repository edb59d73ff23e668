import Mathlib.Data.List.Basic
import Mathlib.Tactic.Common

/-!
# Locations of parameters

The registers that the loader expects parameters in, and those that the platform ABI
assigns to arguments of integer class.
-/

namespace Pahole

inductive AbiArch where
  | x86_64
  | aarch64
  deriving DecidableEq

namespace AbiArch

/-- `arch__nr_register_params` -/
def nrRegisterParams : AbiArch → ℕ
  | .x86_64 => 6
  | .aarch64 => 8

/-- `arch__set_register_params`, by the number of the DWARF register. -/
def registerParams : AbiArch → List ℕ
  | .x86_64 => [5, 4, 1, 2, 8, 9]
  | .aarch64 => [0, 1, 2, 3, 4, 5, 6, 7]

/-- `arch__arg_align_two_regs` -/
def argAlignTwoRegs : AbiArch → Bool
  | .x86_64 => false
  | .aarch64 => true

end AbiArch

inductive ArgType where
  | scalar
  | pointer
  | struct
  | union
  | const (type : ArgType)
  | typedef (type : ArgType)
  | volatile (type : ArgType)

/-- `param__is_struct` -/
def ArgType.isStruct : ArgType → Bool
  | .struct => true
  | .const type => type.isStruct
  | .typedef type => type.isStruct
  | _ => false

/-- An argument of integer class.  `alignment` is the natural alignment of the ABI and
`natural` that of `tag__natural_alignment`.  `memberType` is the type of the member that
may stand for it in a true signature. -/
structure AbiArg where
  type : ArgType
  size : ℕ
  alignment : ℕ
  natural : ℕ
  hasUnalignedFields : Bool
  memberType : ArgType

/-- The location of a parameter as `parameter__new` records it. -/
structure ParamLoc where
  hasLoc : Bool
  hasConstValue : Bool
  locConstValue : Bool
  locStack : Bool
  locDeref : Bool
  locReg : Option ℕ
  firstRegFields : Bool
  secondRegFields : Bool
  hasTrueSigMember : Bool

structure LocatedParam where
  arg : AbiArg
  loc : ParamLoc

namespace AbiArg

/-- `type_byte_size` has 16 bits. -/
def typeByteSize (arg : AbiArg) : ℕ := arg.size % 65536

def passedInMemory (arg : AbiArg) : Bool := 2 * 8 < arg.typeByteSize

/-- `parameter__abi_slots` -/
def abiSlots (arg : AbiArg) : ℕ :=
  if arg.typeByteSize ≤ 8 then 1
  else
    let slots := (arg.typeByteSize + 8 - 1) / 8
    if 0 < slots then slots else 1

def regSlots (arg : AbiArg) : ℕ := if arg.passedInMemory then 1 else arg.abiSlots

/-- `parameter__abi_reg_align` -/
def abiRegAlign (arch : AbiArch) (arg : AbiArg) : ℕ :=
  if !arch.argAlignTwoRegs || arg.typeByteSize ≤ 8 then 1 else if 8 < arg.natural then 2 else 1

/-- `parameter__align_reg_idx` -/
def alignRegIdx (arch : AbiArch) (arg : AbiArg) (regIdx : ℕ) : ℕ :=
  let align := arg.abiRegAlign arch
  (regIdx + align - 1) / align * align

/-- The index at which a parameter is looked for. -/
def regIdx (arch : AbiArch) (arg : AbiArg) (idx : ℕ) : ℕ :=
  if arg.passedInMemory then idx else arg.alignRegIdx arch idx

end AbiArg

structure ParamFlags where
  optimized : Bool
  unexpectedReg : Bool
  /-- The parameter has got the type of its member. -/
  replaced : Bool

namespace ParamFlags

def plain : ParamFlags := ⟨false, false, false⟩
def isOptimized : ParamFlags := ⟨true, false, false⟩
def isUnexpected : ParamFlags := ⟨false, true, false⟩
def isReplaced : ParamFlags := ⟨false, false, true⟩

end ParamFlags

section Loader

variable (arch : AbiArch)

/-- `ftype__next_parameter_preserves_slots` -/
def nextParameterPreservesSlots (next : Option LocatedParam) (regIdx slots : ℕ) : Bool :=
  match next with
  | none => false
  | some next =>
      match next.loc.locReg with
      | none => false
      | some reg =>
          let nextRegIdx := next.arg.alignRegIdx arch (regIdx + slots)
          nextRegIdx < arch.nrRegisterParams && arch.registerParams[nextRegIdx]? == some reg

/-- `parameter__reg_in_expected_window` -/
def regInExpectedWindow (reg regIdx slots : ℕ) : Bool :=
  (List.range slots).any fun i => arch.registerParams[regIdx + i]? == some reg

/-- `function__match_clang_parameter_locations` -/
def matchClangParameterLocations : ℕ → List LocatedParam → List ParamFlags
  | _, [] => []
  | regIdx, pos :: parms =>
      if pos.arg.passedInMemory then
        .plain :: matchClangParameterLocations regIdx parms
      else
        let regIdx := pos.arg.alignRegIdx arch regIdx
        if arch.nrRegisterParams ≤ regIdx then (pos :: parms).map fun _ => .plain
        else
          let unexpected := !pos.loc.locDeref && match pos.loc.locReg with
            | none => false
            | some reg => !regInExpectedWindow arch reg regIdx pos.arg.abiSlots
          (if unexpected then .isUnexpected else .plain) ::
            matchClangParameterLocations (regIdx + pos.arg.abiSlots) parms

/-- One turn of the loop of `function__analyze_parameter_locations`, and the index of the
next register. -/
def analyzeParameter (producerClang trueSigEnabled : Bool) (regIdx : ℕ) (pos : LocatedParam)
    (next : Option LocatedParam) : ParamFlags × ℕ :=
  let slots := pos.arg.abiSlots
  let regSlots := pos.arg.regSlots
  let regIdx := pos.arg.regIdx arch regIdx
  let regsAvailable := decide (regIdx < arch.nrRegisterParams)
  if pos.loc.hasLoc then
    if trueSigEnabled && pos.loc.locConstValue then (.isOptimized, regIdx)
    else if !regsAvailable then (.plain, regIdx)
    else if trueSigEnabled && pos.loc.locStack then
      if pos.arg.passedInMemory then (.plain, regIdx) else (.isUnexpected, regIdx + regSlots)
    else
      match pos.loc.locReg with
      | none => (if trueSigEnabled then .isUnexpected else .isOptimized, regIdx + regSlots)
      | some reg =>
          if arch.registerParams[regIdx]? ≠ some reg then (.isUnexpected, regIdx + regSlots)
          else if trueSigEnabled && (pos.loc.firstRegFields || pos.loc.secondRegFields) then
            if pos.loc.firstRegFields && pos.loc.secondRegFields then (.plain, regIdx + slots)
            else if nextParameterPreservesSlots arch next regIdx slots then
              (.plain, regIdx + slots)
            else if pos.loc.hasTrueSigMember then (.isReplaced, regIdx + 1)
            else (.plain, regIdx + regSlots)
          else (.plain, regIdx + regSlots)
  else if pos.loc.hasConstValue && !producerClang then (.isOptimized, regIdx + regSlots)
  else if trueSigEnabled then
    if regsAvailable && nextParameterPreservesSlots arch next regIdx slots then
      (.plain, regIdx + slots)
    else (.isOptimized, regIdx)
  else (.plain, regIdx + regSlots)

/-- The loop of `function__analyze_parameter_locations`. -/
def analyzeParameters (producerClang trueSigEnabled : Bool) :
    ℕ → List LocatedParam → List ParamFlags
  | _, [] => []
  | regIdx, pos :: parms =>
      let analyzed := analyzeParameter arch producerClang trueSigEnabled regIdx pos parms.head?
      analyzed.1 :: analyzeParameters producerClang trueSigEnabled analyzed.2 parms

end Loader

/-- A function, its CU and the configuration.  Only clang tells that a signature has
changed. -/
structure AnalyzedFunction where
  arch : AbiArch
  producerClang : Bool
  signatureChanged : Bool
  trueSignature : Bool
  inlined : Bool
  /-- The return value is of class memory. -/
  returnsInMemory : Bool
  changed : signatureChanged = true → producerClang = true

namespace AnalyzedFunction

variable (fn : AnalyzedFunction)

def trueSigEnabled : Bool := fn.trueSignature && fn.signatureChanged

def checkLocations : Bool := !fn.producerClang || fn.signatureChanged

/-- `function__analyze_parameter_locations` -/
def analyze (parms : List LocatedParam) : List ParamFlags :=
  if fn.checkLocations then
    analyzeParameters fn.arch fn.producerClang fn.trueSigEnabled 0 parms
  else matchClangParameterLocations fn.arch 0 parms

/-- `param__is_struct` of a parameter that has been analyzed. -/
def isStructParam (pos : LocatedParam) (flags : ParamFlags) : Bool :=
  if flags.replaced then pos.arg.memberType.isStruct else pos.arg.type.isStruct

/-- `unexpected_reg` of the prototype after `cu__resolve_func_ret_types_optimized`. -/
def unexpectedReg (parms : List LocatedParam) : Bool :=
  if fn.inlined then false
  else
    let flags := fn.analyze parms
    flags.any ParamFlags.unexpectedReg &&
      !(parms.zip flags).any fun parm => isStructParam parm.1 parm.2

end AnalyzedFunction

/-! ## The platform ABIs -/

/-- The first register of an argument, if it is passed in registers, and the number of the
next register. -/
def AbiArg.place (arch : AbiArch) (next : ℕ) (arg : AbiArg) : Option ℕ × ℕ :=
  let regs := (arg.size + 7) / 8
  if arg.size = 0 then (none, next)
  else
    match arch with
    | .x86_64 =>
        if arg.size ≤ 16 ∧ arg.hasUnalignedFields = false ∧ next + regs ≤ 6 then
          (some next, next + regs)
        else (none, next)
    | .aarch64 =>
        if 16 < arg.size then (none, min (next + 1) 8)
        else
          let first := if 8 < arg.alignment then (next + 1) / 2 * 2 else next
          if first + regs ≤ 8 then (some first, first + regs) else (none, 8)

/-- A parameter passed in registers has the location of its first register, and one passed in
memory has no register. -/
def ParamLoc.Conforms (arch : AbiArch) (loc : ParamLoc) : Option ℕ → Prop
  | some first => loc.hasLoc = true ∧ loc.locReg = arch.registerParams[first]? ∧
      loc.locStack = false ∧ loc.locConstValue = false
  | none => loc.locReg = none

def ConformFrom (arch : AbiArch) : ℕ → List LocatedParam → Prop
  | _, [] => True
  | next, pos :: parms =>
      pos.loc.Conforms arch (pos.arg.place arch next).1 ∧
        ConformFrom arch (pos.arg.place arch next).2 parms

namespace AnalyzedFunction

variable (fn : AnalyzedFunction)

/-- The register of the first argument.  On x86-64 the address of a return value in memory
comes before it. -/
def firstArg : ℕ :=
  match fn.arch with
  | .x86_64 => if fn.returnsInMemory then 1 else 0
  | .aarch64 => 0

/-- For all parameters of the arguments that are located where the ABI assigns them,
`unexpected_reg` stays clear. -/
def NoFalsePositive (args : List AbiArg) : Prop :=
  ∀ parms : List LocatedParam, parms.map LocatedParam.arg = args →
    ConformFrom fn.arch fn.firstArg parms → fn.unexpectedReg parms = false

end AnalyzedFunction

/-! ## Agreement of the loader with the ABI -/

section Agree

variable (arch : AbiArch)

/-- For clang: as long as registers are left, the first register of an argument is among
those that are counted for it. -/
def WindowsAgree : ℕ → ℕ → List AbiArg → Prop
  | _, _, [] => True
  | next, idx, arg :: args =>
      if arg.passedInMemory then WindowsAgree (arg.place arch next).2 idx args
      else if arch.nrRegisterParams ≤ arg.alignRegIdx arch idx then True
      else
        (∀ first, (arg.place arch next).1 = some first →
          arg.alignRegIdx arch idx ≤ first ∧
            first < arg.alignRegIdx arch idx + arg.abiSlots) ∧
        WindowsAgree (arg.place arch next).2 (arg.alignRegIdx arch idx + arg.abiSlots) args

/-- As long as registers are left, an argument that is passed in registers starts with the
one that is counted for it. -/
def IndicesAgree : ℕ → ℕ → List AbiArg → Prop
  | _, _, [] => True
  | next, idx, arg :: args =>
      if arch.nrRegisterParams ≤ arg.regIdx arch idx then True
      else
        (∀ first, (arg.place arch next).1 = some first → first = arg.regIdx arch idx) ∧
        IndicesAgree (arg.place arch next).2 (arg.regIdx arch idx + arg.regSlots) args

/-- `ftype__next_parameter_preserves_slots`, when the next parameter is where the ABI wants it. -/
def nextPreserves (next idx : ℕ) (args : List AbiArg) : Bool :=
  match args.head? with
  | none => false
  | some arg => (arg.place arch next).1 == some (arg.alignRegIdx arch idx)

/-- The result of the analysis of a parameter: whether its register is unexpected, whether it
gets the type of its member, and the index of the next register. -/
structure Analysis where
  unexpectedReg : Bool
  replaced : Bool
  regIdx : ℕ

/-- For true signatures: what the analysis may say of an argument that is where the ABI wants it. -/
def AbiArg.analyses (next idx : ℕ) (arg : AbiArg) (args : List AbiArg) : List Analysis :=
  let regIdx := arg.regIdx arch idx
  let preserves := nextPreserves arch (arg.place arch next).2 (regIdx + arg.abiSlots) args
  if arch.nrRegisterParams ≤ regIdx then [⟨false, false, regIdx⟩]
  else
    match (arg.place arch next).1 with
    | some first =>
        if first ≠ regIdx then [⟨true, false, regIdx + arg.abiSlots⟩]
        else if preserves then [⟨false, false, regIdx + arg.abiSlots⟩]
        else [⟨false, false, regIdx + arg.abiSlots⟩, ⟨false, true, regIdx + 1⟩]
    | none =>
        if preserves then
          [⟨true, false, regIdx + arg.regSlots⟩, ⟨false, false, regIdx⟩,
            ⟨false, false, regIdx + arg.abiSlots⟩]
        else [⟨true, false, regIdx + arg.regSlots⟩, ⟨false, false, regIdx⟩]

/-- The analysis of arguments that are where the ABI wants them may find an unexpected register, if
there has been none before, and find no struct. -/
def mayBeReported : Bool → ℕ → ℕ → List AbiArg → Bool
  | unexpected, _, _, [] => unexpected
  | unexpected, next, idx, arg :: args =>
      (arg.analyses arch next idx args).any fun analysis =>
        !(if analysis.replaced then arg.memberType else arg.type).isStruct &&
          mayBeReported (unexpected || analysis.unexpectedReg) (arg.place arch next).2
            analysis.regIdx args

end Agree

namespace AnalyzedFunction

variable (fn : AnalyzedFunction)

/-- The function is not looked at, a struct keeps it from being reported, or the loader counts
registers as the ABI does. -/
def Counts (args : List AbiArg) : Prop :=
  fn.inlined = true ∨
    if fn.checkLocations then
      if fn.trueSigEnabled then mayBeReported fn.arch false fn.firstArg 0 args = false
      else
        (∃ arg ∈ args, arg.type.isStruct = true) ∨ IndicesAgree fn.arch fn.firstArg 0 args
    else (∃ arg ∈ args, arg.type.isStruct = true) ∨ WindowsAgree fn.arch fn.firstArg 0 args

end AnalyzedFunction

/-! ## Registers and slots -/

section Registers

variable {arch : AbiArch} {arg : AbiArg} {next idx first : ℕ}

theorem length_registerParams (arch : AbiArch) :
    arch.registerParams.length = arch.nrRegisterParams := by
  cases arch <;> rfl

theorem registerParams_inj {i j : ℕ} (hi : i < arch.nrRegisterParams)
    (h : arch.registerParams[i]? = arch.registerParams[j]?) : i = j := by
  have hnodup : arch.registerParams.Nodup := by
    cases arch <;> decide
  rw [← length_registerParams] at hi
  exact List.getElem?_inj hi hnodup |>.mp h

theorem registerParams_some {i : ℕ} (hi : i < arch.nrRegisterParams) :
    ∃ reg, arch.registerParams[i]? = some reg := by
  rw [← length_registerParams] at hi
  exact ⟨_, List.getElem?_eq_getElem hi⟩

theorem place_some (h : (arg.place arch next).1 = some first) :
    first < arch.nrRegisterParams ∧ arg.size ≤ 16 := by
  unfold AbiArg.place at h
  cases arch with
  | x86_64 =>
      simp only at h
      split at h
      · exact absurd h nofun
      · split at h
        · obtain rfl := Option.some.inj h
          simp only [AbiArch.nrRegisterParams]
          omega
        · exact absurd h nofun
  | aarch64 =>
      simp only at h
      split at h
      · exact absurd h nofun
      · split at h
        · exact absurd h nofun
        · generalize (if 8 < arg.alignment then (next + 1) / 2 * 2 else next) = start at h
          split at h
          · obtain rfl := Option.some.inj h
            simp only [AbiArch.nrRegisterParams]
            omega
          · exact absurd h nofun

theorem passedInMemory_of_size (h : arg.size ≤ 16) : arg.passedInMemory = false := by
  unfold AbiArg.passedInMemory AbiArg.typeByteSize
  rw [decide_eq_false_iff_not]
  omega

theorem abiRegAlign_cases (arch : AbiArch) (arg : AbiArg) :
    arg.abiRegAlign arch = 1 ∨ arg.abiRegAlign arch = 2 := by
  unfold AbiArg.abiRegAlign
  split
  · exact Or.inl rfl
  · split
    · exact Or.inr rfl
    · exact Or.inl rfl

theorem le_regIdx (arch : AbiArch) (arg : AbiArg) (idx : ℕ) : idx ≤ arg.regIdx arch idx := by
  unfold AbiArg.regIdx AbiArg.alignRegIdx
  split
  · exact Nat.le_refl idx
  · rcases abiRegAlign_cases arch arg with h | h <;> simp only [h] <;> omega

theorem regInExpectedWindow_iff {reg slots : ℕ}
    (hfirst : first < arch.nrRegisterParams) (hreg : arch.registerParams[first]? = some reg) :
    regInExpectedWindow arch reg idx slots = true ↔ idx ≤ first ∧ first < idx + slots := by
  unfold regInExpectedWindow
  rw [List.any_eq_true]
  constructor
  · rintro ⟨i, hi, heq⟩
    have hi := List.mem_range.mp hi
    have hsame : arch.registerParams[first]? = arch.registerParams[idx + i]? :=
      hreg.trans (beq_iff_eq.mp heq).symm
    have := registerParams_inj hfirst hsame
    omega
  · rintro ⟨hle, hlt⟩
    refine ⟨first - idx, List.mem_range.mpr (by omega), ?_⟩
    rw [Nat.add_sub_cancel' hle, hreg]
    exact beq_self_eq_true _

end Registers

/-! ## Parameters at their registers -/

/-- A location as the ABI assigns it. -/
def ParamLoc.assigned (arch : AbiArch) (place : Option ℕ) : ParamLoc where
  hasLoc := place.isSome
  hasConstValue := false
  locConstValue := false
  locStack := false
  locDeref := false
  locReg := place.bind fun first => arch.registerParams[first]?
  firstRegFields := false
  secondRegFields := false
  hasTrueSigMember := false

def assignedFrom (arch : AbiArch) : ℕ → List AbiArg → List LocatedParam
  | _, [] => []
  | next, arg :: args =>
      ⟨arg, .assigned arch (arg.place arch next).1⟩ ::
        assignedFrom arch (arg.place arch next).2 args

section Assigned

variable (arch : AbiArch)

theorem map_arg_assignedFrom (next : ℕ) (args : List AbiArg) :
    (assignedFrom arch next args).map LocatedParam.arg = args := by
  induction args generalizing next with
  | nil => rfl
  | cons arg args ih => simp [assignedFrom, ih]

theorem conforms_assigned (place : Option ℕ) :
    (ParamLoc.assigned arch place).Conforms arch place := by
  cases place with
  | none => exact rfl
  | some first => exact ⟨rfl, rfl, rfl, rfl⟩

theorem conformFrom_assignedFrom (next : ℕ) (args : List AbiArg) :
    ConformFrom arch next (assignedFrom arch next args) := by
  induction args generalizing next with
  | nil => trivial
  | cons arg args ih => exact ⟨conforms_assigned arch _, ih _⟩

end Assigned

/-! ## The clang windows -/

section Windows

variable {arch : AbiArch}

/-- Where the windows agree no register is unexpected. -/
theorem matchClang_of_agree {next idx : ℕ} {parms : List LocatedParam}
    (hagree : WindowsAgree arch next idx (parms.map LocatedParam.arg))
    (hconform : ConformFrom arch next parms) :
    ∀ flags ∈ matchClangParameterLocations arch idx parms, flags.unexpectedReg = false := by
  induction parms generalizing next idx with
  | nil => exact fun _ h => absurd h List.not_mem_nil
  | cons pos parms ih =>
      obtain ⟨hpos, hrest⟩ := hconform
      simp only [List.map_cons, WindowsAgree] at hagree
      simp only [matchClangParameterLocations]
      split at hagree
      · rename_i hmemory
        rw [if_pos hmemory]
        intro flags hmem
        rcases List.mem_cons.mp hmem with rfl | hmem
        · rfl
        · exact ih hagree hrest flags hmem
      · rename_i hmemory
        rw [if_neg hmemory]
        split at hagree
        · rename_i hleft
          rw [if_pos hleft]
          intro flags hmem
          obtain ⟨-, -, rfl⟩ := List.mem_map.mp hmem
          rfl
        · rename_i hleft
          rw [if_neg hleft]
          obtain ⟨hwindow, hagree⟩ := hagree
          intro flags hmem
          rcases List.mem_cons.mp hmem with rfl | hmem
          · cases hplace : (pos.arg.place arch next).1 with
            | none =>
                rw [hplace] at hpos
                have hreg : pos.loc.locReg = none := hpos
                simp [hreg, ParamFlags.plain]
            | some first =>
                rw [hplace] at hpos
                obtain ⟨-, hreg, -, -⟩ := hpos
                obtain ⟨reg, hsome⟩ := registerParams_some (place_some hplace).1
                rw [hsome] at hreg
                have hin := (regInExpectedWindow_iff (place_some hplace).1 hsome).mpr
                  (hwindow first hplace)
                simp [hreg, hin, ParamFlags.plain]
          · exact ih hagree hrest flags hmem

/-- Where they do not, one is as soon as every parameter is where the ABI wants it. -/
theorem agree_of_matchClang {next idx : ℕ} {args : List AbiArg}
    (h : ∀ flags ∈ matchClangParameterLocations arch idx (assignedFrom arch next args),
      flags.unexpectedReg = false) : WindowsAgree arch next idx args := by
  induction args generalizing next idx with
  | nil => trivial
  | cons arg args ih =>
      simp only [assignedFrom, matchClangParameterLocations] at h
      simp only [WindowsAgree]
      split
      · rename_i hmemory
        rw [if_pos hmemory] at h
        exact ih fun flags hmem => h flags (List.mem_cons_of_mem _ hmem)
      · rename_i hmemory
        rw [if_neg hmemory] at h
        split
        · trivial
        · rename_i hleft
          rw [if_neg hleft] at h
          refine ⟨fun first hplace => ?_, ih fun flags hmem => h flags
            (List.mem_cons_of_mem _ hmem)⟩
          have hhead := h _ (List.mem_cons_self ..)
          obtain ⟨reg, hsome⟩ := registerParams_some (place_some hplace).1
          rw [← regInExpectedWindow_iff (place_some hplace).1 hsome]
          by_contra hout
          rw [Bool.not_eq_true] at hout
          simp [hplace, ParamLoc.assigned, hsome, hout, ParamFlags.isUnexpected] at hhead

end Windows

/-! ## The indices -/

section Indices

variable {arch : AbiArch} {clang trueSig : Bool} {idx : ℕ} {pos : LocatedParam}
  {later : Option LocatedParam}

/-- Once no register is left, no parameter is unexpected and none is left after it. -/
theorem analyzeParameter_none_left
    (hleft : arch.nrRegisterParams ≤ pos.arg.regIdx arch idx) :
    (analyzeParameter arch clang trueSig idx pos later).1.unexpectedReg = false ∧
      arch.nrRegisterParams ≤ (analyzeParameter arch clang trueSig idx pos later).2 := by
  have havailable : decide (pos.arg.regIdx arch idx < arch.nrRegisterParams) = false :=
    decide_eq_false (Nat.not_lt.mpr hleft)
  unfold analyzeParameter
  simp only [havailable, Bool.not_false, Bool.false_and, ↓reduceIte, Bool.false_eq_true]
  split
  · split
    · exact ⟨rfl, hleft⟩
    · exact ⟨rfl, hleft⟩
  · split
    · exact ⟨rfl, Nat.le_add_right_of_le hleft⟩
    · split
      · exact ⟨rfl, hleft⟩
      · exact ⟨rfl, Nat.le_add_right_of_le hleft⟩

theorem analyzeParameters_none_left {parms : List LocatedParam}
    (hleft : arch.nrRegisterParams ≤ idx) :
    ∀ flags ∈ analyzeParameters arch clang trueSig idx parms, flags.unexpectedReg = false := by
  induction parms generalizing idx with
  | nil => exact fun _ h => absurd h List.not_mem_nil
  | cons pos parms ih =>
      obtain ⟨hplain, hnext⟩ := @analyzeParameter_none_left arch clang trueSig idx pos
        parms.head? (Nat.le_trans hleft (le_regIdx arch pos.arg idx))
      intro flags hmem
      rcases List.mem_cons.mp hmem with rfl | hmem
      · exact hplain
      · exact ih hnext flags hmem

theorem analyzeParameters_tail_none_left {parms : List LocatedParam}
    (hleft : arch.nrRegisterParams ≤ pos.arg.regIdx arch idx) :
    ∀ flags ∈ analyzeParameters arch clang trueSig idx (pos :: parms),
      flags.unexpectedReg = false := by
  obtain ⟨hplain, hnext⟩ := @analyzeParameter_none_left arch clang trueSig idx pos
    parms.head? hleft
  intro flags hmem
  rcases List.mem_cons.mp hmem with rfl | hmem
  · exact hplain
  · exact analyzeParameters_none_left hnext flags hmem

/-- Without a true signature a register is unexpected when it is not the next one, and the
registers are counted whatever the location is. -/
theorem analyzeParameter_spec (hleft : pos.arg.regIdx arch idx < arch.nrRegisterParams) :
    (analyzeParameter arch clang false idx pos later).2 =
        pos.arg.regIdx arch idx + pos.arg.regSlots ∧
      (analyzeParameter arch clang false idx pos later).1.replaced = false ∧
      ((analyzeParameter arch clang false idx pos later).1.unexpectedReg = true ↔
        pos.loc.hasLoc = true ∧ ∃ reg, pos.loc.locReg = some reg ∧
          arch.registerParams[pos.arg.regIdx arch idx]? ≠ some reg) := by
  have havailable : decide (pos.arg.regIdx arch idx < arch.nrRegisterParams) = true :=
    decide_eq_true hleft
  unfold analyzeParameter
  simp only [havailable, Bool.not_true, Bool.false_and, Bool.false_eq_true, ↓reduceIte]
  cases hloc : pos.loc.hasLoc with
  | false =>
      simp only [Bool.false_eq_true, ↓reduceIte, false_and, iff_false]
      split <;> exact ⟨rfl, rfl, nofun⟩
  | true =>
      cases hreg : pos.loc.locReg with
      | none => simp [ParamFlags.isOptimized]
      | some reg =>
          by_cases hsame : arch.registerParams[pos.arg.regIdx arch idx]? = some reg
          · simp [hsame, ParamFlags.plain]
          · simp [hsame, ParamFlags.isUnexpected]

theorem replaced_none_left (hleft : arch.nrRegisterParams ≤ pos.arg.regIdx arch idx) :
    (analyzeParameter arch clang trueSig idx pos later).1.replaced = false := by
  have havailable : decide (pos.arg.regIdx arch idx < arch.nrRegisterParams) = false :=
    decide_eq_false (Nat.not_lt.mpr hleft)
  unfold analyzeParameter
  simp only [havailable, Bool.not_false, Bool.false_and, ↓reduceIte, Bool.false_eq_true]
  repeat' split
  all_goals rfl

theorem replaced_analyzeParameters (parms : List LocatedParam) :
    ∀ flags ∈ analyzeParameters arch clang false idx parms, flags.replaced = false := by
  induction parms generalizing idx with
  | nil => exact fun _ h => absurd h List.not_mem_nil
  | cons pos parms ih =>
      intro flags hmem
      rcases List.mem_cons.mp hmem with rfl | hmem
      · rcases Nat.lt_or_ge (pos.arg.regIdx arch idx) arch.nrRegisterParams with hleft | hleft
        · exact (analyzeParameter_spec hleft).2.1
        · exact replaced_none_left hleft
      · exact ih flags hmem

theorem replaced_matchClang (parms : List LocatedParam) :
    ∀ flags ∈ matchClangParameterLocations arch idx parms, flags.replaced = false := by
  induction parms generalizing idx with
  | nil => exact fun _ h => absurd h List.not_mem_nil
  | cons pos parms ih =>
      simp only [matchClangParameterLocations]
      intro flags hmem
      split at hmem
      · rcases List.mem_cons.mp hmem with rfl | hmem
        · rfl
        · exact ih flags hmem
      · split at hmem
        · obtain ⟨-, -, rfl⟩ := List.mem_map.mp hmem
          rfl
        · rcases List.mem_cons.mp hmem with heq | hmem
          · have hplain : ∀ b : Bool,
                (if b = true then ParamFlags.isUnexpected else .plain).replaced = false := by
              intro b
              cases b <;> rfl
            exact heq ▸ hplain _
          · exact ih flags hmem

/-- Where the indices agree no register is unexpected. -/
theorem analyze_of_agree {next : ℕ} {parms : List LocatedParam}
    (hagree : IndicesAgree arch next idx (parms.map LocatedParam.arg))
    (hconform : ConformFrom arch next parms) :
    ∀ flags ∈ analyzeParameters arch clang false idx parms, flags.unexpectedReg = false := by
  induction parms generalizing next idx with
  | nil => exact fun _ h => absurd h List.not_mem_nil
  | cons pos parms ih =>
      obtain ⟨hpos, hrest⟩ := hconform
      simp only [List.map_cons, IndicesAgree] at hagree
      split at hagree
      · rename_i hleft
        exact analyzeParameters_tail_none_left hleft
      · rename_i hleft
        have hleft := Nat.lt_of_not_le hleft
        obtain ⟨hindex, hagree⟩ := hagree
        obtain ⟨hnext, -, hunexpected⟩ := @analyzeParameter_spec arch clang idx pos
          parms.head? hleft
        intro flags hmem
        rcases List.mem_cons.mp hmem with rfl | hmem
        · rw [← Bool.not_eq_true, hunexpected]
          rintro ⟨-, reg, hreg, hne⟩
          cases hplace : (pos.arg.place arch next).1 with
          | none =>
              rw [hplace] at hpos
              exact absurd (hpos.symm.trans hreg) nofun
          | some first =>
              rw [hplace] at hpos
              rw [← hindex first hplace] at hne
              exact hne (hpos.2.1.symm.trans hreg)
        · rw [hnext] at hmem
          exact ih hagree hrest flags hmem

theorem agree_of_analyze {next : ℕ} {args : List AbiArg}
    (h : ∀ flags ∈ analyzeParameters arch clang false idx (assignedFrom arch next args),
      flags.unexpectedReg = false) : IndicesAgree arch next idx args := by
  induction args generalizing next idx with
  | nil => trivial
  | cons arg args ih =>
      simp only [IndicesAgree]
      split
      · trivial
      · rename_i hleft
        have hleft := Nat.lt_of_not_le hleft
        simp only [assignedFrom, analyzeParameters] at h
        obtain ⟨hnext, -, hunexpected⟩ := @analyzeParameter_spec arch clang idx
          ⟨arg, .assigned arch (arg.place arch next).1⟩
          (assignedFrom arch (arg.place arch next).2 args).head? hleft
        rw [hnext] at h
        refine ⟨fun first hplace => ?_, ih fun flags hmem => h flags
          (List.mem_cons_of_mem _ hmem)⟩
        have hhead := h _ (List.mem_cons_self ..)
        rw [← Bool.not_eq_true, hunexpected] at hhead
        obtain ⟨reg, hsome⟩ := registerParams_some (place_some hplace).1
        by_contra hne
        refine hhead ⟨?_, reg, ?_, fun hsame => hne ?_⟩
        · simp [ParamLoc.assigned, hplace]
        · simp [ParamLoc.assigned, hplace, hsome]
        · exact registerParams_inj (place_some hplace).1 (hsome.trans hsame.symm)

end Indices

/-! ## True signatures -/

section TrueSignatures

variable {arch : AbiArch} {next idx slots : ℕ} {arg : AbiArg} {args : List AbiArg}
  {parms : List LocatedParam} {pos : LocatedParam}

theorem regSlots_of_place {first : ℕ} (h : (arg.place arch next).1 = some first) :
    arg.regSlots = arg.abiSlots := by
  unfold AbiArg.regSlots
  rw [if_neg (by simp [passedInMemory_of_size (place_some h).2])]

theorem nextParameterPreservesSlots_eq (hconform : ConformFrom arch next parms) :
    nextParameterPreservesSlots arch parms.head? idx slots =
      nextPreserves arch next (idx + slots) (parms.map LocatedParam.arg) := by
  cases parms with
  | nil => rfl
  | cons pos parms =>
      have hpos := hconform.1
      simp only [nextParameterPreservesSlots, nextPreserves, List.map_cons, List.head?_cons]
      cases hplace : (pos.arg.place arch next).1 with
      | none =>
          rw [hplace] at hpos
          have hreg : pos.loc.locReg = none := hpos
          rw [hreg]
          rfl
      | some first =>
          rw [hplace] at hpos
          obtain ⟨reg, hsome⟩ := registerParams_some (place_some hplace).1
          rw [hpos.2.1, hsome]
          rw [Bool.eq_iff_iff, Bool.and_eq_true, decide_eq_true_iff, beq_iff_eq, beq_iff_eq,
            Option.some.injEq]
          constructor
          · rintro ⟨hlt, heq⟩
            exact registerParams_inj (place_some hplace).1 (hsome.trans heq.symm)
          · rintro rfl
            exact ⟨(place_some hplace).1, hsome⟩

/-- The result for a parameter that conforms to the ABI is one of the analyses of its argument.
-/
theorem analyzeParameter_mem (hpos : pos.loc.Conforms arch (pos.arg.place arch next).1)
    (hrest : ConformFrom arch (pos.arg.place arch next).2 parms) :
    ⟨(analyzeParameter arch true true idx pos parms.head?).1.unexpectedReg,
      (analyzeParameter arch true true idx pos parms.head?).1.replaced,
      (analyzeParameter arch true true idx pos parms.head?).2⟩ ∈
        pos.arg.analyses arch next idx (parms.map LocatedParam.arg) := by
  have hpreserves := @nextParameterPreservesSlots_eq arch (pos.arg.place arch next).2
    (pos.arg.regIdx arch idx) pos.arg.abiSlots parms hrest
  unfold analyzeParameter AbiArg.analyses
  dsimp only
  rw [hpreserves]
  generalize nextPreserves arch (pos.arg.place arch next).2
    (pos.arg.regIdx arch idx + pos.arg.abiSlots) (parms.map LocatedParam.arg) = preserves
  by_cases hleft : arch.nrRegisterParams ≤ pos.arg.regIdx arch idx
  · rw [if_pos hleft, decide_eq_false (Nat.not_lt.mpr hleft)]
    cases pos.loc.hasLoc <;> cases pos.loc.locConstValue <;>
      simp [ParamFlags.isOptimized, ParamFlags.plain]
  · rw [if_neg hleft, decide_eq_true (Nat.lt_of_not_le hleft)]
    cases hplace : (pos.arg.place arch next).1 with
    | some first =>
        rw [hplace] at hpos
        obtain ⟨hloc, hreg, hstack, hconst⟩ := hpos
        obtain ⟨reg, hsome⟩ := registerParams_some (place_some hplace).1
        rw [hsome] at hreg
        rw [hloc, hreg, hstack, hconst, regSlots_of_place hplace]
        by_cases hfirst : first = pos.arg.regIdx arch idx
        · rw [← hfirst, hsome]
          cases preserves <;> cases pos.loc.firstRegFields <;> cases pos.loc.secondRegFields <;>
            cases pos.loc.hasTrueSigMember <;> simp [ParamFlags.isReplaced, ParamFlags.plain]
        · have hne : arch.registerParams[pos.arg.regIdx arch idx]? ≠ some reg := fun heq =>
            hfirst (registerParams_inj (place_some hplace).1 (hsome.trans heq.symm))
          simp [hne, hfirst, ParamFlags.isUnexpected]
    | none =>
        rw [hplace] at hpos
        have hreg : pos.loc.locReg = none := hpos
        rw [hreg]
        cases preserves <;> cases pos.loc.hasLoc <;> cases pos.loc.locConstValue <;>
          cases pos.loc.locStack <;> cases hmemory : pos.arg.passedInMemory <;>
          simp [ParamFlags.isUnexpected, ParamFlags.plain, ParamFlags.isOptimized]

/-- Whatever the analysis may say of an argument it says of some location where the ABI wants it. -/
theorem exists_analyzeParameter {analysis : Analysis}
    (h : analysis ∈ arg.analyses arch next idx args) :
    ∃ loc : ParamLoc, loc.Conforms arch (arg.place arch next).1 ∧
      ∀ later : Option LocatedParam,
        nextParameterPreservesSlots arch later (arg.regIdx arch idx) arg.abiSlots =
          nextPreserves arch (arg.place arch next).2 (arg.regIdx arch idx + arg.abiSlots) args →
        (analyzeParameter arch true true idx ⟨arg, loc⟩ later).1.unexpectedReg =
            analysis.unexpectedReg ∧
          (analyzeParameter arch true true idx ⟨arg, loc⟩ later).1.replaced = analysis.replaced ∧
          (analyzeParameter arch true true idx ⟨arg, loc⟩ later).2 = analysis.regIdx := by
  unfold AbiArg.analyses at h
  dsimp only at h
  unfold analyzeParameter
  dsimp only
  generalize nextPreserves arch (arg.place arch next).2
    (arg.regIdx arch idx + arg.abiSlots) args = preserves at h ⊢
  by_cases hleft : arch.nrRegisterParams ≤ arg.regIdx arch idx
  · rw [if_pos hleft, List.mem_singleton] at h
    subst h
    refine ⟨.assigned arch (arg.place arch next).1, conforms_assigned _ _, fun later hlater => ?_⟩
    rw [hlater, decide_eq_false (Nat.not_lt.mpr hleft)]
    cases (arg.place arch next).1 <;>
      simp [ParamLoc.assigned, ParamFlags.isOptimized, ParamFlags.plain]
  · rw [if_neg hleft] at h
    rw [decide_eq_true (Nat.lt_of_not_le hleft)]
    cases hplace : (arg.place arch next).1 with
    | some first =>
        rw [hplace] at h
        dsimp only at h
        obtain ⟨reg, hsome⟩ := registerParams_some (place_some hplace).1
        have hassigned : (ParamLoc.assigned arch (some first)).Conforms arch (some first) :=
          conforms_assigned _ _
        by_cases hfirst : first = arg.regIdx arch idx
        · rw [if_neg (not_not.mpr hfirst)] at h
          cases preserves with
          | true =>
              obtain rfl := List.mem_singleton.mp h
              refine ⟨_, hassigned, fun later hlater => ?_⟩
              rw [hlater, regSlots_of_place hplace, ← hfirst]
              simp [ParamLoc.assigned, hsome, ParamFlags.plain]
          | false =>
              rcases List.mem_pair.mp h with rfl | rfl
              · refine ⟨_, hassigned, fun later hlater => ?_⟩
                rw [hlater, regSlots_of_place hplace, ← hfirst]
                simp [ParamLoc.assigned, hsome, ParamFlags.plain]
              · refine ⟨{ ParamLoc.assigned arch (some first) with
                  firstRegFields := true, hasTrueSigMember := true }, hassigned,
                  fun later hlater => ?_⟩
                rw [hlater, ← hfirst]
                simp [ParamLoc.assigned, hsome, ParamFlags.isReplaced]
        · rw [if_pos hfirst] at h
          obtain rfl := List.mem_singleton.mp h
          have hne : arch.registerParams[arg.regIdx arch idx]? ≠ some reg := fun heq =>
            hfirst (registerParams_inj (place_some hplace).1 (hsome.trans heq.symm))
          refine ⟨_, hassigned, fun later hlater => ?_⟩
          rw [hlater, regSlots_of_place hplace]
          simp [ParamLoc.assigned, hsome, hne, ParamFlags.isUnexpected]
    | none =>
        rw [hplace] at h
        have hnowhere : ∀ loc : ParamLoc, loc.locReg = none → loc.Conforms arch none :=
          fun _ hreg => hreg
        have hmem : analysis = ⟨true, false, arg.regIdx arch idx + arg.regSlots⟩ ∨
            analysis = ⟨false, false, arg.regIdx arch idx⟩ ∨ preserves = true ∧
              analysis = ⟨false, false, arg.regIdx arch idx + arg.abiSlots⟩ := by
          cases preserves <;> simpa [or_assoc] using h
        rcases hmem with rfl | rfl | ⟨rfl, rfl⟩
        · refine ⟨{ ParamLoc.assigned arch none with hasLoc := true }, hnowhere _ rfl,
            fun later hlater => ?_⟩
          simp [ParamLoc.assigned, ParamFlags.isUnexpected]
        · refine ⟨{ ParamLoc.assigned arch none with hasLoc := true, locConstValue := true },
            hnowhere _ rfl, fun later hlater => ?_⟩
          simp [ParamFlags.isOptimized]
        · refine ⟨.assigned arch none, hnowhere _ rfl, fun later hlater => ?_⟩
          rw [hlater]
          simp [ParamLoc.assigned, ParamFlags.plain]

/-- `mayBeReported` holds if and only if some parameters of the arguments, located as the ABI
wants, are reported. -/
theorem mayBeReported_iff {unexpected : Bool} :
    mayBeReported arch unexpected next idx args = true ↔ ∃ parms : List LocatedParam,
      parms.map LocatedParam.arg = args ∧ ConformFrom arch next parms ∧
        (unexpected = true ∨
          ∃ flags ∈ analyzeParameters arch true true idx parms, flags.unexpectedReg = true) ∧
        ((parms.zip (analyzeParameters arch true true idx parms)).any fun parm =>
          AnalyzedFunction.isStructParam parm.1 parm.2) = false := by
  induction args generalizing unexpected next idx with
  | nil =>
      constructor
      · exact fun h => ⟨[], rfl, trivial, Or.inl h, rfl⟩
      · rintro ⟨parms, hargs, -, hreported, -⟩
        obtain rfl := List.map_eq_nil_iff.mp hargs
        exact hreported.resolve_right (by simp [analyzeParameters])
  | cons arg args ih =>
      simp only [mayBeReported, List.any_eq_true, Bool.and_eq_true, Bool.not_eq_true']
      constructor
      · rintro ⟨analysis, hmem, hstruct, hrest⟩
        obtain ⟨parms, rfl, hconform, hreported, hstructs⟩ := ih.mp hrest
        obtain ⟨loc, hloc, hall⟩ := exists_analyzeParameter hmem
        obtain ⟨hunexpected, hreplaced, hregIdx⟩ :=
          hall parms.head? (nextParameterPreservesSlots_eq hconform)
        refine ⟨⟨arg, loc⟩ :: parms, rfl, ⟨hloc, hconform⟩, ?_, ?_⟩
        · simp only [analyzeParameters, List.exists_mem_cons_iff, hunexpected, hregIdx]
          rw [Bool.or_eq_true] at hreported
          tauto
        · simp only [analyzeParameters, List.zip_cons_cons, List.any_cons, hregIdx]
          rw [hstructs, Bool.or_false, AnalyzedFunction.isStructParam, hreplaced]
          cases hr : analysis.replaced <;> simpa [hr] using hstruct
      · rintro ⟨parms, hargs, hconform, hreported, hstructs⟩
        cases parms with
        | nil => cases hargs
        | cons pos parms =>
            obtain ⟨rfl, rfl⟩ := List.cons.inj hargs
            simp only [analyzeParameters, List.zip_cons_cons, List.any_cons,
              Bool.or_eq_false_iff] at hstructs
            simp only [analyzeParameters, List.exists_mem_cons_iff] at hreported
            refine ⟨_, analyzeParameter_mem hconform.1 hconform.2, ?_,
              ih.mpr ⟨parms, rfl, hconform.2, ?_, hstructs.2⟩⟩
            · have hhead := hstructs.1
              unfold AnalyzedFunction.isStructParam at hhead
              split at hhead
              · rename_i hreplaced
                rw [if_pos hreplaced]
                exact hhead
              · rename_i hreplaced
                rw [if_neg hreplaced]
                exact hhead
            · rw [Bool.or_eq_true]
              tauto

end TrueSignatures

/-! ## The prototype -/

theorem any_isStructParam {parms : List LocatedParam} {flags : List ParamFlags}
    (hlength : flags.length = parms.length) (hsame : ∀ f ∈ flags, f.replaced = false) :
    ((parms.zip flags).any fun parm => AnalyzedFunction.isStructParam parm.1 parm.2) = true ↔
      ∃ arg ∈ parms.map LocatedParam.arg, arg.type.isStruct = true := by
  induction parms generalizing flags with
  | nil => simp
  | cons pos parms ih =>
      cases flags with
      | nil => exact absurd hlength nofun
      | cons f flags =>
          have ih' := ih (Nat.succ.inj hlength) fun f' hf' => hsame f' (List.mem_cons_of_mem _ hf')
          simp only [List.zip_cons_cons, List.any_cons, Bool.or_eq_true, ih']
          simp [AnalyzedFunction.isStructParam, hsame f (List.mem_cons_self ..)]

theorem length_analyzeParameters (arch : AbiArch) (clang trueSig : Bool) (idx : ℕ)
    (parms : List LocatedParam) :
    (analyzeParameters arch clang trueSig idx parms).length = parms.length := by
  induction parms generalizing idx with
  | nil => rfl
  | cons pos parms ih => simp [analyzeParameters, ih]

theorem length_matchClang (arch : AbiArch) (idx : ℕ) (parms : List LocatedParam) :
    (matchClangParameterLocations arch idx parms).length = parms.length := by
  induction parms generalizing idx with
  | nil => rfl
  | cons pos parms ih =>
      simp only [matchClangParameterLocations]
      split
      · simp [ih]
      · split
        · simp
        · simp [ih]

namespace AnalyzedFunction

variable {fn : AnalyzedFunction}

theorem unexpectedReg_eq_false_iff (hinlined : fn.inlined = false)
    {parms : List LocatedParam} :
    fn.unexpectedReg parms = false ↔
      (∀ flags ∈ fn.analyze parms, flags.unexpectedReg = false) ∨
      ((parms.zip (fn.analyze parms)).any fun parm => isStructParam parm.1 parm.2) = true := by
  unfold unexpectedReg
  simp only [hinlined, Bool.false_eq_true, ↓reduceIte, Bool.and_eq_false_iff,
    Bool.not_eq_false', List.any_eq_false, Bool.not_eq_true]

/-- Without a true signature nothing is reported where the loader counts as the ABI does. -/
theorem noFalsePositive_of_counts {args : List AbiArg} (htrue : fn.trueSigEnabled = false)
    (h : fn.Counts args) : fn.NoFalsePositive args := by
  rintro parms rfl hconform
  rcases h with hinlined | h
  · simp [unexpectedReg, hinlined]
  · cases hinlined : fn.inlined with
    | true => simp [unexpectedReg, hinlined]
    | false =>
        rw [unexpectedReg_eq_false_iff hinlined]
        unfold analyze
        split at h
        · rename_i hcheck
          rw [if_neg (by simp [htrue])] at h
          rw [if_pos hcheck, htrue]
          rcases h with hstruct | hagree
          · exact Or.inr ((any_isStructParam (length_analyzeParameters ..)
              (replaced_analyzeParameters parms)).mpr hstruct)
          · exact Or.inl (analyze_of_agree hagree hconform)
        · rename_i hcheck
          rw [if_neg hcheck]
          rcases h with hstruct | hagree
          · exact Or.inr ((any_isStructParam (length_matchClang ..)
              (replaced_matchClang parms)).mpr hstruct)
          · exact Or.inl (matchClang_of_agree hagree hconform)

/-- Without a true signature the loader counts as the ABI does wherever it never sets
`unexpected_reg` wrongly. -/
theorem counts_of_noFalsePositive {args : List AbiArg} (htrue : fn.trueSigEnabled = false)
    (h : fn.NoFalsePositive args) : fn.Counts args := by
  cases hinlined : fn.inlined with
  | true => exact Or.inl hinlined
  | false =>
      have hassigned := h (assignedFrom fn.arch fn.firstArg args)
        (map_arg_assignedFrom fn.arch fn.firstArg args)
        (conformFrom_assignedFrom fn.arch fn.firstArg args)
      have hargs := map_arg_assignedFrom fn.arch fn.firstArg args
      rw [unexpectedReg_eq_false_iff hinlined] at hassigned
      unfold analyze at hassigned
      right
      split
      · rename_i hcheck
        rw [if_pos hcheck, htrue] at hassigned
        rw [if_neg (by simp [htrue])]
        rcases hassigned with hagree | hstruct
        · exact Or.inr (agree_of_analyze hagree)
        · rw [any_isStructParam (length_analyzeParameters ..)
            (replaced_analyzeParameters _), hargs] at hstruct
          exact Or.inl hstruct
      · rename_i hcheck
        rw [if_neg hcheck] at hassigned
        rcases hassigned with hagree | hstruct
        · exact Or.inr (agree_of_matchClang hagree)
        · rw [any_isStructParam (length_matchClang ..) (replaced_matchClang _), hargs] at hstruct
          exact Or.inl hstruct

/-- A true signature is only wanted of a signature that clang has changed. -/
theorem analyze_trueSig (htrue : fn.trueSigEnabled = true) (parms : List LocatedParam) :
    fn.analyze parms = analyzeParameters fn.arch true true 0 parms := by
  have hchanged : fn.signatureChanged = true := (Bool.and_eq_true _ _ ▸ htrue).2
  rw [analyze, if_pos (by simp [checkLocations, hchanged]), htrue, fn.changed hchanged]

theorem noFalsePositive_trueSig_iff {args : List AbiArg} (htrue : fn.trueSigEnabled = true) :
    fn.NoFalsePositive args ↔ fn.Counts args := by
  have hchanged : fn.signatureChanged = true := (Bool.and_eq_true _ _ ▸ htrue).2
  unfold Counts
  rw [if_pos (by simp [checkLocations, hchanged]), if_pos htrue]
  cases hinlined : fn.inlined with
  | true =>
      refine iff_of_true (fun parms _ _ => ?_) (Or.inl rfl)
      simp [unexpectedReg, hinlined]
  | false =>
      rw [← Bool.not_eq_true, mayBeReported_iff]
      simp only [Bool.false_eq_true, false_or]
      constructor
      · rintro h ⟨parms, hargs, hconform, ⟨flags, hmem, hunexpected⟩, hstructs⟩
        have hnone := h parms hargs hconform
        rw [unexpectedReg_eq_false_iff hinlined, analyze_trueSig htrue] at hnone
        rcases hnone with hnone | hstruct
        · exact absurd (hunexpected.symm.trans (hnone flags hmem)) nofun
        · exact absurd (hstruct.symm.trans hstructs) nofun
      · intro h parms hargs hconform
        rw [unexpectedReg_eq_false_iff hinlined, analyze_trueSig htrue]
        by_contra hno
        rw [not_or, Bool.not_eq_true] at hno
        refine h ⟨parms, hargs, hconform, ?_, hno.2⟩
        simpa using hno.1

/-- A function that gcc has compiled for x86-64. -/
def gccFunction : AnalyzedFunction where
  arch := .x86_64
  producerClang := false
  signatureChanged := false
  trueSignature := false
  inlined := false
  returnsInMemory := false
  changed := nofun

end AnalyzedFunction

end Pahole
