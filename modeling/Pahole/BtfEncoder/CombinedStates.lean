import Pahole.BtfEncoder.FunctionTable
import Pahole.BtfEncoder.SavedFuncs
import Pahole.BtfEncoder.SavedPrototypes

/-!
# Combined states

The states of one function that are next to each other after sorting are combined with the
first of them.  The first gets the flags of all; any other has those of the states up to it.
-/

namespace Pahole

open FallibleTable

/-! ## Flags -/

/-- The state with other values of the flags that are combined. -/
def FuncState.withFlags (state : FuncState) (unexpected inconsistent uncertain reordered : Bool) :
    FuncState :=
  { state with
    unexpectedReg := unexpected
    inconsistentProto := inconsistent
    uncertainParmLoc := uncertain
    reorderedParm := reordered }

/-- Neither `unexpected_reg` nor `uncertain_parm_loc` is set. -/
def FuncState.Reliable (state : FuncState) : Prop :=
  state.unexpectedReg = false ∧ state.uncertainParmLoc = false

instance (state : FuncState) : Decidable state.Reliable :=
  inferInstanceAs (Decidable (_ ∧ _))

/-- The prototypes of two states are compared: with true signatures, those with an address are
not compared to those without. -/
def Compared (trueSignature : Bool) (a b : FuncState) : Prop :=
  trueSignature = true → (a.addr ≠ 0 ↔ b.addr ≠ 0)

instance (trueSignature : Bool) (a b : FuncState) : Decidable (Compared trueSignature a b) :=
  inferInstanceAs (Decidable (_ → _))

/-- `funcs__match` tells the prototypes of two states apart. -/
def FuncsDiffer (t : Table BtfType Encoder) (a b : FuncState) : Prop :=
  ∃ fuel, funcsMatch (typeById t) fuel a b = .ok false

/-- Some state is marked with `inconsistent_proto`, or `funcs__match` tells one that is compared
with the first from it. -/
def Inconsistent (t : Table BtfType Encoder) (a : FuncState) (rest : List FuncState) : Prop :=
  (∃ b ∈ a :: rest, b.inconsistentProto = true) ∨
    ∃ b ∈ rest, Compared t.client.trueSignature a b ∧ FuncsDiffer t a b

/-- A state that `btf_encoder__add_true_signature` adds: it has a symbol, and it is reliable
as are the states that it was combined with by then. -/
def ShowsTrue (a : FuncState) (rest : List FuncState) : Prop :=
  a.sym.isSome = true ∧ a.ambiguousAddr = false ∧ (∀ b ∈ a :: rest, b.Reliable) ∨
    ∃ before b after, rest = before ++ b :: after ∧ b.sym.isSome = true ∧
      b.ambiguousAddr = false ∧ ∀ b' ∈ a :: (before ++ [b]), b'.Reliable

section Flags

variable {t : Table BtfType Encoder} {a b : FuncState} {rest : List FuncState}
  {unexpected inconsistent uncertain reordered same : Bool}

@[simp] theorem reliable_withFlags :
    (a.withFlags unexpected inconsistent uncertain reordered).Reliable ↔
      unexpected = false ∧ uncertain = false := Iff.rfl

@[simp] theorem inconsistentProto_withFlags :
    (a.withFlags unexpected inconsistent uncertain reordered).inconsistentProto = inconsistent := rfl

@[simp] theorem funcsDiffer_withFlags :
    FuncsDiffer t (a.withFlags unexpected inconsistent uncertain reordered) b ↔
      FuncsDiffer t a b := Iff.rfl

@[simp] theorem compared_withFlags {trueSignature : Bool} :
    Compared trueSignature (a.withFlags unexpected inconsistent uncertain reordered) b ↔
      Compared trueSignature a b := Iff.rfl

@[simp] theorem isTrue_withFlags :
    (a.withFlags unexpected inconsistent uncertain reordered).isTrue = true ↔
      a.sym.isSome = true ∧ a.ambiguousAddr = false ∧ unexpected = false ∧ uncertain = false := by
  simp only [FuncState.isTrue, FuncState.withFlags, Bool.and_eq_true, Bool.not_eq_true']
  tauto

theorem funcsMatch_mono {find : ℕ → Option BtfType} {n m : ℕ} {r : Bool} (hle : n ≤ m)
    (h : funcsMatch find n a b = .ok r) : funcsMatch find m a b = .ok r := by
  by_cases hcount : a.nrParms = b.nrParms
  · rw [funcsMatch_of_eq hcount] at h ⊢
    have hmono : ∀ {r}, allMatch (typesMatch find n) ((a.typePairs b).take 257) = .ok r →
        allMatch (typesMatch find m) ((a.typePairs b).take 257) = .ok r :=
      fun hr => allMatch_mono (fun _ _ _ => typesMatch_mono hle) hr
    cases r with
    | true =>
        obtain ⟨hfew, hall⟩ := settleMatch_eq_true.mp h
        exact settleMatch_eq_true.mpr ⟨hfew, hmono hall⟩
    | false => exact settleMatch_eq_false.mpr (hmono (settleMatch_eq_false.mp h))
  · rwa [funcsMatch_of_ne hcount] at h ⊢

/-- Two prototypes differ if and only if `funcs__match` returns false for them. -/
theorem funcsDiffer_iff {fuel : ℕ} (hmatch : funcsMatch (typeById t) fuel a b = .ok same) :
    FuncsDiffer t a b ↔ same = false := by
  constructor
  · rintro ⟨fuel', hdiffer⟩
    have hleft := funcsMatch_mono (le_max_left fuel fuel') hmatch
    have hright := funcsMatch_mono (le_max_right fuel fuel') hdiffer
    exact Except.ok.inj (hleft.symm.trans hright)
  · rintro rfl
    exact ⟨fuel, hmatch⟩

/-- Combining two states gives both the disjunction of their flags. -/
theorem savedFunctionsCombine_spec {a' b' : FuncState}
    (hcombine : savedFunctionsCombine t a b = .ok (a', b')) :
    ∃ inconsistent,
      a' = a.withFlags (a.unexpectedReg || b.unexpectedReg) inconsistent
        (a.uncertainParmLoc || b.uncertainParmLoc) (a.reorderedParm || b.reorderedParm) ∧
      b' = b.withFlags (a.unexpectedReg || b.unexpectedReg) inconsistent
        (a.uncertainParmLoc || b.uncertainParmLoc) (a.reorderedParm || b.reorderedParm) ∧
      ((a.unexpectedReg || b.unexpectedReg) = false → (a.reorderedParm || b.reorderedParm) = false →
        (inconsistent = true ↔ a.inconsistentProto = true ∨ b.inconsistentProto = true ∨
          Compared t.client.trueSignature a b ∧ FuncsDiffer t a b)) := by
  rw [savedFunctionsCombine] at hcombine
  dsimp only at hcombine
  by_cases hcompare : (¬t.client.trueSignature = true ∨ (a.addr ≠ 0 ↔ b.addr ≠ 0)) ∧
      ¬(a.unexpectedReg || b.unexpectedReg) = true ∧
      ¬(a.inconsistentProto || b.inconsistentProto) = true ∧
      ¬(a.reorderedParm || b.reorderedParm) = true
  · rw [if_pos hcompare] at hcombine
    obtain ⟨hcompared, -, hconsistent, -⟩ := hcompare
    cases hmatch : funcsMatch (typeById t) (matchFuel t) a b with
    | error crash =>
        rw [hmatch] at hcombine
        cases hcombine
    | ok same =>
        rw [hmatch] at hcombine
        obtain ⟨rfl, rfl⟩ := Prod.mk.inj (Except.ok.inj hcombine)
        refine ⟨!same, rfl, rfl, fun _ _ => ?_⟩
        have hkept : Compared t.client.trueSignature a b := fun h =>
          hcompared.resolve_left (not_not_intro h)
        rw [Bool.or_eq_true, not_or] at hconsistent
        rw [Bool.not_eq_true', funcsDiffer_iff hmatch]
        constructor
        · exact fun h => Or.inr (Or.inr ⟨hkept, h⟩)
        · rintro (h | h | h)
          · exact absurd h hconsistent.1
          · exact absurd h hconsistent.2
          · exact h.2
  · rw [if_neg hcompare] at hcombine
    obtain ⟨rfl, rfl⟩ := Prod.mk.inj (Except.ok.inj hcombine)
    refine ⟨a.inconsistentProto || b.inconsistentProto, rfl, rfl, fun hunexpected hreordered => ?_⟩
    rw [hunexpected, hreordered] at hcompare
    rw [Bool.or_eq_true]
    constructor
    · rintro (h | h)
      · exact Or.inl h
      · exact Or.inr (Or.inl h)
    · rintro (h | h | ⟨hkept, -⟩)
      · exact Or.inl h
      · exact Or.inr h
      · by_contra hnot
        refine hcompare ⟨?_, by simp, by rwa [Bool.or_eq_true], by simp⟩
        by_cases htrue : t.client.trueSignature = true
        · exact Or.inr (hkept htrue)
        · exact Or.inl htrue

/-- The flag that the first state has stands for the states that it was combined with. -/
theorem inconsistent_cons {here : Bool}
    (hhere : here = true ↔ a.inconsistentProto = true ∨ b.inconsistentProto = true ∨
      Compared t.client.trueSignature a b ∧ FuncsDiffer t a b) :
    Inconsistent t (a.withFlags unexpected here uncertain reordered) rest ↔
      Inconsistent t a (b :: rest) := by
  rw [Inconsistent, Inconsistent, List.exists_mem_cons_iff, List.exists_mem_cons_iff,
    List.exists_mem_cons_iff, List.exists_mem_cons_iff, inconsistentProto_withFlags, hhere]
  simp only [compared_withFlags, funcsDiffer_withFlags]
  constructor
  · rintro (((ha | hb | hdiffer) | hrest) | hrest)
    · exact Or.inl (Or.inl ha)
    · exact Or.inl (Or.inr (Or.inl hb))
    · exact Or.inr (Or.inl hdiffer)
    · exact Or.inl (Or.inr (Or.inr hrest))
    · exact Or.inr (Or.inr hrest)
  · rintro ((ha | hb | hrest) | hdiffer | hrest)
    · exact Or.inl (Or.inl (Or.inl ha))
    · exact Or.inl (Or.inl (Or.inr (Or.inl hb)))
    · exact Or.inl (Or.inr hrest)
    · exact Or.inl (Or.inl (Or.inr (Or.inr hdiffer)))
    · exact Or.inr hrest

/-- The states that are reliable with all before them are found one by one. -/
theorem showsTrue_cons {here : Bool} :
    ((b.withFlags (a.unexpectedReg || b.unexpectedReg) here
          (a.uncertainParmLoc || b.uncertainParmLoc)
          (a.reorderedParm || b.reorderedParm)).isTrue = true ∨
        ∃ before b' after, rest = before ++ b' :: after ∧ b'.sym.isSome = true ∧
          b'.ambiguousAddr = false ∧
            ∀ b'' ∈ a.withFlags (a.unexpectedReg || b.unexpectedReg) here
              (a.uncertainParmLoc || b.uncertainParmLoc)
              (a.reorderedParm || b.reorderedParm) :: (before ++ [b']), b''.Reliable) ↔
      ∃ before b' after, b :: rest = before ++ b' :: after ∧ b'.sym.isSome = true ∧
        b'.ambiguousAddr = false ∧ ∀ b'' ∈ a :: (before ++ [b']), b''.Reliable := by
  have hboth : (a.withFlags (a.unexpectedReg || b.unexpectedReg) here
      (a.uncertainParmLoc || b.uncertainParmLoc)
      (a.reorderedParm || b.reorderedParm)).Reliable ↔ a.Reliable ∧ b.Reliable := by
    rw [reliable_withFlags, Bool.or_eq_false_iff, Bool.or_eq_false_iff]
    exact and_and_and_comm
  rw [isTrue_withFlags, Bool.or_eq_false_iff, Bool.or_eq_false_iff, and_and_and_comm]
  constructor
  · rintro (⟨hsym, hambiguous, ha, hb⟩ | ⟨before, b', after, rfl, hsym, hambiguous, hall⟩)
    · exact ⟨[], b, rest, rfl, hsym, hambiguous, by simp [FuncState.Reliable, ha, hb]⟩
    · refine ⟨b :: before, b', after, rfl, hsym, hambiguous, ?_⟩
      obtain ⟨hfirst, hothers⟩ := List.forall_mem_cons.mp hall
      obtain ⟨ha, hb⟩ := hboth.mp hfirst
      exact List.forall_mem_cons.mpr ⟨ha, List.forall_mem_cons.mpr ⟨hb, hothers⟩⟩
  · rintro ⟨before, b', after, hsplit, hsym, hambiguous, hall⟩
    cases before with
    | nil =>
        obtain ⟨rfl, rfl⟩ := List.cons.inj hsplit
        obtain ⟨ha, hothers⟩ := List.forall_mem_cons.mp hall
        have hb := hothers b (by simp)
        exact Or.inl ⟨hsym, hambiguous, ⟨ha.1, ha.2⟩, hb.1, hb.2⟩
    | cons first before =>
        obtain ⟨rfl, rfl⟩ := List.cons.inj hsplit
        obtain ⟨ha, hothers⟩ := List.forall_mem_cons.mp hall
        obtain ⟨hb, hothers⟩ := List.forall_mem_cons.mp hothers
        refine Or.inr ⟨before, b', after, rfl, hsym, hambiguous, ?_⟩
        exact List.forall_mem_cons.mpr ⟨hboth.mpr ⟨ha, hb⟩, hothers⟩

/-- `b'` is `b` with other values of the four flags that `saved_functions_combine` merges. -/
def SameButFlags (b b' : FuncState) : Prop :=
  ∃ unexpected inconsistent uncertain reordered,
    b' = b.withFlags unexpected inconsistent uncertain reordered

/-- Combining the states of a function gives all of them the disjunction of their flags. -/
theorem combineAll_spec {a' : FuncState} {rest' : List FuncState}
    (hcombined : combineAll t a rest = .ok (a', rest')) :
    ∃ inconsistent,
      a' = a.withFlags ((a :: rest).any FuncState.unexpectedReg) inconsistent
        ((a :: rest).any FuncState.uncertainParmLoc)
        ((a :: rest).any FuncState.reorderedParm) ∧
      ((a :: rest).any FuncState.unexpectedReg = false →
        (a :: rest).any FuncState.reorderedParm = false →
        (inconsistent = true ↔ Inconsistent t a rest)) ∧
      List.Forall₂ SameButFlags rest rest' ∧
      ((∃ b ∈ rest', b.isTrue = true) ↔
        ∃ before b after, rest = before ++ b :: after ∧ b.sym.isSome = true ∧
          b.ambiguousAddr = false ∧ ∀ b' ∈ a :: (before ++ [b]), b'.Reliable) := by
  induction rest generalizing a rest' with
  | nil =>
      obtain ⟨rfl, rfl⟩ := Prod.mk.inj (Except.ok.inj hcombined)
      refine ⟨a.inconsistentProto, ?_, fun _ _ => ?_, .nil, by simp⟩
      · simp only [List.any_cons, List.any_nil, Bool.or_false]
        rfl
      · simp [Inconsistent]
  | cons b rest ih =>
      rw [combineAll] at hcombined
      split at hcombined
      · cases hcombined
      next a₁ b₁ hcombine =>
        split at hcombined
        · cases hcombined
        next a₂ rest₂ hrest =>
          obtain ⟨rfl, rfl⟩ := Prod.mk.inj (Except.ok.inj hcombined)
          obtain ⟨here, rfl, rfl, hhere⟩ := savedFunctionsCombine_spec hcombine
          obtain ⟨inconsistent, rfl, hincons, hkept, htrue⟩ := ih hrest
          have hany : ∀ f : FuncState → Bool, ((a :: b :: rest).any f) =
              ((f a || f b) || rest.any f) := by
            intro f
            rw [List.any_cons, List.any_cons, Bool.or_assoc]
          refine ⟨inconsistent, ?_, ?_, .cons ⟨_, _, _, _, rfl⟩ hkept, ?_⟩
          · rw [hany, hany, hany]
            rfl
          · intro hunexpected hreordered
            rw [hany] at hunexpected hreordered
            rw [hincons hunexpected hreordered]
            exact inconsistent_cons (hhere (Bool.or_eq_false_iff.mp hunexpected).1
              (Bool.or_eq_false_iff.mp hreordered).1)
          · rw [List.exists_mem_cons_iff, htrue]
            exact showsTrue_cons

end Flags

/-! ## Marked functions -/

/-- A function as `elf_functions__collect` leaves it. -/
def ElfFunction.withoutKfunc (func : ElfFunction) : ElfFunction :=
  { func with kfunc := false, kfuncFlags := 0 }

/-- The table comes from `elf_functions__collect`; kfuncs have been marked in it since. -/
def ElfFunctions.Collected (funcs : ElfFunctions) : Prop :=
  ∃ qsort, funcs.entries.map ElfFunction.withoutKfunc = ElfFunctions.collect qsort funcs.symtab

/-- All tables of the encoder come from `elf_functions__collect`. -/
def Encoder.Collected (enc : Encoder) : Prop := ∀ funcs ∈ enc.elfFunctionsList, funcs.Collected

/-- The function that a state is of, in its table. -/
def Encoder.LeadsTo (enc : Encoder) (elf : Option ElfPtr) (funcs : ElfFunctions)
    (func : ElfFunction) : Prop :=
  ∃ ptr, elf = some ptr ∧ enc.findElfFunctions ptr.table = some funcs ∧
    funcs.entries[ptr.entry]? = some func

/-- The addresses of a function are found to be ambiguous: its name is not the last one, and
`elf_function__has_ambiguous_address` notices. -/
def Encoder.MarksAmbiguous (enc : Encoder) (elf : Option ElfPtr) : Prop :=
  ∃ funcs func, enc.LeadsTo elf funcs func ∧ ¬LastName func.name (functionSyms funcs.symtab) ∧
    func.hasAmbiguousAddress = true

section Marked

variable {enc : Encoder} {funcs : ElfFunctions} {func : ElfFunction} {state : FuncState}

/-- In a collected table a function has `ambiguous_addr` if and only if `hasAmbiguousAddress`
holds of it and its name is not the last one. -/
theorem ambiguousAddr_iff_of_collected (hcollected : funcs.Collected) (hfunc : func ∈ funcs.entries) :
    func.ambiguousAddr = true ↔
      ¬LastName func.name (functionSyms funcs.symtab) ∧ func.hasAmbiguousAddress = true := by
  obtain ⟨qsort, hentries⟩ := hcollected
  obtain ⟨syms, hperm, hsorted, hcollect⟩ := exists_collect_eq qsort funcs.symtab
  have hmem : func.withoutKfunc ∈ mergedEntries syms := by
    rw [← hcollect, ← hentries]
    exact List.mem_map_of_mem hfunc
  obtain ⟨-, hlast, hother⟩ := mem_mergedEntries hsorted hmem
  have hname : LastName func.name (functionSyms funcs.symtab) ↔
      LastName func.withoutKfunc.name syms := (lastName_congr hperm func.name).symm
  have hflag : func.withoutKfunc.ambiguousAddr = func.ambiguousAddr := rfl
  have hambiguous : func.withoutKfunc.hasAmbiguousAddress = func.hasAmbiguousAddress := rfl
  rw [hname]
  rw [hflag] at hlast hother
  rw [hambiguous] at hother
  by_cases h : LastName func.withoutKfunc.name syms
  · rw [hlast h]
    exact iff_of_false Bool.false_ne_true fun hnot => hnot.1 h
  · rw [hother h]
    exact (and_iff_right h).symm

theorem elfOf_of_leadsTo (h : enc.LeadsTo state.elf funcs func) : enc.elfOf state = func := by
  obtain ⟨ptr, helf, hfind, hentry⟩ := h
  rw [Encoder.elfOf, helf, Option.bind_some, Encoder.elfFunction?, hfind, Option.bind_some, hentry,
    Option.getD_some]

/-- The function that a state points to is one of a table, or `null`. -/
theorem leadsTo_or_null (enc : Encoder) (state : FuncState) :
    (∃ funcs func, enc.LeadsTo state.elf funcs func) ∨ enc.elfOf state = ElfFunction.null := by
  cases hfunc : state.elf.bind enc.elfFunction? with
  | none =>
      right
      rw [Encoder.elfOf, hfunc]
      rfl
  | some func =>
      left
      obtain ⟨ptr, helf, hptr⟩ := Option.bind_eq_some_iff.mp hfunc
      obtain ⟨funcs, hfind, hentry⟩ := Option.bind_eq_some_iff.mp hptr
      exact ⟨funcs, func, ptr, helf, hfind, hentry⟩

/-- The function of a state has `ambiguous_addr` if and only if its table marks it as ambiguous.
-/
theorem ambiguousAddr_elfOf_iff (hcollected : enc.Collected) :
    (enc.elfOf state).ambiguousAddr = true ↔ enc.MarksAmbiguous state.elf := by
  rcases leadsTo_or_null enc state with ⟨funcs, func, h⟩ | hnull
  · have hflag : func.ambiguousAddr = true ↔
        ¬LastName func.name (functionSyms funcs.symtab) ∧ func.hasAmbiguousAddress = true := by
      obtain ⟨ptr, -, hfind, hentry⟩ := h
      exact ambiguousAddr_iff_of_collected (hcollected funcs (List.mem_of_find?_eq_some hfind))
        (List.mem_of_getElem? hentry)
    rw [elfOf_of_leadsTo h, hflag]
    constructor
    · exact fun hmarked => ⟨funcs, func, h, hmarked⟩
    · rintro ⟨funcs', func', ⟨ptr', helf', hfind', hentry'⟩, hmarked⟩
      obtain ⟨ptr, helf, hfind, hentry⟩ := h
      obtain rfl := Option.some.inj (helf.symm.trans helf')
      obtain rfl := Option.some.inj (hfind.symm.trans hfind')
      obtain rfl := Option.some.inj (hentry.symm.trans hentry')
      exact hmarked
  · rw [hnull]
    refine iff_of_false Bool.false_ne_true ?_
    rintro ⟨funcs, func, h, -, hmarked⟩
    rw [elfOf_of_leadsTo h] at hnull
    rw [hnull] at hmarked
    cases hmarked

end Marked

/-! ## The decision on a group -/

/-- The state that stands for the states `a :: rest`. -/
def canonicalState (trueSignature : Bool) (elf : ElfFunction) (a : FuncState)
    (rest : List FuncState) : FuncState :=
  if rest.isEmpty then a else selectCanonicalState trueSignature elf a rest

/-- There is no reason to skip the states `a :: rest`. -/
structure Passes (t : Table BtfType Encoder) (skipInconsistent : Bool) (a : FuncState)
    (rest : List FuncState) : Prop where
  reliable : ∀ b ∈ a :: rest, b.Reliable
  inOrder : ∀ b ∈ a :: rest, b.reorderedParm = false
  unmarked : ¬t.client.MarksAmbiguous a.elf
  kept : (canonicalState t.client.trueSignature (t.client.elfOf a) a rest).skipOptimizedParms
    t.client.trueSignature = false
  consistent : skipInconsistent = true → ¬Inconsistent t a rest

/-- A FUNC is added for the states `a :: rest`. -/
def Emits (t : Table BtfType Encoder) (skipInconsistent : Bool) (a : FuncState)
    (rest : List FuncState) : Prop :=
  t.client.trueSignature = true ∧ ShowsTrue a rest ∨ Passes t skipInconsistent a rest

section Canonical

variable {a a' : FuncState} {rest rest' states states' : List FuncState}

theorem find?_sameButFlags {p : FuncState → Bool} (h : List.Forall₂ SameButFlags states states')
    (hp : ∀ b b', SameButFlags b b' → p b = p b') :
    Option.Rel SameButFlags (states.find? p) (states'.find? p) := by
  induction h with
  | nil => exact .none
  | @cons b b' _ _ hsame _ ih =>
      rw [List.find?_cons, List.find?_cons, ← hp b b' hsame]
      cases p b with
      | true => exact .some hsame
      | false => exact ih

/-- States that differ in flags only give canonical states that differ in flags only. -/
theorem canonicalState_sameButFlags (trueSignature : Bool) (elf : ElfFunction)
    (ha : SameButFlags a a') (h : List.Forall₂ SameButFlags rest rest') :
    SameButFlags (canonicalState trueSignature elf a rest)
      (canonicalState trueSignature elf a' rest') := by
  have hat : ∀ b b', SameButFlags b b' → b.atSymbol elf = b'.atSymbol elf := by
    rintro b b' ⟨_, _, _, _, rfl⟩
    rfl
  have hskip : ∀ b b', SameButFlags b b' →
      (!b.skipOptimizedParms trueSignature) = !b'.skipOptimizedParms trueSignature := by
    rintro b b' ⟨_, _, _, _, rfl⟩
    rfl
  have hfilter : List.Forall₂ SameButFlags
      ((a :: rest).filter fun state => state.atSymbol elf)
      ((a' :: rest').filter fun state => state.atSymbol elf) :=
    List.rel_filter (fun b b' hsame => by simp only [hat b b' hsame]) (.cons ha h)
  have hempty : rest.isEmpty = rest'.isEmpty := by
    cases h <;> rfl
  rw [canonicalState, canonicalState, hempty]
  split
  · exact ha
  · rw [selectCanonicalState, selectCanonicalState]
    have hfind := find?_sameButFlags hfilter hskip
    revert hfind
    generalize ((a :: rest).filter fun state => state.atSymbol elf) = states at hfilter ⊢
    generalize ((a' :: rest').filter fun state => state.atSymbol elf) = states' at hfilter ⊢
    intro hfind
    generalize states.find? (fun state => !state.skipOptimizedParms trueSignature) = found at hfind ⊢
    generalize states'.find? (fun state => !state.skipOptimizedParms trueSignature) = found'
      at hfind ⊢
    cases hfind with
    | some hsame => exact hsame
    | none =>
        cases hfilter with
        | nil => exact ha
        | cons hsame _ => exact hsame

theorem canonicalState_eq (trueSignature : Bool) (elf : ElfFunction) (a : FuncState)
    (rest : List FuncState) : canonicalState trueSignature elf a rest =
      if rest.isEmpty then a else selectCanonicalState trueSignature elf a rest := rfl

theorem canonicalState_mem (trueSignature : Bool) (elf : ElfFunction) (a : FuncState)
    (rest : List FuncState) : canonicalState trueSignature elf a rest ∈ a :: rest := by
  rw [canonicalState]
  split
  · exact List.mem_cons_self
  · rw [selectCanonicalState]
    split
    · next state hfind => exact (List.mem_filter.mp (List.mem_of_find?_eq_some hfind)).1
    · cases hfilter : (a :: rest).filter fun state => state.atSymbol elf with
      | nil => exact List.mem_cons_self
      | cons b states =>
          have hb : b ∈ (a :: rest).filter fun state => state.atSymbol elf :=
            hfilter ▸ List.mem_cons_self
          exact (List.mem_filter.mp hb).1

end Canonical

section Verdict

variable {t : Table BtfType Encoder} {skipInconsistent : Bool} {a : FuncState}
  {rest : List FuncState}

theorem elf_of_sameButFlags {states states' : List FuncState}
    (h : List.Forall₂ SameButFlags states states') :
    ∀ b' ∈ states', ∃ b ∈ states, b'.elf = b.elf := by
  induction h with
  | nil => simp
  | cons hsame _ ih =>
      obtain ⟨_, _, _, _, rfl⟩ := hsame
      refine List.forall_mem_cons.mpr ⟨⟨_, List.mem_cons_self, rfl⟩, fun b' hb' => ?_⟩
      obtain ⟨b, hb, helf⟩ := ih b' hb'
      exact ⟨b, List.mem_cons_of_mem _ hb, helf⟩

/-- There is a reason to skip combined states unless they pass. -/
theorem skipReason_eq_false_iff (hcollected : t.client.Collected) (skipInconsistent : Bool)
    {inconsistent : Bool}
    {rest' : List FuncState}
    (hincons : (a :: rest).any FuncState.unexpectedReg = false →
      (a :: rest).any FuncState.reorderedParm = false →
      (inconsistent = true ↔ Inconsistent t a rest))
    (hkept : List.Forall₂ SameButFlags rest rest') {a' : FuncState}
    (ha' : a' = a.withFlags ((a :: rest).any FuncState.unexpectedReg) inconsistent
      ((a :: rest).any FuncState.uncertainParmLoc) ((a :: rest).any FuncState.reorderedParm)) :
    skipReason t.client.trueSignature skipInconsistent (t.client.elfOf a') a'
        (canonicalState t.client.trueSignature (t.client.elfOf a') a' rest') = false ↔
      Passes t skipInconsistent a rest := by
  have hsame : SameButFlags a a' := ⟨_, _, _, _, ha'⟩
  have helf : t.client.elfOf a' = t.client.elfOf a := by rw [ha']; rfl
  have hcanonical : (canonicalState t.client.trueSignature (t.client.elfOf a) a'
      rest').skipOptimizedParms t.client.trueSignature =
        (canonicalState t.client.trueSignature (t.client.elfOf a) a rest).skipOptimizedParms
          t.client.trueSignature := by
    obtain ⟨_, _, _, _, heq⟩ :=
      canonicalState_sameButFlags t.client.trueSignature (t.client.elfOf a) hsame hkept
    rw [heq]
    rfl
  have hunexpected : a'.unexpectedReg = (a :: rest).any FuncState.unexpectedReg := by rw [ha']; rfl
  have huncertain : a'.uncertainParmLoc = (a :: rest).any FuncState.uncertainParmLoc := by
    rw [ha']; rfl
  have hreordered : a'.reorderedParm = (a :: rest).any FuncState.reorderedParm := by rw [ha']; rfl
  have hinconsistent : a'.inconsistentProto = inconsistent := by rw [ha']; rfl
  have hunmarked : (t.client.elfOf a).ambiguousAddr = false ↔ ¬t.client.MarksAmbiguous a.elf := by
    rw [← ambiguousAddr_elfOf_iff hcollected, Bool.not_eq_true]
  rw [skipReason, helf, hcanonical, hunexpected, huncertain, hreordered, hinconsistent]
  have hnone : ∀ f : FuncState → Bool, (a :: rest).any f = false ↔ ∀ b ∈ a :: rest, f b = false := by
    intro f
    rw [List.any_eq_false]
    exact forall₂_congr fun b _ => by rw [Bool.not_eq_true]
  simp only [Bool.or_eq_false_iff]
  constructor
  · rintro ⟨⟨⟨⟨⟨hu, hi⟩, hc⟩, hr⟩, hskip⟩, hambiguous⟩
    exact
      { reliable := fun b hb => ⟨(hnone _).mp hu b hb, (hnone _).mp hc b hb⟩
        inOrder := (hnone _).mp hr
        unmarked := fun hmarked => hunmarked.mp hambiguous hmarked
        kept := hskip
        consistent := by
          rintro rfl hdiffer
          rw [(hincons hu hr).mpr hdiffer] at hi
          cases hi }
  · intro h
    have hu := (hnone FuncState.unexpectedReg).mpr fun b hb => (h.reliable b hb).1
    have hr := (hnone FuncState.reorderedParm).mpr h.inOrder
    refine ⟨⟨⟨⟨⟨hu, ?_⟩, ?_⟩, hr⟩, h.kept⟩, hunmarked.mpr h.unmarked⟩
    · rw [Bool.and_eq_false_iff]
      by_cases hskip : skipInconsistent = true
      · refine Or.inr (Bool.eq_false_iff.mpr fun hflag => ?_)
        exact h.consistent hskip ((hincons hu hr).mp hflag)
      · exact Or.inl (Bool.eq_false_iff.mpr hskip)
    · exact (hnone FuncState.uncertainParmLoc).mpr fun b hb => (h.reliable b hb).2

/-- A true signature is found among combined states if one of them shows it. -/
theorem exists_isTrue_iff (inconsistent : Bool) {rest' : List FuncState}
    (htrue : (∃ b ∈ rest', b.isTrue = true) ↔
      ∃ before b after, rest = before ++ b :: after ∧ b.sym.isSome = true ∧
        b.ambiguousAddr = false ∧ ∀ b' ∈ a :: (before ++ [b]), b'.Reliable) :
    (∃ b ∈ a.withFlags ((a :: rest).any FuncState.unexpectedReg) inconsistent
        ((a :: rest).any FuncState.uncertainParmLoc)
        ((a :: rest).any FuncState.reorderedParm) :: rest', b.isTrue = true) ↔
      ShowsTrue a rest := by
  have hreliable : (a :: rest).any FuncState.unexpectedReg = false ∧
      (a :: rest).any FuncState.uncertainParmLoc = false ↔ ∀ b ∈ a :: rest, b.Reliable := by
    rw [List.any_eq_false, List.any_eq_false, ← forall₂_and]
    refine forall₂_congr fun b _ => ?_
    rw [FuncState.Reliable, Bool.not_eq_true, Bool.not_eq_true]
  rw [List.exists_mem_cons_iff, isTrue_withFlags, htrue, hreliable, ShowsTrue]

/-- A group is skipped if and only if no FUNC is to be added for it, and otherwise one of its
states is taken. -/
theorem groupVerdict_spec (hcollected : t.client.Collected) {verdict : Verdict}
    (hverdict : groupVerdict t skipInconsistent (a :: rest) = .ok verdict) :
    (verdict = .skip ↔ ¬Emits t skipInconsistent a rest) ∧
      ∀ state, verdict = .trueSignature state ∨ verdict = .canonical state →
        ∃ b ∈ a :: rest, state.elf = b.elf := by
  rw [groupVerdict] at hverdict
  split at hverdict
  · cases hverdict
  next a' rest' hcombined =>
    obtain ⟨inconsistent, ha', hincons, hkept, htrue⟩ := combineAll_spec hcombined
    have hshows := exists_isTrue_iff inconsistent htrue
    have hskip := skipReason_eq_false_iff hcollected skipInconsistent hincons hkept ha'
    have helf := elf_of_sameButFlags (.cons ⟨_, _, _, _, ha'⟩ hkept :
      List.Forall₂ SameButFlags (a :: rest) (a' :: rest'))
    rw [← ha'] at hshows
    rw [combinedVerdict] at hverdict
    dsimp only at hverdict
    rw [← canonicalState_eq] at hverdict
    cases hfind : if t.client.trueSignature then (a' :: rest').find? FuncState.isTrue else none with
    | some state =>
        rw [hfind] at hverdict
        obtain rfl := Except.ok.inj hverdict
        split at hfind
        · next htrueSignature =>
            have hmem := List.mem_of_find?_eq_some hfind
            refine ⟨iff_of_false (by simp) (not_not_intro (Or.inl ⟨htrueSignature, ?_⟩)), ?_⟩
            · exact hshows.mp ⟨state, hmem, List.find?_some hfind⟩
            · rintro state' (heq | heq)
              · obtain rfl := Verdict.trueSignature.inj heq
                exact helf state hmem
              · cases heq
        · cases hfind
    | none =>
        have hnot : ¬(t.client.trueSignature = true ∧ ShowsTrue a rest) := by
          rintro ⟨htrueSignature, hshown⟩
          rw [if_pos htrueSignature, List.find?_eq_none] at hfind
          obtain ⟨b, hb, hisTrue⟩ := hshows.mpr hshown
          exact hfind b hb hisTrue
        rw [hfind] at hverdict
        dsimp only at hverdict
        split at hverdict
        · next hreason =>
            obtain rfl := Except.ok.inj hverdict
            refine ⟨iff_of_true rfl (not_or.mpr ⟨hnot, fun hpass => ?_⟩), by simp⟩
            exact Bool.false_ne_true ((hskip.mpr hpass).symm.trans hreason)
        · next hreason =>
            obtain rfl := Except.ok.inj hverdict
            have hpass := hskip.mp (Bool.eq_false_iff.mpr hreason)
            refine ⟨iff_of_false (by simp) (not_not_intro (Or.inr hpass)), ?_⟩
            rintro state' (heq | heq)
            · cases heq
            · obtain rfl := Verdict.canonical.inj heq
              exact helf _ (canonicalState_mem t.client.trueSignature (t.client.elfOf a') a' rest')

end Verdict

end Pahole
