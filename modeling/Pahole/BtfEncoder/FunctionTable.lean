import Mathlib.Data.Prod.Lex
import Mathlib.Data.String.Basic
import Pahole.BtfEncoder.ElfFunctions

/-!
# The table of ELF functions

`elf_functions__collect` sorts the function symbols by their names without suffix and
merges those with one name in place.  Whether the addresses of a function are
ambiguous is decided when the next name is met.
-/

namespace Pahole

/-! ## The symbols of the table -/

/-- A name without its suffix. -/
def withoutSuffix (name : String) : String := String.ofList (name.toList.takeWhile (· ≠ '.'))

/-- The name that a symbol is found under. -/
def ElfFunctionSym.stem (sym : ElfFunctionSym) : String := withoutSuffix sym.name

/-- The symbol of a function, if it is one that the table is made for. -/
def ElfSym.functionSym? (sym : ElfSym) : Option ElfFunctionSym :=
  if sym.isFunc then
    (sym.name.filter fun name => !strContainsNonFnSuffix name).map fun name => ⟨name, sym.addr⟩
  else none

/-- The eligible function symbols. -/
def functionSyms (symtab : List ElfSym) : List ElfFunctionSym :=
  symtab.filterMap ElfSym.functionSym?

/-- The symbols with a name. -/
def symsNamed (name : String) (syms : List ElfFunctionSym) : List ElfFunctionSym :=
  syms.filter fun sym => sym.stem = name

/-- Two symbols have different addresses. -/
def AddressesDiffer (syms : List ElfFunctionSym) : Prop :=
  ∃ sym ∈ syms, ∃ sym' ∈ syms, sym.addr ≠ sym'.addr

/-- The table is sorted by `strcmp`, and has one entry for each name of a function symbol, with
all the symbols of that name; `ambiguous_addr` is set exactly when these have different
addresses, and `elf_functions__find` finds exactly the names of the table. -/
structure CollectsFunctions (symtab : List ElfSym) (funcs : ElfFunctions) : Prop where
  sorted : funcs.entries.Pairwise fun a b => strcmp a.name b.name < 0
  complete : ∀ sym ∈ functionSyms symtab, ∃ func ∈ funcs.entries, func.name = sym.stem
  syms : ∀ func ∈ funcs.entries, func.syms ≠ [] ∧
    func.syms.Perm (symsNamed func.name (functionSyms symtab))
  ambiguous : ∀ func ∈ funcs.entries,
    func.ambiguousAddr = true ↔ AddressesDiffer func.syms
  found : ∀ name, (funcs.findFunction name).isSome ↔
    ∃ sym ∈ functionSyms symtab, sym.stem = name
  named : ∀ name ptr, funcs.findFunction name = some ptr →
    ∃ func, funcs.entries[ptr.entry]? = some func ∧ func.name = name

/-- Symbols of one name whose addresses are zero and one other value. -/
def ZeroAndOne (syms : List ElfFunctionSym) : Prop :=
  ∃ addr, addr ≠ 0 ∧ (∃ sym ∈ syms, sym.addr = 0) ∧ (∃ sym ∈ syms, sym.addr = addr) ∧
    ∀ sym ∈ syms, sym.addr = 0 ∨ sym.addr = addr

/-- A name is the last one of the table. -/
def LastName (name : String) (syms : List ElfFunctionSym) : Prop := ∀ sym ∈ syms, sym.stem ≤ name

/-- No name has 65536 symbols, the symbols of the last name have one address, and those of
another name do not have zero and one other address. -/
structure TableFits (syms : List ElfFunctionSym) : Prop where
  few : ∀ name, (symsNamed name syms).length < 65536
  last : ∀ name, LastName name syms → ¬AddressesDiffer (symsNamed name syms)
  others : ∀ name, ¬LastName name syms → ¬ZeroAndOne (symsNamed name syms)

/-! ## Comparing names -/

section Strcmp

variable {a b : String}

theorem strcmp_of_lt (h : a < b) : strcmp a b = -1 := by
  rw [strcmp, if_neg h.ne, if_pos h]

theorem strcmp_self : strcmp a a = 0 := if_pos rfl

theorem strcmp_of_gt (h : b < a) : strcmp a b = 1 := by
  rw [strcmp, if_neg h.ne', if_neg h.asymm]

theorem strcmp_eq_zero : strcmp a b = 0 ↔ a = b := by
  rcases lt_trichotomy a b with h | rfl | h
  · rw [strcmp_of_lt h]
    exact ⟨fun h0 => absurd h0 (by decide), fun heq => absurd heq h.ne⟩
  · exact ⟨fun _ => rfl, fun _ => strcmp_self⟩
  · rw [strcmp_of_gt h]
    exact ⟨fun h0 => absurd h0 (by decide), fun heq => absurd heq h.ne'⟩

theorem strcmp_neg : strcmp a b < 0 ↔ a < b := by
  rcases lt_trichotomy a b with h | rfl | h
  · rw [strcmp_of_lt h]
    exact ⟨fun _ => h, fun _ => by decide⟩
  · rw [strcmp_self]
    exact ⟨fun h0 => absurd h0 (by decide), fun h => absurd h (lt_irrefl a)⟩
  · rw [strcmp_of_gt h]
    exact ⟨fun h0 => absurd h0 (by decide), fun h' => absurd h' h.asymm⟩

theorem strcmp_pos : 0 < strcmp a b ↔ b < a := by
  rcases lt_trichotomy a b with h | rfl | h
  · rw [strcmp_of_lt h]
    exact ⟨fun h0 => absurd h0 (by decide), fun h' => absurd h' h.asymm⟩
  · rw [strcmp_self]
    exact ⟨fun h0 => absurd h0 (by decide), fun h => absurd h (lt_irrefl a)⟩
  · rw [strcmp_of_gt h]
    exact ⟨fun _ => h, fun _ => by decide⟩

theorem strcmp_le_zero : strcmp a b ≤ 0 ↔ a ≤ b := by
  rw [← not_lt, strcmp_pos, not_lt]

theorem comparator_nameCmp : Comparator ElfFunctions.nameCmp where
  total a b := by
    rw [ElfFunctions.nameCmp, ElfFunctions.nameCmp, strcmp_le_zero, strcmp_le_zero]
    exact le_total _ _
  trans a b c := by
    rw [ElfFunctions.nameCmp, ElfFunctions.nameCmp, ElfFunctions.nameCmp, strcmp_le_zero,
      strcmp_le_zero, strcmp_le_zero]
    exact le_trans

end Strcmp

/-! ## Merging -/

/-- The entry for one symbol. -/
def ElfFunction.single (sym : ElfFunctionSym) : ElfFunction where
  name := sym.stem
  syms := [sym]
  ambiguousAddr := false
  kfunc := false
  kfuncFlags := 0

theorem entryOf_eq (sym : ElfSym) :
    ElfFunctions.entryOf sym = sym.functionSym?.map ElfFunction.single := by
  unfold ElfFunctions.entryOf ElfSym.functionSym?
  split
  · cases sym.name with
    | none => rfl
    | some name =>
        by_cases hsuffix : strContainsNonFnSuffix name
        · simp [hsuffix]
        · simp [hsuffix, ElfFunction.single, ElfFunctionSym.stem, withoutSuffix]
  · rfl

theorem filterMap_entryOf (symtab : List ElfSym) :
    symtab.filterMap ElfFunctions.entryOf = (functionSyms symtab).map ElfFunction.single := by
  rw [functionSyms, List.map_filterMap]
  exact List.filterMap_congr fun sym _ => entryOf_eq sym

/-- The symbols of an entry once another one is added. -/
def pushed (syms : List ElfFunctionSym) (sym : ElfFunctionSym) : List ElfFunctionSym :=
  if syms.length + 1 < 65536 then syms ++ [sym] else []

theorem length_foldl_pushed {syms : List ElfFunctionSym} (h : syms.length < 65536)
    (added : List ElfFunctionSym) : (added.foldl pushed syms).length < 65536 := by
  induction added generalizing syms with
  | nil => exact h
  | cons sym added ih =>
      apply ih
      unfold pushed
      split
      · next hfew => rwa [List.length_append, List.length_singleton]
      · exact Nat.zero_lt_succ _

/-- Below 65536 symbols, pushing appends every one of them. -/
theorem foldl_pushed {syms added : List ElfFunctionSym}
    (h : syms.length + added.length < 65536) : added.foldl pushed syms = syms ++ added := by
  induction added generalizing syms with
  | nil => rw [List.foldl_nil, List.append_nil]
  | cons sym added ih =>
      rw [List.length_cons] at h
      have hfew : syms.length + 1 < 65536 := by omega
      rw [List.foldl_cons, pushed, if_pos hfew, ih, List.append_assoc, List.singleton_append]
      rw [List.length_append, List.length_singleton]
      omega

section Dedup

open ElfFunctions

variable {a func : ElfFunction} {sym : ElfFunctionSym} {syms : List ElfFunctionSym}

theorem dedup_same (h : a.name = sym.stem) :
    dedup a ((sym :: syms).map ElfFunction.single) =
      dedup (a.pushSym sym) (syms.map ElfFunction.single) :=
  if_pos h

theorem dedup_next (h : a.name ≠ sym.stem) :
    dedup a ((sym :: syms).map ElfFunction.single) =
      { a with ambiguousAddr := a.hasAmbiguousAddress } ::
        dedup (ElfFunction.single sym) (syms.map ElfFunction.single) :=
  if_neg h

theorem symsNamed_cons_of_eq {name : String} (h : sym.stem = name) :
    symsNamed name (sym :: syms) = sym :: symsNamed name syms :=
  List.filter_cons_of_pos (decide_eq_true h)

theorem symsNamed_cons_of_ne {name : String} (h : sym.stem ≠ name) :
    symsNamed name (sym :: syms) = symsNamed name syms := by
  apply List.filter_cons_of_neg
  rw [decide_eq_true_eq]
  exact h

theorem symsNamed_eq_nil {name : String} (h : ∀ sym ∈ syms, sym.stem ≠ name) :
    symsNamed name syms = [] := by
  rw [symsNamed, List.filter_eq_nil_iff]
  intro sym hsym
  rw [decide_eq_true_eq]
  exact h sym hsym

/-- A name has an entry after merging if and only if it is the stem of a symbol. -/
theorem exists_mem_dedup_iff {name : String} :
    (∃ func ∈ dedup a (syms.map ElfFunction.single), func.name = name) ↔
      a.name = name ∨ ∃ sym ∈ syms, sym.stem = name := by
  induction syms generalizing a with
  | nil => simp [dedup]
  | cons sym syms ih =>
      by_cases h : a.name = sym.stem
      · rw [dedup_same h, ih, List.exists_mem_cons_iff, ← h]
        exact ⟨Or.imp_right Or.inr, fun hor => hor.elim Or.inl id⟩
      · rw [dedup_next h, List.exists_mem_cons_iff, ih, List.exists_mem_cons_iff]
        exact Iff.rfl

/-- Symbols sorted by stem are merged into entries with ascending names. -/
theorem pairwise_dedup (hfirst : ∀ sym ∈ syms, a.name ≤ sym.stem)
    (hsorted : syms.Pairwise fun sym sym' => sym.stem ≤ sym'.stem) :
    (dedup a (syms.map ElfFunction.single)).Pairwise fun func func' => func.name < func'.name := by
  induction syms generalizing a with
  | nil => exact List.pairwise_singleton _ _
  | cons sym syms ih =>
      obtain ⟨hsym, hsyms⟩ := List.pairwise_cons.mp hsorted
      obtain ⟨hle, hrest⟩ := List.forall_mem_cons.mp hfirst
      by_cases h : a.name = sym.stem
      · rw [dedup_same h]
        exact ih hrest hsyms
      · rw [dedup_next h]
        refine List.pairwise_cons.mpr ⟨fun func hfunc => ?_, ih hsym hsyms⟩
        have hlt : a.name < sym.stem := lt_of_le_of_ne hle h
        rcases exists_mem_dedup_iff.mp ⟨func, hfunc, rfl⟩ with hname | ⟨sym', hmem, hname⟩
        · exact lt_of_lt_of_eq hlt hname
        · exact lt_of_lt_of_eq (lt_of_lt_of_le hlt (hsym sym' hmem)) hname

/-- The symbols that an entry starts from before those behind it are merged. -/
def startSyms (a : ElfFunction) (name : String) : List ElfFunctionSym :=
  if name = a.name then a.syms else []

/-- Whether a symbol comes after a name does not depend on a symbol that does not. -/
theorem exists_later_cons {name : String} (h : sym.stem ≤ name) :
    decide (∃ sym' ∈ syms, name < sym'.stem) = decide (∃ sym' ∈ sym :: syms, name < sym'.stem) := by
  apply decide_eq_decide.mpr
  rw [List.exists_mem_cons_iff]
  exact ⟨Or.inr, fun hor => hor.resolve_left (not_lt.mpr h)⟩

/-- An entry has the symbols of its name, in their order, and the verdict on them if a
name comes behind it. -/
theorem mem_dedup (hclear : a.ambiguousAddr = false) (hfirst : ∀ sym ∈ syms, a.name ≤ sym.stem)
    (hsorted : syms.Pairwise fun sym sym' => sym.stem ≤ sym'.stem)
    (hfunc : func ∈ dedup a (syms.map ElfFunction.single)) :
    func.syms = (symsNamed func.name syms).foldl pushed (startSyms a func.name) ∧
      func.ambiguousAddr =
        (decide (∃ sym ∈ syms, func.name < sym.stem) && func.hasAmbiguousAddress) := by
  induction syms generalizing a with
  | nil =>
      obtain rfl := List.mem_singleton.mp hfunc
      refine ⟨(if_pos rfl).symm, ?_⟩
      rw [hclear]
      simp
  | cons sym syms ih =>
      obtain ⟨hsym, hsyms⟩ := List.pairwise_cons.mp hsorted
      obtain ⟨hle, hrest⟩ := List.forall_mem_cons.mp hfirst
      by_cases h : a.name = sym.stem
      · rw [dedup_same h] at hfunc
        have hclear' : (a.pushSym sym).ambiguousAddr = false := hclear
        obtain ⟨hfsyms, hflag⟩ := ih hclear' hrest hsyms hfunc
        constructor
        · rw [hfsyms]
          by_cases hname : func.name = a.name
          · have hstart : startSyms (a.pushSym sym) func.name = pushed a.syms sym := if_pos hname
            rw [symsNamed_cons_of_eq (hname.trans h).symm, List.foldl_cons, hstart, startSyms,
              if_pos hname]
          · have hne : sym.stem ≠ func.name := fun heq => hname (heq.symm.trans h.symm)
            have hstart : startSyms (a.pushSym sym) func.name = [] := if_neg hname
            rw [symsNamed_cons_of_ne hne, hstart, startSyms, if_neg hname]
        · have hname : a.name ≤ func.name := by
            rcases exists_mem_dedup_iff.mp ⟨func, hfunc, rfl⟩ with heq | ⟨sym', hmem, heq⟩
            · exact le_of_eq heq
            · exact (hrest sym' hmem).trans_eq heq
          rw [hflag, exists_later_cons (h ▸ hname)]
      · rw [dedup_next h] at hfunc
        have hlt : a.name < sym.stem := lt_of_le_of_ne hle h
        rcases List.mem_cons.mp hfunc with rfl | hfunc
        · have hnone : symsNamed a.name (sym :: syms) = [] := by
            apply symsNamed_eq_nil
            intro sym' hmem
            rcases List.mem_cons.mp hmem with rfl | hmem
            · exact hlt.ne'
            · exact (lt_of_lt_of_le hlt (hsym sym' hmem)).ne'
          have hlater : ∃ sym' ∈ sym :: syms, a.name < sym'.stem :=
            ⟨sym, List.mem_cons_self, hlt⟩
          constructor
          · change a.syms = (symsNamed a.name (sym :: syms)).foldl pushed (startSyms a a.name)
            rw [hnone]
            exact (if_pos rfl).symm
          · change a.hasAmbiguousAddress =
              (decide (∃ sym' ∈ sym :: syms, a.name < sym'.stem) && a.hasAmbiguousAddress)
            rw [decide_eq_true hlater, Bool.true_and]
        · have hclear' : (ElfFunction.single sym).ambiguousAddr = false := rfl
          obtain ⟨hfsyms, hflag⟩ := ih hclear' hsym hsyms hfunc
          have hname : sym.stem ≤ func.name := by
            rcases exists_mem_dedup_iff.mp ⟨func, hfunc, rfl⟩ with heq | ⟨sym', hmem, heq⟩
            · exact le_of_eq heq
            · exact (hsym sym' hmem).trans_eq heq
          have hstart : startSyms a func.name = [] := if_neg (lt_of_lt_of_le hlt hname).ne'
          constructor
          · rw [hfsyms, hstart]
            by_cases heq : func.name = sym.stem
            · have hstart' : startSyms (ElfFunction.single sym) func.name = pushed [] sym :=
                if_pos heq
              rw [symsNamed_cons_of_eq heq.symm, List.foldl_cons, hstart']
            · have hstart' : startSyms (ElfFunction.single sym) func.name = [] := if_neg heq
              rw [symsNamed_cons_of_ne (Ne.symm heq), hstart']
          · rw [hflag, exists_later_cons hname]

end Dedup

/-! ## Ambiguous addresses -/

section Ambiguous

variable {syms : List ElfFunctionSym} {addr c : ℕ}

/-- From an address that is not zero, symbols are unambiguous if and only if they all have this
address. -/
theorem ambiguousFrom_eq_false_iff (hne : addr ≠ 0) :
    ambiguousFrom addr syms = false ↔ ∀ sym ∈ syms, sym.addr = addr := by
  induction syms with
  | nil => exact ⟨fun _ _ hmem => absurd hmem List.not_mem_nil, fun _ => rfl⟩
  | cons sym syms ih =>
      rw [ambiguousFrom, List.forall_mem_cons]
      by_cases haddr : sym.addr = addr
      · rw [if_neg (fun h => h.2 haddr.symm), haddr, ih]
        exact ⟨fun h => ⟨rfl, h⟩, fun h => h.2⟩
      · rw [if_pos ⟨hne, Ne.symm haddr⟩]
        exact ⟨fun h => absurd h (by decide), fun h => absurd h.1 haddr⟩

/-- From the address 0, unambiguous symbols have the address 0 or one other address. -/
theorem zero_or_one_of_ambiguousFrom (h : ambiguousFrom 0 syms = false) :
    ∃ c, c ≠ 0 ∧ ∀ sym ∈ syms, sym.addr = 0 ∨ sym.addr = c := by
  induction syms with
  | nil => exact ⟨1, by decide, fun _ hmem => absurd hmem List.not_mem_nil⟩
  | cons sym syms ih =>
      rw [ambiguousFrom, if_neg (fun h0 => h0.1 rfl)] at h
      by_cases hzero : sym.addr = 0
      · rw [hzero] at h
        obtain ⟨c, hc, hrest⟩ := ih h
        exact ⟨c, hc, List.forall_mem_cons.mpr ⟨Or.inl hzero, hrest⟩⟩
      · have hrest := (ambiguousFrom_eq_false_iff hzero).mp h
        exact ⟨sym.addr, hzero, List.forall_mem_cons.mpr
          ⟨Or.inr rfl, fun sym' hmem => Or.inr (hrest sym' hmem)⟩⟩

theorem ambiguousFrom_of_same (h : ∀ sym ∈ syms, sym.addr = c) (haddr : addr = 0 ∨ addr = c) :
    ambiguousFrom addr syms = false := by
  induction syms generalizing addr with
  | nil => rfl
  | cons sym syms ih =>
      obtain ⟨hsym, hrest⟩ := List.forall_mem_cons.mp h
      have hnot : ¬(addr ≠ 0 ∧ addr ≠ sym.addr) := by
        rintro ⟨hzero, hother⟩
        exact haddr.elim hzero fun heq => hother (heq.trans hsym.symm)
      rw [ambiguousFrom, if_neg hnot]
      exact ih hrest (Or.inr hsym)

/-- In ascending order a second address is not noticed. -/
theorem ambiguousFrom_of_ascending
    (hsorted : syms.Pairwise fun sym sym' => sym.addr ≤ sym'.addr)
    (h : ∀ sym ∈ syms, sym.addr = 0 ∨ sym.addr = c) : ambiguousFrom 0 syms = false := by
  induction syms with
  | nil => rfl
  | cons sym syms ih =>
      obtain ⟨hle, hrest⟩ := List.pairwise_cons.mp hsorted
      obtain ⟨hsym, hsyms⟩ := List.forall_mem_cons.mp h
      rw [ambiguousFrom, if_neg (fun h0 => h0.1 rfl)]
      by_cases hzero : sym.addr = 0
      · rw [hzero]
        exact ih hrest hsyms
      · apply (ambiguousFrom_eq_false_iff hzero).mpr
        intro sym' hmem
        have hc : sym.addr = c := hsym.resolve_left hzero
        rcases hsyms sym' hmem with hzero' | hc'
        · have hle' := hle sym' hmem
          omega
        · rw [hc', hc]

theorem not_addressesDiffer_of_same (h : ∀ sym ∈ syms, sym.addr = c) : ¬AddressesDiffer syms := by
  rintro ⟨sym, hmem, sym', hmem', hne⟩
  exact hne ((h sym hmem).trans (h sym' hmem').symm)

/-- `elf_function__has_ambiguous_address` notices different addresses unless they are
zero and one other. -/
theorem hasAmbiguousAddress_iff {func : ElfFunction} (hone : ¬ZeroAndOne func.syms) :
    func.hasAmbiguousAddress = true ↔ AddressesDiffer func.syms := by
  unfold ElfFunction.hasAmbiguousAddress
  rcases hsyms : func.syms with _ | ⟨sym, _ | ⟨sym', rest⟩⟩
  · exact ⟨fun h => absurd h (by decide), fun ⟨_, hmem, _⟩ => absurd hmem List.not_mem_nil⟩
  · have hsame : ∀ other ∈ [sym], other.addr = sym.addr := by
      intro other hmem
      rw [List.mem_singleton.mp hmem]
    exact ⟨fun h => absurd h (by simp), fun h => absurd h (not_addressesDiffer_of_same hsame)⟩
  · rw [← hsyms, if_neg (by simp [hsyms])]
    constructor
    · intro hambiguous
      by_contra hnot
      have hsame : ∀ other ∈ func.syms, other.addr = sym.addr := by
        intro other hmem
        by_contra hne
        exact hnot ⟨other, hmem, sym, by simp [hsyms], hne⟩
      rw [ambiguousFrom_of_same hsame (Or.inl rfl)] at hambiguous
      cases hambiguous
    · rintro ⟨x, hx, y, hy, hne⟩
      by_contra hnot
      obtain ⟨c, hc, hall⟩ := zero_or_one_of_ambiguousFrom (eq_false_of_ne_true hnot)
      apply hone
      rcases hall x hx with hx0 | hxc
      · have hyc := (hall y hy).resolve_left fun hy0 => hne (hx0.trans hy0.symm)
        exact ⟨c, hc, ⟨x, hx, hx0⟩, ⟨y, hy, hyc⟩, hall⟩
      · have hy0 := (hall y hy).resolve_right fun hyc => hne (hxc.trans hyc.symm)
        exact ⟨c, hc, ⟨y, hy, hy0⟩, ⟨x, hx, hxc⟩, hall⟩

end Ambiguous

/-! ## The whole table -/

/-- The entries for sorted symbols. -/
def mergedEntries : List ElfFunctionSym → List ElfFunction
  | [] => []
  | sym :: syms => ElfFunctions.dedup (ElfFunction.single sym) (syms.map ElfFunction.single)

section Merged

variable {syms : List ElfFunctionSym} {func : ElfFunction}

theorem exists_mem_mergedEntries_iff {name : String} :
    (∃ func ∈ mergedEntries syms, func.name = name) ↔ ∃ sym ∈ syms, sym.stem = name := by
  cases syms with
  | nil => simp [mergedEntries]
  | cons sym syms =>
      rw [mergedEntries, exists_mem_dedup_iff, List.exists_mem_cons_iff]
      exact Iff.rfl

theorem pairwise_mergedEntries
    (hsorted : syms.Pairwise fun sym sym' => sym.stem ≤ sym'.stem) :
    (mergedEntries syms).Pairwise fun func func' => func.name < func'.name := by
  cases syms with
  | nil => exact List.Pairwise.nil
  | cons sym syms =>
      obtain ⟨hfirst, hrest⟩ := List.pairwise_cons.mp hsorted
      exact pairwise_dedup hfirst hrest

/-- An entry has the symbols of its name, and the verdict on them unless its name is the
last one. -/
theorem mem_mergedEntries (hsorted : syms.Pairwise fun sym sym' => sym.stem ≤ sym'.stem)
    (hfunc : func ∈ mergedEntries syms) :
    func.syms = (symsNamed func.name syms).foldl pushed [] ∧
      (LastName func.name syms → func.ambiguousAddr = false) ∧
        (¬LastName func.name syms → func.ambiguousAddr = func.hasAmbiguousAddress) := by
  cases syms with
  | nil => cases hfunc
  | cons sym syms =>
      obtain ⟨hfirst, hrest⟩ := List.pairwise_cons.mp hsorted
      have hclear : (ElfFunction.single sym).ambiguousAddr = false := rfl
      obtain ⟨hsyms, hflag⟩ := mem_dedup hclear hfirst hrest hfunc
      have hname : sym.stem ≤ func.name := by
        rcases exists_mem_mergedEntries_iff.mp ⟨func, hfunc, rfl⟩ with ⟨sym', hmem, heq⟩
        rcases List.mem_cons.mp hmem with rfl | hmem
        · exact le_of_eq heq
        · exact (hfirst sym' hmem).trans_eq heq
      rw [exists_later_cons hname] at hflag
      refine ⟨?_, fun hlast => ?_, fun hlast => ?_⟩
      · rw [hsyms]
        by_cases heq : func.name = sym.stem
        · have hstart : startSyms (ElfFunction.single sym) func.name = pushed [] sym := if_pos heq
          rw [symsNamed_cons_of_eq heq.symm, List.foldl_cons, hstart]
        · have hstart : startSyms (ElfFunction.single sym) func.name = [] := if_neg heq
          rw [symsNamed_cons_of_ne (Ne.symm heq), hstart]
      · have hnone : ¬∃ sym' ∈ sym :: syms, func.name < sym'.stem := by
          rintro ⟨sym', hmem, hlt⟩
          exact not_lt.mpr (hlast sym' hmem) hlt
        rw [hflag, decide_eq_false hnone, Bool.false_and]
      · have hlater : ∃ sym' ∈ sym :: syms, func.name < sym'.stem := by
          by_contra hnot
          apply hlast
          intro sym' hmem
          by_contra hle
          exact hnot ⟨sym', hmem, not_le.mp hle⟩
        rw [hflag, decide_eq_true hlater, Bool.true_and]

end Merged

section Collect

open ElfFunctions

variable {symtab : List ElfSym} {elf : ℕ} {qsort : Qsort}

theorem collect_of_sort {syms : List ElfFunctionSym}
    (h : qsort.sort nameCmp (symtab.filterMap entryOf) = syms.map ElfFunction.single) :
    ElfFunctions.collect qsort symtab = mergedEntries syms := by
  unfold ElfFunctions.collect
  rw [h]
  cases syms <;> rfl

/-- The entries collected are those merged from the symbols in some order sorted by stem. -/
theorem exists_collect_eq (qsort : Qsort) (symtab : List ElfSym) :
    ∃ syms : List ElfFunctionSym, syms.Perm (functionSyms symtab) ∧
      (syms.Pairwise fun sym sym' => sym.stem ≤ sym'.stem) ∧
        ElfFunctions.collect qsort symtab = mergedEntries syms := by
  have hperm := qsort.perm nameCmp (symtab.filterMap entryOf)
  have hsorted := qsort.sorted nameCmp (symtab.filterMap entryOf) comparator_nameCmp
  have hmap : (Relation.Comp (fun a b => a = List.map ElfFunction.single b) List.Perm)
      (qsort.sort nameCmp (symtab.filterMap entryOf)) (functionSyms symtab) := by
    rw [List.eq_map_comp_perm]
    change (qsort.sort nameCmp (symtab.filterMap entryOf)).Perm _
    rw [← filterMap_entryOf]
    exact hperm
  obtain ⟨syms, hsyms, hfuncs⟩ := hmap
  refine ⟨syms, hfuncs, ?_, collect_of_sort hsyms⟩
  rw [hsyms, List.pairwise_map] at hsorted
  exact hsorted.imp fun hle => strcmp_le_zero.mp hle

/-- In whatever order the symbols of one name are taken, some `qsort` takes them in it. -/
theorem exists_qsort_collect {syms : List ElfFunctionSym}
    (hperm : syms.Perm (functionSyms symtab))
    (hsorted : syms.Pairwise fun sym sym' => sym.stem ≤ sym'.stem) :
    ∃ qsort : Qsort, ElfFunctions.collect qsort symtab = mergedEntries syms := by
  have hentries : (syms.map ElfFunction.single).Perm (symtab.filterMap entryOf) := by
    rw [filterMap_entryOf]
    exact hperm.map ElfFunction.single
  have hcmp : (syms.map ElfFunction.single).Pairwise fun a b => nameCmp a b ≤ 0 := by
    rw [List.pairwise_map]
    exact hsorted.imp fun hle => strcmp_le_zero.mpr hle
  obtain ⟨qsort, hqsort⟩ := Qsort.exists_sort_eq hentries hcmp
  exact ⟨qsort, collect_of_sort hqsort⟩

theorem symsNamed_perm {syms syms' : List ElfFunctionSym} (h : syms.Perm syms') (name : String) :
    (symsNamed name syms).Perm (symsNamed name syms') :=
  h.filter _

theorem lastName_congr {syms syms' : List ElfFunctionSym} (h : syms.Perm syms') (name : String) :
    LastName name syms ↔ LastName name syms' :=
  forall_congr' fun _ => by rw [h.mem_iff]

theorem addressesDiffer_congr {syms syms' : List ElfFunctionSym} (h : syms.Perm syms') :
    AddressesDiffer syms ↔ AddressesDiffer syms' := by
  simp only [AddressesDiffer, h.mem_iff]

theorem zeroAndOne_congr {syms syms' : List ElfFunctionSym} (h : syms.Perm syms') :
    ZeroAndOne syms ↔ ZeroAndOne syms' := by
  simp only [ZeroAndOne, h.mem_iff]

/-- `btf_encoder__find_function` finds what is in a sorted table. -/
theorem findFunction_isSome_iff {funcs : ElfFunctions}
    (hsorted : funcs.entries.Pairwise fun func func' => func.name < func'.name) {name : String} :
    (funcs.findFunction name).isSome ↔ ∃ func ∈ funcs.entries, func.name = name := by
  have hord : SearchOrdered (fun func => strcmp name func.name) funcs.entries := by
    refine hsorted.imp fun hlt => ⟨fun hneg => ?_, fun hpos => ?_⟩
    · exact strcmp_neg.mpr ((strcmp_neg.mp hneg).trans hlt)
    · exact strcmp_pos.mpr (hlt.trans (strcmp_pos.mp hpos))
  rw [findFunction, Option.isSome_map, bsearch_isSome_iff hord]
  refine exists_congr fun func => and_congr_right fun _ => ?_
  rw [strcmp_eq_zero]
  exact eq_comm

theorem findFunction_named {funcs : ElfFunctions} {name : String} {ptr : ElfPtr}
    (h : funcs.findFunction name = some ptr) :
    ∃ func, funcs.entries[ptr.entry]? = some func ∧ func.name = name := by
  obtain ⟨i, hi, rfl⟩ := Option.map_eq_some_iff.mp h
  obtain ⟨func, hfunc, hcmp⟩ := bsearch_sound hi
  exact ⟨func, hfunc, (strcmp_eq_zero.mp hcmp).symm⟩

/-- The entries of a table for few symbols have all of them. -/
theorem syms_of_few {syms : List ElfFunctionSym} {func : ElfFunction}
    (hfew : (symsNamed func.name syms).length < 65536)
    (hsorted : syms.Pairwise fun sym sym' => sym.stem ≤ sym'.stem)
    (hfunc : func ∈ mergedEntries syms) : func.syms = symsNamed func.name syms := by
  rw [(mem_mergedEntries hsorted hfunc).1, foldl_pushed, List.nil_append]
  rwa [List.length_nil, Nat.zero_add]

theorem collectsFunctions_of_fits (hfits : TableFits (functionSyms symtab)) (elf : ℕ)
    (qsort : Qsort) :
    CollectsFunctions symtab ⟨elf, symtab, ElfFunctions.collect qsort symtab⟩ := by
  obtain ⟨syms, hperm, hsorted, hcollect⟩ := exists_collect_eq qsort symtab
  rw [hcollect]
  have hpairwise := pairwise_mergedEntries hsorted
  have hnames : ∀ {name : String}, (∃ func ∈ mergedEntries syms, func.name = name) ↔
      ∃ sym ∈ functionSyms symtab, sym.stem = name := by
    intro name
    rw [exists_mem_mergedEntries_iff]
    simp only [hperm.mem_iff]
  have hsyms : ∀ func ∈ mergedEntries syms, func.syms = symsNamed func.name syms := by
    intro func hfunc
    refine syms_of_few ?_ hsorted hfunc
    rw [(symsNamed_perm hperm func.name).length_eq]
    exact hfits.few func.name
  constructor
  · exact hpairwise.imp fun hlt => strcmp_neg.mpr hlt
  · intro sym hsym
    exact hnames.mpr ⟨sym, hsym, rfl⟩
  · intro func hfunc
    rw [hsyms func hfunc]
    refine ⟨?_, symsNamed_perm hperm func.name⟩
    obtain ⟨sym, hsym, hname⟩ := exists_mem_mergedEntries_iff.mp ⟨func, hfunc, rfl⟩
    exact List.ne_nil_of_mem (List.mem_filter.mpr ⟨hsym, decide_eq_true hname⟩)
  · intro func hfunc
    have hnamed := symsNamed_perm hperm func.name
    by_cases hlast : LastName func.name syms
    · have hsame := hfits.last func.name ((lastName_congr hperm _).mp hlast)
      rw [← addressesDiffer_congr hnamed, ← hsyms func hfunc] at hsame
      rw [(mem_mergedEntries hsorted hfunc).2.1 hlast]
      exact ⟨fun h => absurd h (by decide), fun h => absurd h hsame⟩
    · have hone := hfits.others func.name fun h => hlast ((lastName_congr hperm _).mpr h)
      rw [← zeroAndOne_congr hnamed, ← hsyms func hfunc] at hone
      rw [(mem_mergedEntries hsorted hfunc).2.2 hlast]
      exact hasAmbiguousAddress_iff hone
  · intro name
    exact (findFunction_isSome_iff hpairwise).trans hnames
  · intro name ptr hptr
    exact findFunction_named hptr

/-- In a table that collects the functions, a name with symbols has an entry with exactly these
symbols. -/
theorem exists_entry_of_collects {funcs : ElfFunctions} {name : String}
    (h : CollectsFunctions symtab funcs)
    (hne : ∃ sym, sym ∈ symsNamed name (functionSyms symtab)) :
    ∃ func ∈ funcs.entries, func.name = name ∧
      func.syms.Perm (symsNamed name (functionSyms symtab)) := by
  obtain ⟨sym, hsym⟩ := hne
  obtain ⟨hmem, hname⟩ := List.mem_filter.mp hsym
  obtain ⟨func, hfunc, hstem⟩ := h.complete sym hmem
  obtain rfl : func.name = name := hstem.trans (of_decide_eq_true hname)
  exact ⟨func, hfunc, rfl, (h.syms func hfunc).2⟩

theorem few_of_collects
    (h : CollectsFunctions symtab ⟨elf, symtab, ElfFunctions.collect qsort symtab⟩)
    (name : String) :
    (symsNamed name (functionSyms symtab)).length < 65536 := by
  by_contra hmany
  have hne : ∃ sym, sym ∈ symsNamed name (functionSyms symtab) := by
    apply List.exists_mem_of_length_pos
    omega
  obtain ⟨func, hfunc, -, hsyms⟩ := exists_entry_of_collects h hne
  obtain ⟨syms, -, hsorted, hcollect⟩ := exists_collect_eq qsort symtab
  have hmerged : func ∈ mergedEntries syms := hcollect ▸ hfunc
  have hlt : func.syms.length < 65536 := by
    rw [(mem_mergedEntries hsorted hmerged).1]
    apply length_foldl_pushed
    exact Nat.zero_lt_succ _
  rw [hsyms.length_eq] at hlt
  exact hmany hlt

theorem last_of_collects
    (h : CollectsFunctions symtab ⟨elf, symtab, ElfFunctions.collect qsort symtab⟩) {name : String}
    (hlast : LastName name (functionSyms symtab)) :
    ¬AddressesDiffer (symsNamed name (functionSyms symtab)) := by
  intro hdiffer
  have hne : ∃ sym, sym ∈ symsNamed name (functionSyms symtab) := by
    obtain ⟨sym, hsym, -⟩ := hdiffer
    exact ⟨sym, hsym⟩
  obtain ⟨func, hfunc, rfl, hsyms⟩ := exists_entry_of_collects h hne
  obtain ⟨syms, hperm, hsorted, hcollect⟩ := exists_collect_eq qsort symtab
  have hmerged : func ∈ mergedEntries syms := hcollect ▸ hfunc
  have hflag := (mem_mergedEntries hsorted hmerged).2.1 ((lastName_congr hperm _).mpr hlast)
  rw [(h.ambiguous func hfunc).mpr ((addressesDiffer_congr hsyms).mpr hdiffer)] at hflag
  cases hflag

/-- The symbols by name, those of one name by address. -/
def ascendingSyms (syms : List ElfFunctionSym) : List ElfFunctionSym :=
  syms.mergeSort fun a b => decide (toLex (a.stem, a.addr) ≤ toLex (b.stem, b.addr))

theorem perm_ascendingSyms (syms : List ElfFunctionSym) : (ascendingSyms syms).Perm syms :=
  List.mergeSort_perm _ _

theorem pairwise_ascendingSyms (syms : List ElfFunctionSym) :
    (ascendingSyms syms).Pairwise fun a b => toLex (a.stem, a.addr) ≤ toLex (b.stem, b.addr) := by
  refine (List.pairwise_mergeSort ?_ ?_ syms).imp fun hle => of_decide_eq_true hle
  · intro a b c hab hbc
    exact decide_eq_true ((of_decide_eq_true hab).trans (of_decide_eq_true hbc))
  · intro a b
    rw [Bool.or_eq_true, decide_eq_true_eq, decide_eq_true_eq]
    exact le_total _ _

theorem others_of_collects
    (h : ∀ qsort, CollectsFunctions symtab ⟨elf, symtab, ElfFunctions.collect qsort symtab⟩)
    {name : String}
    (hlast : ¬LastName name (functionSyms symtab)) :
    ¬ZeroAndOne (symsNamed name (functionSyms symtab)) := by
  intro hone
  set syms := ascendingSyms (functionSyms symtab)
  have hperm : syms.Perm (functionSyms symtab) := perm_ascendingSyms _
  have hlex := pairwise_ascendingSyms (functionSyms symtab)
  have hsorted : syms.Pairwise fun sym sym' => sym.stem ≤ sym'.stem :=
    hlex.imp fun hle => (Prod.Lex.toLex_le_toLex.mp hle).elim le_of_lt fun hsame => hsame.1.le
  obtain ⟨qsort, hqsort⟩ := exists_qsort_collect hperm hsorted
  have hcollects := h qsort
  have hone' := hone
  obtain ⟨addr, hne, ⟨sym, hsym, hzero⟩, ⟨sym', hsym', haddr⟩, hall⟩ := hone'
  obtain ⟨func, hfunc, rfl, hsyms⟩ := exists_entry_of_collects hcollects ⟨sym, hsym⟩
  have hmerged : func ∈ mergedEntries syms := hqsort ▸ hfunc
  have hnamed := symsNamed_perm hperm func.name
  have hown : func.syms = symsNamed func.name syms := by
    refine syms_of_few ?_ hsorted hmerged
    rw [hnamed.length_eq]
    exact few_of_collects hcollects func.name
  have hascending : func.syms.Pairwise fun a b => a.addr ≤ b.addr := by
    rw [hown]
    refine (hlex.filter _).imp_of_mem fun ha hb hle => ?_
    have hstem := (of_decide_eq_true (List.mem_filter.mp ha).2).trans
      (of_decide_eq_true (List.mem_filter.mp hb).2).symm
    exact (Prod.Lex.toLex_le_toLex.mp hle).elim (fun hlt => absurd hstem hlt.ne) fun hsame => hsame.2
  have hquiet : ambiguousFrom 0 func.syms = false :=
    ambiguousFrom_of_ascending hascending fun s hs => hall s (hsyms.mem_iff.mp hs)
  have hflag := (mem_mergedEntries hsorted hmerged).2.2 fun h =>
    hlast ((lastName_congr hperm _).mp h)
  have hdiffer : AddressesDiffer func.syms := by
    refine ⟨sym, hsyms.mem_iff.mpr hsym, sym', hsyms.mem_iff.mpr hsym', ?_⟩
    rw [hzero, haddr]
    exact hne.symm
  rw [(hcollects.ambiguous func hfunc).mpr hdiffer, ElfFunction.hasAmbiguousAddress, hquiet,
    ite_self] at hflag
  cases hflag

/-- `elf_functions__collect` makes the right table for every `qsort`, that is in whatever order
it leaves the symbols of one name, if and only if the symbols satisfy `TableFits`. -/
theorem collectsFunctions_iff (elf : ℕ) (symtab : List ElfSym) :
    (∀ qsort, CollectsFunctions symtab ⟨elf, symtab, ElfFunctions.collect qsort symtab⟩) ↔
      TableFits (functionSyms symtab) := by
  constructor
  · intro h
    constructor
    · exact few_of_collects (h Qsort.stable)
    · intro name
      exact last_of_collects (h Qsort.stable)
    · intro name
      exact others_of_collects h
  · intro hfits qsort
    exact collectsFunctions_of_fits hfits elf qsort

end Collect

/-! ## A table with one name -/

/-- Two functions of one name. -/
def twinSymbols : List ElfSym :=
  [⟨some "f", 16, true, false, 1⟩, ⟨some "f", 32, true, false, 1⟩]

theorem functionSyms_twinSymbols : functionSyms twinSymbols = [⟨"f", 16⟩, ⟨"f", 32⟩] := by
  decide

theorem symsNamed_twinSymbols :
    symsNamed "f" (functionSyms twinSymbols) = [⟨"f", 16⟩, ⟨"f", 32⟩] := by
  rw [functionSyms_twinSymbols]
  decide

/-- The addresses of the last name are never found to be ambiguous. -/
theorem not_collectsFunctions_twinSymbols :
    ¬∃ qsort, CollectsFunctions twinSymbols
      ⟨0, twinSymbols, ElfFunctions.collect qsort twinSymbols⟩ := by
  rintro ⟨qsort, h⟩
  have hlast : LastName "f" (functionSyms twinSymbols) := by
    rw [functionSyms_twinSymbols]
    intro sym hmem
    have hstem : sym.stem = "f" := by
      rcases List.mem_cons.mp hmem with rfl | hmem
      · decide
      · rw [List.mem_singleton.mp hmem]
        decide
    exact le_of_eq hstem
  apply last_of_collects h hlast
  rw [symsNamed_twinSymbols]
  exact ⟨⟨"f", 16⟩, by simp, ⟨"f", 32⟩, by simp, by decide⟩

end Pahole
