import Pahole.Dwarves.Tag
import Pahole.Support.CommonPrefix

/-!
# The common prefix of enumerators

`enumerations__calc_prefix` looks for what the names of the enumerators of an
enumeration start with, so that `enumeration__find_enumerator` can be asked for one by
the rest of its name.  The loop has a `curr_name` of its own, and the prefix is copied
from the one around the loop, which is empty: only its length is that of the common
part.
-/

namespace Pahole

open CommonPrefix

/-! ## The code -/

/-- The part of `struct type` that looking for enumerators by name uses. -/
structure NamedEnumeration where
  enumerators : List Enumerator
  memberPrefix : Option String
  /-- a `uint16_t` -/
  memberPrefixLen : ℕ
  deriving DecidableEq

/-- The entries that are enumerators. -/
def NamedEnumeration.values (e : NamedEnumeration) : List Enumerator :=
  e.enumerators.filter Enumerator.isEnumerator

/-- An enumeration as it comes from a loader. -/
def NamedEnumeration.loaded (enumerators : List Enumerator) : NamedEnumeration where
  enumerators := enumerators
  memberPrefix := none
  memberPrefixLen := 0

/-- `strcommon` -/
def strcommon (a b : String) : ℕ := commonLength a.toList b.toList

/-- `strndup` -/
def strndup (s : String) (n : ℕ) : String := String.ofList (s.toList.take n)

/-- `INT32_MAX` -/
def int32Max : ℕ := 2147483647

/-- The loop of `enumeration__calc_prefix`, with its `previous_name` and `common_part`. -/
def calcCommonPart : (previousName : Option String) → (commonPart : ℕ) → List Enumerator → ℕ
  | _, commonPart, [] => commonPart
  | previousName, commonPart, entry :: rest =>
      if entry.isEnumerator then
        match previousName with
        | none => calcCommonPart (some entry.name) commonPart rest
        | some previousName =>
            let currCommonPart := strcommon entry.name previousName
            calcCommonPart (some entry.name)
              (if currCommonPart < commonPart then currCommonPart else commonPart) rest
      else calcCommonPart previousName commonPart rest

/-- `enumeration__calc_prefix`; the `curr_name` that is copied is the outer one. -/
def enumerationCalcPrefix (enumeration : NamedEnumeration) : NamedEnumeration :=
  if enumeration.memberPrefix.isSome then enumeration
  else
    let currName := ""
    let commonPart := calcCommonPart none int32Max enumeration.enumerators
    if commonPart ≠ int32Max then
      { enumeration with
        memberPrefix := some (strndup currName commonPart)
        memberPrefixLen := commonPart % 2 ^ 16 }
    else { enumeration with memberPrefix := none, memberPrefixLen := 0 }

/-- `enumerations__calc_prefix`, over the places of the enumerations among the types. -/
def enumerationsCalcPrefix (types : ℕ → NamedEnumeration) :
    (enumerations : List ℕ) → ℕ → NamedEnumeration
  | [] => types
  | pos :: rest =>
      enumerationsCalcPrefix (Function.update types pos (enumerationCalcPrefix (types pos))) rest

/-- `enumeration__find_enumerator` -/
def enumerationFindEnumerator (enumeration : NamedEnumeration) (name : String) :
    Option Enumerator :=
  enumeration.enumerators.find? fun entry =>
    entry.isEnumerator &&
      (entry.name == name ||
        (enumeration.memberPrefixLen != 0 &&
          entry.name.toList.drop enumeration.memberPrefixLen == name.toList))

/-! ## The longest prefix -/

/-- The prefix is the longest common prefix of all names and `member_prefix_len` its length, and
an enumerator is found exactly by its name or by its name without the prefix. -/
structure PrefixExact (e : NamedEnumeration) : Prop where
  longest : ∃ p, e.memberPrefix = some p ∧
    IsLongest p.toList (e.values.map fun entry => entry.name.toList) ∧
    e.memberPrefixLen = p.length
  finds : ∀ name, (enumerationFindEnumerator e name).isSome ↔
    ∃ entry ∈ e.values, entry.name = name ∨ entry.name = e.memberPrefix.getD "" ++ name

section CalcPrefix

variable {e : NamedEnumeration} {entries : List Enumerator}

theorem calcCommonPart_eq_leastCommon (previous : String) (bound : ℕ) :
    calcCommonPart (some previous) bound entries =
      leastCommon previous.toList bound
        ((entries.filter Enumerator.isEnumerator).map fun entry => entry.name.toList) := by
  induction entries generalizing previous bound with
  | nil => rfl
  | cons entry rest ih =>
      rw [calcCommonPart]
      by_cases hentry : entry.isEnumerator
      · have hmin : (if strcommon entry.name previous < bound then
            strcommon entry.name previous else bound) =
              min bound (commonLength entry.name.toList previous.toList) := by
          rw [min_comm, min_def_lt]
          rfl
        rw [if_pos hentry, List.filter_cons_of_pos hentry, List.map_cons, leastCommon, ← hmin]
        exact ih _ _
      · rw [if_neg hentry, List.filter_cons_of_neg hentry]
        exact ih _ _

/-- With two enumerators or more the common part is as long as the common prefix. -/
theorem calcCommonPart_eq {p : List Char} {bound : ℕ}
    (hlongest : IsLongest p ((entries.filter Enumerator.isEnumerator).map
      fun entry => entry.name.toList))
    (htwo : 2 ≤ (entries.filter Enumerator.isEnumerator).length) :
    calcCommonPart none bound entries = min bound p.length := by
  induction entries with
  | nil => exact absurd htwo (by simp)
  | cons entry rest ih =>
      rw [calcCommonPart]
      by_cases hentry : entry.isEnumerator
      · rw [List.filter_cons_of_pos hentry] at hlongest htwo
        rw [if_pos hentry, calcCommonPart_eq_leastCommon]
        apply leastCommon_eq hlongest
        intro hnil
        rw [List.map_eq_nil_iff] at hnil
        rw [hnil] at htwo
        exact absurd htwo (by simp)
      · rw [List.filter_cons_of_neg hentry] at hlongest htwo
        rw [if_neg hentry]
        exact ih hlongest htwo

theorem enumerationCalcPrefix_idem :
    enumerationCalcPrefix (enumerationCalcPrefix e) = enumerationCalcPrefix e := by
  unfold enumerationCalcPrefix
  by_cases h : e.memberPrefix.isSome
  · simp [h]
  · by_cases hcommon : calcCommonPart none int32Max e.enumerators = int32Max
    · simp [h, hcommon]
    · simp [h, hcommon]

theorem enumerationsCalcPrefix_apply_of_notMem {types : ℕ → NamedEnumeration}
    {enumerations : List ℕ} {pos : ℕ} (h : pos ∉ enumerations) :
    enumerationsCalcPrefix types enumerations pos = types pos := by
  induction enumerations generalizing types with
  | nil => rfl
  | cons here rest ih =>
      obtain ⟨hne, hrest⟩ := List.ne_and_not_mem_of_not_mem_cons h
      rw [enumerationsCalcPrefix, ih hrest, Function.update_of_ne hne]

/-- However often an enumeration is on the list, its prefix is looked for once. -/
theorem enumerationsCalcPrefix_apply {types : ℕ → NamedEnumeration} {enumerations : List ℕ}
    {pos : ℕ} (h : pos ∈ enumerations) :
    enumerationsCalcPrefix types enumerations pos = enumerationCalcPrefix (types pos) := by
  induction enumerations generalizing types with
  | nil => exact absurd h List.not_mem_nil
  | cons here rest ih =>
      rw [enumerationsCalcPrefix]
      by_cases hrest : pos ∈ rest
      · rw [ih hrest]
        by_cases hhere : pos = here
        · rw [hhere, Function.update_self, enumerationCalcPrefix_idem]
        · rw [Function.update_of_ne hhere]
      · obtain rfl : pos = here := (List.mem_cons.mp h).resolve_right hrest
        rw [enumerationsCalcPrefix_apply_of_notMem hrest, Function.update_self]

/-- The length that is kept is that of the common prefix, as far as 16 bits hold it. -/
theorem enumerationCalcPrefix_loaded {p : List Char}
    (hlongest : IsLongest p ((entries.filter Enumerator.isEnumerator).map
      fun entry => entry.name.toList))
    (htwo : 2 ≤ (entries.filter Enumerator.isEnumerator).length) (hp : p.length < int32Max) :
    enumerationCalcPrefix (.loaded entries) =
      { enumerators := entries, memberPrefix := some "", memberPrefixLen := p.length % 2 ^ 16 } := by
  have hcommon : calcCommonPart none int32Max entries = p.length := by
    rw [calcCommonPart_eq hlongest htwo]
    exact min_eq_right hp.le
  unfold enumerationCalcPrefix NamedEnumeration.loaded
  simp [hcommon, hp.ne, strndup]

theorem enumerationCalcPrefix_memberPrefix {q : String}
    (h : (enumerationCalcPrefix (.loaded entries)).memberPrefix = some q) : q = "" := by
  unfold enumerationCalcPrefix NamedEnumeration.loaded at h
  simp only [Option.isSome_none, Bool.false_eq_true, if_false] at h
  split at h
  · simpa [strndup] using h.symm
  · simp at h

theorem enumerationCalcPrefix_enumerators :
    (enumerationCalcPrefix e).enumerators = e.enumerators := by
  unfold enumerationCalcPrefix
  split
  · rfl
  · dsimp only
    split <;> rfl

theorem enumerationFindEnumerator_isSome_iff {name : String} :
    (enumerationFindEnumerator e name).isSome ↔
      ∃ entry ∈ e.values, entry.name = name ∨
        (e.memberPrefixLen ≠ 0 ∧ entry.name.toList.drop e.memberPrefixLen = name.toList) := by
  unfold enumerationFindEnumerator NamedEnumeration.values
  rw [List.find?_isSome]
  simp [and_assoc]

/-- With a prefix that 16 bits can count, an enumerator is found by its name and by what
follows the common prefix in it, whatever is kept as the prefix. -/
theorem enumerationFindEnumerator_loaded {p : List Char} {name : String}
    (hlongest : IsLongest p ((entries.filter Enumerator.isEnumerator).map
      fun entry => entry.name.toList))
    (htwo : 2 ≤ (entries.filter Enumerator.isEnumerator).length) (hp : p.length < 2 ^ 16) :
    (enumerationFindEnumerator (enumerationCalcPrefix (.loaded entries)) name).isSome ↔
      ∃ entry ∈ entries.filter Enumerator.isEnumerator,
        entry.name = name ∨ entry.name.toList = p ++ name.toList := by
  have hint : p.length < int32Max := hp.trans (by decide)
  rw [enumerationCalcPrefix_loaded hlongest htwo hint, enumerationFindEnumerator_isSome_iff]
  refine exists_congr fun entry => and_congr_right fun hentry => or_congr_right' fun hname => ?_
  simp only [Nat.mod_eq_of_lt hp]
  obtain ⟨rest, hrest⟩ := hlongest.common _ (List.mem_map_of_mem hentry)
  rw [← hrest, List.drop_left, List.append_cancel_left_eq]
  refine and_iff_right_of_imp fun heq hzero => hname ?_
  obtain rfl := List.eq_nil_of_length_eq_zero hzero
  rw [← String.toList_inj, ← hrest, heq, List.nil_append]

/-- The prefix computed is the longest common one if and only if that is empty, that is if no
character is the first one of all names. -/
theorem enumerationsCalcPrefix_exact_iff (types : ℕ → NamedEnumeration)
    (enumerations : List ℕ) (hloaded : ∀ pos, types pos = .loaded (types pos).enumerators)
    (pos : ℕ) (hpos : pos ∈ enumerations) (htwo : 2 ≤ (types pos).values.length) :
    PrefixExact (enumerationsCalcPrefix types enumerations pos) ↔
      ¬∃ c, ∀ entry ∈ (types pos).values, entry.name.toList.head? = some c := by
  rw [enumerationsCalcPrefix_apply hpos, hloaded pos]
  have hvalues : (enumerationCalcPrefix (.loaded (types pos).enumerators)).values =
      (types pos).values := congrArg (List.filter _) enumerationCalcPrefix_enumerators
  have hheads : (∃ c, ∀ entry ∈ (types pos).values, entry.name.toList.head? = some c) ↔
      ∃ c, ∀ xs ∈ (types pos).values.map fun entry => entry.name.toList, xs.head? = some c := by
    simp only [List.forall_mem_map]
  change _ ↔ ¬∃ c, ∀ entry ∈ (types pos).values, entry.name.toList.head? = some c
  rw [hheads, ← isLongest_nil_iff]
  constructor
  · intro h
    obtain ⟨q, hq, hlongest, -⟩ := h.longest
    obtain rfl := enumerationCalcPrefix_memberPrefix hq
    rw [hvalues] at hlongest
    exact hlongest
  · intro hnil
    have hcalc := enumerationCalcPrefix_loaded hnil htwo (by decide)
    constructor
    · exact ⟨"", by rw [hcalc], by rw [hvalues]; exact hnil, by rw [hcalc]; rfl⟩
    · intro name
      rw [enumerationFindEnumerator_loaded hnil htwo (by decide), hvalues, hcalc]
      refine exists_congr fun entry => and_congr_right fun _ => or_congr_right ?_
      rw [List.nil_append, String.toList_inj]
      simp

end CalcPrefix

/-- `enum { FOO_A, FOO_B }` -/
def fooEntries : List Enumerator :=
  [⟨true, "FOO_A", 0⟩, ⟨true, "FOO_B", 1⟩]

/-- The prefix of `FOO_A` and `FOO_B` is kept as the empty one, with a length of 4. -/
theorem enumerationsCalcPrefix_not_exact :
    ¬PrefixExact (enumerationsCalcPrefix (fun _ => .loaded fooEntries) [0] 0) := by
  intro h
  obtain ⟨q, hq, -, hlen⟩ := h.longest
  have hcalc : enumerationsCalcPrefix (fun _ => .loaded fooEntries) [0] 0 =
      { enumerators := fooEntries, memberPrefix := some "", memberPrefixLen := 4 } := by
    decide
  rw [hcalc] at hq hlen
  obtain rfl := Option.some.inj hq
  exact absurd hlen (by decide)

/-- `enum { LEFT, RIGHT }` has nothing in common. -/
theorem enumerationsCalcPrefix_exact_left_right :
    PrefixExact (enumerationsCalcPrefix
      (fun _ => .loaded [⟨true, "LEFT", 0⟩, ⟨true, "RIGHT", 1⟩]) [0] 0) :=
  (enumerationsCalcPrefix_exact_iff _ [0] (fun _ => rfl) 0 (by decide) (by decide)).mpr
    (by
      rintro ⟨c, hc⟩
      have hleft := hc ⟨true, "LEFT", 0⟩ (by decide)
      have hright := hc ⟨true, "RIGHT", 1⟩ (by decide)
      rw [← hleft] at hright
      exact absurd hright (by decide))

end Pahole
