import Mathlib.Tactic
import Pahole.Support.Transition

/-!
# Resolving `type_enum`

The `type_enum` of a prototype names enumerations, with `+` between them.  In each CU
`pahole_stealer` looks for them, until it is told that they have been found.  The list of
the class gets the enumerations one by one, and a name that is not found after others
returns what the last of these has returned.
-/

namespace Pahole

open Transition

/-! ## The code -/

/-- The data of a CU that the lookup reads: whether it has the class of the prototype, and the
names of its enumerations. -/
structure EnumCu where
  id : ℕ
  hasClass : Bool
  enumerations : List (Option (List Char))
  identifiers : ∀ name, some name ∈ enumerations → '+' ∉ name

/-- `struct tag_cu_node`: an enumeration, by its place, of a CU. -/
structure TagCuNode where
  tag : ℕ
  cu : ℕ
  deriving DecidableEq

/-- Whether the allocations in a CU succeed: the copy of the names, and each of the nodes. -/
structure EnumMemory where
  strdup : Bool
  node : ℕ → Bool

/-- `cu__find_enumeration_by_name` -/
def EnumCu.findEnumerationByName (cu : EnumCu) (name : List Char) : Option ℕ :=
  cu.enumerations.idxOf? (some name)

/-- `type__add_type_enum`, with whether it returns 0. -/
def typeAddTypeEnum (typeEnum : List TagCuNode) (te : ℕ) (cu : EnumCu) (memory : Bool) :
    List TagCuNode × Bool :=
  if memory then (typeEnum ++ [⟨te, cu.id⟩], true) else (typeEnum, false)

/-- The loop of `type__find_type_enum` over the names, of which `i` have been appended,
with whether `ret` is 0. -/
def typeFindTypeEnumLoop (cu : EnumCu) (memory : EnumMemory) (i : ℕ) (ret : Bool)
    (typeEnum : List TagCuNode) : List (List Char) → List TagCuNode × Bool
  | [] => (typeEnum, true)
  | cur :: rest =>
      match cu.findEnumerationByName cur with
      | none => (typeEnum, ret)
      | some te =>
          let (typeEnum, ret) := typeAddTypeEnum typeEnum te cu (memory.node i)
          if ret then typeFindTypeEnumLoop cu memory (i + 1) ret typeEnum rest
          else (typeEnum, ret)

/-- `type__find_type_enum` -/
def typeFindTypeEnum (typeEnum : List TagCuNode) (cu : EnumCu) (memory : EnumMemory)
    (names : List Char) : List TagCuNode × Bool :=
  match cu.findEnumerationByName names with
  | some te => typeAddTypeEnum typeEnum te cu (memory.node 0)
  | none =>
      if '+' ∈ names then
        if memory.strdup then
          typeFindTypeEnumLoop cu memory 0 false typeEnum (names.splitOn '+')
        else (typeEnum, false)
      else (typeEnum, false)

/-- The class of a prototype, by its `type_enum` list, and `type_enum_resolved`. -/
structure EnumPrototype where
  typeEnum : Option (List TagCuNode)
  resolved : Bool

namespace EnumPrototype

/-- The list that enumerations are looked up for in a CU.  A CU has a class of its own. -/
def target (prototype : EnumPrototype) (cu : EnumCu) : Option (List TagCuNode) :=
  if prototype.resolved then none
  else
    match prototype.typeEnum with
    | some typeEnum => some typeEnum
    | none => if cu.hasClass then some [] else none

/-- `pahole_stealer` for the prototype and a CU.  It keeps the class of the CU only when the
enumerations are resolved. -/
def steal (names : List Char) (prototype : EnumPrototype) (visit : EnumCu × EnumMemory) :
    EnumPrototype :=
  match prototype.target visit.1 with
  | none => prototype
  | some typeEnum =>
      let (typeEnum, resolved) := typeFindTypeEnum typeEnum visit.1 visit.2 names
      if prototype.typeEnum.isSome ∨ resolved then ⟨some typeEnum, resolved⟩ else prototype

end EnumPrototype

/-! ## All or nothing -/

/-- A list has the enumerations with the names, one for each, in their order. -/
def EnumCu.Named (cu : EnumCu) : List (List Char) → List TagCuNode → Prop :=
  List.Forall₂ fun name node => cu.findEnumerationByName name = some node.tag ∧ node.cu = cu.id

/-- A lookup that fails leaves the list alone, and one that succeeds leaves the named
enumerations. -/
structure AllOrNothing (cu : EnumCu) (names : List Char) (typeEnum : List TagCuNode)
    (out : List TagCuNode × Bool) : Prop where
  failed : out.2 = false → out.1 = typeEnum
  found : out.2 = true → cu.Named (names.splitOn '+') out.1

/-- The CU has the first of the enumerations, and there is memory to append it. -/
def FirstAppended (names : List Char) (visit : EnumCu × EnumMemory) : Prop :=
  ('+' ∈ names → visit.2.strdup = true) ∧
    (∃ name ∈ (names.splitOn '+').head?, (visit.1.findEnumerationByName name).isSome) ∧
      visit.2.node 0 = true

/-- The CU has all the enumerations, and there is memory to append them. -/
def AllAppended (names : List Char) (visit : EnumCu × EnumMemory) : Prop :=
  (∀ name ∈ names.splitOn '+', (visit.1.findEnumerationByName name).isSome) ∧
    ∀ i < (names.splitOn '+').length, visit.2.node i = true

namespace EnumPrototype

/-- The lookup in the CU, where there is one, is all or nothing. -/
def Resolves (names : List Char) (prototype : EnumPrototype) (visit : EnumCu × EnumMemory) : Prop :=
  ∀ typeEnum ∈ prototype.target visit.1,
    AllOrNothing visit.1 names typeEnum (typeFindTypeEnum typeEnum visit.1 visit.2 names)

/-- A CU in which enumerations are looked up, and that has the first, has all of them. -/
def NotPartial (names : List Char) (prototype : EnumPrototype) (visit : EnumCu × EnumMemory) :
    Prop :=
  (prototype.target visit.1).isSome → FirstAppended names visit → AllAppended names visit

/-- The enumerations of the prototype are resolved, or it names none. -/
def Open (prototype : EnumPrototype) : Prop := prototype.resolved = true ∨ prototype.typeEnum = none

end EnumPrototype

/-! ## One lookup -/

section Lookup

variable {cu : EnumCu} {memory : EnumMemory} {i te : ℕ} {ret : Bool} {typeEnum : List TagCuNode}
  {name names : List Char} {rest : List (List Char)}

theorem loop_of_missing (h : cu.findEnumerationByName name = none) :
    typeFindTypeEnumLoop cu memory i ret typeEnum (name :: rest) = (typeEnum, ret) := by
  rw [typeFindTypeEnumLoop, h]

theorem loop_of_no_memory (h : cu.findEnumerationByName name = some te)
    (hnode : memory.node i = false) :
    typeFindTypeEnumLoop cu memory i ret typeEnum (name :: rest) = (typeEnum, false) := by
  rw [typeFindTypeEnumLoop, h, hnode]
  rfl

theorem loop_of_appended (h : cu.findEnumerationByName name = some te)
    (hnode : memory.node i = true) :
    typeFindTypeEnumLoop cu memory i ret typeEnum (name :: rest) =
      typeFindTypeEnumLoop cu memory (i + 1) true (typeEnum ++ [⟨te, cu.id⟩]) rest := by
  rw [typeFindTypeEnumLoop, h, hnode]
  rfl

/-- With everything there the loop appends the named enumerations. -/
theorem loop_of_all (hfound : ∀ name ∈ rest, (cu.findEnumerationByName name).isSome)
    (hnode : ∀ j < rest.length, memory.node (i + j) = true) :
    ∃ nodes, cu.Named rest nodes ∧
      typeFindTypeEnumLoop cu memory i ret typeEnum rest = (typeEnum ++ nodes, true) := by
  induction rest generalizing i ret typeEnum with
  | nil => exact ⟨[], .nil, by rw [typeFindTypeEnumLoop, List.append_nil]⟩
  | cons name rest ih =>
      obtain ⟨hname, hrest⟩ := List.forall_mem_cons.mp hfound
      obtain ⟨te, hte⟩ := Option.isSome_iff_exists.mp hname
      have hlater : ∀ j < rest.length, memory.node (i + 1 + j) = true := by
        intro j hj
        rw [Nat.add_assoc, Nat.add_comm 1 j]
        exact hnode (j + 1) (Nat.succ_lt_succ hj)
      have hfirst : memory.node i = true := hnode 0 (Nat.zero_lt_succ _)
      obtain ⟨nodes, hnamed, hloop⟩ : ∃ nodes, cu.Named rest nodes ∧
          typeFindTypeEnumLoop cu memory (i + 1) true (typeEnum ++ [⟨te, cu.id⟩]) rest =
            (typeEnum ++ [⟨te, cu.id⟩] ++ nodes, true) := ih hrest hlater
      refine ⟨⟨te, cu.id⟩ :: nodes, .cons ⟨hte, rfl⟩ hnamed, ?_⟩
      rw [loop_of_appended hte hfirst, hloop, List.append_assoc]
      rfl

theorem length_le_length_loop :
    typeEnum.length ≤ (typeFindTypeEnumLoop cu memory i ret typeEnum rest).1.length := by
  induction rest generalizing i ret typeEnum with
  | nil => exact le_rfl
  | cons name rest ih =>
      cases hte : cu.findEnumerationByName name with
      | none => rw [loop_of_missing hte]
      | some te =>
          cases hnode : memory.node i with
          | false => rw [loop_of_no_memory hte hnode]
          | true =>
              rw [loop_of_appended hte hnode]
              refine le_trans ?_ ih
              rw [List.length_append]
              exact Nat.le_add_right _ _

/-- With something missing the loop appends fewer enumerations than there are names. -/
theorem length_loop_lt (hnot : ¬((∀ name ∈ rest, (cu.findEnumerationByName name).isSome) ∧
    ∀ j < rest.length, memory.node (i + j) = true)) :
    (typeFindTypeEnumLoop cu memory i ret typeEnum rest).1.length <
      typeEnum.length + rest.length := by
  induction rest generalizing i ret typeEnum with
  | nil =>
      exact absurd ⟨fun _ h => absurd h List.not_mem_nil, fun _ h => absurd h (Nat.not_lt_zero _)⟩
        hnot
  | cons name rest ih =>
      have hpos : typeEnum.length < typeEnum.length + (name :: rest).length :=
        Nat.lt_add_of_pos_right (Nat.zero_lt_succ _)
      cases hte : cu.findEnumerationByName name with
      | none =>
          rw [loop_of_missing hte]
          exact hpos
      | some te =>
          cases hnode : memory.node i with
          | false =>
              rw [loop_of_no_memory hte hnode]
              exact hpos
          | true =>
              rw [loop_of_appended hte hnode]
              have hlen : (typeEnum ++ [(⟨te, cu.id⟩ : TagCuNode)]).length + rest.length =
                  typeEnum.length + (name :: rest).length := by
                rw [List.length_append, List.length_singleton, List.length_cons]
                omega
              rw [← hlen]
              apply ih
              rintro ⟨hfound, hlater⟩
              have hname : (cu.findEnumerationByName name).isSome := by rw [hte]; rfl
              refine hnot ⟨List.forall_mem_cons.mpr ⟨hname, hfound⟩, fun j hj => ?_⟩
              cases j with
              | zero => exact hnode
              | succ j =>
                  rw [← Nat.succ_add_eq_add_succ]
                  exact hlater j (Nat.lt_of_succ_lt_succ hj)

/-- A name without `+` is one of a list of one name. -/
theorem typeFindTypeEnum_eq : typeFindTypeEnum typeEnum cu memory names =
    if '+' ∈ names ∧ memory.strdup = false then (typeEnum, false)
    else typeFindTypeEnumLoop cu memory 0 false typeEnum (names.splitOn '+') := by
  by_cases hplus : '+' ∈ names
  · have hnone : cu.findEnumerationByName names = none := by
      rw [EnumCu.findEnumerationByName, List.idxOf?_eq_none_iff]
      exact fun hmem => cu.identifiers names hmem hplus
    rw [typeFindTypeEnum, hnone]
    dsimp only
    rw [if_pos hplus]
    by_cases hcopy : memory.strdup = true
    · have hboth : ¬('+' ∈ names ∧ memory.strdup = false) := fun h =>
        Bool.false_ne_true (h.2.symm.trans hcopy)
      rw [if_pos hcopy, if_neg hboth]
    · rw [if_neg hcopy, if_pos ⟨hplus, Bool.eq_false_of_not_eq_true hcopy⟩]
  · rw [if_neg fun h => hplus h.1, List.splitOn_eq_singleton hplus, typeFindTypeEnum]
    cases hte : cu.findEnumerationByName names with
    | none =>
        rw [loop_of_missing hte]
        exact if_neg hplus
    | some te =>
        dsimp only
        cases hnode : memory.node 0 with
        | false =>
            rw [loop_of_no_memory hte hnode]
            rfl
        | true =>
            rw [loop_of_appended hte hnode]
            rfl

/-- The loop over names of which the first is appended is right when all are. -/
theorem allAppended_of_loop {first : List Char}
    (hte : cu.findEnumerationByName first = some te) (hnode : memory.node 0 = true)
    (hfailed : (typeFindTypeEnumLoop cu memory 0 false [] (first :: rest)).2 = false →
      (typeFindTypeEnumLoop cu memory 0 false [] (first :: rest)).1 = [])
    (hfound : (typeFindTypeEnumLoop cu memory 0 false [] (first :: rest)).2 = true →
      cu.Named (first :: rest) (typeFindTypeEnumLoop cu memory 0 false [] (first :: rest)).1) :
    (∀ name ∈ first :: rest, (cu.findEnumerationByName name).isSome) ∧
      ∀ j < (first :: rest).length, memory.node j = true := by
  by_contra hnot
  have hfewer : (typeFindTypeEnumLoop cu memory 0 false [] (first :: rest)).1.length <
      0 + (first :: rest).length := by
    apply length_loop_lt
    rintro ⟨hall, hnodes⟩
    exact hnot ⟨hall, fun j hj => Nat.zero_add j ▸ hnodes j hj⟩
  have hsome : 1 ≤ (typeFindTypeEnumLoop cu memory 0 false [] (first :: rest)).1.length := by
    rw [loop_of_appended hte hnode]
    exact (length_le_length_loop : ([⟨te, cu.id⟩] : List TagCuNode).length ≤ _)
  cases hret : (typeFindTypeEnumLoop cu memory 0 false [] (first :: rest)).2 with
  | false =>
      rw [hfailed hret] at hsome
      exact absurd hsome (by decide)
  | true =>
      have hlen := (hfound hret).length_eq
      omega

/-- A lookup from an empty list is all or nothing exactly when the first enumeration is
appended with all the others, or not at all. -/
theorem allOrNothing_iff : AllOrNothing cu names [] (typeFindTypeEnum [] cu memory names) ↔
    (FirstAppended names (cu, memory) → AllAppended names (cu, memory)) := by
  rw [typeFindTypeEnum_eq]
  by_cases hcopy : '+' ∈ names ∧ memory.strdup = false
  · rw [if_pos hcopy]
    refine ⟨fun _ hfirst => ?_, fun _ => ⟨fun _ => rfl, fun h => absurd h Bool.false_ne_true⟩⟩
    exact absurd (hcopy.2.symm.trans (hfirst.1 hcopy.1)) Bool.false_ne_true
  · have hcopied : '+' ∈ names → memory.strdup = true := fun hplus =>
      Bool.eq_true_of_not_eq_false fun hfalse => hcopy ⟨hplus, hfalse⟩
    rw [if_neg hcopy]
    have hne : names.splitOn '+' ≠ [] := List.splitOn_ne_nil '+' names
    obtain ⟨first, rest, hsplit⟩ := List.exists_cons_of_ne_nil hne
    constructor
    · rintro hout ⟨-, ⟨name, hname, hte⟩, hnode⟩
      rw [hsplit] at hout hname
      obtain rfl := Option.some.inj hname
      obtain ⟨te, hte⟩ := Option.isSome_iff_exists.mp hte
      have hfound := hout.found
      rw [hsplit] at hfound
      rw [AllAppended, hsplit]
      exact allAppended_of_loop hte hnode hout.failed hfound
    · intro hall
      by_cases hfirst : FirstAppended names (cu, memory)
      · obtain ⟨hfound, hnodes⟩ := hall hfirst
        obtain ⟨nodes, hnamed, hloop⟩ : ∃ nodes, cu.Named (names.splitOn '+') nodes ∧
            typeFindTypeEnumLoop cu memory 0 false [] (names.splitOn '+') = ([] ++ nodes, true) :=
          loop_of_all hfound fun j hj => (Nat.zero_add j).symm ▸ hnodes j hj
        rw [hloop]
        exact ⟨fun h => absurd h.symm Bool.false_ne_true, fun _ => hnamed⟩
      · have hnothing : typeFindTypeEnumLoop cu memory 0 false [] (names.splitOn '+') =
            ([], false) := by
          rw [hsplit]
          cases hte : cu.findEnumerationByName first with
          | none => exact loop_of_missing hte
          | some te =>
              cases hnode : memory.node 0 with
              | false => exact loop_of_no_memory hte hnode
              | true =>
                  exact absurd ⟨hcopied, ⟨first, by rw [hsplit]; rfl, by rw [hte]; rfl⟩, hnode⟩ hfirst
        rw [hnothing]
        exact ⟨fun _ => rfl, fun h => absurd h Bool.false_ne_true⟩

end Lookup

/-! ## All CUs -/

namespace EnumPrototype

variable {names : List Char} {prototype : EnumPrototype} {visit : EnumCu × EnumMemory}

theorem target_of_open (h : prototype.Open) {typeEnum : List TagCuNode}
    (htarget : typeEnum ∈ prototype.target visit.1) : typeEnum = [] := by
  rw [target] at htarget
  rcases h with hresolved | hnone
  · rw [if_pos hresolved] at htarget
    cases htarget
  · rw [hnone] at htarget
    split at htarget
    · cases htarget
    · dsimp only at htarget
      split at htarget
      · exact (Option.some.inj htarget).symm
      · cases htarget

/-- A CU is right exactly when it does not have a part of the enumerations. -/
theorem resolves_iff (h : prototype.Open) :
    prototype.Resolves names visit ↔ prototype.NotPartial names visit := by
  rw [Resolves, NotPartial]
  cases htarget : prototype.target visit.1 with
  | none => simp
  | some typeEnum =>
      obtain rfl := target_of_open h htarget
      simp only [Option.mem_def, Option.some.injEq, forall_eq', Option.isSome_some, true_imp_iff]
      exact allOrNothing_iff

theorem open_steal (h : prototype.Open) : (prototype.steal names visit).Open := by
  rw [steal]
  cases htarget : prototype.target visit.1 with
  | none => exact h
  | some typeEnum =>
      dsimp only
      split
      · next hkept =>
        left
        rcases h with hresolved | hnone
        · rw [target, if_pos hresolved] at htarget
          cases htarget
        · exact hkept.resolve_left (by rw [hnone]; exact Bool.false_ne_true)
      · exact h

/-- A CU in which the enumerations are resolved leaves them in the list of the class. -/
theorem exists_named_of_resolved (hopen : ¬prototype.resolved = true)
    (hright : prototype.Resolves names visit) (h : (prototype.steal names visit).resolved = true) :
    ∃ typeEnum, (prototype.steal names visit).typeEnum = some typeEnum ∧
      visit.1.Named (names.splitOn '+') typeEnum := by
  rw [steal] at h ⊢
  cases htarget : prototype.target visit.1 with
  | none =>
      rw [htarget] at h
      exact absurd h hopen
  | some typeEnum =>
      rw [htarget] at h
      dsimp only at h ⊢
      split at h
      · next hkept =>
        rw [if_pos hkept]
        exact ⟨_, rfl, (hright typeEnum htarget).found h⟩
      · exact absurd h hopen

/-- Nothing is looked up once the enumerations are resolved. -/
theorem steal_of_resolved (h : prototype.resolved = true) :
    prototype.steal names visit = prototype := by
  rw [steal, target, if_pos h]

/-- For every list of names and sequence of CUs, each lookup is all or nothing if and only if
each CU is `NotPartial` at its lookup. -/
theorem allResolved_iff (names : List Char) (visits : List (EnumCu × EnumMemory)) :
    Along (steal names) (Resolves names) ⟨none, false⟩ visits ↔
      Along (steal names) (NotPartial names) ⟨none, false⟩ visits :=
  along_iff (Or.inr rfl) (along_true _ _ visits) (fun _ _ h _ => resolves_iff h)
    fun _ _ h _ _ => open_steal h

/-- A CU with one of two enumerations. -/
def cuWithA : EnumCu where
  id := 0
  hasClass := true
  enumerations := [some ['a']]
  identifiers := by
    intro name hname
    obtain rfl := Option.some.inj (List.mem_singleton.mp hname)
    decide

/-- For `a+b`, a CU that has only `a` resolves the class. -/
theorem not_allResolved_cuWithA :
    ¬Along (steal "a+b".toList) (Resolves "a+b".toList) ⟨none, false⟩
      [(cuWithA, ⟨true, fun _ => true⟩)] := by
  rintro ⟨hright, -⟩
  have hnamed := (hright [] rfl).found (by decide)
  exact absurd hnamed.length_eq (by decide)

end EnumPrototype

end Pahole
