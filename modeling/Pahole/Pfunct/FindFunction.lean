import Pahole.BtfEncoder.FunctionTable
import Mathlib.Data.List.TakeWhile
import Mathlib.Order.Interval.Set.Basic

/-!
# Looking up the function at an address

`pfunct` keeps the functions of an ELF file, or those of the running kernel, sorted by
their addresses.  Functions may be aliases, with one address and different sizes, and the
smallest one with the address in its range is what `elf_functions__find` looks for.
-/

namespace Pahole.Pfunct

/-- `struct elf_function` -/
structure ElfFunction where
  name : String
  addr : UInt64
  size : UInt64
  deriving DecidableEq

/-- `elf_function__cmp` -/
def elfFunctionCmp (a b : ElfFunction) : ℤ :=
  if a.addr ≠ b.addr then if a.addr < b.addr then -1 else 1
  else if a.size ≠ b.size then if a.size < b.size then -1 else 1
  else strcmp a.name b.name

/-! ## Collecting the functions -/

/-- The fields of a symbol that `elf_functions__collect` reads: whether it is an `STT_FUNC`,
whether its section is `SHN_UNDEF`, its name, value and size. -/
structure FunctionSym where
  isFunc : Bool
  undefined : Bool
  name : String
  value : UInt64
  size : UInt64

/-- `elf_sym__size`, of 32 bits. -/
def FunctionSym.elfSymSize (sym : FunctionSym) : UInt64 := sym.size.toUInt32.toUInt64

/-- `elf_functions__collect` -/
def elfFunctionsCollect (qsort : Qsort) (symtab : List FunctionSym) : List ElfFunction :=
  qsort.sort elfFunctionCmp <| symtab.filterMap fun sym =>
    if !sym.isFunc || sym.elfSymSize = 0 || sym.undefined || sym.name = "" then none
    else some ⟨sym.name, sym.value, sym.elfSymSize⟩

/-- The fields that `sscanf` reads from a line of `/proc/kallsyms`; only the symbols of modules
have the last. -/
structure KallsymsLine where
  addr : UInt64
  type : Char
  name : String
  moduleName : Option (List Char)

/-- Whether a symbol is of the module, or of the kernel itself where none is given. -/
def KallsymsLine.isOf (line : KallsymsLine) : (module : Option (List Char)) → Bool
  | some module => line.moduleName = some ('[' :: module ++ [']']) ∧ module ≠ []
  | none => line.moduleName = none

/-- The loop of `running_object__collect_functions` that infers sizes: each function with an
address is as long as the way to the next address.  Each of the rounds is one address. -/
def inferSizes : (rounds : ℕ) → List ElfFunction → List ElfFunction
  | 0, entries => entries
  | _ + 1, [] => []
  | rounds + 1, function :: rest =>
      let group := function :: rest.takeWhile (·.addr = function.addr)
      match rest.dropWhile (·.addr = function.addr) with
      | [] => group
      | next :: after =>
          group.map (fun entry => { entry with size := next.addr - entry.addr }) ++
            inferSizes rounds (next :: after)

/-- `running_object__collect_functions` -/
def runningObjectCollectFunctions (qsort : Qsort) (module : Option (List Char))
    (kallsyms : List KallsymsLine) : List ElfFunction :=
  let entries := qsort.sort elfFunctionCmp <| kallsyms.filterMap fun line =>
    if line.addr = 0 || !(['T', 't', 'W', 'w'].contains line.type) || !line.isOf module then none
    else some ⟨line.name, line.addr, 0⟩
  inferSizes entries.length entries

/-! ## Finding a function -/

/-- The loop of `elf_functions__find` back to the first of the entries with one address. -/
def firstAlias (entries : List ElfFunction) : (left : ℕ) → ℕ
  | 0 => 0
  | left + 1 =>
      match entries[left]?, entries[left + 1]? with
      | some before, some function =>
          if before.addr = function.addr then firstAlias entries left else left + 1
      | _, _ => left + 1

/-- The better of the best entry so far and another one. -/
def keepBest (addr : UInt64) (best : Option ElfFunction) (function : ElfFunction) :
    Option ElfFunction :=
  if addr - function.addr < function.size ∧ ∀ b ∈ best, function.size < b.size then some function
  else best

/-- The loop of `elf_functions__find` over the entries from the first alias on. -/
def bestAlias (startAddr addr : UInt64) (best : Option ElfFunction) :
    List ElfFunction → Option ElfFunction
  | [] => best
  | function :: rest =>
      if function.addr = startAddr then
        let best := keepBest addr best function
        match rest with
        | [] => best
        | next :: _ => if addr < next.addr then best else bestAlias startAddr addr best rest
      else best

/-- `elf_functions__find`.  A table has fewer than `2 ^ 32` entries, as `nr_entries` says,
and no index goes past them. -/
def elfFunctionsFind (entries : List ElfFunction) (addr : UInt64) : Option ElfFunction :=
  match partitionPoint (fun function => function.addr ≤ addr) entries with
  | 0 => none
  | left + 1 =>
      match entries.drop (firstAlias entries left) with
      | [] => none
      | function :: rest => bestAlias function.addr addr none (function :: rest)

/-! ## Tables and lookups -/

namespace ElfFunction

/-- The addresses of a function. -/
def range (f : ElfFunction) : Set ℕ := Set.Ico f.addr.toNat (f.addr.toNat + f.size.toNat)

/-- One of the functions ends before the other starts. -/
def Apart (a b : ElfFunction) : Prop :=
  a.addr.toNat + a.size.toNat ≤ b.addr.toNat ∨ b.addr.toNat + b.size.toNat ≤ a.addr.toNat

end ElfFunction

/-- The table is sorted by `elf_function__cmp`, and two functions start at one address or are
apart. -/
structure Table (entries : List ElfFunction) : Prop where
  sorted : entries.Pairwise fun a b => elfFunctionCmp a b ≤ 0
  apart : entries.Pairwise fun a b => a.addr = b.addr ∨ a.Apart b

/-- The lines that are kept: those of text symbols with an address, of the module or of the
kernel. -/
def KallsymsLine.Kept (module : Option (List Char)) (line : KallsymsLine) : Prop :=
  line.addr ≠ 0 ∧ line.type ∈ ['T', 't', 'W', 'w'] ∧ line.isOf module

instance (module : Option (List Char)) : DecidablePred (KallsymsLine.Kept module) :=
  fun _ => inferInstanceAs (Decidable (_ ∧ _ ∧ _))

/-- The size of a function is the distance to the next higher address of the table, or zero
where no address is higher. -/
def SizedBy (entries : List ElfFunction) (f : ElfFunction) : Prop :=
  (∃ next ∈ entries, f.addr < next.addr ∧ f.addr.toNat + f.size.toNat = next.addr.toNat ∧
    ∀ g ∈ entries, f.addr < g.addr → next.addr ≤ g.addr) ∨
    f.size = 0 ∧ ∀ g ∈ entries, g.addr ≤ f.addr

/-- A table of the functions of `/proc/kallsyms`: one entry with the name and address of each
line kept, and with the distance to the next higher address as its size. -/
structure Inferred (module : Option (List Char)) (kallsyms : List KallsymsLine)
    (entries : List ElfFunction) : Prop where
  table : Table entries
  lists : (entries.map fun f => (f.name, f.addr)).Perm
    ((kallsyms.filter fun line => line.Kept module).map fun line => (line.name, line.addr))
  sizes : ∀ f ∈ entries, SizedBy entries f

/-- `found` is a smallest function that contains the address, and `none` if and only if there is
no such function. -/
structure Finds (entries : List ElfFunction) (addr : UInt64) (found : Option ElfFunction) :
    Prop where
  contains : ∀ f ∈ found, f ∈ entries ∧ addr.toNat ∈ f.range
  smallest : ∀ f ∈ found, ∀ g ∈ entries, addr.toNat ∈ g.range → f.size ≤ g.size
  none_iff : found = none ↔ ∀ g ∈ entries, addr.toNat ∉ g.range

/-! ## Comparing functions -/

section Compare

variable {a b : ElfFunction}

theorem elfFunctionCmp_le_zero :
    elfFunctionCmp a b ≤ 0 ↔ a.addr < b.addr ∨
      a.addr = b.addr ∧ (a.size < b.size ∨ a.size = b.size ∧ a.name ≤ b.name) := by
  rw [elfFunctionCmp]
  by_cases haddr : a.addr = b.addr
  · rw [if_neg (not_not.mpr haddr)]
    by_cases hsize : a.size = b.size
    · rw [if_neg (not_not.mpr hsize), strcmp_le_zero]
      simp [haddr, hsize]
    · rw [if_pos hsize]
      split <;> simp_all
  · rw [if_pos haddr]
    split <;> simp_all

theorem addr_le_of_cmp (h : elfFunctionCmp a b ≤ 0) : a.addr.toNat ≤ b.addr.toNat := by
  rcases elfFunctionCmp_le_zero.mp h with hlt | ⟨heq, _⟩
  · exact (UInt64.lt_iff_toNat_lt.mp hlt).le
  · rw [heq]

theorem comparator_elfFunctionCmp : Comparator elfFunctionCmp where
  total a b := by
    rw [elfFunctionCmp_le_zero, elfFunctionCmp_le_zero]
    simp only [UInt64.lt_iff_toNat_lt, ← UInt64.toNat_inj]
    rcases lt_trichotomy a.addr.toNat b.addr.toNat with h | h | h
    · exact Or.inl (Or.inl h)
    · rcases lt_trichotomy a.size.toNat b.size.toNat with h' | h' | h'
      · exact Or.inl (Or.inr ⟨h, Or.inl h'⟩)
      · rcases le_total a.name b.name with hname | hname
        · exact Or.inl (Or.inr ⟨h, Or.inr ⟨h', hname⟩⟩)
        · exact Or.inr (Or.inr ⟨h.symm, Or.inr ⟨h'.symm, hname⟩⟩)
      · exact Or.inr (Or.inr ⟨h.symm, Or.inl h'⟩)
    · exact Or.inr (Or.inl h)
  trans a b c := by
    rw [elfFunctionCmp_le_zero, elfFunctionCmp_le_zero, elfFunctionCmp_le_zero]
    simp only [UInt64.lt_iff_toNat_lt, ← UInt64.toNat_inj]
    rintro (hab | ⟨hab, hab'⟩) (hbc | ⟨hbc, hbc'⟩)
    · exact Or.inl (hab.trans hbc)
    · exact Or.inl (hab.trans_eq hbc)
    · exact Or.inl (hab.trans_lt hbc)
    · refine Or.inr ⟨hab.trans hbc, ?_⟩
      rcases hab' with hab' | ⟨hab', hname⟩
      · rcases hbc' with hbc' | ⟨hbc', -⟩
        · exact Or.inl (hab'.trans hbc')
        · exact Or.inl (hab'.trans_eq hbc')
      · rcases hbc' with hbc' | ⟨hbc', hname'⟩
        · exact Or.inl (hab'.trans_lt hbc')
        · exact Or.inr ⟨hab'.trans hbc', hname.trans hname'⟩

/-- Ranges that are not empty are apart exactly when they are disjoint. -/
theorem apart_iff_disjoint (ha : a.size ≠ 0) (hb : b.size ≠ 0) :
    a.Apart b ↔ a.range ∩ b.range = ∅ := by
  have ha : 0 < a.size.toNat := Nat.pos_of_ne_zero fun h => ha (UInt64.toNat_inj.mp h)
  have hb : 0 < b.size.toNat := Nat.pos_of_ne_zero fun h => hb (UInt64.toNat_inj.mp h)
  rw [ElfFunction.Apart, ElfFunction.range, ElfFunction.range, ← Set.disjoint_iff_inter_eq_empty,
    Set.Ico_disjoint_Ico]
  omega

end Compare

/-- Every collected function has a size. -/
theorem size_ne_zero_of_mem_collect {qsort : Qsort} {symtab : List FunctionSym} {f : ElfFunction}
    (h : f ∈ elfFunctionsCollect qsort symtab) : f.size ≠ 0 := by
  rw [elfFunctionsCollect, Qsort.mem_sort, List.mem_filterMap] at h
  obtain ⟨sym, -, hsym⟩ := h
  split at hsym
  · cases hsym
  · next hkept =>
      obtain rfl := Option.some.inj hsym
      intro hzero
      exact hkept (by simp [show sym.elfSymSize = 0 from hzero])

theorem sorted_collect (qsort : Qsort) (symtab : List FunctionSym) :
    (elfFunctionsCollect qsort symtab).Pairwise fun a b => elfFunctionCmp a b ≤ 0 :=
  qsort.sorted _ _ comparator_elfFunctionCmp

/-- The functions of an ELF file whose ranges are disjoint, but for those that start at one
address, are a table. -/
theorem table_elfFunctionsCollect {qsort : Qsort} {symtab : List FunctionSym}
    (h : (elfFunctionsCollect qsort symtab).Pairwise fun a b =>
      a.addr = b.addr ∨ a.range ∩ b.range = ∅) : Table (elfFunctionsCollect qsort symtab) where
  sorted := sorted_collect qsort symtab
  apart := h.imp_of_mem fun ha hb => Or.imp_right
    (apart_iff_disjoint (size_ne_zero_of_mem_collect ha) (size_ne_zero_of_mem_collect hb)).mpr

/-! ## Inferring sizes -/

section InferSizes

variable {entries : List ElfFunction} {f next : ElfFunction} {rounds : ℕ}

/-- Functions that start at an address end where the next one starts. -/
theorem end_resized (h : f.addr.toNat ≤ next.addr.toNat) :
    f.addr.toNat + (next.addr - f.addr).toNat = next.addr.toNat := by
  rw [UInt64.toNat_sub_of_le _ _ (UInt64.le_iff_toNat_le.mpr h)]
  omega

/-- A round ends the loop, or sizes a group of functions and leaves those from the next one on.
-/
theorem inferSizes_cons (rounds : ℕ) (f : ElfFunction) (rest : List ElfFunction) :
    ∃ group back, f :: rest = group ++ back ∧ (∀ e ∈ group, e.addr = f.addr) ∧
      back.length ≤ rest.length ∧
      (back = [] ∧ inferSizes (rounds + 1) (f :: rest) = group ∨
        ∃ next after, back = next :: after ∧ next.addr ≠ f.addr ∧
          inferSizes (rounds + 1) (f :: rest) =
            group.map (fun e => { e with size := next.addr - e.addr }) ++
              inferSizes rounds (next :: after)) := by
  refine ⟨f :: rest.takeWhile (·.addr = f.addr), rest.dropWhile (·.addr = f.addr), ?_, ?_,
    List.length_dropWhile_le _ _, ?_⟩
  · rw [List.cons_append, List.takeWhile_append_dropWhile]
  · refine List.forall_mem_cons.mpr ⟨rfl, fun e he => ?_⟩
    simpa using List.mem_takeWhile_imp he
  · rw [inferSizes]
    cases hback : rest.dropWhile (·.addr = f.addr) with
    | nil => exact Or.inl ⟨rfl, rfl⟩
    | cons next after =>
        have hnext := List.head?_dropWhile_not (·.addr = f.addr) rest
        rw [hback] at hnext
        exact Or.inr ⟨next, after, rfl, of_decide_eq_false hnext, rfl⟩

/-- Inferring sizes keeps names and addresses. -/
theorem map_inferSizes (rounds : ℕ) (entries : List ElfFunction) :
    (inferSizes rounds entries).map (fun f => (f.name, f.addr)) =
      entries.map fun f => (f.name, f.addr) := by
  induction rounds generalizing entries with
  | zero => rfl
  | succ rounds ih =>
      cases entries with
      | nil => rfl
      | cons function rest =>
          obtain ⟨group, back, hwhole, -, -, ⟨rfl, heq⟩ | ⟨next, after, rfl, -, heq⟩⟩ :=
            inferSizes_cons rounds function rest
          · rw [heq, hwhole, List.append_nil]
          · rw [heq, hwhole, List.map_append, List.map_append, ih, List.map_map]
            rfl

theorem addr_of_mem_inferSizes {g : ElfFunction} (h : g ∈ inferSizes rounds entries) :
    ∃ e ∈ entries, g.addr = e.addr := by
  have hmem := List.mem_map_of_mem (f := fun f : ElfFunction => (f.name, f.addr)) h
  rw [map_inferSizes] at hmem
  obtain ⟨e, he, heq⟩ := List.mem_map.mp hmem
  exact ⟨e, he, (congrArg Prod.snd heq).symm⟩

theorem exists_inferSizes_of_mem (rounds : ℕ) {e : ElfFunction} (h : e ∈ entries) :
    ∃ g ∈ inferSizes rounds entries, g.addr = e.addr := by
  have hmem := List.mem_map_of_mem (f := fun f : ElfFunction => (f.name, f.addr)) h
  rw [← map_inferSizes rounds] at hmem
  obtain ⟨g, hg, heq⟩ := List.mem_map.mp hmem
  exact ⟨g, hg, congrArg Prod.snd heq⟩

/-- A round of sorted functions ends at an address that is higher than the address of its
functions, and no later function starts before it. -/
theorem addr_of_sorted (rounds : ℕ) {group after : List ElfFunction}
    (hsorted : (group ++ next :: after).Pairwise fun a b => elfFunctionCmp a b ≤ 0)
    (hgroup : ∀ e ∈ group, e.addr = f.addr) (hne : next.addr ≠ f.addr) :
    (∀ e ∈ group, e.addr.toNat < next.addr.toNat) ∧
      ∀ g ∈ inferSizes rounds (next :: after), next.addr.toNat ≤ g.addr.toNat := by
  obtain ⟨-, hback, hcross⟩ := List.pairwise_append.mp hsorted
  constructor
  · intro e he
    refine lt_of_le_of_ne (addr_le_of_cmp (hcross e he next List.mem_cons_self)) fun h => hne ?_
    rw [← hgroup e he]
    exact (UInt64.toNat_inj.mp h).symm
  · intro g hg
    obtain ⟨e, he, haddr⟩ := addr_of_mem_inferSizes hg
    rw [haddr]
    rcases List.mem_cons.mp he with rfl | he
    · exact le_rfl
    · exact addr_le_of_cmp ((List.pairwise_cons.mp hback).1 e he)

/-- Sorted entries with inferred sizes are a table. -/
theorem table_inferSizes (hlen : entries.length ≤ rounds)
    (hsorted : entries.Pairwise fun a b => elfFunctionCmp a b ≤ 0)
    (hsize : ∀ e ∈ entries, e.size = 0) : Table (inferSizes rounds entries) := by
  induction rounds generalizing entries with
  | zero =>
      obtain rfl := List.length_eq_zero_iff.mp (Nat.le_zero.mp hlen)
      exact ⟨.nil, .nil⟩
  | succ rounds ih =>
      cases entries with
      | nil => exact ⟨.nil, .nil⟩
      | cons function rest =>
          obtain ⟨group, back, hwhole, hgroup, hback, ⟨rfl, heq⟩ | ⟨next, after, rfl, hne, heq⟩⟩ :=
            inferSizes_cons rounds function rest
          · rw [hwhole, List.append_nil] at hsorted
            rw [heq]
            refine ⟨hsorted, List.pairwise_of_forall_mem_list fun a ha b hb => Or.inl ?_⟩
            rw [hgroup a ha, hgroup b hb]
          · rw [heq]
            rw [hwhole] at hsorted hsize
            obtain ⟨hsortedGroup, hsortedBack, -⟩ := List.pairwise_append.mp hsorted
            obtain ⟨hnext, hbehind⟩ := addr_of_sorted rounds hsorted hgroup hne
            have hrest : Table (inferSizes rounds (next :: after)) :=
              ih (by rw [List.length_cons] at hlen; omega) hsortedBack fun e he =>
                hsize e (List.mem_append_right _ he)
            constructor
            · refine List.pairwise_append.mpr ⟨?_, hrest.sorted, ?_⟩
              · refine List.pairwise_map.mpr (hsortedGroup.imp_of_mem fun {a b} ha hb hab => ?_)
                have haddr : a.addr = b.addr := by rw [hgroup a ha, hgroup b hb]
                have hname : a.name ≤ b.name := by
                  rcases elfFunctionCmp_le_zero.mp hab with hlt | ⟨-, hlt | ⟨-, hle⟩⟩
                  · exact absurd (haddr ▸ hlt) (UInt64.lt_irrefl _)
                  · rw [hsize a (List.mem_append_left _ ha), hsize b (List.mem_append_left _ hb)]
                      at hlt
                    exact absurd hlt (UInt64.lt_irrefl _)
                  · exact hle
                exact elfFunctionCmp_le_zero.mpr (Or.inr ⟨haddr, Or.inr ⟨by rw [haddr], hname⟩⟩)
              · intro a ha g hg
                obtain ⟨e, he, rfl⟩ := List.mem_map.mp ha
                refine elfFunctionCmp_le_zero.mpr (Or.inl (UInt64.lt_iff_toNat_lt.mpr ?_))
                exact (hnext e he).trans_le (hbehind g hg)
            · refine List.pairwise_append.mpr ⟨?_, hrest.apart, ?_⟩
              · refine List.pairwise_map.mpr (List.pairwise_of_forall_mem_list fun a ha b hb => ?_)
                exact Or.inl (by rw [hgroup a ha, hgroup b hb])
              · intro a ha g hg
                obtain ⟨e, he, rfl⟩ := List.mem_map.mp ha
                refine Or.inr (Or.inl ?_)
                rw [end_resized (hnext e he).le]
                exact hbehind g hg

/-- Each size that is inferred is the distance to the next higher address. -/
theorem sizedBy_inferSizes (hlen : entries.length ≤ rounds)
    (hsorted : entries.Pairwise fun a b => elfFunctionCmp a b ≤ 0)
    (hsize : ∀ e ∈ entries, e.size = 0) :
    ∀ f ∈ inferSizes rounds entries, SizedBy (inferSizes rounds entries) f := by
  induction rounds generalizing entries with
  | zero =>
      obtain rfl := List.length_eq_zero_iff.mp (Nat.le_zero.mp hlen)
      simp [inferSizes]
  | succ rounds ih =>
      cases entries with
      | nil => simp [inferSizes]
      | cons function rest =>
          obtain ⟨group, back, hwhole, hgroup, hback, ⟨rfl, heq⟩ | ⟨next, after, rfl, hne, heq⟩⟩ :=
            inferSizes_cons rounds function rest
          · rw [hwhole, List.append_nil] at hsize
            rw [heq]
            refine fun f hf => Or.inr ⟨hsize f hf, fun g hg => ?_⟩
            rw [hgroup g hg, hgroup f hf]
            exact UInt64.le_refl _
          · rw [heq]
            rw [hwhole] at hsorted hsize
            obtain ⟨hnext, hbehind⟩ := addr_of_sorted rounds hsorted hgroup hne
            have hrest := ih (by rw [List.length_cons] at hlen; omega)
              (List.pairwise_append.mp hsorted).2.1 fun e he =>
                hsize e (List.mem_append_right _ he)
            obtain ⟨first, hfirst, hfirstAddr⟩ :=
              exists_inferSizes_of_mem rounds (List.mem_cons_self (a := next) (l := after))
            intro f hf
            rcases List.mem_append.mp hf with hf | hf
            · obtain ⟨e, he, rfl⟩ := List.mem_map.mp hf
              refine Or.inl ⟨first, List.mem_append_right _ hfirst, ?_, ?_, ?_⟩
              · rw [hfirstAddr, UInt64.lt_iff_toNat_lt]
                exact hnext e he
              · rw [hfirstAddr]
                exact end_resized (hnext e he).le
              · intro g hg hlt
                rw [hfirstAddr, UInt64.le_iff_toNat_le]
                rcases List.mem_append.mp hg with hg | hg
                · obtain ⟨e', he', rfl⟩ := List.mem_map.mp hg
                  rw [hgroup e he, hgroup e' he'] at hlt
                  exact absurd hlt (UInt64.lt_irrefl _)
                · exact hbehind g hg
            · rcases hrest f hf with ⟨higher, hhigher, hlt, hsize, hleast⟩ | ⟨hzero, hlast⟩
              · refine Or.inl ⟨higher, List.mem_append_right _ hhigher, hlt, hsize, ?_⟩
                intro g hg hgt
                rcases List.mem_append.mp hg with hg | hg
                · obtain ⟨e, he, rfl⟩ := List.mem_map.mp hg
                  have := (hnext e he).trans_le (hbehind f hf)
                  exact absurd (UInt64.lt_iff_toNat_lt.mp hgt) (by dsimp only; omega)
                · exact hleast g hg hgt
              · refine Or.inr ⟨hzero, fun g hg => ?_⟩
                rcases List.mem_append.mp hg with hg | hg
                · obtain ⟨e, he, rfl⟩ := List.mem_map.mp hg
                  exact UInt64.le_iff_toNat_le.mpr ((hnext e he).trans_le (hbehind f hf)).le
                · exact hlast g hg

theorem map_filterMap_kallsyms (module : Option (List Char)) (kallsyms : List KallsymsLine) :
    (kallsyms.filterMap fun line =>
        if line.addr = 0 || !(['T', 't', 'W', 'w'].contains line.type) || !line.isOf module
        then none else some (⟨line.name, line.addr, 0⟩ : ElfFunction)).map
          (fun f => (f.name, f.addr)) =
      (kallsyms.filter fun line => line.Kept module).map fun line => (line.name, line.addr) := by
  rw [List.map_filterMap, ← List.filterMap_eq_map, List.filterMap_filter]
  congr 1
  funext line
  by_cases hkept : line.Kept module
  · simp_all [KallsymsLine.Kept]
  · rw [if_pos (by simpa [KallsymsLine.Kept, or_iff_not_imp_left] using hkept)]
    simp [hkept]

theorem inferred_runningObjectCollectFunctions (qsort : Qsort) (module : Option (List Char))
    (kallsyms : List KallsymsLine) :
    Inferred module kallsyms (runningObjectCollectFunctions qsort module kallsyms) := by
  have hzero : ∀ e ∈ qsort.sort elfFunctionCmp (kallsyms.filterMap fun line =>
      if line.addr = 0 || !(['T', 't', 'W', 'w'].contains line.type) || !line.isOf module
      then none else some ⟨line.name, line.addr, 0⟩), e.size = 0 := fun e he => by
    rw [Qsort.mem_sort, List.mem_filterMap] at he
    obtain ⟨line, -, hline⟩ := he
    split at hline
    · cases hline
    · obtain rfl := Option.some.inj hline
      rfl
  have hsorted := qsort.sorted elfFunctionCmp (kallsyms.filterMap fun line =>
    if line.addr = 0 || !(['T', 't', 'W', 'w'].contains line.type) || !line.isOf module
    then none else some ⟨line.name, line.addr, 0⟩) comparator_elfFunctionCmp
  refine ⟨table_inferSizes le_rfl hsorted hzero, ?_, sizedBy_inferSizes le_rfl hsorted hzero⟩
  rw [runningObjectCollectFunctions, map_inferSizes, ← map_filterMap_kallsyms]
  exact (qsort.perm _ _).map _

end InferSizes

/-! ## The aliases at one address -/

section Aliases

variable {before group back : List ElfFunction} {start addr : UInt64}

/-- From any of the aliases the loop goes back to the first one. -/
theorem firstAlias_eq (hbefore : ∀ e ∈ before, e.addr ≠ start)
    (hgroup : ∀ e ∈ group, e.addr = start) {k : ℕ} (hk : k < group.length) :
    firstAlias (before ++ group ++ back) (before.length + k) = before.length := by
  induction k with
  | zero =>
      cases hlen : before.length with
      | zero => rfl
      | succ n =>
          have hlast : (before ++ group ++ back)[n]? = some (before.get ⟨n, by omega⟩) := by
            rw [List.append_assoc, List.getElem?_append_left (by omega)]
            exact List.getElem?_eq_getElem _
          have hfirst : (before ++ group ++ back)[n + 1]? = some (group.get ⟨0, hk⟩) := by
            rw [List.append_assoc, List.getElem?_append_right (by omega), hlen, Nat.sub_self,
              List.getElem?_append_left hk]
            exact List.getElem?_eq_getElem _
          rw [Nat.add_zero, firstAlias, hlast, hfirst]
          dsimp only
          rw [if_neg]
          rw [hgroup _ (List.get_mem _ _)]
          exact hbefore _ (List.get_mem _ _)
  | succ k ih =>
      have hthis (i : ℕ) (hi : i < group.length) :
          (before ++ group ++ back)[before.length + i]? = some (group.get ⟨i, hi⟩) := by
        rw [List.append_assoc, List.getElem?_append_right (by omega), Nat.add_sub_cancel_left,
          List.getElem?_append_left hi]
        exact List.getElem?_eq_getElem _
      rw [← Nat.add_assoc, firstAlias, hthis k (by omega), Nat.add_assoc, hthis (k + 1) hk]
      dsimp only
      rw [if_pos]
      · exact ih (by omega)
      · rw [hgroup _ (List.get_mem _ _), hgroup _ (List.get_mem _ _)]

/-- The loop over the aliases keeps the best one of them. -/
theorem bestAlias_eq (hstart : start ≤ addr) (hgroup : ∀ e ∈ group, e.addr = start)
    (hback : ∀ e ∈ back, addr < e.addr) {best : Option ElfFunction} :
    bestAlias start addr best (group ++ back) = group.foldl (keepBest addr) best := by
  induction group generalizing best with
  | nil =>
      cases back with
      | nil => rfl
      | cons e back =>
          have hne : e.addr ≠ start := fun h =>
            absurd (hback e List.mem_cons_self) (UInt64.not_lt.mpr (h ▸ hstart))
          exact if_neg hne
  | cons function group ih =>
      obtain ⟨haddr, hgroup⟩ := List.forall_mem_cons.mp hgroup
      rw [List.cons_append, bestAlias.eq_def]
      dsimp only
      rw [if_pos haddr, List.foldl_cons]
      cases group with
      | nil =>
          cases back with
          | nil => rfl
          | cons e back => exact if_pos (hback e List.mem_cons_self)
      | cons next group =>
          have hnext : ¬ addr < next.addr := by
            rw [hgroup next List.mem_cons_self]
            exact UInt64.not_lt.mpr hstart
          exact (if_neg hnext).trans (ih hgroup)

end Aliases

/-! ## The smallest function with an address -/

section Find

variable {entries before group back : List ElfFunction} {addr : UInt64} {found : Option ElfFunction}

/-- The test of the code, for a function that does not start behind the address. -/
theorem mem_range_iff {g : ElfFunction} (h : g.addr ≤ addr) :
    addr.toNat ∈ g.range ↔ addr - g.addr < g.size := by
  have hle := UInt64.le_iff_toNat_le.mp h
  rw [UInt64.lt_iff_toNat_lt, UInt64.toNat_sub_of_le _ _ h, ElfFunction.range, Set.mem_Ico]
  omega

theorem not_mem_range_of_lt {g : ElfFunction} (h : addr < g.addr) : addr.toNat ∉ g.range :=
  fun hmem => absurd (UInt64.lt_iff_toNat_lt.mp h) (not_lt.mpr hmem.1)

theorem Finds.keepBest {g : ElfFunction} (h : Finds group addr found) (hg : g.addr ≤ addr) :
    Finds (group ++ [g]) addr (keepBest addr found g) := by
  rw [Pfunct.keepBest]
  split
  · next hbest =>
      obtain ⟨hmem, hbest⟩ := hbest
      rw [← mem_range_iff hg] at hmem
      refine ⟨?_, ?_, ?_⟩
      · rintro _ ⟨⟩
        exact ⟨by simp, hmem⟩
      · rintro _ ⟨⟩ e he hin
        rcases List.mem_append.mp he with he | he
        · cases found with
          | none => exact absurd hin (h.none_iff.mp rfl e he)
          | some b =>
              have hlt := UInt64.lt_iff_toNat_lt.mp (hbest b rfl)
              have hle := UInt64.le_iff_toNat_le.mp (h.smallest b rfl e he hin)
              exact UInt64.le_iff_toNat_le.mpr (hlt.le.trans hle)
        · rw [List.mem_singleton.mp he]
          exact UInt64.le_refl _
      · exact ⟨fun hnone => absurd hnone (by simp), fun hnone => absurd hmem (hnone g (by simp))⟩
  · next hkept =>
      rw [← mem_range_iff hg] at hkept
      have hle : addr.toNat ∈ g.range → ∃ b, found = some b ∧ b.size ≤ g.size := by
        intro hmem
        cases found with
        | none => exact absurd ⟨hmem, by simp⟩ hkept
        | some b =>
            refine ⟨b, rfl, UInt64.not_lt.mp fun hlt => hkept ⟨hmem, ?_⟩⟩
            rintro _ ⟨⟩
            exact hlt
      refine ⟨?_, ?_, ?_⟩
      · intro f hf
        exact ⟨List.mem_append_left _ (h.contains f hf).1, (h.contains f hf).2⟩
      · intro f hf e he hin
        rcases List.mem_append.mp he with he | he
        · exact h.smallest f hf e he hin
        · obtain rfl := List.mem_singleton.mp he
          obtain ⟨b, hb, hsize⟩ := hle hin
          obtain rfl := Option.some.inj (hf.symm.trans hb)
          exact hsize
      · rw [h.none_iff]
        refine ⟨fun hnone e he => ?_, fun hnone e he => hnone e (List.mem_append_left _ he)⟩
        rcases List.mem_append.mp he with he | he
        · exact hnone e he
        · obtain rfl := List.mem_singleton.mp he
          intro hin
          obtain ⟨b, rfl, -⟩ := hle hin
          exact absurd (h.none_iff.mpr hnone) (by simp)

theorem finds_foldl_keepBest (h : ∀ g ∈ group, g.addr ≤ addr) :
    Finds group addr (group.foldl (keepBest addr) none) := by
  induction group using List.reverseRecOn with
  | nil => exact ⟨by simp, by simp, by simp⟩
  | append_singleton group g ih =>
      rw [List.foldl_concat]
      exact (ih fun e he => h e (List.mem_append_left _ he)).keepBest (h g (by simp))

/-- Functions without the address make no difference. -/
theorem Finds.of_part (h : Finds group addr found) (hsub : ∀ g ∈ group, g ∈ entries)
    (hrest : ∀ g ∈ entries, g ∈ group ∨ addr.toNat ∉ g.range) : Finds entries addr found where
  contains f hf := ⟨hsub f (h.contains f hf).1, (h.contains f hf).2⟩
  smallest f hf g hg hin := h.smallest f hf g ((hrest g hg).resolve_right (absurd hin)) hin
  none_iff := by
    rw [h.none_iff]
    exact ⟨fun hnone g hg => (hrest g hg).elim (hnone g) id, fun hnone g hg => hnone g (hsub g hg)⟩

/-- In a table the functions that do not start behind an address come first, with those
of the last start among them at the end. -/
theorem Table.split (h : Table entries) (addr : UInt64) :
    (∀ e ∈ entries, addr < e.addr) ∨
      ∃ before group back, ∃ start ≤ addr, entries = before ++ group ++ back ∧ group ≠ [] ∧
        (∀ e ∈ before, e.addr < start) ∧ (∀ e ∈ group, e.addr = start) ∧
        ∀ e ∈ back, addr < e.addr := by
  induction entries with
  | nil => exact Or.inl (by simp)
  | cons e entries ih =>
      obtain ⟨hle, hsorted⟩ := List.pairwise_cons.mp h.sorted
      have haddr : ∀ f ∈ entries, e.addr ≤ f.addr := fun f hf =>
        UInt64.le_iff_toNat_le.mpr (addr_le_of_cmp (hle f hf))
      by_cases he : e.addr ≤ addr
      · refine Or.inr ?_
        rcases ih ⟨hsorted, (List.pairwise_cons.mp h.apart).2⟩ with
          hall | ⟨before, group, back, start, hstart, rfl, hne, hbefore, hgroup, hback⟩
        · exact ⟨[], [e], entries, e.addr, he, rfl, by simp, by simp, by simp, hall⟩
        · by_cases hlt : e.addr < start
          · exact ⟨e :: before, group, back, start, hstart, rfl, hne,
              List.forall_mem_cons.mpr ⟨hlt, hbefore⟩, hgroup, hback⟩
          · have heq : e.addr = start := by
              obtain ⟨g, hg⟩ := List.exists_mem_of_ne_nil group hne
              have := haddr g (by simp [hg])
              rw [hgroup g hg] at this
              exact UInt64.le_antisymm this (UInt64.not_lt.mp hlt)
            have hnil : before = [] := List.eq_nil_iff_forall_not_mem.mpr fun b hb => by
              have := haddr b (by simp [hb])
              exact absurd (heq ▸ hbefore b hb) (UInt64.not_lt.mpr this)
            subst hnil
            exact ⟨[], e :: group, back, start, hstart, rfl, by simp, by simp,
              List.forall_mem_cons.mpr ⟨heq, hgroup⟩, hback⟩
      · refine Or.inl (List.forall_mem_cons.mpr ⟨UInt64.not_le.mp he, fun f hf => ?_⟩)
        exact UInt64.lt_of_lt_of_le (UInt64.not_le.mp he) (haddr f hf)

theorem elfFunctionsFind_of_forall_lt (h : ∀ e ∈ entries, addr < e.addr) :
    elfFunctionsFind entries addr = none := by
  have hpoint :
      partitionPoint (fun function : ElfFunction => decide (function.addr ≤ addr)) entries = 0 :=
    partitionPoint_eq [] (by simp) fun e he => by simpa using h e he
  rw [elfFunctionsFind, hpoint]

theorem elfFunctionsFind_eq {start : UInt64} (hstart : start ≤ addr) (hne : group ≠ [])
    (hbefore : ∀ e ∈ before, e.addr < start) (hgroup : ∀ e ∈ group, e.addr = start)
    (hback : ∀ e ∈ back, addr < e.addr) :
    elfFunctionsFind (before ++ group ++ back) addr = group.foldl (keepBest addr) none := by
  obtain ⟨g, gs, rfl⟩ := List.exists_cons_of_ne_nil hne
  have hpoint : partitionPoint (fun function : ElfFunction => decide (function.addr ≤ addr))
      (before ++ g :: gs ++ back) = (before.length + gs.length) + 1 := by
    rw [partitionPoint_eq (before ++ g :: gs) ?_ fun e he => by simpa using hback e he]
    · rw [List.length_append, List.length_cons, Nat.add_assoc]
    · intro e he
      refine decide_eq_true ?_
      rcases List.mem_append.mp he with he | he
      · exact UInt64.le_trans (UInt64.le_of_lt (hbefore e he)) hstart
      · exact hgroup e he ▸ hstart
  have hother : ∀ e ∈ before, e.addr ≠ start := fun e he => UInt64.ne_of_lt (hbefore e he)
  have hdrop : (before ++ g :: gs ++ back).drop before.length = g :: (gs ++ back) := by
    rw [List.append_assoc, List.drop_left, List.cons_append]
  rw [elfFunctionsFind, hpoint]
  dsimp only
  rw [firstAlias_eq hother hgroup (by simp), hdrop]
  dsimp only
  rw [hgroup g List.mem_cons_self]
  exact bestAlias_eq hstart hgroup hback

theorem finds_elfFunctionsFind (h : Table entries) (addr : UInt64) :
    Finds entries addr (elfFunctionsFind entries addr) := by
  rcases h.split addr with
    hall | ⟨before, group, back, start, hstart, rfl, hne, hbefore, hgroup, hback⟩
  · rw [elfFunctionsFind_of_forall_lt hall]
    exact ⟨by simp, by simp, by simpa using fun e he => not_mem_range_of_lt (hall e he)⟩
  · rw [elfFunctionsFind_eq hstart hne hbefore hgroup hback]
    refine (finds_foldl_keepBest fun g hg => hgroup g hg ▸ hstart).of_part
      (fun g hg => by simp [hg]) fun g hg => ?_
    rcases List.mem_append.mp hg with hg | hg
    · rcases List.mem_append.mp hg with hg | hg
      · right
        obtain ⟨e, he⟩ := List.exists_mem_of_ne_nil group hne
        have hlt := UInt64.lt_iff_toNat_lt.mp (hbefore g hg)
        have hle := UInt64.le_iff_toNat_le.mp hstart
        have hapart := (List.pairwise_append.mp (List.pairwise_append.mp h.apart).1).2.2 g hg e he
        rw [ElfFunction.Apart, ← UInt64.toNat_inj, hgroup e he] at hapart
        rw [ElfFunction.range, Set.mem_Ico]
        omega
      · exact Or.inl hg
    · exact Or.inr (not_mem_range_of_lt (hback g hg))

end Find

/-- A lookup in a table finds a smallest function with the address, if there is any; and
the functions of the running kernel, or of a module of it, are such a table, with an entry
for each line that is kept and the distance to the next higher address as its size. -/
theorem find_exact :
    (∀ entries, Table entries → ∀ addr, Finds entries addr (elfFunctionsFind entries addr)) ∧
      ∀ qsort module kallsyms,
        Inferred module kallsyms (runningObjectCollectFunctions qsort module kallsyms) :=
  ⟨fun _ h addr => finds_elfFunctionsFind h addr, inferred_runningObjectCollectFunctions⟩

/-- Two aliases, and a function behind them. -/
def aliases : List ElfFunction := [⟨"a", 16, 4⟩, ⟨"b", 16, 8⟩, ⟨"c", 32, 8⟩]

theorem table_aliases : Table aliases where
  sorted := by decide
  apart := by
    simp only [ElfFunction.Apart]
    decide

theorem find_exact_aliases : Finds aliases 21 (some ⟨"b", 16, 8⟩) :=
  find_exact.1 aliases table_aliases 21

/-- A function with a symbol of no size inside of it. -/
def around : List ElfFunction := [⟨"f", 16, 16⟩, ⟨"e", 20, 0⟩]

/-- The ranges of a function and of an empty symbol inside of it are disjoint, and the
function is not found at an address behind the symbol. -/
theorem find_misses_around :
    (around.Pairwise fun a b => elfFunctionCmp a b ≤ 0) ∧
      (around.Pairwise fun a b => a.addr = b.addr ∨ a.range ∩ b.range = ∅) ∧
      ¬ Finds around 24 (elfFunctionsFind around 24) := by
  refine ⟨by decide, ?_, fun h => ?_⟩
  · refine List.pairwise_pair.mpr (Or.inr ?_)
    simp [ElfFunction.range]
  · have hnone : elfFunctionsFind around 24 = none := by decide
    exact h.none_iff.mp hnone ⟨"f", 16, 16⟩ (by simp [around]) ⟨by decide, by decide⟩

end Pahole.Pfunct
