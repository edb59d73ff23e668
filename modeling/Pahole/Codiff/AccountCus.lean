import Pahole.Codiff.DiffStruct
import Pahole.Support.MatchedSums

/-!
# Comparing two files

`codiff` compares every CU of the old file with its pair in the new one, which finds
changes and removals, and then every CU of the new file with its pair in the old one,
which finds additions.  Each pass keeps its results in the CUs it goes over, and the CUs
with results are displayed afterwards: those of the new file only when there is more than
one.
-/

namespace Pahole.Codiff

/-- `struct function`.  `prototype` is what `function__prototype` prints. -/
structure DiffFunction where
  name : Option String
  size : ℕ
  inlined : Bool
  /-- `abstract_origin != 0` -/
  hasAbstractOrigin : Bool
  prototype : String
  deriving DecidableEq

/-- `struct cu` -/
structure DiffCu where
  name : String
  buildId : List UInt8
  structs : List DiffClass
  functions : List DiffFunction
  deriving DecidableEq

/-- "We're not interested in aliases, just real function definitions" -/
def DiffFunction.isReal (f : DiffFunction) : Bool := !f.inlined && !f.hasAbstractOrigin

/-! ## Pairs -/

/-- `cus__find_pair` -/
def findPair (cus : List DiffCu) (name : String) : Option DiffCu :=
  if cus.length = 1 then cus.head? else cus.find? fun cu => cu.name = name

/-- `cu__same_build_id` -/
def sameBuildId (cu other : DiffCu) : Bool :=
  cu.buildId.length ≠ 0 && cu.buildId = other.buildId

/-- `cu__find_function_by_name` -/
def findFunctionByName (cu : Option DiffCu) (name : Option String) : Option DiffFunction :=
  cu.bind fun cu =>
    if name = none then none else cu.functions.find? fun f => f.name = name

/-! ## The two passes -/

/-- `struct diff_info` of a function, with what its CU has added up for it. -/
structure FunctionChange where
  diff : ℤ
  bytesAdded : ℤ
  bytesRemoved : ℤ
  deriving DecidableEq

/-- `diff_function` -/
def diffFunction (newCu : Option DiffCu) (f : DiffFunction) : Option FunctionChange :=
  if f.inlined || f.hasAbstractOrigin then none
  else
    match findFunctionByName newCu f.name with
    | some new =>
        let diff := i32 ((new.size : ℤ) - f.size)
        if diff ≠ 0 then
          if 0 < diff then some { diff := diff, bytesAdded := diff, bytesRemoved := 0 }
          else some { diff := diff, bytesAdded := 0, bytesRemoved := -diff }
        else if f.prototype ≠ new.prototype then
          some { diff := 0, bytesAdded := 0, bytesRemoved := 0 }
        else none
    | none => some { diff := i32 (-f.size), bytesAdded := 0, bytesRemoved := u32 f.size }

/-- `cu_find_new_tags_iterator` for a function. -/
def newFunction (oldCu : Option DiffCu) (f : DiffFunction) : Option FunctionChange :=
  if f.hasAbstractOrigin || f.inlined then none
  else if (findFunctionByName oldCu f.name).any fun old => !old.inlined then none
  else some { diff := i32 f.size, bytesAdded := i32 f.size, bytesRemoved := 0 }

/-- `cu_find_new_tags_iterator` for a struct. -/
def isNewStruct (oldCu : Option DiffCu) (c : DiffClass) : Bool :=
  match c.name with
  | none => false
  | some name =>
      c.size ≠ 0 && (oldCu.bind fun cu => findStructByName cu.structs name).isNone

/-- The results that a pass leaves in a CU. -/
structure CuChanges where
  functions : List (DiffFunction × FunctionChange)
  structs : List DiffClass

/-- A CU that has been skipped. -/
def CuChanges.empty : CuChanges := ⟨[], []⟩

/-- The functions that are given a `diff_info`. -/
def changedFunctions (change : DiffFunction → Option FunctionChange) (cu : DiffCu) :
    List (DiffFunction × FunctionChange) :=
  cu.functions.filterMap fun f => (change f).map (Prod.mk f)

/-- `cu_diff_iterator` -/
def cuDiff (newCus : List DiffCu) (cu : DiffCu) : CuChanges :=
  let pair := findPair newCus cu.name
  if pair.any (sameBuildId cu) then .empty
  else
    { functions := changedFunctions (diffFunction pair) cu
      structs := cu.structs.filter fun c => (diffStruct (pair.map DiffCu.structs) c).isSome }

/-- `cu_find_new_tags_iterator` -/
def cuFindNewTags (oldCus : List DiffCu) (cu : DiffCu) : CuChanges :=
  let pair := findPair oldCus cu.name
  if pair.any fun old => sameBuildId old cu then .empty
  else
    { functions := changedFunctions (newFunction pair) cu
      structs := cu.structs.filter (isNewStruct pair) }

/-! ## The displayed bytes -/

/-- `cu_show_diffs_iterator` returns early from a CU without changes. -/
def CuChanges.isShown (changes : CuChanges) : Bool :=
  !(changes.functions.isEmpty && changes.structs.isEmpty)

/-- `function_bytes_added - function_bytes_removed` -/
def CuChanges.bytes (changes : CuChanges) : ℤ :=
  (changes.functions.map fun e => e.2.bytesAdded - e.2.bytesRemoved).sum

/-- The CUs that `main` displays, by default both their functions and their structs. -/
def displayed (old new : List DiffCu) : List CuChanges :=
  (old.map (cuDiff new)).filter CuChanges.isShown ++
    if 1 < new.length then (new.map (cuFindNewTags old)).filter CuChanges.isShown else []

/-- The functions that are displayed. -/
def displayedFunctions (old new : List DiffCu) : List DiffFunction :=
  (displayed old new).flatMap fun changes => changes.functions.map Prod.fst

/-- `show_structure_diffs_iterator`, with the names in `structs_printed`. -/
def printStructs : (printed : List (Option String)) → List DiffClass → List DiffClass
  | _, [] => []
  | printed, c :: structs =>
      if c.name ∈ printed then printStructs printed structs
      else c :: printStructs (c.name :: printed) structs

/-- The structs that are displayed. -/
def displayedStructs (old new : List DiffCu) : List DiffClass :=
  printStructs [] ((displayed old new).flatMap CuChanges.structs)

/-- The sum over the CUs that are displayed. -/
def displayedBytes (old new : List DiffCu) : ℤ := ((displayed old new).map CuChanges.bytes).sum

/-- The size of the functions of a file that are neither inlined nor aliases. -/
def fileSize (cus : List DiffCu) : ℤ :=
  (cus.map fun cu => (cu.functions.map fun f => if f.isReal then (f.size : ℤ) else 0).sum).sum

/-- The functions of a file, each with its CU. -/
def ownedFunctions (cus : List DiffCu) : List (DiffCu × DiffFunction) :=
  cus.flatMap fun cu => cu.functions.map (Prod.mk cu)

/-! ## Files that can be compared -/

/-- CU, function and struct names are unique in each file, and CUs with the same build id
are the same. -/
structure ValidFiles (old new : List DiffCu) : Prop where
  oldCus : (old.map DiffCu.name).Nodup
  newCus : (new.map DiffCu.name).Nodup
  oldNames : ((ownedFunctions old).map fun e => e.2.name).Nodup
  newNames : ((ownedFunctions new).map fun e => e.2.name).Nodup
  oldNamed : ∀ c ∈ old, ∀ f ∈ c.functions, f.name ≠ none
  newNamed : ∀ d ∈ new, ∀ f ∈ d.functions, f.name ≠ none
  newStructs : ∀ d ∈ new, ∀ s ∈ d.structs, ∀ d' ∈ new, ∀ s' ∈ d'.structs,
    s.name ≠ none → s'.name = s.name → s' = s
  /-- sizes are `uint32_t` -/
  oldSizes : ∀ c ∈ old, ∀ f ∈ c.functions, f.size < 4294967296
  sameBuild : ∀ c ∈ old, ∀ d ∈ new,
    findPair new c.name = some d ∨ findPair old d.name = some c → sameBuildId c d = true →
      c.functions = d.functions ∧ c.structs = d.structs

/-! ## The count of a function -/

/-- There is a function of the name in the old CU that is not inlined. -/
def hasOldTwin (pair : Option DiffCu) (f : DiffFunction) : Bool :=
  (findFunctionByName pair f.name).any fun old => !old.inlined

/-- The first pass counts the function as the twin of a real one. -/
def isTwin (old new : List DiffCu) (d : DiffCu) (g : DiffFunction) : Bool :=
  (ownedFunctions old).any fun e =>
    e.2.isReal && e.2.name = g.name && findPair new e.1.name = some d

/-- The second pass counts the function as an addition, and is displayed. -/
def isAdded (old new : List DiffCu) (d : DiffCu) (g : DiffFunction) : Bool :=
  1 < new.length && g.isReal && !hasOldTwin (findPair old d.name) g

/-- The size of the functions of the new file for which `p` holds. -/
def sizeWhere (new : List DiffCu) (p : DiffCu → DiffFunction → Bool) : ℤ :=
  (new.map fun d => (d.functions.map fun g => if p d g then (g.size : ℤ) else 0).sum).sum

/-- The size of what is counted by both passes, or counted though it is inlined or an
alias. -/
def overcounted (old new : List DiffCu) : ℤ :=
  sizeWhere new fun d g => isTwin old new d g && (isAdded old new d g || !g.isReal)

/-- The size of the real functions that neither pass counts. -/
def uncounted (old new : List DiffCu) : ℤ :=
  sizeWhere new fun d g => g.isReal && !isTwin old new d g && !isAdded old new d g

/-- The error of a difference that is kept in an `int32_t`. -/
def wrapped (x : ℤ) : ℤ := i32 x - x

/-- The errors of the differences between twins, summed. -/
def wrappedTwins (old new : List DiffCu) : ℤ :=
  (old.map fun c => (c.functions.map fun f =>
    if f.isReal then (findFunctionByName (findPair new c.name) f.name).elim 0 fun g =>
      wrapped ((g.size : ℤ) - f.size) else 0).sum).sum

/-- The errors of the sizes of additions, summed. -/
def wrappedAdditions (old new : List DiffCu) : ℤ :=
  (new.map fun d => (d.functions.map fun g =>
    if isAdded old new d g then wrapped g.size else 0).sum).sum

theorem findPair_mem {cus : List DiffCu} {name : String} {cu : DiffCu}
    (h : findPair cus name = some cu) : cu ∈ cus := by
  unfold findPair at h
  split at h
  · exact List.mem_of_mem_head? h
  · exact List.mem_of_find?_eq_some h

section Passes

variable {old new : List DiffCu} {cu pair : DiffCu} {f g : DiffFunction}

/-- `cu__find_function_by_name` finds for a named function the first function of its name. -/
theorem findFunctionByName_eq (hname : f.name ≠ none) :
    findFunctionByName (some cu) f.name = cu.functions.find? fun g => g.name = f.name := by
  unfold findFunctionByName
  rw [Option.bind_some, if_neg hname]

theorem findFunctionByName_mem {cu : Option DiffCu} {name : Option String}
    (h : findFunctionByName cu name = some g) :
    ∃ c, cu = some c ∧ g ∈ c.functions ∧ g.name = name := by
  unfold findFunctionByName at h
  obtain ⟨c, rfl, h⟩ := Option.bind_eq_some_iff.mp h
  split at h
  · simp at h
  · have hfound := List.find?_some h
    exact ⟨c, rfl, List.mem_of_find?_eq_some h, by simpa using hfound⟩

/-- The net bytes of a change. -/
def netBytes : Option FunctionChange → ℤ
  | none => 0
  | some change => change.bytesAdded - change.bytesRemoved

theorem bytes_changedFunctions (change : DiffFunction → Option FunctionChange) (structs) :
    CuChanges.bytes ⟨changedFunctions change cu, structs⟩ =
      (cu.functions.map fun f => netBytes (change f)).sum := by
  unfold CuChanges.bytes changedFunctions
  induction cu.functions with
  | nil => rfl
  | cons f fs ih =>
      cases hchange : change f with
      | none =>
          rw [List.filterMap_cons_none (by simp [hchange]), ih]
          simp [hchange, netBytes]
      | some c =>
          rw [List.filterMap_cons_some (by simp [hchange]; rfl)]
          simp only [List.map_cons, List.sum_cons, ih, hchange, netBytes]

/-- The first pass counts for a function the size of its twin less its own, in 32 bits. -/
theorem netBytes_diffFunction {pair : Option DiffCu} (hf : f.size < 4294967296) :
    netBytes (diffFunction pair f) =
      ((if f.isReal then (findFunctionByName pair f.name).elim 0 (fun g => (g.size : ℤ)) else 0) -
        if f.isReal then (f.size : ℤ) else 0) +
      if f.isReal then (findFunctionByName pair f.name).elim 0
        (fun g => wrapped ((g.size : ℤ) - f.size)) else 0 := by
  unfold diffFunction DiffFunction.isReal
  by_cases hreal : (f.inlined || f.hasAbstractOrigin) = true
  · have hnot : (!f.inlined && !f.hasAbstractOrigin) = false := by
      rw [← Bool.not_or, hreal]
      rfl
    simp [hreal, hnot, netBytes]
  · have hyes : (!f.inlined && !f.hasAbstractOrigin) = true := by
      rw [← Bool.not_or]
      simpa using hreal
    rw [if_neg hreal, if_pos hyes, if_pos hyes, if_pos hyes]
    cases htwin : findFunctionByName pair f.name with
    | none =>
        simp only [Option.elim_none, netBytes]
        unfold u32
        omega
    | some g =>
        simp only [Option.elim_some, wrapped]
        by_cases hdiff : i32 ((g.size : ℤ) - f.size) = 0
        · rw [if_neg (not_not.mpr hdiff)]
          by_cases hproto : f.prototype = g.prototype
          · simp [hproto, netBytes, hdiff]
          · simp [hproto, netBytes, hdiff]
        · rw [if_pos hdiff]
          by_cases hpos : 0 < i32 ((g.size : ℤ) - f.size)
          · rw [if_pos hpos]
            simp [netBytes]
          · rw [if_neg hpos]
            simp [netBytes]

theorem netBytes_newFunction {pair : Option DiffCu} :
    netBytes (newFunction pair f) =
      if f.isReal && !hasOldTwin pair f then i32 (f.size : ℤ) else 0 := by
  unfold newFunction DiffFunction.isReal hasOldTwin
  cases f.inlined <;> cases f.hasAbstractOrigin <;>
    cases (findFunctionByName pair f.name).any fun old => !old.inlined <;> simp [netBytes]

/-- Names that are unique in a file are unique in each of its CUs. -/
theorem nodup_names {cus : List DiffCu}
    (h : ((ownedFunctions cus).map fun e => e.2.name).Nodup) (hcu : cu ∈ cus) :
    (cu.functions.map DiffFunction.name).Nodup := by
  have hsub : (cu.functions.map (Prod.mk cu)).Sublist (ownedFunctions cus) := by
    unfold ownedFunctions
    rw [List.flatMap_def]
    exact List.sublist_flatten_of_mem (List.mem_map_of_mem (f := fun cu : DiffCu =>
      cu.functions.map (Prod.mk cu)) hcu)
  have hnames := (hsub.map fun e => e.2.name).nodup h
  rwa [List.map_map] at hnames

/-- In a CU with unique names a function is its own namesake. -/
theorem find_self (h : (cu.functions.map DiffFunction.name).Nodup) (hf : f ∈ cu.functions) :
    (cu.functions.find? fun g => g.name = f.name) = some f := by
  cases hfind : cu.functions.find? fun g => g.name = f.name with
  | none => exact absurd (List.find?_eq_none.mp hfind f hf) (by simp)
  | some g =>
      have hname := List.find?_some hfind
      rw [decide_eq_true_eq] at hname
      rw [List.inj_on_of_nodup_map h (List.mem_of_find?_eq_some hfind) hf hname]

/-- An old CU that is skipped has its pair's functions and structs. -/
theorem ValidFiles.pair_of_skipped (h : ValidFiles old new) (hcu : cu ∈ old)
    (hsame : ((findPair new cu.name).any fun d => sameBuildId cu d) = true) :
    ∃ d ∈ new, findPair new cu.name = some d ∧
      cu.functions = d.functions ∧ cu.structs = d.structs := by
  obtain ⟨d, hd, hbuild⟩ := (Option.any_eq_true _ _).mp hsame
  have hin := findPair_mem hd
  exact ⟨d, hin, hd, h.sameBuild cu hcu d hin (Or.inl hd) hbuild⟩

/-- A new CU that is skipped has its pair's functions and structs. -/
theorem ValidFiles.oldPair_of_skipped (h : ValidFiles old new) (hcu : cu ∈ new)
    (hsame : ((findPair old cu.name).any fun c => sameBuildId c cu) = true) :
    ∃ c ∈ old, findPair old cu.name = some c ∧
      c.functions = cu.functions ∧ c.structs = cu.structs := by
  obtain ⟨c, hc, hbuild⟩ := (Option.any_eq_true _ _).mp hsame
  have hin := findPair_mem hc
  exact ⟨c, hin, hc, h.sameBuild c hin cu hcu (Or.inr hc) hbuild⟩

/-- Skipping a CU with the same build id loses no bytes. -/
theorem cuDiff_bytes (h : ValidFiles old new) (hcu : cu ∈ old) :
    (cuDiff new cu).bytes =
      (cu.functions.map fun f => netBytes (diffFunction (findPair new cu.name) f)).sum := by
  simp only [cuDiff]
  split
  · rename_i hsame
    obtain ⟨d, hin, hd, hfunctions, -⟩ := h.pair_of_skipped hcu hsame
    symm
    refine MatchedSums.sum_map_eq_zero fun f hf => ?_
    have hfd : f ∈ d.functions := hfunctions ▸ hf
    have htwin : findFunctionByName (findPair new cu.name) f.name = some f := by
      rw [hd, findFunctionByName_eq (h.oldNamed cu hcu f hf),
        find_self (nodup_names h.newNames hin) hfd]
    have hzero : wrapped 0 = 0 := rfl
    rw [netBytes_diffFunction (h.oldSizes cu hcu f hf), htwin]
    simp [hzero]
  · exact bytes_changedFunctions _ _

theorem cuFindNewTags_bytes (h : ValidFiles old new) (hcu : cu ∈ new) :
    (cuFindNewTags old cu).bytes =
      (cu.functions.map fun f => netBytes (newFunction (findPair old cu.name) f)).sum := by
  simp only [cuFindNewTags]
  split
  · rename_i hsame
    obtain ⟨c, hin, hc, hfunctions, -⟩ := h.oldPair_of_skipped hcu hsame
    symm
    refine MatchedSums.sum_map_eq_zero fun f hf => ?_
    have hfc : f ∈ c.functions := hfunctions ▸ hf
    rw [netBytes_newFunction]
    refine if_neg fun hadded => ?_
    rw [Bool.and_eq_true, Bool.not_eq_true'] at hadded
    obtain ⟨hreal, htwin⟩ := hadded
    unfold hasOldTwin at htwin
    rw [hc, findFunctionByName_eq (h.newNamed cu hcu f hf), find_self (nodup_names h.oldNames hin) hfc]
      at htwin
    unfold DiffFunction.isReal at hreal
    simp_all
  · exact bytes_changedFunctions _ _

theorem bytes_of_not_isShown {changes : CuChanges} (h : changes.isShown = false) :
    changes.bytes = 0 := by
  have hempty : changes.functions = [] := by
    unfold CuChanges.isShown at h
    simp only [Bool.not_eq_false', Bool.and_eq_true, List.isEmpty_iff] at h
    exact h.1
  simp [CuChanges.bytes, hempty]

/-- The size of the twins that the first pass finds for real functions. -/
def twinSize (old new : List DiffCu) : ℤ :=
  (old.map fun cu => (cu.functions.map fun f =>
    if f.isReal then (findFunctionByName (findPair new cu.name) f.name).elim 0 fun g =>
      (g.size : ℤ) else 0).sum).sum

/-- The first pass displays the size of the twins less that of the old file, and the errors of
the differences. -/
theorem sum_cuDiff (h : ValidFiles old new) :
    (((old.map (cuDiff new)).filter CuChanges.isShown).map CuChanges.bytes).sum =
      twinSize old new - fileSize old + wrappedTwins old new := by
  rw [MatchedSums.sum_filter_of_zero _ _ _ fun _ _ hshown => bytes_of_not_isShown hshown,
    List.map_map, twinSize, fileSize, wrappedTwins, ← MatchedSums.sum_map_sub,
    ← List.sum_map_add]
  refine MatchedSums.sum_map_congr fun cu hcu => ?_
  rw [Function.comp_apply, cuDiff_bytes h hcu, ← MatchedSums.sum_map_sub, ← List.sum_map_add]
  exact MatchedSums.sum_map_congr fun f hf => netBytes_diffFunction (h.oldSizes cu hcu f hf)

/-- The second pass, where it is displayed, sums the sizes of the additions and their errors. -/
theorem sum_cuFindNewTags (h : ValidFiles old new) :
    ((if 1 < new.length then (new.map (cuFindNewTags old)).filter CuChanges.isShown
      else []).map CuChanges.bytes).sum =
      sizeWhere new (isAdded old new) + wrappedAdditions old new := by
  rw [sizeWhere, wrappedAdditions, ← List.sum_map_add]
  by_cases hlen : 1 < new.length
  · rw [if_pos hlen, MatchedSums.sum_filter_of_zero _ _ _ fun _ _ hshown =>
      bytes_of_not_isShown hshown, List.map_map]
    refine MatchedSums.sum_map_congr fun d hd => ?_
    rw [Function.comp_apply, cuFindNewTags_bytes h hd, ← List.sum_map_add]
    refine MatchedSums.sum_map_congr fun g hg => ?_
    have hadded : isAdded old new d g = (g.isReal && !hasOldTwin (findPair old d.name) g) := by
      simp [isAdded, hlen]
    rw [netBytes_newFunction, hadded, wrapped]
    cases g.isReal && !hasOldTwin (findPair old d.name) g with
    | false => rfl
    | true =>
        simp only [↓reduceIte]
        omega
  · rw [if_neg hlen]
    symm
    refine MatchedSums.sum_map_eq_zero fun d _ => ?_
    rw [← List.sum_map_add]
    refine MatchedSums.sum_map_eq_zero fun g _ => ?_
    simp [isAdded, hlen]

/-- The size of the twin in the pair of a CU is a sum over all functions of the new file. -/
theorem sum_twins (h : ValidFiles old new) {c : DiffCu} (hf : f.name ≠ none) :
    (new.map fun d => (d.functions.map fun g =>
        if findPair new c.name = some d ∧ g.name = f.name then (g.size : ℤ) else 0).sum).sum =
      (findFunctionByName (findPair new c.name) f.name).elim 0 fun g => (g.size : ℤ) := by
  have hfound := @MatchedSums.sum_ite_found DiffCu _ new (List.Nodup.of_map _ h.newCus)
    (findPair new c.name) (fun d hd => findPair_mem hd)
    fun d => (d.functions.map fun g => if g.name = f.name then (g.size : ℤ) else 0).sum
  have hinner : (new.map fun d => (d.functions.map fun g =>
        if findPair new c.name = some d ∧ g.name = f.name then (g.size : ℤ) else 0).sum) =
      new.map fun d => if findPair new c.name = some d then
        (d.functions.map fun g => if g.name = f.name then (g.size : ℤ) else 0).sum else 0 := by
    refine List.map_congr_left fun d _ => ?_
    by_cases hd : findPair new c.name = some d <;> simp [hd]
  rw [hinner, hfound]
  cases hd : findPair new c.name with
  | none => rfl
  | some d =>
      rw [findFunctionByName_eq hf, Option.elim_some,
        MatchedSums.sum_ite_key (nodup_names h.newNames (findPair_mem hd)) f.name]

/-- The twins that the first pass finds are counted once each. -/
theorem twinSize_eq (h : ValidFiles old new) :
    twinSize old new = sizeWhere new (isTwin old new) := by
  have hleft : twinSize old new =
      (old.map fun c => (c.functions.map fun f => (new.map fun d => (d.functions.map fun g =>
        if f.isReal && f.name = g.name && findPair new c.name = some d
        then (g.size : ℤ) else 0).sum).sum).sum).sum := by
    refine MatchedSums.sum_map_congr fun c hc => MatchedSums.sum_map_congr fun f hf => ?_
    cases hreal : f.isReal with
    | true =>
        rw [if_pos rfl, ← sum_twins h (h.oldNamed c hc f hf)]
        refine MatchedSums.sum_map_congr fun d _ => MatchedSums.sum_map_congr fun g _ => ?_
        refine if_congr ?_ rfl rfl
        simp only [Bool.true_and, Bool.and_eq_true, decide_eq_true_eq]
        rw [and_comm, eq_comm]
    | false => simp
  rw [hleft, MatchedSums.sum_comm_owned]
  refine MatchedSums.sum_map_congr fun d _ => MatchedSums.sum_map_congr fun g _ => ?_
  rw [MatchedSums.sum_owned, isTwin, ownedFunctions]
  refine MatchedSums.sum_ite_once ((List.pairwise_map.mp h.oldNames).imp ?_) (g.size : ℤ)
  intro e e' hne htwin
  have hname : e.2.name = g.name := by
    simp only [Bool.and_eq_true, decide_eq_true_eq] at htwin
    exact htwin.1.2
  have hother : e'.2.name ≠ g.name := fun heq => hne (hname.trans heq.symm)
  simp [hother]

/-- A function of the new file is counted once, but for the ones counted too often and the
ones not counted. -/
theorem sizeWhere_counted :
    sizeWhere new (isTwin old new) + sizeWhere new (isAdded old new) =
      fileSize new + overcounted old new - uncounted old new := by
  unfold overcounted uncounted sizeWhere fileSize
  rw [← List.sum_map_add, ← List.sum_map_add, ← MatchedSums.sum_map_sub]
  refine MatchedSums.sum_map_congr fun d _ => ?_
  rw [← List.sum_map_add, ← List.sum_map_add, ← MatchedSums.sum_map_sub]
  refine MatchedSums.sum_map_congr fun g _ => ?_
  have hreal : isAdded old new d g = true → g.isReal = true := by
    intro hadded
    unfold isAdded at hadded
    rw [Bool.and_eq_true, Bool.and_eq_true] at hadded
    exact hadded.1.2
  cases htwin : isTwin old new d g <;> cases hadded : isAdded old new d g <;>
    cases hg : g.isReal <;> simp_all

/-- The displayed bytes are the difference of the files, plus the bytes counted twice and the
errors, less the bytes not counted. -/
theorem displayedBytes_eq (h : ValidFiles old new) :
    displayedBytes old new = fileSize new - fileSize old + overcounted old new -
      uncounted old new + wrappedTwins old new + wrappedAdditions old new := by
  have hcounted := @sizeWhere_counted old new
  unfold displayedBytes displayed
  rw [List.map_append, List.sum_append, sum_cuDiff h, sum_cuFindNewTags h, twinSize_eq h]
  omega

/-! ### The displayed bytes -/

theorem mem_changedFunctions {change : DiffFunction → Option FunctionChange} :
    f ∈ (changedFunctions change cu).map Prod.fst ↔ f ∈ cu.functions ∧ (change f).isSome := by
  unfold changedFunctions
  rw [List.map_filterMap, List.mem_filterMap]
  constructor
  · rintro ⟨g, hg, heq⟩
    cases hchange : change g with
    | none => simp [hchange] at heq
    | some c =>
        rw [hchange] at heq
        obtain rfl : g = f := by simpa using heq
        exact ⟨hg, by rw [hchange]; rfl⟩
  · rintro ⟨hf, hsome⟩
    obtain ⟨c, hc⟩ := Option.isSome_iff_exists.mp hsome
    exact ⟨f, hf, by simp [hc]⟩

theorem mem_displayed {changes : CuChanges} :
    changes ∈ displayed old new ↔
      changes.isShown = true ∧
        ((∃ c ∈ old, cuDiff new c = changes) ∨
          1 < new.length ∧ ∃ d ∈ new, cuFindNewTags old d = changes) := by
  unfold displayed
  rw [List.mem_append, List.mem_filter, List.mem_map]
  by_cases hlen : 1 < new.length
  · rw [if_pos hlen, List.mem_filter, List.mem_map]
    simp only [hlen, true_and]
    rw [← or_and_right, and_comm]
  · rw [if_neg hlen]
    simp only [List.not_mem_nil, or_false, hlen, false_and]
    tauto

theorem mem_displayedFunctions :
    f ∈ displayedFunctions old new ↔
      (∃ c ∈ old, f ∈ (cuDiff new c).functions.map Prod.fst) ∨
        1 < new.length ∧ ∃ d ∈ new, f ∈ (cuFindNewTags old d).functions.map Prod.fst := by
  have hshown : ∀ changes : CuChanges, f ∈ changes.functions.map Prod.fst →
      changes.isShown = true := by
    intro changes hf
    unfold CuChanges.isShown
    cases hfunctions : changes.functions with
    | nil => simp [hfunctions] at hf
    | cons e es => rfl
  unfold displayedFunctions
  rw [List.mem_flatMap]
  constructor
  · rintro ⟨changes, hdisplayed, hf⟩
    obtain ⟨-, ⟨c, hc, rfl⟩ | ⟨hlen, d, hd, rfl⟩⟩ := mem_displayed.mp hdisplayed
    · exact Or.inl ⟨c, hc, hf⟩
    · exact Or.inr ⟨hlen, d, hd, hf⟩
  · rintro (⟨c, hc, hf⟩ | ⟨hlen, d, hd, hf⟩)
    · exact ⟨_, mem_displayed.mpr ⟨hshown _ hf, Or.inl ⟨c, hc, rfl⟩⟩, hf⟩
    · exact ⟨_, mem_displayed.mpr ⟨hshown _ hf, Or.inr ⟨hlen, d, hd, rfl⟩⟩, hf⟩

theorem mem_cuDiff_functions (h : f ∈ (cuDiff new cu).functions.map Prod.fst) :
    f ∈ cu.functions ∧ (diffFunction (findPair new cu.name) f).isSome := by
  simp only [cuDiff] at h
  split at h
  · exact absurd h (by simp [CuChanges.empty])
  · exact mem_changedFunctions.mp h

theorem mem_cuFindNewTags_functions (h : f ∈ (cuFindNewTags old cu).functions.map Prod.fst) :
    f ∈ cu.functions ∧ (newFunction (findPair old cu.name) f).isSome := by
  simp only [cuFindNewTags] at h
  split at h
  · exact absurd h (by simp [CuChanges.empty])
  · exact mem_changedFunctions.mp h

/-- A function that no other file has by its name finds no twin. -/
theorem findFunctionByName_eq_none {cus : List DiffCu} {name : String}
    (honly : ∀ c ∈ cus, ∀ g ∈ c.functions, g.name ≠ f.name) :
    findFunctionByName (findPair cus name) f.name = none := by
  cases htwin : findFunctionByName (findPair cus name) f.name with
  | none => rfl
  | some g =>
      obtain ⟨c, hc, hg, hname⟩ := findFunctionByName_mem htwin
      exact absurd hname (honly c (findPair_mem hc) g hg)

theorem isReal_iff : f.isReal = true ↔ f.inlined = false ∧ f.hasAbstractOrigin = false := by
  unfold DiffFunction.isReal
  cases f.inlined <;> cases f.hasAbstractOrigin <;> simp

/-- A function that only the old file has is displayed when it is a real one. -/
theorem oldFunction_displayed_iff (h : ValidFiles old new) (hcu : cu ∈ old)
    (hf : f ∈ cu.functions) (honly : ∀ d ∈ new, ∀ g ∈ d.functions, g.name ≠ f.name) :
    f ∈ displayedFunctions old new ↔ f.isReal = true := by
  rw [mem_displayedFunctions, isReal_iff]
  constructor
  · rintro (⟨c, -, hin⟩ | ⟨-, d, hd, hin⟩)
    · obtain ⟨-, hsome⟩ := mem_cuDiff_functions hin
      unfold diffFunction at hsome
      cases hinlined : f.inlined <;> cases halias : f.hasAbstractOrigin <;>
        simp [hinlined, halias] at hsome ⊢
    · exact absurd rfl (honly d hd f (mem_cuFindNewTags_functions hin).1)
  · rintro ⟨hinlined, halias⟩
    refine Or.inl ⟨cu, hcu, ?_⟩
    simp only [cuDiff]
    split
    · rename_i hsame
      obtain ⟨d, hin, -, hfunctions, -⟩ := h.pair_of_skipped hcu hsame
      exact absurd rfl (honly d hin f (hfunctions ▸ hf))
    · refine mem_changedFunctions.mpr ⟨hf, ?_⟩
      simp [diffFunction, hinlined, halias, findFunctionByName_eq_none honly]

/-- A function that only the new file has is displayed when it is a real one and the file
has other CUs. -/
theorem newFunction_displayed_iff (h : ValidFiles old new) (hcu : cu ∈ new)
    (hf : f ∈ cu.functions) (honly : ∀ c ∈ old, ∀ g ∈ c.functions, g.name ≠ f.name) :
    f ∈ displayedFunctions old new ↔ f.isReal = true ∧ new.length ≠ 1 := by
  have hpos : 0 < new.length := List.length_pos_of_mem hcu
  rw [mem_displayedFunctions, isReal_iff]
  constructor
  · rintro (⟨c, hc, hin⟩ | ⟨hlen, d, -, hin⟩)
    · exact absurd rfl (honly c hc f (mem_cuDiff_functions hin).1)
    · obtain ⟨-, hsome⟩ := mem_cuFindNewTags_functions hin
      refine ⟨?_, by omega⟩
      unfold newFunction at hsome
      cases hinlined : f.inlined <;> cases halias : f.hasAbstractOrigin <;>
        simp [hinlined, halias] at hsome ⊢
  · rintro ⟨⟨hinlined, halias⟩, hlen⟩
    refine Or.inr ⟨by omega, cu, hcu, ?_⟩
    simp only [cuFindNewTags]
    split
    · rename_i hsame
      obtain ⟨c, hin, -, hfunctions, -⟩ := h.oldPair_of_skipped hcu hsame
      exact absurd rfl (honly c hin f (hfunctions ▸ hf))
    · refine mem_changedFunctions.mpr ⟨hf, ?_⟩
      simp [newFunction, hinlined, halias, findFunctionByName_eq_none honly]

theorem mem_of_mem_printStructs {printed : List (Option String)} {structs : List DiffClass}
    {c : DiffClass} (h : c ∈ printStructs printed structs) : c ∈ structs := by
  induction structs generalizing printed with
  | nil => simp [printStructs] at h
  | cons s structs ih =>
      unfold printStructs at h
      split at h
      · exact List.mem_cons_of_mem _ (ih h)
      · rcases List.mem_cons.mp h with rfl | h
        · exact List.mem_cons_self
        · exact List.mem_cons_of_mem _ (ih h)

/-- A struct is printed when there is no other one of its name. -/
theorem mem_printStructs {printed : List (Option String)} {structs : List DiffClass}
    {c : DiffClass} (hin : c ∈ structs) (hprinted : c.name ∉ printed)
    (honly : ∀ s ∈ structs, s.name = c.name → s = c) : c ∈ printStructs printed structs := by
  induction structs generalizing printed with
  | nil => simp at hin
  | cons s structs ih =>
      unfold printStructs
      have hrest : ∀ s' ∈ structs, s'.name = c.name → s' = c :=
        fun s' hs' => honly s' (List.mem_cons_of_mem _ hs')
      by_cases hname : s.name = c.name
      · obtain rfl := honly s List.mem_cons_self hname
        rw [if_neg hprinted]
        exact List.mem_cons_self
      · have hlater : c ∈ structs := by
          rcases List.mem_cons.mp hin with rfl | hlater
          · exact absurd rfl hname
          · exact hlater
        split
        · exact ih hlater hprinted hrest
        · refine List.mem_cons_of_mem _ (ih hlater ?_ hrest)
          rw [List.mem_cons]
          rintro (heq | hmem)
          · exact hname heq.symm
          · exact hprinted hmem

/-- A displayed struct is of an old CU, or is a new struct of a file of several CUs. -/
theorem mem_displayed_structs {s : DiffClass}
    (h : s ∈ (displayed old new).flatMap CuChanges.structs) :
    (∃ c ∈ old, s ∈ c.structs) ∨
      1 < new.length ∧ ∃ d ∈ new, s ∈ d.structs ∧ isNewStruct (findPair old d.name) s = true := by
  obtain ⟨changes, hdisplayed, hs⟩ := List.mem_flatMap.mp h
  obtain ⟨-, ⟨c, hc, rfl⟩ | ⟨hlen, d, hd, rfl⟩⟩ := mem_displayed.mp hdisplayed
  · simp only [cuDiff] at hs
    split at hs
    · exact absurd hs (by simp [CuChanges.empty])
    · exact Or.inl ⟨c, hc, List.mem_of_mem_filter hs⟩
  · simp only [cuFindNewTags] at hs
    split at hs
    · exact absurd hs (by simp [CuChanges.empty])
    · exact Or.inr ⟨hlen, d, hd, List.mem_filter.mp hs⟩

theorem findStructByName_mem {structs : List DiffClass} {name : String} {s : DiffClass}
    (h : findStructByName structs name = some s) : s ∈ structs ∧ s.name = some name := by
  have hfound := List.find?_some h
  rw [Bool.and_eq_true, beq_iff_eq] at hfound
  exact ⟨List.mem_of_find?_eq_some h, hfound.1⟩

/-- A named struct that only the new file has is displayed when it has a size and the
file has other CUs. -/
theorem newStruct_displayed_iff (h : ValidFiles old new) (hcu : cu ∈ new) {s : DiffClass}
    (hs : s ∈ cu.structs) (hname : s.name ≠ none)
    (honly : ∀ c ∈ old, ∀ t ∈ c.structs, t.name ≠ s.name) :
    s ∈ displayedStructs old new ↔ s.size ≠ 0 ∧ new.length ≠ 1 := by
  have hpos : 0 < new.length := List.length_pos_of_mem hcu
  obtain ⟨name, hsome⟩ := Option.ne_none_iff_exists'.mp hname
  unfold displayedStructs
  constructor
  · intro hprinted
    rcases mem_displayed_structs (mem_of_mem_printStructs hprinted) with
      ⟨c, hc, hin⟩ | ⟨hlen, d, -, -, hisNew⟩
    · exact absurd rfl (honly c hc s hin)
    · refine ⟨?_, by omega⟩
      simp only [isNewStruct, hsome, Bool.and_eq_true, decide_eq_true_eq] at hisNew
      exact hisNew.1
  · rintro ⟨hsize, hlen⟩
    refine mem_printStructs ?_ (List.not_mem_nil) ?_
    · have hinCu : s ∈ (cuFindNewTags old cu).structs := by
        simp only [cuFindNewTags]
        split
        · rename_i hsame
          obtain ⟨c, hin, -, -, hstructs⟩ := h.oldPair_of_skipped hcu hsame
          exact absurd rfl (honly c hin s (hstructs ▸ hs))
        · refine List.mem_filter.mpr ⟨hs, ?_⟩
          have hnone : ((findPair old cu.name).bind fun c =>
              findStructByName c.structs name) = none := by
            cases hfind : (findPair old cu.name).bind fun c =>
                findStructByName c.structs name with
            | none => rfl
            | some t =>
                obtain ⟨c, hc, ht⟩ := Option.bind_eq_some_iff.mp hfind
                obtain ⟨htin, htname⟩ := findStructByName_mem ht
                exact absurd (htname.trans hsome.symm) (honly c (findPair_mem hc) t htin)
          simp [isNewStruct, hsome, hsize, hnone]
      have hshown : (cuFindNewTags old cu).isShown = true := by
        unfold CuChanges.isShown
        cases hstructs : (cuFindNewTags old cu).structs with
        | nil => simp [hstructs] at hinCu
        | cons t ts => simp
      exact List.mem_flatMap.mpr
        ⟨_, mem_displayed.mpr ⟨hshown, Or.inr ⟨by omega, cu, hcu, rfl⟩⟩, hinCu⟩
    · intro t ht htname
      rcases mem_displayed_structs ht with ⟨c, hc, hin⟩ | ⟨-, d, hd, hin, -⟩
      · exact absurd htname (honly c hc t hin)
      · exact h.newStructs cu hcu s hs d hd t hin hname htname

end Passes

/-- For files with unique names, the displayed bytes are the difference of the files if and only
if the bytes counted twice and those that 32-bit differences drop sum to the bytes not counted.
What only one file has is displayed if and only if it is a real function, or a struct with a
size, where the new file must have another number of CUs than one. -/
theorem codiff_accounts {old new : List DiffCu} (h : ValidFiles old new) :
    (displayedBytes old new = fileSize new - fileSize old ↔
      overcounted old new + wrappedTwins old new + wrappedAdditions old new =
        uncounted old new) ∧
    (∀ cu ∈ new, ∀ f ∈ cu.functions, (∀ c ∈ old, ∀ g ∈ c.functions, g.name ≠ f.name) →
      (f ∈ displayedFunctions old new ↔ f.isReal = true ∧ new.length ≠ 1)) ∧
    (∀ cu ∈ new, ∀ s ∈ cu.structs, s.name ≠ none →
      (∀ c ∈ old, ∀ t ∈ c.structs, t.name ≠ s.name) →
        (s ∈ displayedStructs old new ↔ s.size ≠ 0 ∧ new.length ≠ 1)) ∧
    (∀ cu ∈ old, ∀ f ∈ cu.functions, (∀ d ∈ new, ∀ g ∈ d.functions, g.name ≠ f.name) →
      (f ∈ displayedFunctions old new ↔ f.isReal = true)) := by
  refine ⟨?_, ?_, ?_, ?_⟩
  · rw [displayedBytes_eq h]
    constructor
    · intro heq
      omega
    · intro hcancel
      omega
  · exact fun cu hcu f hf honly => newFunction_displayed_iff h hcu hf honly
  · exact fun cu hcu s hs hname honly => newStruct_displayed_iff h hcu hs hname honly
  · exact fun cu hcu f hf honly => oldFunction_displayed_iff h hcu hf honly

/-- A CU with one function. -/
def oneFunctionCu (cuName name : String) (size : ℕ) : DiffCu where
  name := cuName
  buildId := []
  structs := []
  functions :=
    [{ name := some name, size := size, inlined := false, hasAbstractOrigin := false,
       prototype := "void (void)" }]

/-- A CU with one alias. -/
def aliasCu (cuName name : String) (size : ℕ) : DiffCu :=
  let cu := oneFunctionCu cuName name size
  { cu with functions := cu.functions.map fun f => { f with hasAbstractOrigin := true } }

/-- A function that has grown, a CU that has been removed and one that has been added, and
an alias of one CU that is a function in another. -/
theorem codiff_accounts_grown :
    displayedBytes [oneFunctionCu "a.c" "f" 8, oneFunctionCu "b.c" "g" 5, aliasCu "x.c" "k" 3]
        [oneFunctionCu "a.c" "f" 10, oneFunctionCu "c.c" "k" 7] =
      fileSize [oneFunctionCu "a.c" "f" 10, oneFunctionCu "c.c" "k" 7] -
        fileSize [oneFunctionCu "a.c" "f" 8, oneFunctionCu "b.c" "g" 5,
          aliasCu "x.c" "k" 3] := by
  have h : ValidFiles [oneFunctionCu "a.c" "f" 8, oneFunctionCu "b.c" "g" 5,
      aliasCu "x.c" "k" 3] [oneFunctionCu "a.c" "f" 10, oneFunctionCu "c.c" "k" 7] :=
    { oldCus := by decide
      newCus := by decide
      oldNames := by decide
      newNames := by decide
      oldNamed := by decide
      newNamed := by decide
      newStructs := by decide
      oldSizes := by decide
      sameBuild := by decide }
  exact (codiff_accounts h).1.mpr (by decide)

/-- A function is added to a file of one CU, and nothing is displayed. -/
theorem codiff_loses_oneCu :
    displayedBytes [] [oneFunctionCu "a.c" "f" 10] ≠
        fileSize [oneFunctionCu "a.c" "f" 10] - fileSize [] ∧
      displayedFunctions [] [oneFunctionCu "a.c" "f" 10] = [] := by
  decide

end Pahole.Codiff
