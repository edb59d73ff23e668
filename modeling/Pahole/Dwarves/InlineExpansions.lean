import Mathlib.Tactic

/-!
# Accounting inline expansions

Lexical blocks count the inlined subroutines that are added to them, not those of the
blocks in them.  `cu__account_inline_expansions` takes the totals of a CU from the
outermost blocks, and goes on to the blocks in a block only when its own count, of 16 bits,
is not zero.
-/

namespace Pahole

/-- The tags of a lexical block: blocks with tags of their own, inlined subroutines with the
function that they are of and their size, and others. -/
inductive LexTags where
  | nil
  | lexblock (child rest : LexTags)
  | inlinedSubroutine (type size : ℕ) (rest : LexTags)
  | other (rest : LexTags)
  deriving DecidableEq

namespace LexTags

/-- `nr_inline_expansions`, as `lexblock__add_inline_expansion` has it after the tags. -/
def nrInlineExpansions (nr : ℕ) : LexTags → ℕ
  | nil => nr
  | lexblock _ rest => rest.nrInlineExpansions nr
  | inlinedSubroutine _ _ rest => rest.nrInlineExpansions ((nr + 1) % 2 ^ 16)
  | other rest => rest.nrInlineExpansions nr

/-- `size_inline_expansions`, as `lexblock__add_inline_expansion` has it after the tags. -/
def sizeInlineExpansions (total : ℕ) : LexTags → ℕ
  | nil => total
  | lexblock _ rest => rest.sizeInlineExpansions total
  | inlinedSubroutine _ size rest => rest.sizeInlineExpansions ((total + size) % 2 ^ 32)
  | other rest => rest.sizeInlineExpansions total

end LexTags

/-- `cu_total_nr_inline_expansions` and `cu_total_size_inline_expansions` of the functions,
by id. -/
structure InlineTotals where
  nr : ℕ → ℕ
  size : ℕ → ℕ

/-- The totals with an inlined subroutine added to its function. -/
def InlineTotals.add (totals : InlineTotals) (type size : ℕ) : InlineTotals where
  nr := Function.update totals.nr type ((totals.nr type + 1) % 2 ^ 16)
  size := Function.update totals.size type ((totals.size type + size) % 2 ^ 32)

/-- A CU: the ids with a function, and the outermost blocks of the functions among its
tags. -/
structure InlineCu where
  function : ℕ → Bool
  functions : List LexTags

/-- The loop of `lexblock__account_inline_expansions` over the tags of a block. -/
def accountTags (function : ℕ → Bool) (totals : InlineTotals) : LexTags → InlineTotals
  | .nil => totals
  | .lexblock child rest =>
      accountTags function
        (if child.nrInlineExpansions 0 = 0 then totals else accountTags function totals child) rest
  | .inlinedSubroutine type size rest =>
      accountTags function (if function type then totals.add type size else totals) rest
  | .other rest => accountTags function totals rest

/-- `lexblock__account_inline_expansions` -/
def lexblockAccountInlineExpansions (function : ℕ → Bool) (totals : InlineTotals)
    (block : LexTags) : InlineTotals :=
  if block.nrInlineExpansions 0 = 0 then totals else accountTags function totals block

namespace InlineCu

/-- The totals of the functions after `cu__account_inline_expansions`. -/
def functionTotals (cu : InlineCu) : InlineTotals :=
  cu.functions.foldl (lexblockAccountInlineExpansions cu.function) ⟨fun _ => 0, fun _ => 0⟩

/-- `cu->nr_inline_expansions` after `cu__account_inline_expansions`. -/
def nrInlineExpansions (cu : InlineCu) : ℕ :=
  cu.functions.foldl (fun nr block => (nr + block.nrInlineExpansions 0) % 2 ^ 64) 0

/-- `cu->size_inline_expansions` after `cu__account_inline_expansions`. -/
def sizeInlineExpansions (cu : InlineCu) : ℕ :=
  cu.functions.foldl (fun size block => (size + block.sizeInlineExpansions 0) % 2 ^ 64) 0

end InlineCu

/-! ## Expansions at every depth -/

/-- The inlined subroutines at every depth, with their functions and sizes. -/
def LexTags.expansions : LexTags → List (ℕ × ℕ)
  | nil => []
  | lexblock child rest => child.expansions ++ rest.expansions
  | inlinedSubroutine type size rest => (type, size) :: rest.expansions
  | other rest => rest.expansions

/-- The inlined subroutines of the block itself. -/
def LexTags.direct : LexTags → List (ℕ × ℕ)
  | nil => []
  | lexblock _ rest => rest.direct
  | inlinedSubroutine type size rest => (type, size) :: rest.direct
  | other rest => rest.direct

/-- The inlined subroutines of the blocks in the block. -/
def LexTags.nested : LexTags → List (ℕ × ℕ)
  | nil => []
  | lexblock child rest => child.expansions ++ rest.nested
  | inlinedSubroutine _ _ rest => rest.nested
  | other rest => rest.nested

/-- The sum of the sizes of inlined subroutines. -/
def sizeSum (expansions : List (ℕ × ℕ)) : ℕ := (expansions.map Prod.snd).sum

/-- The inlined subroutines of a function. -/
def expansionsOf (id : ℕ) (expansions : List (ℕ × ℕ)) : List (ℕ × ℕ) :=
  expansions.filter fun e => e.1 = id

namespace InlineCu

def expansions (cu : InlineCu) : List (ℕ × ℕ) := cu.functions.flatMap LexTags.expansions

/-- The counts and sizes of each function and of the CU are those of its inlined subroutines at
every depth. -/
structure Accounted (cu : InlineCu) : Prop where
  functionNr : ∀ id, cu.function id →
    cu.functionTotals.nr id = (expansionsOf id cu.expansions).length
  functionSize : ∀ id, cu.function id →
    cu.functionTotals.size id = sizeSum (expansionsOf id cu.expansions)
  nr : cu.nrInlineExpansions = cu.expansions.length
  size : cu.sizeInlineExpansions = sizeSum cu.expansions

/-- No block has nested blocks, and the totals fit in their counters. -/
structure Countable (cu : InlineCu) : Prop where
  flat : ∀ block ∈ cu.functions, block.nested = []
  blockNr : ∀ block ∈ cu.functions, block.direct.length < 2 ^ 16
  blockSize : ∀ block ∈ cu.functions, sizeSum block.direct < 2 ^ 32
  functionNr : ∀ id, cu.function id → (expansionsOf id cu.expansions).length < 2 ^ 16
  functionSize : ∀ id, cu.function id → sizeSum (expansionsOf id cu.expansions) < 2 ^ 32
  nr : cu.expansions.length < 2 ^ 64
  size : sizeSum cu.expansions < 2 ^ 64

end InlineCu

/-! ## Counters that wrap -/

section Counters

variable {β : Type*} {n : ℕ} {f g : β → ℕ} {xs : List β}

theorem foldl_add_mod (a : ℕ) (ha : a < n) :
    xs.foldl (fun s x => (s + f x) % n) a = (a + (xs.map f).sum) % n := by
  induction xs generalizing a with
  | nil => simp [Nat.mod_eq_of_lt ha]
  | cons x xs ih =>
      rw [List.foldl_cons, ih _ (Nat.mod_lt _ (by omega)), List.map_cons, List.sum_cons,
        Nat.mod_add_mod, Nat.add_assoc]

/-- A wrapping counter of `f` is the sum of a larger `g` if and only if the sum does not wrap
and the two agree. -/
theorem foldl_add_mod_eq_iff (hn : 0 < n) (h : ∀ x ∈ xs, f x ≤ g x) :
    xs.foldl (fun s x => (s + f x) % n) 0 = (xs.map g).sum ↔
      (xs.map g).sum < n ∧ ∀ x ∈ xs, f x = g x := by
  rw [foldl_add_mod 0 hn, Nat.zero_add]
  constructor
  · intro heq
    have hlt : (xs.map g).sum < n := heq ▸ Nat.mod_lt _ hn
    have hle : (xs.map f).sum ≤ (xs.map g).sum := List.sum_le_sum h
    rw [Nat.mod_eq_of_lt (by omega)] at heq
    refine ⟨hlt, fun x hx => ?_⟩
    by_contra hne
    have : (xs.map f).sum < (xs.map g).sum :=
      List.sum_lt_sum f g h ⟨x, hx, lt_of_le_of_ne (h x hx) hne⟩
    omega
  · rintro ⟨hlt, heq⟩
    rw [List.map_congr_left heq, Nat.mod_eq_of_lt hlt]

end Counters

/-! ## The counters of a block -/

namespace LexTags

variable {t : LexTags}

theorem nrInlineExpansions_eq {nr : ℕ} (h : nr < 2 ^ 16) :
    t.nrInlineExpansions nr = (nr + t.direct.length) % 2 ^ 16 := by
  induction t generalizing nr with
  | nil => exact (Nat.mod_eq_of_lt h).symm
  | lexblock child rest _ ih => exact ih h
  | inlinedSubroutine type size rest ih =>
      rw [nrInlineExpansions, ih (Nat.mod_lt _ (by decide)), direct, List.length_cons,
        Nat.mod_add_mod, Nat.add_assoc, Nat.add_comm 1]
  | other rest ih => exact ih h

theorem sizeInlineExpansions_eq {total : ℕ} (h : total < 2 ^ 32) :
    t.sizeInlineExpansions total = (total + sizeSum t.direct) % 2 ^ 32 := by
  induction t generalizing total with
  | nil => exact (Nat.mod_eq_of_lt h).symm
  | lexblock child rest _ ih => exact ih h
  | inlinedSubroutine type size rest ih =>
      rw [sizeInlineExpansions, ih (Nat.mod_lt _ (by decide)), direct, sizeSum, sizeSum,
        List.map_cons, List.sum_cons, Nat.mod_add_mod, Nat.add_assoc]
  | other rest ih => exact ih h

theorem expansions_perm : t.expansions.Perm (t.direct ++ t.nested) := by
  induction t with
  | nil => exact .refl _
  | lexblock child rest _ ih =>
      calc
        child.expansions ++ rest.expansions
            |>.Perm (child.expansions ++ (rest.direct ++ rest.nested)) := ih.append_left _
        _ |>.Perm (rest.direct ++ (child.expansions ++ rest.nested)) := by
          rw [← List.append_assoc, ← List.append_assoc]
          exact List.perm_append_comm.append_right _
  | inlinedSubroutine type size rest ih => exact ih.cons _
  | other rest ih => exact ih

theorem length_expansions : t.expansions.length = t.direct.length + t.nested.length := by
  rw [expansions_perm.length_eq, List.length_append]

theorem sizeSum_expansions : sizeSum t.expansions = sizeSum t.direct + sizeSum t.nested := by
  rw [sizeSum, (expansions_perm.map Prod.snd).sum_eq, List.map_append, List.sum_append]
  rfl

theorem expansions_eq_direct (h : t.nested = []) : t.expansions = t.direct := by
  induction t with
  | nil => rfl
  | lexblock child rest _ ih =>
      obtain ⟨hchild, hrest⟩ := List.append_eq_nil_iff.mp h
      rw [expansions, hchild, List.nil_append, ih hrest, direct]
  | inlinedSubroutine type size rest ih => rw [expansions, ih h, direct]
  | other rest ih => exact ih h

/-- The counter of a block is the number of the inlined subroutines at every depth. -/
theorem nrInlineExpansions_eq_iff :
    t.nrInlineExpansions 0 = t.expansions.length ↔ t.nested = [] ∧ t.direct.length < 2 ^ 16 := by
  rw [nrInlineExpansions_eq (by decide), Nat.zero_add, length_expansions,
    ← List.length_eq_zero_iff]
  have : t.direct.length % 2 ^ 16 < 2 ^ 16 := Nat.mod_lt _ (by decide)
  have : t.direct.length % 2 ^ 16 ≤ t.direct.length := Nat.mod_le _ _
  constructor
  · intro h
    omega
  · rintro ⟨hnested, hlt⟩
    rw [Nat.mod_eq_of_lt hlt, hnested, Nat.add_zero]

theorem nrInlineExpansions_le : t.nrInlineExpansions 0 ≤ t.expansions.length := by
  rw [nrInlineExpansions_eq (by decide), Nat.zero_add, length_expansions]
  exact (Nat.mod_le _ _).trans (Nat.le_add_right _ _)

theorem sizeInlineExpansions_le : t.sizeInlineExpansions 0 ≤ sizeSum t.expansions := by
  rw [sizeInlineExpansions_eq (by decide), Nat.zero_add, sizeSum_expansions]
  exact (Nat.mod_le _ _).trans (Nat.le_add_right _ _)

theorem sizeInlineExpansions_eq_iff (h : t.nested = []) :
    t.sizeInlineExpansions 0 = sizeSum t.expansions ↔ sizeSum t.direct < 2 ^ 32 := by
  rw [sizeInlineExpansions_eq (by decide), Nat.zero_add, expansions_eq_direct h]
  exact Nat.mod_eq_iff_lt (by decide)

end LexTags

/-! ## The walk over the blocks -/

namespace LexTags

/-- The inlined subroutines that `lexblock__account_inline_expansions` comes to in the tags
of a block. -/
def visited : LexTags → List (ℕ × ℕ)
  | nil => []
  | lexblock child rest =>
      (if child.nrInlineExpansions 0 = 0 then [] else child.visited) ++ rest.visited
  | inlinedSubroutine type size rest => (type, size) :: rest.visited
  | other rest => rest.visited

/-- A block without inlined subroutines of its own is not walked. -/
def visitedBlock (t : LexTags) : List (ℕ × ℕ) :=
  if t.nrInlineExpansions 0 = 0 then [] else t.visited

variable {t : LexTags}

theorem visited_sublist : t.visited.Sublist t.expansions := by
  induction t with
  | nil => exact .slnil
  | lexblock child rest ihc ih =>
      refine List.Sublist.append ?_ ih
      split
      · exact List.nil_sublist _
      · exact ihc
  | inlinedSubroutine type size rest ih => exact ih.cons_cons _
  | other rest ih => exact ih

theorem visited_eq_direct (h : t.nested = []) : t.visited = t.direct := by
  induction t with
  | nil => rfl
  | lexblock child rest _ ih =>
      obtain ⟨hchild, hrest⟩ := List.append_eq_nil_iff.mp h
      have hvisited : child.visited = [] := List.sublist_nil.mp (hchild ▸ visited_sublist)
      rw [visited, hvisited, ite_self, List.nil_append, ih hrest, direct]
  | inlinedSubroutine type size rest ih => rw [visited, ih h, direct]
  | other rest ih => exact ih h

theorem visitedBlock_eq (h : t.nested = []) (hlt : t.direct.length < 2 ^ 16) :
    t.visitedBlock = t.expansions := by
  rw [visitedBlock, visited_eq_direct h, expansions_eq_direct h,
    nrInlineExpansions_eq (by decide), Nat.zero_add, Nat.mod_eq_of_lt hlt]
  split
  · exact (List.length_eq_zero_iff.mp ‹_›).symm
  · rfl

end LexTags

section Account

variable {function : ℕ → Bool} {totals : InlineTotals}

/-- The visit to an inlined subroutine. -/
def InlineTotals.account (function : ℕ → Bool) (totals : InlineTotals) (e : ℕ × ℕ) :
    InlineTotals :=
  if function e.1 then totals.add e.1 e.2 else totals

theorem accountTags_eq {t : LexTags} :
    accountTags function totals t = t.visited.foldl (InlineTotals.account function) totals := by
  induction t generalizing totals with
  | nil => rfl
  | lexblock child rest ihc ih =>
      rw [accountTags, ih, LexTags.visited, List.foldl_append]
      split
      · rfl
      · rw [ihc]
  | inlinedSubroutine type size rest ih => rw [accountTags, ih]; rfl
  | other rest ih => rw [accountTags, ih]; rfl

theorem lexblockAccountInlineExpansions_eq {block : LexTags} :
    lexblockAccountInlineExpansions function totals block =
      block.visitedBlock.foldl (InlineTotals.account function) totals := by
  rw [lexblockAccountInlineExpansions, LexTags.visitedBlock]
  split
  · rfl
  · exact accountTags_eq

variable {id : ℕ} {es : List (ℕ × ℕ)}

theorem nr_foldl_account (hid : function id) (h : totals.nr id < 2 ^ 16) :
    (es.foldl (InlineTotals.account function) totals).nr id =
      (totals.nr id + (expansionsOf id es).length) % 2 ^ 16 := by
  induction es generalizing totals with
  | nil => exact (Nat.mod_eq_of_lt h).symm
  | cons e es ih =>
      rw [List.foldl_cons]
      by_cases he : e.1 = id
      · subst he
        have hnr : (totals.account function e).nr e.1 = (totals.nr e.1 + 1) % 2 ^ 16 := by
          rw [InlineTotals.account, if_pos hid]
          exact Function.update_self _ _ _
        rw [ih (hnr ▸ Nat.mod_lt _ (by decide)), hnr, Nat.mod_add_mod, expansionsOf, expansionsOf,
          List.filter_cons_of_pos (by simp), List.length_cons, Nat.add_assoc, Nat.add_comm 1]
      · have hnr : (totals.account function e).nr id = totals.nr id := by
          rw [InlineTotals.account]
          split
          · exact Function.update_of_ne (Ne.symm he) _ _
          · rfl
        rw [ih (hnr ▸ h), hnr, expansionsOf, expansionsOf,
          List.filter_cons_of_neg (by simpa using he)]

theorem size_foldl_account (hid : function id) (h : totals.size id < 2 ^ 32) :
    (es.foldl (InlineTotals.account function) totals).size id =
      (totals.size id + sizeSum (expansionsOf id es)) % 2 ^ 32 := by
  induction es generalizing totals with
  | nil => exact (Nat.mod_eq_of_lt h).symm
  | cons e es ih =>
      rw [List.foldl_cons]
      by_cases he : e.1 = id
      · subst he
        have hsize : (totals.account function e).size e.1 = (totals.size e.1 + e.2) % 2 ^ 32 := by
          rw [InlineTotals.account, if_pos hid]
          exact Function.update_self _ _ _
        rw [ih (hsize ▸ Nat.mod_lt _ (by decide)), hsize, Nat.mod_add_mod, expansionsOf,
          expansionsOf, List.filter_cons_of_pos (by simp), sizeSum, sizeSum, List.map_cons,
          List.sum_cons, Nat.add_assoc]
      · have hsize : (totals.account function e).size id = totals.size id := by
          rw [InlineTotals.account]
          split
          · exact Function.update_of_ne (Ne.symm he) _ _
          · rfl
        rw [ih (hsize ▸ h), hsize, expansionsOf, expansionsOf,
          List.filter_cons_of_neg (by simpa using he)]

end Account

namespace InlineCu

variable {cu : InlineCu} {id : ℕ}

/-- The inlined subroutines that the walk over a CU comes to. -/
def visited (cu : InlineCu) : List (ℕ × ℕ) := cu.functions.flatMap LexTags.visitedBlock

theorem functionTotals_eq :
    cu.functionTotals =
      cu.visited.foldl (InlineTotals.account cu.function) ⟨fun _ => 0, fun _ => 0⟩ := by
  rw [functionTotals, visited, List.foldl_flatMap]
  congr 1
  funext totals block
  exact lexblockAccountInlineExpansions_eq

theorem functionTotals_nr (hid : cu.function id) :
    cu.functionTotals.nr id = (expansionsOf id cu.visited).length % 2 ^ 16 := by
  rw [functionTotals_eq, nr_foldl_account hid (by decide : 0 < 2 ^ 16), Nat.zero_add]

theorem functionTotals_size (hid : cu.function id) :
    cu.functionTotals.size id = sizeSum (expansionsOf id cu.visited) % 2 ^ 32 := by
  rw [functionTotals_eq, size_foldl_account hid (by decide : 0 < 2 ^ 32), Nat.zero_add]

theorem length_expansions :
    cu.expansions.length = (cu.functions.map fun block => block.expansions.length).sum :=
  List.length_flatMap

theorem sizeSum_expansions :
    sizeSum cu.expansions = (cu.functions.map fun block => sizeSum block.expansions).sum := by
  rw [sizeSum, expansions, List.map_flatMap, List.flatMap_def, List.sum_flatten, List.map_map]
  rfl

theorem nrInlineExpansions_eq_iff :
    cu.nrInlineExpansions = cu.expansions.length ↔
      cu.expansions.length < 2 ^ 64 ∧
        ∀ block ∈ cu.functions, block.nested = [] ∧ block.direct.length < 2 ^ 16 := by
  rw [length_expansions]
  refine (foldl_add_mod_eq_iff (by decide) fun _ _ => LexTags.nrInlineExpansions_le).trans ?_
  exact and_congr_right fun _ => forall₂_congr fun _ _ => LexTags.nrInlineExpansions_eq_iff

theorem sizeInlineExpansions_eq_iff (h : ∀ block ∈ cu.functions, block.nested = []) :
    cu.sizeInlineExpansions = sizeSum cu.expansions ↔
      sizeSum cu.expansions < 2 ^ 64 ∧ ∀ block ∈ cu.functions, sizeSum block.direct < 2 ^ 32 := by
  rw [sizeSum_expansions]
  refine (foldl_add_mod_eq_iff (by decide) fun _ _ => LexTags.sizeInlineExpansions_le).trans ?_
  exact and_congr_right fun _ =>
    forall₂_congr fun block hblock => LexTags.sizeInlineExpansions_eq_iff (h block hblock)

theorem visited_eq
    (h : ∀ block ∈ cu.functions, block.nested = [] ∧ block.direct.length < 2 ^ 16) :
    cu.visited = cu.expansions :=
  List.flatMap_congr fun block hblock =>
    LexTags.visitedBlock_eq (h block hblock).1 (h block hblock).2

/-- The totals are those of the inlined subroutines at every depth if and only if none is in a
nested block and no counter wraps. -/
theorem accounted_iff_countable : cu.Accounted ↔ cu.Countable := by
  constructor
  · intro h
    obtain ⟨hnr, hblocks⟩ := nrInlineExpansions_eq_iff.mp h.nr
    have hflat : ∀ block ∈ cu.functions, block.nested = [] := fun block hb => (hblocks block hb).1
    obtain ⟨hsize, hblockSize⟩ := (sizeInlineExpansions_eq_iff hflat).mp h.size
    exact {
      flat := hflat
      blockNr := fun block hb => (hblocks block hb).2
      blockSize := hblockSize
      functionNr := fun id hid => by
        rw [← h.functionNr id hid, functionTotals_nr hid]
        exact Nat.mod_lt _ (by decide)
      functionSize := fun id hid => by
        rw [← h.functionSize id hid, functionTotals_size hid]
        exact Nat.mod_lt _ (by decide)
      nr := hnr
      size := hsize }
  · intro h
    have hblocks : ∀ block ∈ cu.functions, block.nested = [] ∧ block.direct.length < 2 ^ 16 :=
      fun block hb => ⟨h.flat block hb, h.blockNr block hb⟩
    exact {
      functionNr := fun id hid => by
        rw [functionTotals_nr hid, visited_eq hblocks, Nat.mod_eq_of_lt (h.functionNr id hid)]
      functionSize := fun id hid => by
        rw [functionTotals_size hid, visited_eq hblocks, Nat.mod_eq_of_lt (h.functionSize id hid)]
      nr := nrInlineExpansions_eq_iff.mpr ⟨h.nr, hblocks⟩
      size := (sizeInlineExpansions_eq_iff h.flat).mpr ⟨h.size, h.blockSize⟩ }

/-- A function with a block in its outermost block, and an inlined subroutine in there. -/
def nestedCu : InlineCu where
  function := fun id => id = 1
  functions := [.lexblock (.inlinedSubroutine 1 8 .nil) .nil]

/-- The outermost block counts nothing: its walk ends at once, and the totals stay zero. -/
theorem not_forall_accounted : ¬ ∀ cu : InlineCu, cu.Accounted := by
  intro h
  have hnr : nestedCu.nrInlineExpansions = nestedCu.expansions.length := (h nestedCu).nr
  exact absurd hnr (by decide)

end InlineCu

end Pahole
