import Pahole.Support.TreeLookup

/-!
# Functions by address

`cu__insert_function` links the functions of a CU into a red-black tree by where they
start, and `cu__find_function_at_addr` descends by comparing an address with the ranges
on the way.  A function without a size covers no address but takes its place in the
tree, and sends a lookup away from a function that starts no later than it does.
-/

namespace Pahole

open SearchTree

/-! ## The code -/

/-- The part of `struct function` that the tree uses, with what tells functions apart. -/
structure FunctionRange where
  name : Option String
  addr : UInt64
  size : UInt32
  deriving DecidableEq

/-- The key of the tree. -/
def FunctionRange.start (f : FunctionRange) : ℕ := f.addr.toNat

/-- `cu__insert_function`, up to `rb_insert_color`. -/
def cuInsertFunction (functions : SearchTree FunctionRange) (function : FunctionRange) :
    SearchTree FunctionRange :=
  functions.place FunctionRange.start function

/-- Where `cu__find_function_at_addr` goes on from `f`. -/
def functionSide (addr : UInt64) (f : FunctionRange) : Ordering :=
  if addr < f.addr then .lt
  else if addr ≥ f.addr + f.size.toUInt64 then .gt
  else .eq

/-- `cu__find_function_at_addr` -/
def cuFindFunctionAtAddr (functions : SearchTree FunctionRange) (addr : UInt64) :
    Option FunctionRange :=
  functions.lookup (functionSide addr)

/-! ## Ranges of addresses -/

/-- The address is one of the function. -/
def FunctionRange.Contains (f : FunctionRange) (addr : UInt64) : Prop :=
  f.addr.toNat ≤ addr.toNat ∧ addr.toNat < f.addr.toNat + f.size.toNat

/-- No address is one of both. -/
def FunctionRange.Disjoint (f g : FunctionRange) : Prop :=
  ∀ addr, ¬(f.Contains addr ∧ g.Contains addr)

/-- The result is the function that contains the address, and `none` if there is no such
function. -/
structure LookupExact (fs : List FunctionRange) (addr : UInt64)
    (result : Option FunctionRange) : Prop where
  found : ∀ f ∈ fs, f.Contains addr → result = some f
  none : (∀ f ∈ fs, ¬f.Contains addr) → result = none

/-- The range of the function does not reach the end of the address space, and no
function without a size that starts in it up to the address comes later in the tree. -/
structure Uncovered (pre : List FunctionRange) (f : FunctionRange) (post : List FunctionRange)
    (addr : UInt64) : Prop where
  ends : f.addr.toNat + f.size.toNat < 2 ^ 64
  inside : ∀ g ∈ pre ++ post, g.size = 0 → f.start < g.start → addr < g.addr
  atStart : ∀ g ∈ post, g.size = 0 → g.start ≠ f.start

section Lookup

variable {f g : FunctionRange} {addr : UInt64} {fs pre post : List FunctionRange}
  {t : SearchTree FunctionRange}

theorem toNat_size_toUInt64 (f : FunctionRange) : f.size.toUInt64.toNat = f.size.toNat := by
  simp

theorem functionSide_lt_iff : functionSide addr f = .lt ↔ addr < f.addr := by
  unfold functionSide
  split
  · simp_all
  · split <;> simp_all

theorem end_toNat (f : FunctionRange) :
    (f.addr + f.size.toUInt64).toNat = (f.addr.toNat + f.size.toNat) % 2 ^ 64 := by
  rw [UInt64.toNat_add, toNat_size_toUInt64]

theorem functionSide_eq_iff :
    functionSide addr f = .eq ↔
      f.Contains addr ∧ f.addr.toNat + f.size.toNat < 2 ^ 64 := by
  have hend := end_toNat f
  have hsize : f.size.toNat < 2 ^ 32 := f.size.toNat_lt
  have haddr : f.addr.toNat < 2 ^ 64 := f.addr.toNat_lt
  unfold functionSide FunctionRange.Contains
  simp only [UInt64.lt_iff_toNat_lt, UInt64.le_iff_toNat_le, ge_iff_le, hend]
  split
  · simp; omega
  · split
    · simp; omega
    · simp; omega

theorem LookupExact.of_find (hfound : ∀ f ∈ fs, f.Contains addr →
    cuFindFunctionAtAddr t addr = some f) (hfs : t.inorder.Perm fs) :
    LookupExact fs addr (cuFindFunctionAtAddr t addr) := by
  constructor
  · exact hfound
  · intro hno
    cases hlookup : cuFindFunctionAtAddr t addr with
    | none => rfl
    | some f =>
        obtain ⟨hmem, hside⟩ := lookup_sound hlookup
        exact absurd (functionSide_eq_iff.mp hside).1 (hno f (hfs.mem_iff.mp hmem))

theorem not_contains_of_mem (hdisjoint : (pre ++ f :: post).Pairwise FunctionRange.Disjoint)
    (hf : f.Contains addr) (hg : g ∈ pre ++ post) : ¬g.Contains addr := by
  obtain ⟨-, hpost, hpre⟩ := List.pairwise_append.mp hdisjoint
  intro hcontains
  rcases List.mem_append.mp hg with hg | hg
  · exact hpre g hg f List.mem_cons_self addr ⟨hcontains, hf⟩
  · exact (List.pairwise_cons.mp hpost).1 g hg addr ⟨hf, hcontains⟩

/-- A function that starts inside another one, at or after its start, has no size. -/
theorem size_eq_zero_of_start_le (hdisjoint : (pre ++ f :: post).Pairwise FunctionRange.Disjoint)
    (hf : f.Contains addr) (hg : g ∈ pre ++ post) (hle : f.start ≤ g.start)
    (haddr : g.addr ≤ addr) : g.size = 0 := by
  have haddr' : g.addr.toNat ≤ addr.toNat := UInt64.le_iff_toNat_le.mp haddr
  have hfg : f.Contains g.addr := ⟨hle, haddr'.trans_lt hf.2⟩
  have hgg : ¬g.Contains g.addr := not_contains_of_mem hdisjoint hfg hg
  unfold FunctionRange.Contains at hgg
  rw [← UInt32.toNat_inj]
  simp at hgg ⊢
  exact hgg

/-- Functions that are inserted build a tree, in whatever shape `rb_insert_color` leaves it. -/
theorem built_cuInsertFunction {t' : SearchTree FunctionRange}
    (hbuilt : Built FunctionRange.start fs t)
    (hshape : t'.inorder = (cuInsertFunction t f).inorder) :
    Built FunctionRange.start (fs ++ [f]) t' :=
  hbuilt.place hshape

/-- A lookup finds a function that is not covered, whatever the tree looks like. -/
theorem cuFindFunctionAtAddr_of_uncovered
    (hdisjoint : (pre ++ f :: post).Pairwise FunctionRange.Disjoint)
    (hbuilt : Built FunctionRange.start (pre ++ f :: post) t) (hf : f.Contains addr)
    (huncovered : Uncovered pre f post addr) : cuFindFunctionAtAddr t addr = some f := by
  obtain ⟨before, after, hinorder, hbefore, hafter⟩ := hbuilt.split
  have hperm : (before ++ after).Perm (pre ++ post) := by
    have h := hbuilt.keySorted_perm.2
    rw [hinorder] at h
    exact (List.perm_middle.symm.trans (h.trans List.perm_middle)).cons_inv
  apply lookup_complete hinorder (functionSide_eq_iff.mpr ⟨hf, huncovered.ends⟩)
  · intro v hv
    have hmem : v ∈ pre ++ post := hperm.mem_iff.mp (List.mem_append_left _ hv)
    cases hside : functionSide addr v with
    | lt =>
        have hlt := UInt64.lt_iff_toNat_lt.mp (functionSide_lt_iff.mp hside)
        exact absurd ((hbefore v hv).trans hf.1) (not_le.mpr hlt)
    | gt => rfl
    | eq =>
        exact absurd (functionSide_eq_iff.mp hside).1 (not_contains_of_mem hdisjoint hf hmem)
  · intro v hv
    have hmem : v ∈ pre ++ post := hperm.mem_iff.mp (List.mem_append_right _ hv)
    rw [functionSide_lt_iff]
    by_contra hlt
    have hle : v.addr ≤ addr := UInt64.not_lt.mp hlt
    have hempty : f.start ≤ v.start → v.size = 0 := fun hstart =>
      size_eq_zero_of_start_le hdisjoint hf hmem hstart hle
    rcases (hafter v).mp hv with ⟨-, hstart⟩ | ⟨hpost, hstart⟩
    · exact hlt (huncovered.inside v hmem (hempty hstart.le) hstart)
    · rcases hstart.lt_or_eq with hstart | heq
      · exact hlt (huncovered.inside v hmem (hempty hstart.le) hstart)
      · exact huncovered.atStart v hpost (hempty hstart) heq.symm

/-- In some tree a function without a size that is met on the way hides `f` from the lookup. -/
theorem exists_built_hiding
    (hdisjoint : (pre ++ f :: post).Pairwise FunctionRange.Disjoint) (hf : f.Contains addr)
    (hg : g ∈ pre ∧ f.start < g.start ∨ g ∈ post ∧ f.start ≤ g.start) (hsize : g.size = 0)
    (haddr : g.addr ≤ addr) :
    ∃ t, Built FunctionRange.start (pre ++ f :: post) t ∧ cuFindFunctionAtAddr t addr = none := by
  obtain ⟨t, ht⟩ := exists_built FunctionRange.start (pre ++ f :: post)
  obtain ⟨before, after, hinorder, -, hafter⟩ := ht.split
  refine ⟨leftSpine ((before ++ [f]) ++ after), ?_, ?_⟩
  · apply ht.reshape (by simp)
    rw [inorder_leftSpine, hinorder, List.append_assoc, List.singleton_append]
  · apply lookup_leftSpine_eq_none
    · intro v hv hside
      refine absurd (functionSide_eq_iff.mp hside).1 (not_contains_of_mem hdisjoint hf ?_)
      rcases (hafter v).mp hv with ⟨hv, -⟩ | ⟨hv, -⟩
      · exact List.mem_append_left _ hv
      · exact List.mem_append_right _ hv
    · refine ⟨g, (hafter g).mpr hg, ?_⟩
      cases hside : functionSide addr g with
      | lt => exact absurd (functionSide_lt_iff.mp hside) (UInt64.not_lt.mpr haddr)
      | gt => rfl
      | eq =>
          have hcontains := (functionSide_eq_iff.mp hside).1
          unfold FunctionRange.Contains at hcontains
          rw [hsize] at hcontains
          exact absurd hcontains.2 (not_lt.mpr hcontains.1)

/-- In every tree that the insertions may lead to an address is looked up exactly if and only if
the function that contains it, if any, is `Uncovered`. -/
theorem cuFindFunctionAtAddr_exact_iff (fs : List FunctionRange) (addr : UInt64)
    (hdisjoint : fs.Pairwise FunctionRange.Disjoint) :
    (∀ t, Built FunctionRange.start fs t →
        LookupExact fs addr (cuFindFunctionAtAddr t addr)) ↔
      ∀ pre f post, fs = pre ++ f :: post → f.Contains addr → Uncovered pre f post addr := by
  constructor
  · rintro h pre f post rfl hf
    have hmem : f ∈ pre ++ f :: post := List.mem_append_right _ List.mem_cons_self
    have hfound : ∀ t, Built FunctionRange.start (pre ++ f :: post) t →
        cuFindFunctionAtAddr t addr = some f := fun t ht => (h t ht).found f hmem hf
    have hshown : ∀ g, g ∈ pre ∧ f.start < g.start ∨ g ∈ post ∧ f.start ≤ g.start →
        g.size = 0 → addr < g.addr := by
      intro g hg hsize
      by_contra hle
      obtain ⟨t, ht, hnone⟩ :=
        exists_built_hiding hdisjoint hf hg hsize (UInt64.not_lt.mp hle)
      rw [hfound t ht] at hnone
      exact absurd hnone (by simp)
    constructor
    · obtain ⟨t, ht⟩ := exists_built FunctionRange.start (pre ++ f :: post)
      exact (functionSide_eq_iff.mp (lookup_sound (hfound t ht)).2).2
    · intro g hg hsize hlt
      refine hshown g ?_ hsize
      rcases List.mem_append.mp hg with hg | hg
      · exact Or.inl ⟨hg, hlt⟩
      · exact Or.inr ⟨hg, hlt.le⟩
    · intro g hg hsize heq
      have hlt := hshown g (Or.inr ⟨hg, heq.ge⟩) hsize
      have hle : g.start ≤ addr.toNat := heq.le.trans hf.1
      exact absurd hle (not_le.mpr (UInt64.lt_iff_toNat_lt.mp hlt))
  · intro h t ht
    refine .of_find (fun f hmem hf => ?_) ht.keySorted_perm.2
    obtain ⟨pre, post, rfl⟩ := List.append_of_mem hmem
    exact cuFindFunctionAtAddr_of_uncovered hdisjoint ht hf (h pre f post rfl hf)

end Lookup

/-- A function of 16 bytes, a declaration that starts with it, and a function behind it. -/
def coveredFunctions : List FunctionRange :=
  [⟨some "f", 16, 16⟩, ⟨some "decl", 16, 0⟩, ⟨some "g", 32, 4⟩]

/-- The red-black tree of `coveredFunctions`: when `g` is linked below `decl`, the root is
rotated to the left. -/
def coveredTree : SearchTree FunctionRange :=
  .node false (.node true .leaf ⟨some "f", 16, 16⟩ .leaf) ⟨some "decl", 16, 0⟩
    (.node true .leaf ⟨some "g", 32, 4⟩ .leaf)

/-- The declaration hides the function from a lookup of the third of its bytes. -/
theorem cuFindFunctionAtAddr_covered :
    coveredFunctions.Pairwise FunctionRange.Disjoint ∧
      Built FunctionRange.start coveredFunctions coveredTree ∧
      ¬LookupExact coveredFunctions 18 (cuFindFunctionAtAddr coveredTree 18) := by
  refine ⟨?_, ?_, fun h => ?_⟩
  · simp [coveredFunctions, FunctionRange.Disjoint, FunctionRange.Contains]
    omega
  · have hone := built_cuInsertFunction (f := ⟨some "f", 16, 16⟩) .leaf rfl
    have htwo := built_cuInsertFunction (f := ⟨some "decl", 16, 0⟩) hone rfl
    exact built_cuInsertFunction (f := ⟨some "g", 32, 4⟩) htwo (by decide)
  · have hnone := h.found ⟨some "f", 16, 16⟩ (by decide) ⟨by decide, by decide⟩
    exact absurd hnone (by decide)

/-- A declaration that starts behind `f` does not hide it. -/
theorem cuFindFunctionAtAddr_exact_behind :
    ∃ t, Built FunctionRange.start [⟨some "f", 16, 16⟩, ⟨some "decl", 32, 0⟩] t ∧
      LookupExact [⟨some "f", 16, 16⟩, ⟨some "decl", 32, 0⟩] 18 (cuFindFunctionAtAddr t 18) := by
  obtain ⟨t, ht⟩ :=
    exists_built FunctionRange.start [⟨some "f", 16, 16⟩, ⟨some "decl", 32, 0⟩]
  refine ⟨t, ht, (cuFindFunctionAtAddr_exact_iff [⟨some "f", 16, 16⟩, ⟨some "decl", 32, 0⟩] 18
    (by simp [FunctionRange.Disjoint, FunctionRange.Contains])).mpr ?_ t ht⟩
  intro pre f post hfs hf
  cases pre with
  | nil =>
      obtain ⟨rfl, rfl⟩ := List.cons.inj hfs
      exact ⟨by decide, by decide, by decide⟩
  | cons x pre =>
      have hmem : f ∈ [(⟨some "decl", 32, 0⟩ : FunctionRange)] := by
        rw [(List.cons.inj hfs).2]
        exact List.mem_append_right _ List.mem_cons_self
      obtain rfl := List.mem_singleton.mp hmem
      exact absurd hf.1 (by decide)

end Pahole
