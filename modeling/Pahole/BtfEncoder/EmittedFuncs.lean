import Pahole.BtfEncoder.AddedFuncs
import Pahole.BtfEncoder.SavedNames
import Pahole.Support.KeyRuns

/-!
# The functions that FUNCs are emitted for

What `btf_encoder__add_saved_funcs` adds can be told from the saved states, the tables of
ELF functions and the BTF as they are before.
-/

namespace Pahole

open FallibleTable

/-! ## The groups that are come to -/

section Saved

variable {enc : Encoder} {t : Table BtfType Encoder} {qsort : Qsort} {group : List FuncState}

theorem elf_of_mem_stateGroups {states rest : List FuncState} {a b : FuncState}
    (hgroup : a :: rest ∈ stateGroups states) (hb : b ∈ a :: rest) : b.elf = a.elf := by
  have hchain : (a :: rest).IsChain fun a b => a.elf = b.elf :=
    (List.isChain_of_mem_splitBy hgroup).imp fun a b h => of_decide_eq_true h
  have htrans : IsTrans FuncState fun a b => a.elf = b.elf := ⟨fun _ _ _ => Eq.trans⟩
  have hpairs := List.isChain_iff_pairwise.mp hchain
  rcases List.mem_cons.mp hb with rfl | hb
  · rfl
  · exact ((List.pairwise_cons.mp hpairs).1 b hb).symm

/-- Every group of `btf_encoder__add_saved_funcs` consists of saved states of one function. -/
theorem stateGroup_of_mem (hgroup : group ∈ t.client.savedGroups qsort) :
    ∃ a rest, group = a :: rest ∧ StateGroup t a rest := by
  obtain ⟨a, rest, rfl⟩ := List.exists_cons_of_ne_nil (List.ne_nil_of_mem_splitBy hgroup)
  refine ⟨a, rest, rfl, ⟨fun b hb => ?_, fun b hb => ?_⟩⟩
  · exact elf_of_mem_stateGroups hgroup hb
  · have hmem : b ∈ (t.client.savedGroups qsort).flatten := List.mem_flatten_of_mem hgroup hb
    rw [Encoder.savedGroups, stateGroups, List.flatten_splitBy] at hmem
    exact (qsort.perm _ _).mem_iff.mp hmem

end Saved

/-! ## One table of functions -/

/-- There is one collected table of functions, and every saved state is of an entry of it. -/
structure OneTable (enc : Encoder) (funcs : ElfFunctions) : Prop where
  found : enc.findElfFunctions funcs.elf = some funcs
  collected : funcs.Collected
  saved : ∀ state ∈ enc.funcStates, ∃ entry func,
    state.elf = some ⟨funcs.elf, entry⟩ ∧ funcs.entries[entry]? = some func

/-- A table with two functions. -/
def fooTable : ElfFunctions where
  elf := 0
  symtab := [⟨some "foo", 16, true, false, 1⟩, ⟨some "bar", 32, true, false, 1⟩]
  entries := [⟨"bar", [⟨"bar", 32⟩], false, false, 0⟩, ⟨"foo", [⟨"foo", 16⟩], false, false, 0⟩]

/-- The encoder with two saved states of one function and two of the other, of which one may
be uncertain. -/
def fooEncoder (uncertain : Bool) : Encoder :=
  let bar := { FuncState.withParm "p" with elf := some ⟨0, 0⟩, addr := 32 }
  let foo := { FuncState.withParm "q" with elf := some ⟨0, 1⟩, addr := 16 }
  { Encoder.plain with
    elfFunctionsList := [fooTable]
    funcStates := [bar, bar, foo, { foo with uncertainParmLoc := uncertain }] }

/-- A session that serves every call. -/
def fooSession (uncertain : Bool) : Btf Encoder := quietSession.setClient (fooEncoder uncertain)

theorem collected_fooTable : fooTable.Collected := by
  have hperm : [ElfFunctionSym.mk "bar" 32, ⟨"foo", 16⟩].Perm (functionSyms fooTable.symtab) := by
    decide
  obtain ⟨qsort, hcollect⟩ := exists_qsort_collect hperm (by decide)
  refine ⟨qsort, ?_⟩
  rw [hcollect]
  decide

theorem collected_fooSession (uncertain : Bool) :
    (fooSession uncertain).table.client.Collected := by
  intro funcs hfuncs
  rw [List.mem_singleton.mp hfuncs]
  exact collected_fooTable

theorem resolved_fooSession (uncertain : Bool) : Resolved (fooSession uncertain).table where
  types u hu := absurd hu List.not_mem_nil
  rets := by cases uncertain <;> decide
  parms := by cases uncertain <;> decide

theorem oneTable_fooSession (uncertain : Bool) :
    OneTable (fooSession uncertain).table.client fooTable where
  found := rfl
  collected := collected_fooTable
  saved := by
    refine List.forall_mem_cons.mpr ⟨⟨0, _, rfl, rfl⟩, List.forall_mem_cons.mpr
      ⟨⟨0, _, rfl, rfl⟩, List.forall_mem_cons.mpr ⟨⟨1, _, rfl, rfl⟩, ?_⟩⟩⟩
    exact List.forall_mem_singleton.mpr ⟨1, _, rfl, rfl⟩

theorem savedGroups_fooSession (uncertain : Bool) :
    (fooSession uncertain).table.client.savedGroups Qsort.stable =
      stateGroups (fooEncoder uncertain).funcStates := by
  have hsorted : (fooEncoder uncertain).funcStates.Pairwise fun a b =>
      decide ((fooEncoder uncertain).savedFunctionsCmp a b ≤ 0) = true := by
    cases uncertain <;> decide
  exact congrArg stateGroups (List.mergeSort_of_pairwise hsorted)

/-! ## All groups -/

/-- The functions that FUNCs were added for since. -/
def addedSince (s s' : Btf Encoder) : List ElfPtr :=
  s'.table.client.funcsAdded.drop s.table.client.funcsAdded.length

section Run

variable {host : Host} {skipInconsistent : Bool} {s : Btf Encoder}

theorem finalSession_addSavedFuncs (host : Host) (skipInconsistent : Bool) (s : Btf Encoder) :
    (finalSession (addSavedFuncs host skipInconsistent s)).table.client.funcsAdded =
      (finalSession (forEach (addGroup host skipInconsistent)
        (s.table.client.savedGroups host.qsort) s)).table.client.funcsAdded := by
  simp only [addSavedFuncs, bind, EStateM.bind, getTable]
  cases forEach (addGroup host skipInconsistent) (s.table.client.savedGroups host.qsort) s with
  | ok r s' => rfl
  | error crash s' => rfl

theorem addSavedFuncs_eq_ok {ret : ℤ} {s' : Btf Encoder}
    (hrun : addSavedFuncs host skipInconsistent s = .ok ret s') :
    ∃ s₁, forEach (addGroup host skipInconsistent) (s.table.client.savedGroups host.qsort) s =
        .ok ret s₁ ∧ s'.table.client.funcsAdded = s₁.table.client.funcsAdded := by
  simp only [addSavedFuncs, bind, EStateM.bind, getTable] at hrun
  cases hloop : forEach (addGroup host skipInconsistent) (s.table.client.savedGroups host.qsort) s
    with
  | ok r s₁ =>
      rw [hloop] at hrun
      obtain ⟨rfl, rfl⟩ := EStateM.Result.ok.inj hrun
      exact ⟨s₁, rfl, rfl⟩
  | error crash s₁ =>
      rw [hloop] at hrun
      cases hrun

theorem obeys_addGroups (host : Host) (skipInconsistent : Bool) (s : Btf Encoder) :
    Obeys (forEach (addGroup host skipInconsistent) (s.table.client.savedGroups host.qsort)) s
      (fun _ => 0) (groupsScript host skipInconsistent (s.table.client.savedGroups host.qsort)) :=
  Ends.forEach (fun group s₁ => ⟨_, obeys_addGroup host skipInconsistent group s₁⟩) _ s

theorem addsFrom_savedGroups (host : Host) (skipInconsistent : Bool) (s : Btf Encoder)
    (hcollected : s.table.client.Collected) (hresolved : Resolved s.table) :
    AddsFrom (emittedPtrs s.table skipInconsistent (s.table.client.savedGroups host.qsort)) s
      (groupsScript host skipInconsistent (s.table.client.savedGroups host.qsort) s) :=
  addsFrom_groups host skipInconsistent (Grows.refl s.table) hcollected hresolved
    fun _ hgroup => stateGroup_of_mem hgroup

/-- The loop may end early, but it skips no function that the groups before would add. -/
theorem addedSince_initial (host : Host) (skipInconsistent : Bool) (s : Btf Encoder)
    (hcollected : s.table.client.Collected) (hresolved : Resolved s.table) :
    addedSince s (finalSession (addSavedFuncs host skipInconsistent s)) <+:
      emittedPtrs s.table skipInconsistent (s.table.client.savedGroups host.qsort) := by
  obtain ⟨-, ⟨part, hpart, hadded⟩, -⟩ :=
    addsFrom_savedGroups host skipInconsistent s hcollected hresolved
  rw [addedSince, finalSession_addSavedFuncs,
    Ends.finalSession_eq (obeys_addGroups host skipInconsistent s), hadded, List.drop_left]
  exact hpart

/-- FUNCs are added for the functions of the groups that `Emit` in the BTF that was there
before, in their order: for all of them, unless an error or a crash ends the loop before. -/
theorem addSavedFuncs_adds (host : Host) (skipInconsistent : Bool) (s : Btf Encoder)
    (hcollected : s.table.client.Collected) (hresolved : Resolved s.table) :
    addedSince s (finalSession (addSavedFuncs host skipInconsistent s)) <+:
        emittedPtrs s.table skipInconsistent (s.table.client.savedGroups host.qsort) ∧
      ∀ ret s', addSavedFuncs host skipInconsistent s = .ok ret s' → 0 ≤ ret →
        addedSince s s' =
          emittedPtrs s.table skipInconsistent (s.table.client.savedGroups host.qsort) := by
  refine ⟨addedSince_initial host skipInconsistent s hcollected hresolved, ?_⟩
  intro ret s' hrun hret
  obtain ⟨-, -, hdone⟩ := addsFrom_savedGroups host skipInconsistent s hcollected hresolved
  obtain ⟨s₁, hloop, hsame⟩ := addSavedFuncs_eq_ok hrun
  obtain ⟨hout, -⟩ := Ends.done_of_nonneg (obeys_addGroups host skipInconsistent s) hloop hret
  rw [hout] at hdone
  rw [addedSince, hsame, hdone rfl, List.drop_left]

/-- Nothing fails, and both functions are added: they are those that are emitted. -/
theorem addSavedFuncs_adds_foo :
    ∃ s', addSavedFuncs Host.plain true (fooSession false) = .ok 0 s' ∧
      addedSince (fooSession false) (finalSession (addSavedFuncs Host.plain true (fooSession false)))
        <+: [⟨0, 0⟩, ⟨0, 1⟩] ∧
      addedSince (fooSession false) s' = [⟨0, 0⟩, ⟨0, 1⟩] ∧
      emittedPtrs (fooSession false).table true
        ((fooSession false).table.client.savedGroups Host.plain.qsort) = [⟨0, 0⟩, ⟨0, 1⟩] := by
  have hrun : ∃ s', addSavedFuncs Host.plain true (fooSession false) = .ok 0 s' ∧
      addedSince (fooSession false) s' = [⟨0, 0⟩, ⟨0, 1⟩] := by
    have hgroups := savedGroups_fooSession false
    simp only [addSavedFuncs, bind, EStateM.bind, getTable]
    erw [hgroups]
    exact ⟨_, rfl, rfl⟩
  obtain ⟨s', hrun, hadded⟩ := hrun
  obtain ⟨hinitial, hall⟩ := addSavedFuncs_adds Host.plain true (fooSession false)
    (collected_fooSession false) (resolved_fooSession false)
  have hemitted := (hall 0 s' hrun le_rfl).symm.trans hadded
  exact ⟨s', hrun, hemitted ▸ hinitial, hadded, hemitted⟩

end Run

section Named

variable {enc : Encoder} {funcs : ElfFunctions} {a b : FuncState}

theorem pairwise_names (hcollected : funcs.Collected) :
    funcs.entries.Pairwise fun func func' => func.name < func'.name := by
  obtain ⟨qsort, hentries⟩ := hcollected
  obtain ⟨syms, -, hsorted, hcollect⟩ := exists_collect_eq qsort funcs.symtab
  have hmerged := pairwise_mergedEntries hsorted
  rw [← hcollect, ← hentries, List.pairwise_map] at hmerged
  exact hmerged

/-- States of one table whose functions have one name point to one function. -/
theorem elf_eq_of_name (htable : OneTable enc funcs) (ha : a ∈ enc.funcStates)
    (hb : b ∈ enc.funcStates) (hname : (enc.elfOf a).name = (enc.elfOf b).name) :
    a.elf = b.elf := by
  obtain ⟨i, func, hi, hfunc⟩ := htable.saved a ha
  obtain ⟨j, func', hj, hfunc'⟩ := htable.saved b hb
  rw [elfOf_of_leadsTo ⟨_, hi, htable.found, hfunc⟩,
    elfOf_of_leadsTo ⟨_, hj, htable.found, hfunc'⟩] at hname
  obtain ⟨hlt, rfl⟩ := List.getElem?_eq_some_iff.mp hfunc
  obtain ⟨hlt', rfl⟩ := List.getElem?_eq_some_iff.mp hfunc'
  have hpairs := List.pairwise_iff_getElem.mp (pairwise_names htable.collected)
  rcases lt_trichotomy i j with hij | rfl | hij
  · exact absurd hname (hpairs i j hlt hlt' hij).ne
  · rw [hi, hj]
  · exact absurd hname (hpairs j i hlt' hlt hij).ne'

theorem savedFunctionsCmp_le_zero :
    enc.savedFunctionsCmp a b ≤ 0 ↔ (enc.elfOf a).name < (enc.elfOf b).name ∨
      (enc.elfOf a).name = (enc.elfOf b).name ∧ (a.addr = 0 → b.addr = 0) := by
  unfold Encoder.savedFunctionsCmp
  rcases lt_trichotomy (enc.elfOf a).name (enc.elfOf b).name with hlt | heq | hgt
  · rw [strcmp_of_lt hlt]
    exact iff_of_true (by norm_num) (Or.inl hlt)
  · rw [heq, strcmp_self]
    have hflags : ((decide (a.addr = 0)).toNat : ℤ) - (decide (b.addr = 0)).toNat ≤ 0 ↔
        (a.addr = 0 → b.addr = 0) := by
      by_cases ha : a.addr = 0 <;> by_cases hb : b.addr = 0 <;> simp [ha, hb]
    simpa using hflags
  · rw [strcmp_of_gt hgt]
    refine iff_of_false (by norm_num) ?_
    rintro (hlt | ⟨heq, -⟩)
    · exact absurd hlt hgt.asymm
    · exact absurd heq hgt.ne'

theorem comparator_savedFunctionsCmp (enc : Encoder) : Comparator enc.savedFunctionsCmp where
  total a b := by
    rw [savedFunctionsCmp_le_zero, savedFunctionsCmp_le_zero]
    rcases lt_trichotomy (enc.elfOf a).name (enc.elfOf b).name with hlt | heq | hgt
    · exact Or.inl (Or.inl hlt)
    · by_cases ha : a.addr = 0
      · exact Or.inr (Or.inr ⟨heq.symm, fun _ => ha⟩)
      · exact Or.inl (Or.inr ⟨heq, fun h => absurd h ha⟩)
    · exact Or.inr (Or.inl hgt)
  trans a b c := by
    rw [savedFunctionsCmp_le_zero, savedFunctionsCmp_le_zero, savedFunctionsCmp_le_zero]
    rintro (hab | ⟨hab, haddr⟩) (hbc | ⟨hbc, haddr'⟩)
    · exact Or.inl (hab.trans hbc)
    · exact Or.inl (hab.trans_eq hbc)
    · exact Or.inl (hab.trans_lt hbc)
    · exact Or.inr ⟨hab.trans hbc, fun h => haddr' (haddr h)⟩

/-- With one table all states of a function are in one group. -/
theorem pairwise_savedGroups (htable : OneTable enc funcs) (qsort : Qsort) :
    (enc.savedGroups qsort).Pairwise fun g g' => ∀ a ∈ g, ∀ b ∈ g', a.elf ≠ b.elf := by
  have hmem : ∀ a ∈ qsort.sort enc.savedFunctionsCmp enc.funcStates, a ∈ enc.funcStates :=
    fun a ha => (qsort.perm _ _).mem_iff.mp ha
  have hsorted : (qsort.sort enc.savedFunctionsCmp enc.funcStates).Pairwise
      fun a b => (enc.elfOf a).name ≤ (enc.elfOf b).name := by
    refine (qsort.sorted _ _ (comparator_savedFunctionsCmp enc)).imp fun h => ?_
    rcases savedFunctionsCmp_le_zero.mp h with hlt | ⟨heq, -⟩
    · exact hlt.le
    · exact heq.le
  have hcut : ∀ a ∈ qsort.sort enc.savedFunctionsCmp enc.funcStates,
      ∀ b ∈ qsort.sort enc.savedFunctionsCmp enc.funcStates,
        decide (a.elf = b.elf) = false → (enc.elfOf a).name ≠ (enc.elfOf b).name := by
    intro a ha b hb hdiffer hname
    exact of_decide_eq_false hdiffer (elf_eq_of_name htable (hmem a ha) (hmem b hb) hname)
  refine (KeyRuns.pairwise_splitBy hsorted hcut).imp fun hgroups a ha b hb heq => ?_
  have hlt := hgroups a ha b hb
  rw [Encoder.elfOf, Encoder.elfOf, heq] at hlt
  exact lt_irrefl _ hlt

end Named

section Once

variable {host : Host} {skipInconsistent : Bool} {s : Btf Encoder} {funcs : ElfFunctions}

theorem nodup_emittedPtrs {t : Table BtfType Encoder} {groups : List (List FuncState)}
    (hgroups : groups.Pairwise fun g g' => ∀ a ∈ g, ∀ b ∈ g', a.elf ≠ b.elf) :
    (emittedPtrs t skipInconsistent groups).Nodup := by
  induction groups with
  | nil => exact List.nodup_nil
  | cons group groups ih =>
      obtain ⟨hfirst, hrest⟩ := List.pairwise_cons.mp hgroups
      cases group with
      | nil => exact ih hrest
      | cons a rest =>
          rw [emittedPtrs]
          refine List.Nodup.append ?_ (ih hrest) fun ptr hhere hthere => ?_
          · split
            · exact Option.toList_nodup a.elf
            · exact List.nodup_nil
          · obtain ⟨b, rest', hgroup, hb, -⟩ := mem_emittedPtrs.mp hthere
            split at hhere
            · refine hfirst _ hgroup a List.mem_cons_self b List.mem_cons_self ?_
              rw [hb]
              exact Option.mem_toList.mp hhere
            · cases hhere

/-- With one table of functions no function gets two FUNCs, in whatever order the states
were saved and sorted, and wherever it ends. -/
theorem addSavedFuncs_once (host : Host) (skipInconsistent : Bool) (s : Btf Encoder)
    (hcollected : s.table.client.Collected) (hresolved : Resolved s.table)
    (htable : OneTable s.table.client funcs) :
    (addedSince s (finalSession (addSavedFuncs host skipInconsistent s))).Nodup :=
  (nodup_emittedPtrs (pairwise_savedGroups htable host.qsort)).sublist
    (addedSince_initial host skipInconsistent s hcollected hresolved).sublist

/-- Each of the two functions has two states, and gets one FUNC. -/
theorem addSavedFuncs_once_foo :
    (fooSession false).table.client.funcStates.map FuncState.elf =
        [some ⟨0, 0⟩, some ⟨0, 0⟩, some ⟨0, 1⟩, some ⟨0, 1⟩] ∧
      (addedSince (fooSession false)
        (finalSession (addSavedFuncs Host.plain true (fooSession false)))).Nodup :=
  ⟨rfl, addSavedFuncs_once Host.plain true (fooSession false) (collected_fooSession false)
    (resolved_fooSession false) (oneTable_fooSession false)⟩

/-- The states of a function are all in its group. -/
theorem mem_group_of_elf {enc : Encoder} (htable : OneTable enc funcs) {qsort : Qsort}
    {a : FuncState} {rest : List FuncState} (hgroup : a :: rest ∈ enc.savedGroups qsort)
    {state : FuncState} (hstate : state ∈ enc.funcStates) (helf : state.elf = a.elf) :
    state ∈ a :: rest := by
  have hmem : state ∈ (enc.savedGroups qsort).flatten := by
    rw [Encoder.savedGroups, stateGroups, List.flatten_splitBy]
    exact (qsort.perm _ _).mem_iff.mpr hstate
  obtain ⟨group, hin, hstate⟩ := List.mem_flatten.mp hmem
  by_contra hnot
  have hne : group ≠ a :: rest := by
    rintro rfl
    exact hnot hstate
  have hsymm : Std.Symm fun g g' : List FuncState => ∀ a ∈ g, ∀ b ∈ g', a.elf ≠ b.elf :=
    ⟨fun g g' h a ha b hb heq => h b hb a ha heq.symm⟩
  have hapart := (pairwise_savedGroups htable qsort).forall hin hgroup hne
  exact hapart state hstate a List.mem_cons_self helf

/-- `elf_functions__collect` notices that the symbols of a function are not at one address:
there are not too many of them, it is not the last function, and not one of two addresses
is zero. -/
structure AddressesNoticed (funcs : ElfFunctions) (func : ElfFunction) : Prop where
  differ : AddressesDiffer (symsNamed func.name (functionSyms funcs.symtab))
  few : (symsNamed func.name (functionSyms funcs.symtab)).length < 65536
  notLast : ¬LastName func.name (functionSyms funcs.symtab)
  notZero : ¬ZeroAndOne (symsNamed func.name (functionSyms funcs.symtab))

theorem hasAmbiguousAddress_of_noticed {func : ElfFunction} (hcollected : funcs.Collected)
    (hfunc : func ∈ funcs.entries) (hnoticed : AddressesNoticed funcs func) :
    func.hasAmbiguousAddress = true := by
  obtain ⟨qsort, hentries⟩ := hcollected
  obtain ⟨syms, hperm, hsorted, hcollect⟩ := exists_collect_eq qsort funcs.symtab
  have hmem : func.withoutKfunc ∈ mergedEntries syms := by
    rw [← hcollect, ← hentries]
    exact List.mem_map_of_mem hfunc
  have hnamed := symsNamed_perm hperm func.name
  have hsyms : func.syms = symsNamed func.name syms := by
    have hfew : (symsNamed func.withoutKfunc.name syms).length < 65536 :=
      hnamed.length_eq ▸ hnoticed.few
    have hfound := syms_of_few hfew hsorted hmem
    exact hfound
  rw [hasAmbiguousAddress_iff, hsyms, addressesDiffer_congr hnamed]
  · exact hnoticed.differ
  · rw [hsyms, zeroAndOne_congr hnamed]
    exact hnoticed.notZero

/-- With one table of functions and without true signatures no FUNC is added for a function
with a state that is not reliable, nor for one whose addresses were noticed to differ. -/
theorem addSavedFuncs_skips (host : Host) (skipInconsistent : Bool) (s : Btf Encoder)
    (hcollected : s.table.client.Collected) (hresolved : Resolved s.table)
    (htable : OneTable s.table.client funcs) (hplain : s.table.client.trueSignature = false)
    {entry : ℕ}
    (hbad : (∃ state ∈ s.table.client.funcStates,
        state.elf = some ⟨funcs.elf, entry⟩ ∧ ¬state.Reliable) ∨
      ∃ func, funcs.entries[entry]? = some func ∧ AddressesNoticed funcs func) :
    ⟨funcs.elf, entry⟩ ∉ addedSince s (finalSession (addSavedFuncs host skipInconsistent s)) := by
  intro hadded
  have hemitted := (addedSince_initial host skipInconsistent s hcollected hresolved).subset hadded
  obtain ⟨a, rest, hgroup, helf, hemits⟩ := mem_emittedPtrs.mp hemitted
  rcases hemits with ⟨htrue, -⟩ | hpasses
  · rw [hplain] at htrue
    cases htrue
  · rcases hbad with ⟨state, hstate, hptr, hunreliable⟩ | ⟨func, hfunc, hnoticed⟩
    · have hmem := mem_group_of_elf htable hgroup hstate (hptr.trans helf.symm)
      exact hunreliable (hpasses.reliable state hmem)
    · refine hpasses.unmarked ⟨funcs, func, ⟨_, helf, htable.found, hfunc⟩, hnoticed.notLast, ?_⟩
      exact hasAmbiguousAddress_of_noticed htable.collected (List.mem_of_getElem? hfunc) hnoticed

/-- The first state of a function is reliable and the second one is not, so that no FUNC is
added for it. -/
theorem addSavedFuncs_skips_foo :
    ⟨0, 1⟩ ∉ addedSince (fooSession true)
      (finalSession (addSavedFuncs Host.plain true (fooSession true))) :=
  addSavedFuncs_skips Host.plain true (fooSession true) (collected_fooSession true)
    (resolved_fooSession true) (oneTable_fooSession true) rfl
    (Or.inl ⟨{ FuncState.withParm "q" with elf := some ⟨0, 1⟩, addr := 16, uncertainParmLoc := true },
      List.mem_of_getElem? (i := 3) rfl, rfl, by decide⟩)

end Once

end Pahole
