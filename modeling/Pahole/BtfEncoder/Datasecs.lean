import Pahole.BtfEncoder.ErrorReports
import Pahole.Support.MergeSort

/-!
# The DATASEC of a section

The variables of a section are gathered from all CUs and sorted by their offsets when
the DATASEC is added.  Their number is kept in 16 bits, offsets are compared by the sign
of their difference as an `int`, and the size is where the variable that comes last ends.
-/

namespace Pahole

open FallibleTable

/-- Record variables, each for a section, in the order in which they are met. -/
def Encoder.recordVars (enc : Encoder) (vars : List (ℕ × VarSecinfo)) : Encoder :=
  vars.foldl (fun enc v => enc.addVarSecinfo v.1 v.2) enc

/-- The variables that are recorded for a section. -/
def varsOf (shndx : ℕ) (vars : List (ℕ × VarSecinfo)) : List VarSecinfo :=
  (vars.filter fun v => v.1 = shndx).map Prod.snd

/-- The end of a variable. -/
def VarSecinfo.stop (v : VarSecinfo) : ℕ := v.offset + v.size

/-- When the call for it does not fail, the DATASEC has every variable once, in ascending order
of offsets, and its size is the largest end of a variable. -/
def DatasecRight (sec : ElfSecinfo) (vars : List VarSecinfo) : Prop :=
  ∀ s : Btf Encoder, s.Serves 1 → ∃ id s' sz entries, addDatasec sec s = .ok id s' ∧
    s'.table.items = s.table.items ++ [.datasec sec.name sz entries] ∧
      entries.Perm vars ∧ entries.Pairwise (fun a b => a.offset ≤ b.offset) ∧
        IsGreatest (VarSecinfo.stop '' {v | v ∈ vars}) sz

/-- The DATASEC of a section is right whenever it is the given variables that were
recorded, in whatever order and among those of other sections. -/
def DatasecsRight (enc : Encoder) (shndx : ℕ) (vars : List VarSecinfo) : Prop :=
  ∀ met, (varsOf shndx met).Perm vars →
    ∀ sec, (enc.recordVars met).secinfo[shndx]? = some sec → DatasecRight sec vars

/-- How `btf_var_secinfo_cmp` makes `qsort` order two variables. -/
def varSecinfoLe (a b : VarSecinfo) : Bool :=
  decide (Int.bmod ((a.offset : ℤ) - b.offset) 4294967296 ≤ 0)

section Record

variable {enc : Encoder} {shndx : ℕ} {sec : ElfSecinfo}

theorem secinfo_addVarSecinfo (enc : Encoder) (i shndx : ℕ) (si : VarSecinfo) :
    (enc.addVarSecinfo i si).secinfo[shndx]? =
      enc.secinfo[shndx]?.map fun sec =>
        { sec with secinfo := sec.secinfo ++ if i = shndx then [si] else [] } := by
  rw [Encoder.addVarSecinfo, List.getElem?_modify]
  cases enc.secinfo[shndx]? with
  | none => rfl
  | some sec =>
      by_cases hi : i = shndx
      · simp [hi]
      · simp [hi]

/-- A section has the variables recorded for it after those it had. -/
theorem secinfo_recordVars (h : enc.secinfo[shndx]? = some sec)
    (met : List (ℕ × VarSecinfo)) :
    (enc.recordVars met).secinfo[shndx]? =
      some { sec with secinfo := sec.secinfo ++ varsOf shndx met } := by
  induction met generalizing enc sec with
  | nil => simpa [Encoder.recordVars, varsOf] using h
  | cons v rest ih =>
      have hstep := secinfo_addVarSecinfo enc v.1 shndx v.2
      rw [h, Option.map_some] at hstep
      have hrest := ih hstep
      rw [Encoder.recordVars, List.foldl_cons]
      refine hrest.trans ?_
      by_cases hi : v.1 = shndx
      · simp [varsOf, hi]
      · simp [varsOf, hi]

theorem varsOf_map (shndx : ℕ) (vars : List VarSecinfo) :
    varsOf shndx (vars.map fun v => (shndx, v)) = vars := by
  induction vars with
  | nil => rfl
  | cons v rest ih => simpa [varsOf] using ih

end Record

section Emit

variable {sec : ElfSecinfo}

theorem built_addVarInfo (name : String) (size : ℕ) (start vars : List VarSecinfo) :
    built (.datasec name size start) BtfType.addVarInfo vars =
      .datasec name size (start ++ vars) :=
  built_appends (fun _ _ => rfl) start vars

/-- When no call fails the DATASEC is the sorted one. -/
theorem items_addDatasec (sec : ElfSecinfo) {s : Btf Encoder} (hserves : s.Serves 1) :
    ∃ id s', addDatasec sec s = .ok id s' ∧
      s'.table.items = s.table.items ++ [.datasec sec.name sec.datasecSz sec.sortedVars] := by
  obtain ⟨id, s', hrun, -, hplan⟩ := hides_addDatasec sec s
  have hitems : (datasecPlan sec).run s.table =
      { s.table with items := s.table.items ++
        [.datasec sec.name sec.datasecSz sec.sortedVars] } := by
    rw [datasecPlan, run_buildPlan, built_addVarInfo, List.nil_append]
  have hcheck : ∀ ok, Step.check ok ∉ datasecPlan sec := by
    intro ok
    simp [datasecPlan, buildPlan, callPlan, editPlan]
  have hroom : ((datasecPlan sec).run s.table).cnt ≤ s.table.cnt + 1 := by
    rw [hitems]
    simp only [Table.cnt, List.length_append, List.length_singleton]
    omega
  have hdone : (exec strict (datasecPlan sec) s).1 = .done :=
    exec_done_of_serves hcheck hserves hroom
  rcases hout : exec strict (datasecPlan sec) s with ⟨o, s''⟩
  rw [hout] at hdone
  obtain rfl : o = .done := hdone
  obtain rfl := (hplan _ s'' hout).1 rfl
  refine ⟨id, s', hrun, ?_⟩
  have hheard : (datasecPlan sec).Heard strict := fun site _ => rfl
  rw [(exec_done hheard hout).1, hitems]

/-- The DATASEC is right if and only if sorting keeps the variables and puts them in order, and
its size is the largest end. -/
theorem datasecRight_iff_sorted (sec : ElfSecinfo) (vars : List VarSecinfo) :
    DatasecRight sec vars ↔
      sec.sortedVars.Perm vars ∧ sec.sortedVars.Pairwise (fun a b => a.offset ≤ b.offset) ∧
        IsGreatest (VarSecinfo.stop '' {v | v ∈ vars}) sec.datasecSz := by
  constructor
  · intro hright
    have hserves : quietSession.Serves 1 := ⟨fun _ _ => rfl, by decide⟩
    obtain ⟨id, s', sz, entries, hrun, hitems, hentries⟩ := hright quietSession hserves
    obtain ⟨id', s'', hrun', hitems'⟩ := items_addDatasec sec hserves
    obtain ⟨-, rfl⟩ := EStateM.Result.ok.inj (hrun'.symm.trans hrun)
    have hlast := List.append_cancel_left (hitems'.symm.trans hitems)
    obtain ⟨-, rfl, rfl⟩ := BtfType.datasec.inj (List.cons.inj hlast).1
    exact hentries
  · intro h s hserves
    obtain ⟨id, s', hrun, hitems⟩ := items_addDatasec sec hserves
    exact ⟨id, s', _, _, hrun, hitems, h⟩

end Emit

section Order

variable {vars : List VarSecinfo}

theorem varSecinfoLe_of_near {a b : VarSecinfo} (hab : a.offset < b.offset + 2147483648)
    (hba : b.offset < a.offset + 2147483648) :
    varSecinfoLe a b = decide (a.offset ≤ b.offset) := by
  have hbmod : Int.bmod ((a.offset : ℤ) - b.offset) 4294967296 = (a.offset : ℤ) - b.offset := by
    rw [Int.bmod_def]
    split <;> omega
  rw [varSecinfoLe, hbmod]
  apply decide_eq_decide.mpr
  omega

/-- The comparison puts an offset before one that is at least 2 GiB lower. -/
theorem varSecinfoLe_of_far {a b : VarSecinfo} (h : b.offset + 2147483648 ≤ a.offset)
    (ha : a.offset < 4294967296) : varSecinfoLe a b = true := by
  have hbmod : Int.bmod ((a.offset : ℤ) - b.offset) 4294967296 ≤ 0 := by
    rw [Int.bmod_def]
    split <;> omega
  exact decide_eq_true hbmod

/-- Sorting variables that are near each other sorts them by their offsets. -/
theorem mergeSort_of_near (h : ∀ a ∈ vars, ∀ b ∈ vars, a.offset < b.offset + 2147483648) :
    vars.mergeSort varSecinfoLe = vars.mergeSort fun a b => decide (a.offset ≤ b.offset) :=
  MergeSort.mergeSort_congr fun a ha b hb => varSecinfoLe_of_near (h a ha b hb) (h b hb a ha)

theorem offsetLe_trans (a b c : VarSecinfo) (hab : decide (a.offset ≤ b.offset) = true)
    (hbc : decide (b.offset ≤ c.offset) = true) : decide (a.offset ≤ c.offset) = true := by
  rw [decide_eq_true_iff] at hab hbc ⊢
  exact le_trans hab hbc

theorem offsetLe_total (a b : VarSecinfo) :
    (decide (a.offset ≤ b.offset) || decide (b.offset ≤ a.offset)) = true := by
  simpa using le_total a.offset b.offset

/-- Variables that are near each other come out in the order of their offsets. -/
theorem pairwise_of_near (h : ∀ a ∈ vars, ∀ b ∈ vars, a.offset < b.offset + 2147483648) :
    (vars.mergeSort varSecinfoLe).Pairwise fun a b => a.offset ≤ b.offset := by
  rw [mergeSort_of_near h]
  exact (List.pairwise_mergeSort offsetLe_trans offsetLe_total vars).imp of_decide_eq_true

/-- A last variable of variables near each other stays the last one. -/
theorem mergeSort_concat_of_near {v : VarSecinfo}
    (h : ∀ a ∈ vars ++ [v], ∀ b ∈ vars ++ [v], a.offset < b.offset + 2147483648)
    (hmax : ∀ u ∈ vars, u.offset ≤ v.offset) :
    ∃ ys, (vars ++ [v]).mergeSort varSecinfoLe = ys ++ [v] := by
  rw [mergeSort_of_near h]
  exact MergeSort.mergeSort_concat offsetLe_trans offsetLe_total vars fun u hu =>
    decide_eq_true (hmax u hu)

/-- The last of variables in the order of their offsets has the largest of these. -/
theorem offset_le_getLast {v : VarSecinfo} (hsorted : vars.Pairwise fun a b => a.offset ≤ b.offset)
    (hlast : vars.getLast? = some v) : ∀ u ∈ vars, u.offset ≤ v.offset := by
  obtain ⟨init, rfl⟩ := List.getLast?_eq_some_iff.mp hlast
  intro u hu
  rcases List.mem_append.mp hu with hinit | hv
  · exact (List.pairwise_append.mp hsorted).2.2 u hinit v List.mem_cons_self
  · rw [List.mem_singleton.mp hv]

end Order

/-! ## When the DATASEC is right -/

/-- The section has fewer than 65536 variables, none of them 2 GiB or more after another one,
and one that starts last ends last. -/
structure DatasecFits (vars : List VarSecinfo) : Prop where
  count : vars.length < 65536
  near : ∀ a ∈ vars, ∀ b ∈ vars, a.offset < b.offset + 2147483648
  last : ∀ v ∈ vars, (∀ u ∈ vars, u.offset ≤ v.offset) → ∀ u ∈ vars, u.stop ≤ v.stop

section Right

variable {enc : Encoder} {shndx : ℕ} {sec : ElfSecinfo} {vars order : List VarSecinfo}

theorem sortedVars_of_count (hsecinfo : sec.secinfo = order) (h : order.length < 65536) :
    sec.sortedVars = order.mergeSort varSecinfoLe := by
  rw [ElfSecinfo.sortedVars, hsecinfo, Nat.mod_eq_of_lt h, List.take_length]
  rfl

/-- The DATASEC of variables that are `DatasecFits` is right. -/
theorem datasecRight_of_fits (hperm : sec.secinfo.Perm vars) (hne : vars ≠ [])
    (hstop : ∀ v ∈ vars, v.stop < 4294967296) (hfits : DatasecFits vars) :
    DatasecRight sec vars := by
  have hcount : sec.secinfo.length < 65536 := by
    rw [hperm.length_eq]
    exact hfits.count
  have hnear : ∀ a ∈ sec.secinfo, ∀ b ∈ sec.secinfo, a.offset < b.offset + 2147483648 :=
    fun a ha b hb => hfits.near a (hperm.mem_iff.mp ha) b (hperm.mem_iff.mp hb)
  have hsorted := sortedVars_of_count rfl hcount
  have hperm' : sec.sortedVars.Perm vars := by
    rw [hsorted]
    exact (List.mergeSort_perm _ _).trans hperm
  have hpairwise : sec.sortedVars.Pairwise fun a b => a.offset ≤ b.offset := by
    rw [hsorted]
    exact pairwise_of_near hnear
  rw [datasecRight_iff_sorted]
  refine ⟨hperm', hpairwise, ?_⟩
  have hne' : sec.sortedVars ≠ [] := fun hnil => hne (by rw [hnil] at hperm'; exact hperm'.symm.eq_nil)
  obtain ⟨v, hv⟩ := Option.isSome_iff_exists.mp (List.getLast?_isSome.mpr hne')
  have hmem : v ∈ vars := hperm'.mem_iff.mp (List.mem_of_getLast? hv)
  have hsz : sec.datasecSz = v.stop := by
    rw [ElfSecinfo.datasecSz, hv]
    exact u32_of_lt (hstop v hmem)
  have hmax : ∀ u ∈ vars, u.offset ≤ v.offset := fun u hu =>
    offset_le_getLast hpairwise hv u (hperm'.mem_iff.mpr hu)
  rw [hsz]
  constructor
  · exact ⟨v, hmem, rfl⟩
  · rintro _ ⟨u, hu, rfl⟩
    exact hfits.last v hmem hmax u hu

/-- If DATASECs are right, they are right for every order in which the variables can be met. -/
theorem right_of_order (h : enc.secinfo[shndx]? = some sec) (hempty : sec.secinfo = [])
    (hright : DatasecsRight enc shndx vars) (hperm : order.Perm vars) :
    DatasecRight { sec with secinfo := order } vars := by
  have hrecord := secinfo_recordVars h (order.map fun v => (shndx, v))
  rw [hempty, List.nil_append, varsOf_map] at hrecord
  exact hright _ (by rwa [varsOf_map]) _ hrecord

theorem fits_of_datasecsRight (h : enc.secinfo[shndx]? = some sec) (hempty : sec.secinfo = [])
    (hstop : ∀ v ∈ vars, v.stop < 4294967296) (hright : DatasecsRight enc shndx vars) :
    DatasecFits vars := by
  have hany : ∀ {order : List VarSecinfo}, order.Perm vars → _ := fun hperm =>
    (datasecRight_iff_sorted _ _).mp (right_of_order h hempty hright hperm)
  have hcount : vars.length < 65536 := by
    have hlen := (hany (List.Perm.refl vars)).1.length_eq
    rw [ElfSecinfo.sortedVars, List.length_mergeSort, List.length_take] at hlen
    have hmod := Nat.mod_lt vars.length (show 0 < 65536 by norm_num)
    simp only at hlen
    omega
  have hsorted : ∀ {order : List VarSecinfo}, order.Perm vars →
      ElfSecinfo.sortedVars { sec with secinfo := order } = order.mergeSort varSecinfoLe :=
    fun hperm => sortedVars_of_count rfl (by rwa [hperm.length_eq])
  have hnear : ∀ a ∈ vars, ∀ b ∈ vars, a.offset < b.offset + 2147483648 := by
    intro a ha b hb
    by_contra hfar
    have hfar' : b.offset + 2147483648 ≤ a.offset := not_lt.mp hfar
    have hne : b ≠ a := by
      rintro rfl
      omega
    have hperm : (a :: b :: (vars.erase a).erase b).Perm vars := by
      have hb' : b ∈ vars.erase a := (List.mem_erase_of_ne hne).mpr hb
      exact ((List.perm_cons_erase hb').symm.cons a).trans (List.perm_cons_erase ha).symm
    have ha' : a.offset < 4294967296 := lt_of_le_of_lt (Nat.le_add_right _ _) (hstop a ha)
    have hpairwise := (hany hperm).2.1
    rw [hsorted hperm] at hpairwise
    have hpair := hpairwise.sublist (MergeSort.pair_sublist_mergeSort
      (varSecinfoLe_of_far hfar' ha') ((vars.erase a).erase b))
    have hle := (List.pairwise_cons.mp hpair).1 b List.mem_cons_self
    omega
  refine ⟨hcount, hnear, ?_⟩
  intro v hv hmax u hu
  have hperm : (vars.erase v ++ [v]).Perm vars :=
    (List.perm_append_singleton v _).trans (List.perm_cons_erase hv).symm
  have hmem : ∀ a ∈ vars.erase v ++ [v], a ∈ vars := fun a ha => hperm.mem_iff.mp ha
  obtain ⟨ys, hys⟩ := mergeSort_concat_of_near
    (fun a ha b hb => hnear a (hmem a ha) b (hmem b hb))
    (fun a ha => hmax a (List.mem_of_mem_erase ha))
  have hgreatest := (hany hperm).2.2.2
  have hsz : ElfSecinfo.datasecSz { sec with secinfo := vars.erase v ++ [v] } = v.stop := by
    rw [ElfSecinfo.datasecSz, hsorted hperm, hys, List.getLast?_concat]
    exact u32_of_lt (hstop v hv)
  rw [hsz] at hgreatest
  exact hgreatest ⟨u, hu, rfl⟩

/-- The DATASEC of a section is right for every order in which its variables are met if and only
if there are fewer than 65536 of them, they are less than 2 GiB apart, and one that starts last
ends last. -/
theorem datasecsRight_iff (h : enc.secinfo[shndx]? = some sec) (hempty : sec.secinfo = [])
    (hne : vars ≠ []) (hstop : ∀ v ∈ vars, v.stop < 4294967296) :
    DatasecsRight enc shndx vars ↔ DatasecFits vars := by
  constructor
  · exact fits_of_datasecsRight h hempty hstop
  · intro hfits met hmet sec' hsec'
    rw [secinfo_recordVars h met, hempty, List.nil_append] at hsec'
    obtain rfl := Option.some.inj hsec'
    exact datasecRight_of_fits hmet hne hstop hfits

end Right

/-! ## Variables that do not fit -/

/-- A section of data. -/
def dataSection : ElfSecinfo where
  addr := 0
  name := ".data"
  sz := 4096
  execinstr := false
  holdsVariables := true
  included := true
  secinfo := []

/-- An encoder with a section of data. -/
def Encoder.withData : Encoder := { Encoder.plain with secinfo := [dataSection] }

/-- Two variables that are 2 GiB apart. -/
def farVars : List VarSecinfo := [⟨1, 0, 4⟩, ⟨2, 2147483648, 4⟩]

/-- When the second variable is met first, it comes first in the DATASEC. -/
theorem not_datasecsRight_farVars :
    Encoder.withData.secinfo[0]? = some dataSection ∧ dataSection.secinfo = [] ∧
      farVars ≠ [] ∧ (∀ v ∈ farVars, v.stop < 4294967296) ∧
        ¬DatasecsRight Encoder.withData 0 farVars := by
  refine ⟨rfl, rfl, by decide, by decide, fun hright => ?_⟩
  have hdata : Encoder.withData.secinfo[0]? = some dataSection := rfl
  have hfits := fits_of_datasecsRight hdata rfl (by decide) hright
  have hlt := hfits.near ⟨2, 2147483648, 4⟩ (by decide) ⟨1, 0, 4⟩ (by decide)
  exact absurd hlt (by decide)

theorem datasecsRight_iff_farVars :
    DatasecsRight Encoder.withData 0 farVars ↔ DatasecFits farVars := by
  have hdata : Encoder.withData.secinfo[0]? = some dataSection := rfl
  exact datasecsRight_iff hdata rfl (by decide) (by decide)

end Pahole
