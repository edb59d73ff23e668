import Mathlib.Algebra.Order.Ring.Int
import Mathlib.Data.List.Nodup
import Pahole.Support.Transition

/-!
# The list of CUs

CUs are in the list of `struct cus` before they are complete.  They are taken out when a
stealer wants them deleted; some are deleted by the loader itself.
-/

namespace Pahole

open Transition

/-- `enum load_steal_kind` -/
inductive LoadSteal where
  | keepit
  | delete
  | stopLoading
  | abort
  deriving DecidableEq

/-- The type CU of a module, and whether it has been taken out of the list to be deleted
after the other CUs. -/
structure TypeCu where
  cu : ℕ
  deferred : Bool

/-- The phases of loading a module. -/
inductive CusPhase where
  | idle
  /-- `__cus__load_debug_types`, after the first type unit has been found -/
  | typeUnits (cu : ℕ)
  | module (type : Option TypeCu)
  /-- `cus__merge_and_process_cu`, before its CU is added to the list -/
  | mergeStart (type : Option TypeCu) (cu : ℕ)
  | merging (type : Option TypeCu) (cu : ℕ)
  /-- the worker threads, and the CUs that they are decoding or have decoded -/
  | units (type : Option TypeCu) (pending : List ℕ)
  /-- the CUs have been processed -/
  | ending (type : Option TypeCu)
  /-- `cus__delete` -/
  | freed

/-- `struct cus`, the CUs allocated so far, which have the numbers below `nrCus`, and
those that have been deleted, the last one first. -/
structure CusState where
  cus : List ℕ
  nrEntries : ℤ
  nrCus : ℕ
  deleted : List ℕ
  phase : CusPhase

/-- A step of the loader and its outcome.  `ok` is false when an allocation or the
decoding of a DIE has failed. -/
inductive CusEvent where
  | loadTypeCu (ok : Bool)
  | processTypeUnit (ok : Bool)
  | finishTypeCu (ok : Bool) (lsk : LoadSteal)
  | noTypeCu
  | mergeNew (ok : Bool)
  | mergeInit (ok : Bool)
  | mergeUnit (ok : Bool)
  | mergeRecode (ok : Bool)
  | mergeSteal (lsk : LoadSteal)
  | unitNew (ok : Bool)
  | unitDecode (cu : ℕ) (ok : Bool)
  | unitSteal (cu : ℕ) (lsk : LoadSteal)
  | endUnits
  | endModule
  | cusDelete

namespace CusState

def start : CusState := ⟨[], 0, 0, [], .idle⟩

/-- `__cus__add` -/
def add (s : CusState) (cu : ℕ) : CusState :=
  { s with cus := s.cus ++ [cu], nrEntries := s.nrEntries + 1 }

/-- `__cus__remove` -/
def remove (s : CusState) (cu : ℕ) : CusState :=
  { s with cus := s.cus.erase cu, nrEntries := s.nrEntries - 1 }

/-- `cu__delete` -/
def delete (s : CusState) (cu : ℕ) : CusState := { s with deleted := cu :: s.deleted }

/-- `cu__new` -/
def allocate (s : CusState) : CusState := { s with nrCus := s.nrCus + 1 }

def goTo (s : CusState) (phase : CusPhase) : CusState := { s with phase := phase }

/-- `cus__steal_now`, without its result. -/
def stealNow (s : CusState) (cu : ℕ) : LoadSteal → CusState
  | .delete => (s.remove cu).delete cu
  | _ => s

/-- The exit of `cus__merge_and_process_cu` for errors. -/
def outAbort (s : CusState) (type : Option TypeCu) (cu : ℕ) : CusState :=
  (s.delete cu).goTo (.ending type)

/-- One step of the loader, if it is in the phase for it. -/
def step (s : CusState) : CusEvent → Option CusState
  | .loadTypeCu ok =>
      match s.phase with
      | .idle =>
          if ok then some ((s.allocate.add s.nrCus).goTo (.typeUnits s.nrCus))
          else some (s.allocate.delete s.nrCus)
      | _ => none
  | .processTypeUnit ok =>
      match s.phase with
      | .typeUnits cu => some (s.goTo (if ok then .typeUnits cu else .idle))
      | _ => none
  | .finishTypeCu ok lsk =>
      match s.phase with
      | .typeUnits cu =>
          if ok then
            match lsk with
            | .delete => some ((s.remove cu).goTo (.module (some ⟨cu, true⟩)))
            | _ => some (s.goTo (.module (some ⟨cu, false⟩)))
          else some (s.goTo .idle)
      | _ => none
  | .noTypeCu =>
      match s.phase with
      | .idle => some (s.goTo (.module none))
      | _ => none
  | .mergeNew ok =>
      match s.phase with
      | .module type =>
          if ok then some (s.allocate.goTo (.mergeStart type s.nrCus))
          else some (s.allocate.outAbort type s.nrCus)
      | _ => none
  | .mergeInit ok =>
      match s.phase with
      | .mergeStart type cu =>
          if ok then some ((s.add cu).goTo (.merging type cu)) else some (s.outAbort type cu)
      | _ => none
  | .mergeUnit ok =>
      match s.phase with
      | .merging type cu => if ok then some s else some (s.outAbort type cu)
      | _ => none
  | .mergeRecode ok =>
      match s.phase with
      | .merging type cu => if ok then some s else some (s.outAbort type cu)
      | _ => none
  | .mergeSteal lsk =>
      match s.phase with
      | .merging type cu =>
          if lsk = .abort then some ((s.stealNow cu lsk).outAbort type cu)
          else some ((s.stealNow cu lsk).goTo (.ending type))
      | _ => none
  | .unitNew ok =>
      match s.phase with
      | .module type =>
          if ok then some ((s.allocate.add s.nrCus).goTo (.units type [s.nrCus]))
          else some ((s.allocate.delete s.nrCus).goTo (.units type []))
      | .units type pending =>
          if ok then some ((s.allocate.add s.nrCus).goTo (.units type (s.nrCus :: pending)))
          else some (s.allocate.delete s.nrCus)
      | _ => none
  | .unitDecode cu ok =>
      match s.phase with
      | .units type pending =>
          if cu ∈ pending then
            if ok then some s else some (s.goTo (.units type (pending.erase cu)))
          else none
      | _ => none
  | .unitSteal cu lsk =>
      match s.phase with
      | .units type pending =>
          if cu ∈ pending then
            some ((s.stealNow cu lsk).goTo (.units type (pending.erase cu)))
          else none
      | _ => none
  | .endUnits =>
      match s.phase with
      | .module type => some (s.goTo (.ending type))
      | .units type _ => some (s.goTo (.ending type))
      | _ => none
  | .endModule =>
      match s.phase with
      | .ending (some ⟨cu, true⟩) => some ((s.delete cu).goTo .idle)
      | .ending _ => some (s.goTo .idle)
      | _ => none
  | .cusDelete =>
      match s.phase with
      | .idle => some ({ s with cus := [], deleted := s.cus.reverse ++ s.deleted }.goTo .freed)
      | _ => none

/-- The list holds only live CUs, none has been deleted twice, and the list is counted
while there is one. -/
structure Sound (s : CusState) : Prop where
  live : ∀ cu ∈ s.deleted, cu ∉ s.cus
  once : s.deleted.Nodup
  nrEntries : s.phase ≠ .freed → s.nrEntries = s.cus.length

/-- An event after a merged CU was added to the list does not fail, and no stealer returns
`LSK__ABORT` for it. -/
def MergesWell : CusEvent → Prop
  | .mergeUnit ok => ok = true
  | .mergeRecode ok => ok = true
  | .mergeSteal lsk => lsk ≠ .abort
  | _ => True

/-! ## The invariant between steps -/

/-- A CU that is neither in the list nor deleted. -/
structure Held (s : CusState) (cu : ℕ) : Prop where
  lt : cu < s.nrCus
  notMem : cu ∉ s.cus
  live : cu ∉ s.deleted

/-- The invariant in every phase but the last: CUs are listed once, deleted once and never both,
and `nr_entries` is the length of the list. -/
structure Listed (s : CusState) : Prop where
  nodup : s.cus.Nodup
  lt : ∀ cu ∈ s.cus, cu < s.nrCus
  live : ∀ cu ∈ s.deleted, cu ∉ s.cus
  once : s.deleted.Nodup
  old : ∀ cu ∈ s.deleted, cu < s.nrCus
  nrEntries : s.nrEntries = s.cus.length

/-- A type CU whose deletion is deferred is held by the loader. -/
def TypeHeld (s : CusState) (type : Option TypeCu) : Prop :=
  ∀ cu, type = some ⟨cu, true⟩ → s.Held cu

/-- The invariant of each phase: which CUs the loader holds, and which are in the list. -/
def Working (s : CusState) : CusPhase → Prop
  | .idle => True
  | .typeUnits cu => cu ∈ s.cus
  | .module type => s.TypeHeld type
  | .mergeStart type cu => s.TypeHeld type ∧ s.Held cu ∧ type ≠ some ⟨cu, true⟩
  | .merging type cu => s.TypeHeld type ∧ cu ∈ s.cus
  | .units type pending => s.TypeHeld type ∧ pending.Nodup ∧ ∀ cu ∈ pending, cu ∈ s.cus
  | .ending type => s.TypeHeld type
  | .freed => False

def CusInv (s : CusState) : Prop :=
  (s.Listed ∧ s.Working s.phase) ∨ (s.phase = .freed ∧ s.cus = [] ∧ s.deleted.Nodup)

section Operations

variable {s : CusState} {cu other : ℕ}

theorem Listed.allocate (h : s.Listed) : s.allocate.Listed where
  nodup := h.nodup
  lt := fun cu hcu => Nat.lt_succ_of_lt (h.lt cu hcu)
  live := h.live
  once := h.once
  old := fun cu hcu => Nat.lt_succ_of_lt (h.old cu hcu)
  nrEntries := h.nrEntries

theorem Listed.held_allocate (h : s.Listed) : s.allocate.Held s.nrCus where
  lt := Nat.lt_succ_self _
  notMem := fun hmem => absurd (h.lt _ hmem) (lt_irrefl _)
  live := fun hmem => absurd (h.old _ hmem) (lt_irrefl _)

theorem Held.allocate (h : s.Held cu) : s.allocate.Held cu where
  lt := Nat.lt_succ_of_lt h.lt
  notMem := h.notMem
  live := h.live

theorem Listed.add (h : s.Listed) (hcu : s.Held cu) : (s.add cu).Listed where
  nodup := by
    refine List.nodup_append.mpr ⟨h.nodup, List.nodup_singleton cu, fun x hx y hy => ?_⟩
    obtain rfl := List.mem_singleton.mp hy
    exact fun heq => hcu.notMem (heq ▸ hx)
  lt := by
    intro x hx
    rcases List.mem_append.mp hx with hx | hx
    · exact h.lt x hx
    · exact List.mem_singleton.mp hx ▸ hcu.lt
  live := by
    intro x hx hmem
    rcases List.mem_append.mp hmem with hmem | hmem
    · exact h.live x hx hmem
    · exact hcu.live (List.mem_singleton.mp hmem ▸ hx)
  once := h.once
  old := h.old
  nrEntries := by simp [CusState.add, h.nrEntries]

theorem Held.add (h : s.Held cu) (hne : cu ≠ other) : (s.add other).Held cu where
  lt := h.lt
  notMem := by
    intro hmem
    rcases List.mem_append.mp hmem with hmem | hmem
    · exact h.notMem hmem
    · exact hne (List.mem_singleton.mp hmem)
  live := h.live

theorem Listed.remove (h : s.Listed) (hcu : cu ∈ s.cus) :
    (s.remove cu).Listed ∧ (s.remove cu).Held cu := by
  have hnot : cu ∉ s.cus.erase cu := h.nodup.not_mem_erase
  constructor
  · exact {
      nodup := h.nodup.erase cu
      lt := fun x hx => h.lt x (List.mem_of_mem_erase hx)
      live := fun x hx hmem => h.live x hx (List.mem_of_mem_erase hmem)
      once := h.once
      old := h.old
      nrEntries := by
        have hlen := List.length_erase_of_mem hcu
        have hpos := List.length_pos_of_mem hcu
        simp only [CusState.remove, h.nrEntries, hlen]
        omega }
  · exact ⟨h.lt cu hcu, hnot, fun hdel => h.live cu hdel hcu⟩

theorem Held.remove (h : s.Held cu) : (s.remove other).Held cu where
  lt := h.lt
  notMem := fun hmem => h.notMem (List.mem_of_mem_erase hmem)
  live := h.live

theorem Listed.delete (h : s.Listed) (hcu : s.Held cu) : (s.delete cu).Listed where
  nodup := h.nodup
  lt := h.lt
  live := by
    intro x hx
    rcases List.mem_cons.mp hx with rfl | hx
    · exact hcu.notMem
    · exact h.live x hx
  once := List.nodup_cons.mpr ⟨hcu.live, h.once⟩
  old := by
    intro x hx
    rcases List.mem_cons.mp hx with rfl | hx
    · exact hcu.lt
    · exact h.old x hx
  nrEntries := h.nrEntries

theorem Held.delete (h : s.Held cu) (hne : cu ≠ other) : (s.delete other).Held cu where
  lt := h.lt
  notMem := h.notMem
  live := by
    intro hmem
    rcases List.mem_cons.mp hmem with rfl | hmem
    · exact hne rfl
    · exact h.live hmem

/-- A CU that is held is none of those in the list. -/
theorem Held.ne_of_mem (h : s.Held cu) (hmem : other ∈ s.cus) : cu ≠ other := by
  rintro rfl
  exact h.notMem hmem

theorem Listed.stealNow (h : s.Listed) (hcu : cu ∈ s.cus) (lsk : LoadSteal) :
    (s.stealNow cu lsk).Listed := by
  cases lsk with
  | delete =>
      obtain ⟨hremoved, hheld⟩ := h.remove hcu
      exact hremoved.delete hheld
  | _ => exact h

theorem Held.stealNow (h : s.Held other) (hcu : cu ∈ s.cus) (lsk : LoadSteal) :
    (s.stealNow cu lsk).Held other := by
  cases lsk with
  | delete => exact h.remove.delete (h.ne_of_mem hcu)
  | _ => exact h

/-- Stealing a CU leaves every other CU in the list. -/
theorem mem_stealNow {lsk : LoadSteal} (hne : other ≠ cu) (hmem : other ∈ s.cus) :
    other ∈ (s.stealNow cu lsk).cus := by
  cases lsk with
  | delete => exact (List.mem_erase_of_ne hne).mpr hmem
  | _ => exact hmem

theorem Listed.goTo (h : s.Listed) (phase : CusPhase) : (s.goTo phase).Listed := { h with }

theorem Held.goTo (h : s.Held cu) (phase : CusPhase) : (s.goTo phase).Held cu := { h with }

theorem TypeHeld.goTo {type : Option TypeCu} (h : s.TypeHeld type) (phase : CusPhase) :
    (s.goTo phase).TypeHeld type := fun cu heq => (h cu heq).goTo phase

end Operations

section Steps

variable {s s' : CusState}

/-- Adding the CU that was allocated to the list keeps the state in order. -/
theorem working_unitNew (h : s.Listed) {type : Option TypeCu} {pending : List ℕ}
    (htype : s.TypeHeld type) (hnodup : pending.Nodup) (hmem : ∀ cu ∈ pending, cu ∈ s.cus) :
    (s.allocate.add s.nrCus).Listed ∧
      (s.allocate.add s.nrCus).Working (.units type (s.nrCus :: pending)) := by
  refine ⟨h.allocate.add h.held_allocate, fun cu hcu => ?_, ?_, fun cu hcu => ?_⟩
  · have hheld := htype cu hcu
    exact hheld.allocate.add (Nat.ne_of_lt hheld.lt)
  · refine List.nodup_cons.mpr ⟨fun hin => ?_, hnodup⟩
    exact absurd (h.lt _ (hmem _ hin)) (lt_irrefl _)
  · rcases List.mem_cons.mp hcu with rfl | hcu
    · exact List.mem_append_right _ (List.mem_singleton_self _)
    · exact List.mem_append_left _ (hmem cu hcu)

/-- A CU that was allocated, but could not be completed, is deleted. -/
theorem working_unitFailed (h : s.Listed) {type : Option TypeCu} (htype : s.TypeHeld type) :
    (s.allocate.delete s.nrCus).Listed ∧ (s.allocate.delete s.nrCus).TypeHeld type := by
  refine ⟨h.allocate.delete h.held_allocate, fun cu hcu => ?_⟩
  have hheld := htype cu hcu
  exact hheld.allocate.delete (Nat.ne_of_lt hheld.lt)

theorem cusInv_typeUnits (h : s.Listed) {cu : ℕ} (hphase : s.phase = .typeUnits cu)
    (hcu : cu ∈ s.cus) {e : CusEvent} (hstep : s.step e = some s') : s'.CusInv := by
  cases e with
  | processTypeUnit ok =>
      simp only [step, hphase] at hstep
      obtain rfl := Option.some.inj hstep
      refine Or.inl ⟨h.goTo _, ?_⟩
      cases ok with
      | true => exact hcu
      | false => trivial
  | finishTypeCu ok lsk =>
      simp only [step, hphase] at hstep
      cases ok with
      | false =>
          obtain rfl := Option.some.inj hstep
          exact Or.inl ⟨h.goTo _, trivial⟩
      | true =>
          obtain ⟨hremoved, hheld⟩ := h.remove hcu
          cases lsk with
          | delete =>
              obtain rfl := Option.some.inj hstep
              refine Or.inl ⟨hremoved.goTo _, fun cu' heq => ?_⟩
              obtain rfl := (TypeCu.mk.inj (Option.some.inj heq)).1
              exact hheld.goTo _
          | _ =>
              obtain rfl := Option.some.inj hstep
              refine Or.inl ⟨h.goTo _, fun cu' heq => ?_⟩
              exact absurd (TypeCu.mk.inj (Option.some.inj heq)).2 Bool.false_ne_true
  | _ => simp [step, hphase] at hstep

theorem cusInv_idle (h : s.Listed) (hphase : s.phase = .idle) {e : CusEvent}
    (hstep : s.step e = some s') : s'.CusInv := by
  cases e with
  | loadTypeCu ok =>
      simp only [step, hphase] at hstep
      split at hstep
      · obtain rfl := Option.some.inj hstep
        exact Or.inl ⟨(h.allocate.add h.held_allocate).goTo _,
          List.mem_append_right _ (List.mem_singleton_self _)⟩
      · obtain rfl := Option.some.inj hstep
        refine Or.inl ⟨h.allocate.delete h.held_allocate, ?_⟩
        change Working _ s.phase
        rw [hphase]
        trivial
  | noTypeCu =>
      simp only [step, hphase] at hstep
      obtain rfl := Option.some.inj hstep
      exact Or.inl ⟨h.goTo _, fun cu heq => nomatch heq⟩
  | cusDelete =>
      simp only [step, hphase] at hstep
      obtain rfl := Option.some.inj hstep
      refine Or.inr ⟨rfl, rfl, ?_⟩
      refine List.nodup_append.mpr ⟨List.nodup_reverse.mpr h.nodup, h.once, fun x hx y hy => ?_⟩
      rintro rfl
      exact h.live x hy (List.mem_reverse.mp hx)
  | _ => simp [step, hphase] at hstep

theorem cusInv_module (h : s.Listed) {type : Option TypeCu} (hphase : s.phase = .module type)
    (htype : s.TypeHeld type) {e : CusEvent} (hstep : s.step e = some s') : s'.CusInv := by
  cases e with
  | mergeNew ok =>
      simp only [step, hphase] at hstep
      split at hstep
      · obtain rfl := Option.some.inj hstep
        refine Or.inl ⟨h.allocate.goTo _, fun cu heq => ?_, ?_, fun heq => ?_⟩
        · have hheld := (htype cu heq).allocate
          exact hheld.goTo _
        · have hheld := h.held_allocate
          exact hheld.goTo _
        · exact absurd (htype _ heq).lt (lt_irrefl _)
      · obtain rfl := Option.some.inj hstep
        obtain ⟨hlisted, hheld⟩ := working_unitFailed h htype
        exact Or.inl ⟨hlisted.goTo _, hheld.goTo _⟩
  | unitNew ok =>
      simp only [step, hphase] at hstep
      split at hstep
      · obtain rfl := Option.some.inj hstep
        obtain ⟨hlisted, hheld, hnodup, hmem⟩ := working_unitNew h htype List.nodup_nil
          fun cu hcu => nomatch hcu
        exact Or.inl ⟨hlisted.goTo _, hheld.goTo _, hnodup, hmem⟩
      · obtain rfl := Option.some.inj hstep
        obtain ⟨hlisted, hheld⟩ := working_unitFailed h htype
        exact Or.inl ⟨hlisted.goTo _, hheld.goTo _, List.nodup_nil, fun cu hcu => nomatch hcu⟩
  | endUnits =>
      simp only [step, hphase] at hstep
      obtain rfl := Option.some.inj hstep
      exact Or.inl ⟨h.goTo _, htype.goTo _⟩
  | _ => simp [step, hphase] at hstep

theorem cusInv_mergeStart (h : s.Listed) {type : Option TypeCu} {cu : ℕ}
    (hphase : s.phase = .mergeStart type cu) (htype : s.TypeHeld type) (hcu : s.Held cu)
    (hne : type ≠ some ⟨cu, true⟩) {e : CusEvent} (hstep : s.step e = some s') :
    s'.CusInv := by
  have hother : ∀ cu', type = some ⟨cu', true⟩ → cu' ≠ cu := by
    rintro cu' heq rfl
    exact hne heq
  cases e with
  | mergeInit ok =>
      simp only [step, hphase] at hstep
      split at hstep
      · obtain rfl := Option.some.inj hstep
        refine Or.inl ⟨(h.add hcu).goTo _, fun cu' heq => ?_, ?_⟩
        · have hheld := (htype cu' heq).add (hother cu' heq)
          exact hheld.goTo _
        · exact List.mem_append_right _ (List.mem_singleton_self _)
      · obtain rfl := Option.some.inj hstep
        refine Or.inl ⟨(h.delete hcu).goTo _, fun cu' heq => ?_⟩
        have hheld := (htype cu' heq).delete (hother cu' heq)
        exact hheld.goTo _
  | _ => simp [step, hphase] at hstep

/-- An event without a failure while a merged CU is loaded keeps the invariant. -/
theorem cusInv_merging (h : s.Listed) {type : Option TypeCu} {cu : ℕ}
    (hphase : s.phase = .merging type cu) (htype : s.TypeHeld type) (hcu : cu ∈ s.cus)
    {e : CusEvent} (hwell : MergesWell e) (hstep : s.step e = some s') : s'.CusInv := by
  have hstay : s.CusInv := by
    refine Or.inl ⟨h, ?_⟩
    rw [hphase]
    exact ⟨htype, hcu⟩
  cases e with
  | mergeUnit ok =>
      obtain rfl : ok = true := hwell
      simp only [step, hphase, if_true] at hstep
      obtain rfl := Option.some.inj hstep
      exact hstay
  | mergeRecode ok =>
      obtain rfl : ok = true := hwell
      simp only [step, hphase, if_true] at hstep
      obtain rfl := Option.some.inj hstep
      exact hstay
  | mergeSteal lsk =>
      have hlsk : lsk ≠ .abort := hwell
      simp only [step, hphase, if_neg hlsk] at hstep
      obtain rfl := Option.some.inj hstep
      refine Or.inl ⟨(h.stealNow hcu lsk).goTo _, fun cu' heq => ?_⟩
      have hheld := (htype cu' heq).stealNow hcu lsk
      exact hheld.goTo _
  | _ => simp [step, hphase] at hstep

theorem cusInv_units (h : s.Listed) {type : Option TypeCu} {pending : List ℕ}
    (hphase : s.phase = .units type pending) (htype : s.TypeHeld type)
    (hnodup : pending.Nodup) (hmem : ∀ cu ∈ pending, cu ∈ s.cus) {e : CusEvent}
    (hstep : s.step e = some s') : s'.CusInv := by
  cases e with
  | unitNew ok =>
      simp only [step, hphase] at hstep
      split at hstep
      · obtain rfl := Option.some.inj hstep
        obtain ⟨hlisted, hheld, hnodup', hmem'⟩ := working_unitNew h htype hnodup hmem
        exact Or.inl ⟨hlisted.goTo _, hheld.goTo _, hnodup', hmem'⟩
      · obtain rfl := Option.some.inj hstep
        obtain ⟨hlisted, hheld⟩ := working_unitFailed h htype
        refine Or.inl ⟨hlisted, ?_⟩
        change Working _ s.phase
        rw [hphase]
        exact ⟨hheld, hnodup, hmem⟩
  | unitDecode cu ok =>
      simp only [step, hphase] at hstep
      split at hstep
      · split at hstep
        · obtain rfl := Option.some.inj hstep
          refine Or.inl ⟨h, ?_⟩
          rw [hphase]
          exact ⟨htype, hnodup, hmem⟩
        · obtain rfl := Option.some.inj hstep
          exact Or.inl ⟨h.goTo _, htype.goTo _, hnodup.erase cu,
            fun cu' hcu' => hmem cu' (List.mem_of_mem_erase hcu')⟩
      · simp at hstep
  | unitSteal cu lsk =>
      simp only [step, hphase] at hstep
      split at hstep
      · rename_i hcu
        obtain rfl := Option.some.inj hstep
        refine Or.inl ⟨(h.stealNow (hmem cu hcu) lsk).goTo _, fun cu' heq => ?_,
          hnodup.erase cu, fun cu' hcu' => ?_⟩
        · have hheld := (htype cu' heq).stealNow (hmem cu hcu) lsk
          exact hheld.goTo _
        · have hne : cu' ≠ cu := by
            rintro rfl
            exact hnodup.not_mem_erase hcu'
          exact mem_stealNow hne (hmem cu' (List.mem_of_mem_erase hcu'))
      · simp at hstep
  | endUnits =>
      simp only [step, hphase] at hstep
      obtain rfl := Option.some.inj hstep
      exact Or.inl ⟨h.goTo _, htype.goTo _⟩
  | _ => simp [step, hphase] at hstep

theorem cusInv_ending (h : s.Listed) {type : Option TypeCu} (hphase : s.phase = .ending type)
    (htype : s.TypeHeld type) {e : CusEvent} (hstep : s.step e = some s') : s'.CusInv := by
  cases e with
  | endModule =>
      simp only [step, hphase] at hstep
      split at hstep
      · rename_i cu heq
        obtain rfl := Option.some.inj hstep
        have hheld := htype cu (CusPhase.ending.inj heq)
        exact Or.inl ⟨(h.delete hheld).goTo _, trivial⟩
      · obtain rfl := Option.some.inj hstep
        exact Or.inl ⟨h.goTo _, trivial⟩
      · simp at hstep
  | _ => simp [step, hphase] at hstep

/-- No event is possible after the list has been freed. -/
theorem step_freed (hphase : s.phase = .freed) (e : CusEvent) : s.step e = none := by
  cases e <;> simp only [step, hphase]

theorem cusInv_step (h : s.CusInv) {e : CusEvent} (hwell : MergesWell e)
    (hstep : s.step e = some s') : s'.CusInv := by
  rcases h with ⟨hlisted, hworking⟩ | ⟨hfreed, -, -⟩
  · cases hphase : s.phase <;> rw [hphase] at hworking
    case idle => exact cusInv_idle hlisted hphase hstep
    case typeUnits cu => exact cusInv_typeUnits hlisted hphase hworking hstep
    case module type => exact cusInv_module hlisted hphase hworking hstep
    case mergeStart type cu =>
      obtain ⟨htype, hcu, hne⟩ := hworking
      exact cusInv_mergeStart hlisted hphase htype hcu hne hstep
    case merging type cu =>
      obtain ⟨htype, hcu⟩ := hworking
      exact cusInv_merging hlisted hphase htype hcu hwell hstep
    case units type pending =>
      obtain ⟨htype, hnodup, hmem⟩ := hworking
      exact cusInv_units hlisted hphase htype hnodup hmem hstep
    case ending type => exact cusInv_ending hlisted hphase hworking hstep
    case freed => exact hworking.elim
  · rw [step_freed hfreed] at hstep
    nomatch hstep

end Steps

theorem cusInv_start : start.CusInv := by
  refine Or.inl ⟨?_, trivial⟩
  constructor <;> simp [start]

theorem CusInv.sound {s : CusState} (h : s.CusInv) : s.Sound := by
  rcases h with ⟨hlisted, -⟩ | ⟨hfreed, hcus, honce⟩
  · exact ⟨hlisted.live, hlisted.once, fun _ => hlisted.nrEntries⟩
  · refine ⟨fun cu _ => ?_, honce, fun hne => absurd hfreed hne⟩
    rw [hcus]
    exact List.not_mem_nil

/-- The list is sound in every state of a run in which, once a merged CU is in the list, nothing
fails and no stealer aborts. -/
theorem sound_of_run {es : List CusEvent} {s : CusState}
    (h : Run step (fun _ => MergesWell) start es s) : s.Sound := by
  have hinv : s.CusInv := h.invariant cusInv_start
    fun _ _ _ hinv hwell hstep => cusInv_step hinv hwell hstep
  exact hinv.sound

instance (e : CusEvent) : Decidable (MergesWell e) := by
  unfold MergesWell
  split <;> infer_instance

/-- A module whose type CU is deleted in the end, and one whose CUs are merged. -/
def twoModules : List CusEvent :=
  [.loadTypeCu true, .processTypeUnit true, .finishTypeCu true .delete,
    .unitNew true, .unitNew true, .unitDecode 1 true, .unitSteal 1 .delete, .unitDecode 2 false,
    .endUnits, .endModule,
    .noTypeCu, .mergeNew true, .mergeInit true, .mergeUnit true, .mergeRecode true,
    .mergeSteal .keepit, .endModule, .cusDelete]

theorem sound_of_run_twoModules :
    Sound ⟨[], 2, 4, [3, 2, 0, 1], .freed⟩ := by
  have hrun : Run step (fun _ => MergesWell) start twoModules
      ⟨[], 2, 4, [3, 2, 0, 1], .freed⟩ := Run.of_feed rfl
  exact sound_of_run hrun

/-- A merged CU whose stealer aborts is deleted while it is in the list. -/
theorem not_sound_of_abort :
    ¬∀ es s, Run step (fun _ _ => True) start es s → Sound s := by
  intro h
  have hrun : Run step (fun _ _ => True) start
      [.noTypeCu, .mergeNew true, .mergeInit true, .mergeSteal .abort]
      ⟨[0], 1, 1, [0], .ending none⟩ := Run.of_feed rfl
  exact (h _ _ hrun).live 0 (List.mem_singleton_self 0) (List.mem_singleton_self 0)

end CusState

end Pahole
