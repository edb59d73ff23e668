import Pahole.DwarfLoader.HashTags
import Pahole.Support.Transition

/-!
# Looking types up from several threads

`__dwarf_cu__find_type_by_ref` keeps the tag it found last.  It reads that pointer
twice, and the loader threads share the `dwarf_cu` of the type unit.
-/

namespace Pahole

open Transition

/-- The target of `last_type_lookup`. -/
inductive LastLookup where
  | sentinel
  | tag (dtag : DwarfTag)
  deriving DecidableEq

def LastLookup.id : LastLookup → DwarfOff
  | .sentinel => 18446744073709551615
  | .tag dtag => dtag.id

/-- A reference as a tag records it, in the `dwarf_cu` that is asked. -/
structure TypeRef where
  dcu : Option ℕ
  ref : DwarfOff
  fromTypes : Bool
  fromAlt : Bool

/-- The `dwarf_cu`s by their numbers, when all tags have been hashed. -/
structure LookupTables where
  bits : ℕ
  typeUnit : ℕ → Option ℕ
  alt : ℕ → Option ℕ
  hashTypes : ℕ → HashTable

namespace LookupTables

variable (tables : LookupTables)

/-- The `dwarf_cu` whose types a reference is looked up in. -/
def select (r : TypeRef) : Option ℕ :=
  match r.dcu with
  | none => none
  | some dcu =>
      if r.fromTypes then tables.typeUnit dcu
      else if r.fromAlt then tables.alt dcu
      else some dcu

/-- The result of `hashtags__find` for a reference, in the table that it selects. -/
def find (r : TypeRef) : Option DwarfTag :=
  match tables.select r with
  | none => none
  | some dcu => (tables.hashTypes dcu).find tables.bits r.ref

end LookupTables

/-- The places of a thread in `__dwarf_cu__find_type_by_ref`, once it has a `dwarf_cu`. -/
inductive LookupPc where
  | idle
  | firstRead (r : TypeRef) (dcu : ℕ)
  | secondRead (r : TypeRef) (dcu : ℕ)
  | search (r : TypeRef) (dcu : ℕ)
  | write (r : TypeRef) (dcu : ℕ) (dtag : DwarfTag)

/-- A call that has returned. -/
structure Returned (ι : Type) where
  thread : ι
  ref : TypeRef
  result : Option LastLookup

structure LookupState (ι : Type) where
  lastTypeLookup : ℕ → LastLookup
  pc : ι → LookupPc
  returned : List (Returned ι)

/-- A thread calls the function, or makes one step in it. -/
inductive LookupEvent (ι : Type) where
  | call (thread : ι) (r : TypeRef)
  | advance (thread : ι)

section Machine

variable {ι : Type} (tables : LookupTables)

namespace LookupState

def moveTo [DecidableEq ι] (s : LookupState ι) (thread : ι) (pc : LookupPc) : LookupState ι :=
  { s with pc := Function.update s.pc thread pc }

def finish [DecidableEq ι] (s : LookupState ι) (thread : ι) (r : TypeRef) (result : Option LastLookup) :
    LookupState ι :=
  { s with
    pc := Function.update s.pc thread .idle
    returned := ⟨thread, r, result⟩ :: s.returned }

def store (s : LookupState ι) (dcu : ℕ) (dtag : DwarfTag) : LookupState ι :=
  { s with lastTypeLookup := Function.update s.lastTypeLookup dcu (.tag dtag) }

end LookupState

/-- The next step of a thread in the function. -/
def advance [DecidableEq ι] (s : LookupState ι) (thread : ι) : Option (LookupState ι) :=
  match s.pc thread with
  | .idle => none
  | .firstRead r dcu =>
      if (s.lastTypeLookup dcu).id = r.ref then some (s.moveTo thread (.secondRead r dcu))
      else some (s.moveTo thread (.search r dcu))
  | .secondRead r dcu => some (s.finish thread r (some (s.lastTypeLookup dcu)))
  | .search r dcu =>
      match (tables.hashTypes dcu).find tables.bits r.ref with
      | some dtag => some (s.moveTo thread (.write r dcu dtag))
      | none => some (s.finish thread r none)
  | .write r dcu dtag => some ((s.store dcu dtag).finish thread r (some (.tag dtag)))

/-- `__dwarf_cu__find_type_by_ref` on all threads. -/
def lookupStep [DecidableEq ι] (s : LookupState ι) : LookupEvent ι → Option (LookupState ι)
  | .call thread r =>
      match s.pc thread with
      | .idle =>
          match tables.select r with
          | none => some (s.finish thread r none)
          | some dcu => some (s.moveTo thread (.firstRead r dcu))
      | _ => none
  | .advance thread => advance tables s thread

/-- Nothing has been looked up yet. -/
def lookupStart : LookupState ι := ⟨fun _ => .sentinel, fun _ => .idle, []⟩

/-- Every call has returned what the table has for its reference. -/
def LookupsAgree (s : LookupState ι) : Prop :=
  ∀ call ∈ s.returned, call.result = (tables.find call.ref).map .tag

/-- At its second read a thread finds a tag, and one of the offset it looks for. -/
def Undisturbed (s : LookupState ι) : LookupEvent ι → Prop
  | .call _ _ => True
  | .advance thread =>
      match s.pc thread with
      | .secondRead r dcu => s.lastTypeLookup dcu ≠ .sentinel ∧
          (s.lastTypeLookup dcu).id = r.ref
      | _ => True

/-- The table selected, and the tag found, at a point of a call are those of its reference. -/
def LookupPc.Valid : LookupPc → Prop
  | .idle => True
  | .firstRead r dcu => tables.select r = some dcu
  | .secondRead r dcu => tables.select r = some dcu
  | .search r dcu => tables.select r = some dcu
  | .write r dcu dtag => tables.select r = some dcu ∧
      (tables.hashTypes dcu).find tables.bits r.ref = some dtag

/-- The pointers are to tags that a search for their offset finds. -/
structure LookupInv (s : LookupState ι) : Prop where
  last : ∀ dcu dtag, s.lastTypeLookup dcu = .tag dtag →
    (tables.hashTypes dcu).find tables.bits dtag.id = some dtag
  pcs : ∀ thread, (s.pc thread).Valid tables
  returned : LookupsAgree tables s

variable {tables} {s s' : LookupState ι}

theorem HashTable.id_of_find {bits : ℕ} {table : HashTable} {id : DwarfOff}
    {dtag : DwarfTag} (h : table.find bits id = some dtag) : dtag.id = id := by
  unfold HashTable.find at h
  split at h
  · simp at h
  · have hid := List.find?_some h
    exact of_decide_eq_true hid

theorem LookupTables.find_eq {r : TypeRef} {dcu : ℕ} (h : tables.select r = some dcu) :
    tables.find r = (tables.hashTypes dcu).find tables.bits r.ref := by
  unfold LookupTables.find
  rw [h]

theorem LookupInv.moveTo [DecidableEq ι] (h : LookupInv tables s) {thread : ι} {pc : LookupPc}
    (hpc : pc.Valid tables) : LookupInv tables (s.moveTo thread pc) where
  last := h.last
  pcs := by
    intro other
    by_cases hsame : other = thread
    · subst hsame
      simpa [LookupState.moveTo] using hpc
    · simpa [LookupState.moveTo, Function.update_of_ne hsame] using h.pcs other
  returned := h.returned

theorem LookupInv.finish [DecidableEq ι] (h : LookupInv tables s) {thread : ι} {r : TypeRef}
    {result : Option LastLookup} (hresult : result = (tables.find r).map .tag) :
    LookupInv tables (s.finish thread r result) where
  last := h.last
  pcs := (LookupInv.moveTo h (by trivial : LookupPc.idle.Valid tables)).pcs
  returned := by
    intro call hmem
    rcases List.mem_cons.mp hmem with rfl | hmem
    · exact hresult
    · exact h.returned call hmem

theorem LookupInv.store (h : LookupInv tables s) {dcu : ℕ} {dtag : DwarfTag}
    (hfind : (tables.hashTypes dcu).find tables.bits dtag.id = some dtag) :
    LookupInv tables (s.store dcu dtag) where
  last := by
    intro other dtag' hlast
    by_cases hsame : other = dcu
    · subst hsame
      have heq : LastLookup.tag dtag = .tag dtag' := by
        simpa [LookupState.store] using hlast
      obtain rfl := LastLookup.tag.inj heq
      exact hfind
    · refine h.last other dtag' ?_
      simpa [LookupState.store, Function.update_of_ne hsame] using hlast
  pcs := h.pcs
  returned := h.returned

/-- A second read that is not disturbed reads what a search would find. -/
theorem LookupInv.secondRead (h : LookupInv tables s) {r : TypeRef} {dcu : ℕ}
    (hselect : tables.select r = some dcu) (htag : s.lastTypeLookup dcu ≠ .sentinel)
    (hid : (s.lastTypeLookup dcu).id = r.ref) :
    some (s.lastTypeLookup dcu) = (tables.find r).map .tag := by
  cases hlast : s.lastTypeLookup dcu with
  | sentinel => exact absurd hlast htag
  | tag dtag =>
      rw [hlast] at hid
      have hfind := h.last dcu dtag hlast
      rw [show dtag.id = r.ref from hid] at hfind
      rw [LookupTables.find_eq hselect, hfind]
      rfl

theorem lookupInv_step [DecidableEq ι] {e : LookupEvent ι} (h : LookupInv tables s) (hcond : Undisturbed s e)
    (hstep : lookupStep tables s e = some s') : LookupInv tables s' := by
  cases e with
  | call thread r =>
      simp only [lookupStep] at hstep
      split at hstep
      · cases hselect : tables.select r with
        | none =>
            rw [hselect] at hstep
            obtain rfl := Option.some.inj hstep
            refine h.finish ?_
            simp [LookupTables.find, hselect]
        | some dcu =>
            rw [hselect] at hstep
            obtain rfl := Option.some.inj hstep
            exact h.moveTo hselect
      · simp at hstep
  | advance thread =>
      have hvalid := h.pcs thread
      simp only [lookupStep, advance] at hstep
      simp only [Undisturbed] at hcond
      cases hpc : s.pc thread with
      | idle => simp [hpc] at hstep
      | firstRead r dcu =>
          rw [hpc] at hstep hvalid
          dsimp only at hstep
          split at hstep
          · obtain rfl := Option.some.inj hstep
            exact h.moveTo hvalid
          · obtain rfl := Option.some.inj hstep
            exact h.moveTo hvalid
      | secondRead r dcu =>
          rw [hpc] at hstep hvalid hcond
          obtain rfl := Option.some.inj hstep
          exact h.finish (h.secondRead hvalid hcond.1 hcond.2)
      | search r dcu =>
          rw [hpc] at hstep hvalid
          dsimp only at hstep
          cases hfind : (tables.hashTypes dcu).find tables.bits r.ref with
          | none =>
              rw [hfind] at hstep
              obtain rfl := Option.some.inj hstep
              refine h.finish ?_
              rw [LookupTables.find_eq hvalid, hfind]
              rfl
          | some dtag =>
              rw [hfind] at hstep
              obtain rfl := Option.some.inj hstep
              exact h.moveTo ⟨hvalid, hfind⟩
      | write r dcu dtag =>
          rw [hpc] at hstep hvalid
          obtain rfl := Option.some.inj hstep
          obtain ⟨hselect, hfind⟩ := hvalid
          have hown : (tables.hashTypes dcu).find tables.bits dtag.id = some dtag := by
            rw [HashTable.id_of_find hfind]
            exact hfind
          refine (h.store hown).finish ?_
          rw [LookupTables.find_eq hselect, hfind]
          rfl

theorem lookupInv_start : LookupInv tables (lookupStart : LookupState ι) where
  last := by
    intro dcu dtag hlast
    nomatch hlast
  pcs := fun _ => trivial
  returned := by
    intro call hmem
    nomatch hmem

/-- On any threads and in any interleaving, if at each second read `last_type_lookup` still has
a tag of the offset looked for, every call returns what a search of the tables does. -/
theorem lookups_agree [DecidableEq ι] {es : List (LookupEvent ι)}
    (hrun : Run (lookupStep tables) Undisturbed lookupStart es s) : LookupsAgree tables s :=
  (hrun.invariant lookupInv_start fun _ _ _ h hcond hstep =>
    lookupInv_step h hcond hstep).returned

instance Undisturbed.decidable (s : LookupState ι) :
    (e : LookupEvent ι) → Decidable (Undisturbed s e)
  | .call _ _ => inferInstanceAs (Decidable True)
  | .advance thread =>
      match h : s.pc thread with
      | .secondRead r dcu =>
          decidable_of_iff (s.lastTypeLookup dcu ≠ .sentinel ∧
            (s.lastTypeLookup dcu).id = r.ref) (by simp [Undisturbed, h])
      | .idle => isTrue (by simp [Undisturbed, h])
      | .firstRead r dcu => isTrue (by simp [Undisturbed, h])
      | .search r dcu => isTrue (by simp [Undisturbed, h])
      | .write r dcu dtag => isTrue (by simp [Undisturbed, h])

end Machine

/-- A type unit, numbered zero, that has two types. -/
def twoTypes : LookupTables where
  bits := 12
  typeUnit := fun _ => some 0
  alt := fun _ => none
  hashTypes := fun _ =>
    (((HashTable.init 12).hash 12 ⟨0, 29, by decide⟩).bind
      (HashTable.hash 12 · ⟨1, 64, by decide⟩)).getD (HashTable.init 12)

/-- A reference of the CU of a thread into the type unit. -/
def twoTypesRef (dcu : ℕ) (ref : DwarfOff) : TypeRef := ⟨some dcu, ref, true, false⟩

/-- Two threads that look two types up one after the other get the right types. -/
theorem lookups_agree_twoTypes : ∃ s, Run (lookupStep twoTypes) Undisturbed
    (lookupStart : LookupState Bool)
    [.call true (twoTypesRef 1 29), .advance true, .advance true, .advance true,
      .call false (twoTypesRef 2 29), .advance false, .advance false] s ∧
    LookupsAgree twoTypes s := by
  have hrun : Run (lookupStep twoTypes) Undisturbed (lookupStart : LookupState Bool)
      [.call true (twoTypesRef 1 29), .advance true, .advance true, .advance true,
        .call false (twoTypesRef 2 29), .advance false, .advance false] _ :=
    Run.of_feed rfl
  exact ⟨_, hrun, lookups_agree hrun⟩

/-- The pointer that a thread has compared is not the one it returns: another thread
has stored its own in between. -/
theorem lookup_disturbed : ¬∀ s, Run (lookupStep twoTypes) (fun _ _ => True)
    (lookupStart : LookupState Bool)
    [.call true (twoTypesRef 1 29), .advance true, .advance true, .advance true,
      .call false (twoTypesRef 2 29), .call true (twoTypesRef 1 64),
      .advance true, .advance true, .advance false, .advance true, .advance false] s →
    LookupsAgree twoTypes s := by
  intro h
  have hrun : Run (lookupStep twoTypes) (fun _ _ => True) (lookupStart : LookupState Bool)
      [.call true (twoTypesRef 1 29), .advance true, .advance true, .advance true,
        .call false (twoTypesRef 2 29), .call true (twoTypesRef 1 64),
        .advance true, .advance true, .advance false, .advance true, .advance false] _ :=
    Run.of_feed rfl
  have hlast := h _ hrun ⟨false, twoTypesRef 2 29, some (.tag ⟨1, 64, by decide⟩)⟩
    (List.mem_cons_self ..)
  exact absurd hlast (by decide)

end Pahole
