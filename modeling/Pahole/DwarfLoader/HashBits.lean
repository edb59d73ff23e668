import Pahole.DwarfLoader.HashTags
import Pahole.Support.Transition

/-!
# The number of hash bits

`hashtags__bits` is one for the whole loader.  Loading merged CUs changes it, while the
tables of a type unit stay as they were allocated.
-/

namespace Pahole

open Transition

/-- The tables of a `dwarf_cu`. -/
inductive HashKind where
  | tags
  | types
  deriving DecidableEq

/-- A table, and the tags hashed into it and not pruned, the newest first. -/
structure LoggedTable where
  table : HashTable
  hashed : List DwarfTag

def LoggedTable.init (bits : ℕ) : LoggedTable := ⟨HashTable.init bits, []⟩

/-- `struct dwarf_cu`, as far as lookups are concerned. -/
structure DwarfCu where
  hashTags : LoggedTable
  hashTypes : LoggedTable
  typeUnit : Option ℕ
  alt : Option ℕ

namespace DwarfCu

def table (dcu : DwarfCu) : HashKind → LoggedTable
  | .tags => dcu.hashTags
  | .types => dcu.hashTypes

def setTable (dcu : DwarfCu) (kind : HashKind) (t : LoggedTable) : DwarfCu :=
  match kind with
  | .tags => { dcu with hashTags := t }
  | .types => { dcu with hashTypes := t }

/-- `dwarf_cu__init` -/
def init (bits : ℕ) : DwarfCu := ⟨.init bits, .init bits, none, none⟩

theorem table_setTable (dcu : DwarfCu) (kind kind' : HashKind) (t : LoggedTable) :
    (dcu.setTable kind t).table kind' = if kind' = kind then t else dcu.table kind' := by
  cases kind <;> cases kind' <;> rfl

@[simp] theorem typeUnit_setTable (dcu : DwarfCu) (kind : HashKind) (t : LoggedTable) :
    (dcu.setTable kind t).typeUnit = dcu.typeUnit := by
  cases kind <;> rfl

@[simp] theorem alt_setTable (dcu : DwarfCu) (kind : HashKind) (t : LoggedTable) :
    (dcu.setTable kind t).alt = dcu.alt := by
  cases kind <;> rfl

theorem table_withAlt (dcu : DwarfCu) (alt : Option ℕ) (kind : HashKind) :
    ({ dcu with alt := alt } : DwarfCu).table kind = dcu.table kind := by
  cases kind <;> rfl

end DwarfCu

/-- The phases of loading a file. -/
inductive LoadPhase where
  /-- no file, or loading was given up -/
  | idle
  | file
  /-- a module, before its CUs -/
  | module
  | units
  | merged
  deriving DecidableEq

structure LoaderState where
  hashtagsBits : ℕ
  maxHashtagsBits : ℕ
  phase : LoadPhase
  /-- the `dwarf_cu`s allocated so far have the numbers below `nrDcus` -/
  nrDcus : ℕ
  dcu : ℕ → DwarfCu
  /-- those whose DIEs are being processed or recoded -/
  loading : List ℕ
  typeDcu : Option ℕ

/-- An event of the loader that allocates, reads or changes tables. -/
inductive LoaderEvent where
  /-- `dwarf__load_file`, with the options of `conf_load` -/
  | loadFile (hashtableBits maxHashtableBits : ℕ)
  | module
  /-- `__cus__load_debug_types` finds a first type unit -/
  | loadDebugTypes
  | createCu
  /-- `cus__merge_and_process_cu`, with the numbers of hash bits for which tables can be
  allocated -/
  | mergeCus (allocates : ℕ → Bool) (withAlt : Bool)
  /-- `cu__hash` -/
  | hash (n : ℕ) (processingAlt : Bool) (kind : HashKind) (dtag : DwarfTag)
  /-- `__dwarf_cu__find_tag_by_ref` or `__dwarf_cu__find_type_by_ref` -/
  | find (n : ℕ) (kind : HashKind) (ref : DwarfOff) (fromTypes fromAlt : Bool)
  /-- `dwarf_cu__prune_unreferenced_alt_pus` -/
  | prune (n : ℕ) (hit : DwarfOff → Bool)

/-- The loop of `cus__merge_and_process_cu` from that many bits down. -/
def mergedBits (allocates : ℕ → Bool) (defaultHbits : ℕ) : ℕ → Option ℕ
  | 0 => if defaultHbits ≤ 0 ∧ allocates 0 then some 0 else none
  | bits + 1 =>
      if bits + 1 < defaultHbits then none
      else if allocates (bits + 1) then some (bits + 1)
      else mergedBits allocates defaultHbits bits

namespace LoaderState

/-- `hashtags__bits` and `max_hashtags__bits` as they are initialised. -/
def start : LoaderState where
  hashtagsBits := 12
  maxHashtagsBits := 21
  phase := .idle
  nrDcus := 0
  dcu := fun _ => .init 0
  loading := []
  typeDcu := none

/-- `max_hashtags__bits` under the option for it. -/
def cap (s : LoaderState) (maxHashtableBits : ℕ) : ℕ :=
  if maxHashtableBits ≠ 0 then maxHashtableBits else s.maxHashtagsBits

/-- The options are checked before anything is loaded. -/
def loadFile (s : LoaderState) (hashtableBits maxHashtableBits : ℕ) : LoaderState :=
  let idle := { s with phase := .idle, loading := [], typeDcu := none }
  if 31 < maxHashtableBits then idle
  else
    let capped := { idle with maxHashtagsBits := s.cap maxHashtableBits }
    if hashtableBits ≠ 0 then
      if s.cap maxHashtableBits < hashtableBits then capped
      else { capped with hashtagsBits := hashtableBits, phase := .file }
    else if s.cap maxHashtableBits < s.hashtagsBits then capped
    else { capped with phase := .file }

/-- The `dwarf_cu` with the next number. -/
def allocate (s : LoaderState) (dcu : DwarfCu) : LoaderState :=
  { s with nrDcus := s.nrDcus + 1, dcu := Function.update s.dcu s.nrDcus dcu }

def setDcu (s : LoaderState) (n : ℕ) (dcu : DwarfCu) : LoaderState :=
  { s with dcu := Function.update s.dcu n dcu }

/-- "Funny hack": a type unit is its own type unit. -/
def loadDebugTypes (s : LoaderState) : LoaderState :=
  { s.allocate { DwarfCu.init s.hashtagsBits with typeUnit := some s.nrDcus } with
    loading := [s.nrDcus]
    typeDcu := some s.nrDcus }

/-- `dwarf_cus__create_cu` -/
def createCu (s : LoaderState) : LoaderState :=
  { s.allocate { DwarfCu.init s.hashtagsBits with typeUnit := s.typeDcu } with
    phase := .units
    loading := s.nrDcus :: s.loading }

/-- The number of hash bits stays as the loop leaves it, also when no table could be
allocated. -/
def mergeCus (s : LoaderState) (allocates : ℕ → Bool) (withAlt : Bool) : LoaderState :=
  match mergedBits allocates s.hashtagsBits s.maxHashtagsBits with
  | none =>
      { s with
        hashtagsBits := s.hashtagsBits - 1
        phase := .idle
        loading := []
        typeDcu := none }
  | some bits =>
      let merged := { s with hashtagsBits := bits, phase := .merged, loading := [s.nrDcus] }
      let withCu := merged.allocate { DwarfCu.init bits with typeUnit := s.typeDcu }
      if withAlt then
        let withBoth := withCu.allocate (.init bits)
        withBoth.setDcu s.nrDcus { withBoth.dcu s.nrDcus with alt := some withCu.nrDcus }
      else withCu

/-- The `dwarf_cu` that `cu__hash` hashes into. -/
def target (s : LoaderState) (n : ℕ) (processingAlt : Bool) : ℕ :=
  if processingAlt then (s.dcu n).alt.getD n else n

/-- The `dwarf_cu` that a reference is looked up in. -/
def selects (s : LoaderState) (n : ℕ) (kind : HashKind) (fromTypes fromAlt : Bool) :
    Option ℕ :=
  if fromTypes then
    match kind with
    | .tags => none
    | .types => (s.dcu n).typeUnit
  else if fromAlt then (s.dcu n).alt
  else some n

/-- A tag is hashed, unless its bucket is outside the table. -/
def hash (s : LoaderState) (n : ℕ) (kind : HashKind) (dtag : DwarfTag) :
    Option LoaderState :=
  (((s.dcu n).table kind).table.hash s.hashtagsBits dtag).map fun table =>
    s.setDcu n ((s.dcu n).setTable kind ⟨table, dtag :: ((s.dcu n).table kind).hashed⟩)

def pruneTable (s : LoaderState) (hit : DwarfOff → Bool) (n : ℕ) (kind : HashKind) :
    LoaderState :=
  s.setDcu n ((s.dcu n).setTable kind
    ⟨((s.dcu n).table kind).table.prune s.hashtagsBits hit,
      ((s.dcu n).table kind).hashed.filter fun dtag => hit dtag.id⟩)

def prune (s : LoaderState) (hit : DwarfOff → Bool) (n : ℕ) : LoaderState :=
  match (s.dcu n).alt with
  | none => s
  | some a => (s.pruneTable hit a .types).pruneTable hit a .tags

/-- The event may occur in the state: lookups and hashing are for CUs that are being loaded, and
pruning is for merged ones. -/
def Enabled (s : LoaderState) : LoaderEvent → Prop
  | .loadFile _ _ => True
  | .module => s.phase ≠ .idle
  | .loadDebugTypes => s.phase = .module ∧ s.typeDcu = none
  | .createCu => s.phase = .module ∨ s.phase = .units
  | .mergeCus _ _ => s.phase = .module
  | .hash n _ _ _ => n ∈ s.loading
  | .find n _ _ _ _ => n ∈ s.loading
  | .prune n _ => n ∈ s.loading ∧ s.phase = .merged

instance (s : LoaderState) : (e : LoaderEvent) → Decidable (s.Enabled e)
  | .loadFile _ _ => inferInstanceAs (Decidable True)
  | .module => inferInstanceAs (Decidable (_ ≠ _))
  | .loadDebugTypes => inferInstanceAs (Decidable (_ ∧ _))
  | .createCu => inferInstanceAs (Decidable (_ ∨ _))
  | .mergeCus _ _ => inferInstanceAs (Decidable (_ = _))
  | .hash _ _ _ _ => inferInstanceAs (Decidable (_ ∈ _))
  | .find _ _ _ _ _ => inferInstanceAs (Decidable (_ ∈ _))
  | .prune _ _ => inferInstanceAs (Decidable (_ ∧ _))

/-- The state after an event.  A run ends at a tag whose bucket is outside its table. -/
def step (s : LoaderState) (e : LoaderEvent) : Option LoaderState :=
  if s.Enabled e then
    match e with
    | .loadFile hashtableBits maxHashtableBits =>
        some (s.loadFile hashtableBits maxHashtableBits)
    | .module => some { s with phase := .module, loading := [], typeDcu := none }
    | .loadDebugTypes => some s.loadDebugTypes
    | .createCu => some s.createCu
    | .mergeCus allocates withAlt => some (s.mergeCus allocates withAlt)
    | .hash n processingAlt kind dtag => s.hash (s.target n processingAlt) kind dtag
    | .find .. => some s
    | .prune n hit => some (s.prune hit n)
  else none

/-- Buckets are inside the table of the `dwarf_cu`, and a lookup finds what was hashed
for its offset and not pruned. -/
def Coherent (s : LoaderState) : LoaderEvent → Prop
  | .hash n processingAlt kind dtag =>
      hashtagsFn s.hashtagsBits dtag.id <
        ((s.dcu (s.target n processingAlt)).table kind).table.nrBuckets
  | .find n kind ref fromTypes fromAlt =>
      ∀ m, s.selects n kind fromTypes fromAlt = some m →
        hashtagsFn s.hashtagsBits ref < ((s.dcu m).table kind).table.nrBuckets ∧
        ((s.dcu m).table kind).table.find s.hashtagsBits ref =
          ((s.dcu m).table kind).hashed.find? fun dtag => dtag.id = ref
  | .prune n _ => ∀ a kind, (s.dcu n).alt = some a → ∀ i < 2 ^ s.hashtagsBits,
      i < ((s.dcu a).table kind).table.nrBuckets
  | _ => True

/-- Tables are allocated for one hash bit at least, and a reference into the type unit
is looked up under the hash bits that its tables were allocated for. -/
def SameBits (s : LoaderState) : LoaderEvent → Prop
  | .loadDebugTypes => 0 < s.hashtagsBits
  | .createCu => 0 < s.hashtagsBits
  | .mergeCus allocates _ => mergedBits allocates s.hashtagsBits s.maxHashtagsBits ≠ some 0
  | .find n .types _ true _ => ∀ t, (s.dcu n).typeUnit = some t →
      (s.dcu t).hashTypes.table.bits = s.hashtagsBits
  | _ => True

instance (s : LoaderState) : (e : LoaderEvent) → Decidable (s.SameBits e)
  | .loadDebugTypes => inferInstanceAs (Decidable (_ < _))
  | .createCu => inferInstanceAs (Decidable (_ < _))
  | .mergeCus _ _ => inferInstanceAs (Decidable (_ ≠ _))
  | .find n .types _ true _ =>
      inferInstanceAs (Decidable (∀ t ∈ (s.dcu n).typeUnit,
        (s.dcu t).hashTypes.table.bits = s.hashtagsBits))
  | .loadFile .. => isTrue trivial
  | .module => isTrue trivial
  | .hash .. => isTrue trivial
  | .find _ .tags _ _ _ => isTrue trivial
  | .find _ .types _ false _ => isTrue trivial
  | .prune .. => isTrue trivial

/-! ## Invariants of the tables -/

/-- All tables of a `dwarf_cu` were allocated for the current hash bits. -/
def Sized (s : LoaderState) (n : ℕ) : Prop :=
  n < s.nrDcus ∧ ∀ kind, ((s.dcu n).table kind).table.bits = s.hashtagsBits

structure HashInv (s : LoaderState) : Prop where
  max : s.maxHashtagsBits < 32
  bits : s.phase ≠ .idle → s.hashtagsBits ≤ s.maxHashtagsBits
  tables : ∀ n < s.nrDcus, ∀ kind,
    ((s.dcu n).table kind).table.Holds ((s.dcu n).table kind).hashed
  loading : ∀ n ∈ s.loading, s.Sized n
  alts : ∀ n ∈ s.loading, ∀ a, (s.dcu n).alt = some a → s.Sized a
  typeUnits : ∀ n ∈ s.loading, ∀ t, (s.dcu n).typeUnit = some t → t < s.nrDcus
  typeDcu : ∀ t, s.typeDcu = some t → t < s.nrDcus

section Steps

variable {s s' : LoaderState}

/-- With no `dwarf_cu` being loaded, the invariant depends on the options and the tables only.
-/
theorem HashInv.unload (h : HashInv s) (hnr : s'.nrDcus = s.nrDcus) (hdcu : s'.dcu = s.dcu)
    (hloading : s'.loading = []) (htype : s'.typeDcu = none) (hmax : s'.maxHashtagsBits < 32)
    (hbits : s'.phase ≠ .idle → s'.hashtagsBits ≤ s'.maxHashtagsBits) : HashInv s' where
  max := hmax
  bits := hbits
  tables := by
    rw [hnr, hdcu]
    exact h.tables
  loading := by simp [hloading]
  alts := by simp [hloading]
  typeUnits := by simp [hloading]
  typeDcu := by simp [htype]

theorem hashInv_loadFile (h : HashInv s) (hashtableBits maxHashtableBits : ℕ) :
    HashInv (s.loadFile hashtableBits maxHashtableBits) := by
  have hmax := h.max
  unfold loadFile
  dsimp only
  split
  · exact h.unload rfl rfl rfl rfl hmax (fun hidle => absurd rfl hidle)
  · have hcap : s.cap maxHashtableBits < 32 := by
      unfold cap
      split <;> omega
    split
    · split
      · exact h.unload rfl rfl rfl rfl hcap (fun hidle => absurd rfl hidle)
      · rename_i hle
        exact h.unload rfl rfl rfl rfl hcap (fun _ => not_lt.mp hle)
    · split
      · exact h.unload rfl rfl rfl rfl hcap (fun hidle => absurd rfl hidle)
      · rename_i hle
        exact h.unload rfl rfl rfl rfl hcap (fun _ => not_lt.mp hle)

theorem dcu_allocate_of_lt {d : DwarfCu} {n : ℕ} (hn : n < s.nrDcus) :
    (s.allocate d).dcu n = s.dcu n :=
  Function.update_of_ne (by omega) _ _

@[simp] theorem dcu_allocate_self (d : DwarfCu) : (s.allocate d).dcu s.nrDcus = d :=
  Function.update_self _ _ _

/-- Allocating a `dwarf_cu` with empty tables leaves every table with what it logs. -/
theorem tables_allocate {d : DwarfCu} {bits : ℕ}
    (h : ∀ n < s.nrDcus, ∀ kind,
      ((s.dcu n).table kind).table.Holds ((s.dcu n).table kind).hashed)
    (hd : ∀ kind, d.table kind = .init bits) (hpos : 0 < bits) (hlt : bits < 32) :
    ∀ n < (s.allocate d).nrDcus, ∀ kind, (((s.allocate d).dcu n).table kind).table.Holds
      (((s.allocate d).dcu n).table kind).hashed := by
  intro n hn kind
  rcases Nat.lt_succ_iff_lt_or_eq.mp hn with hold | rfl
  · rw [dcu_allocate_of_lt hold]
    exact h n hold kind
  · rw [dcu_allocate_self, hd]
    exact HashTable.holds_init hpos hlt

theorem sized_allocate_of_lt {d : DwarfCu} {n : ℕ} (h : s.Sized n) : (s.allocate d).Sized n := by
  refine ⟨Nat.lt_succ_of_lt h.1, fun kind => ?_⟩
  rw [dcu_allocate_of_lt h.1]
  exact h.2 kind

theorem sized_allocate_self {d : DwarfCu} (hd : ∀ kind, d.table kind = .init s.hashtagsBits) :
    (s.allocate d).Sized s.nrDcus := by
  refine ⟨Nat.lt_succ_self _, fun kind => ?_⟩
  rw [dcu_allocate_self, hd]
  rfl

theorem table_init (bits : ℕ) (typeUnit alt : Option ℕ) (kind : HashKind) :
    ({ DwarfCu.init bits with typeUnit := typeUnit, alt := alt } : DwarfCu).table kind =
      .init bits := by
  cases kind <;> rfl

/-- Allocating a `dwarf_cu` with empty tables keeps the invariant. -/
theorem HashInv.allocate (h : HashInv s) {d : DwarfCu} {phase : LoadPhase}
    {loading : List ℕ} {typeDcu : Option ℕ} (hphase : s.phase ≠ .idle)
    (hpos : 0 < s.hashtagsBits) (hd : ∀ kind, d.table kind = .init s.hashtagsBits)
    (halt : d.alt = none) (htype : ∀ t, d.typeUnit = some t → t < s.nrDcus + 1)
    (hloading : ∀ n ∈ loading, n = s.nrDcus ∨ n ∈ s.loading)
    (htypeDcu : ∀ t, typeDcu = some t → t < s.nrDcus + 1) :
    HashInv { s.allocate d with phase := phase, loading := loading, typeDcu := typeDcu } where
  max := h.max
  bits := fun _ => h.bits hphase
  tables := tables_allocate h.tables hd hpos (lt_of_le_of_lt (h.bits hphase) h.max)
  loading := by
    intro n hn
    rcases hloading n hn with rfl | hold
    · exact sized_allocate_self hd
    · exact sized_allocate_of_lt (h.loading n hold)
  alts := by
    intro n hn a ha
    change ((s.allocate d).dcu n).alt = some a at ha
    rcases hloading n hn with rfl | hold
    · rw [dcu_allocate_self, halt] at ha
      nomatch ha
    · rw [dcu_allocate_of_lt (h.loading n hold).1] at ha
      exact sized_allocate_of_lt (h.alts n hold a ha)
  typeUnits := by
    intro n hn t ht
    change ((s.allocate d).dcu n).typeUnit = some t at ht
    rcases hloading n hn with rfl | hold
    · rw [dcu_allocate_self] at ht
      exact htype t ht
    · rw [dcu_allocate_of_lt (h.loading n hold).1] at ht
      exact Nat.lt_succ_of_lt (h.typeUnits n hold t ht)
  typeDcu := htypeDcu

theorem mergedBits_le {allocates : ℕ → Bool} {defaultHbits max bits : ℕ}
    (h : mergedBits allocates defaultHbits max = some bits) : bits ≤ max := by
  induction max with
  | zero =>
      unfold mergedBits at h
      split at h
      · exact le_of_eq (Option.some.inj h).symm
      · nomatch h
  | succ max ih =>
      unfold mergedBits at h
      split at h
      · nomatch h
      · split at h
        · exact le_of_eq (Option.some.inj h).symm
        · exact Nat.le_succ_of_le (ih h)

/-- Replacing a `dwarf_cu` by one with tables of the same sizes keeps the invariant. -/
theorem HashInv.setDcu (h : HashInv s) {n : ℕ} {d : DwarfCu}
    (hholds : ∀ kind, (d.table kind).table.Holds (d.table kind).hashed)
    (hbits : ∀ kind, (d.table kind).table.bits = ((s.dcu n).table kind).table.bits)
    (htype : d.typeUnit = (s.dcu n).typeUnit)
    (halt : ∀ a, d.alt = some a → (s.dcu n).alt = some a ∨ s.Sized a) :
    HashInv (s.setDcu n d) := by
  have hdcu : ∀ m, (s.setDcu n d).dcu m = if m = n then d else s.dcu m := by
    intro m
    by_cases hm : m = n
    · subst hm
      simp [LoaderState.setDcu]
    · simp [LoaderState.setDcu, hm]
  have hsized : ∀ m, s.Sized m → (s.setDcu n d).Sized m := by
    intro m hm
    refine ⟨hm.1, fun kind => ?_⟩
    rw [hdcu]
    split
    · rename_i hsame
      subst hsame
      exact (hbits kind).trans (hm.2 kind)
    · exact hm.2 kind
  exact {
    max := h.max
    bits := h.bits
    tables := by
      intro m hm kind
      rw [hdcu]
      split
      · exact hholds kind
      · exact h.tables m hm kind
    loading := fun m hm => hsized m (h.loading m hm)
    alts := by
      intro m hm a ha
      rw [hdcu] at ha
      split at ha
      · rename_i hsame
        subst hsame
        rcases halt a ha with hold | hnew
        · exact hsized a (h.alts m hm a hold)
        · exact hsized a hnew
      · exact hsized a (h.alts m hm a ha)
    typeUnits := by
      intro m hm u hu
      rw [hdcu] at hu
      split at hu
      · rename_i hsame
        subst hsame
        exact h.typeUnits m hm u (htype ▸ hu)
      · exact h.typeUnits m hm u hu
    typeDcu := h.typeDcu }

/-- Replacing a table by one of as many bits that holds what it logs keeps the invariant. -/
theorem HashInv.setTable (h : HashInv s) {n : ℕ} (hn : n < s.nrDcus) {kind : HashKind}
    {t : LoggedTable} (hholds : t.table.Holds t.hashed)
    (hbits : t.table.bits = ((s.dcu n).table kind).table.bits) :
    HashInv (s.setDcu n ((s.dcu n).setTable kind t)) := by
  refine h.setDcu (fun kind' => ?_) (fun kind' => ?_) (DwarfCu.typeUnit_setTable _ _ _)
    fun a ha => Or.inl ((DwarfCu.alt_setTable _ _ _).symm.trans ha)
  · rw [DwarfCu.table_setTable]
    split
    · exact hholds
    · exact h.tables n hn kind'
  · rw [DwarfCu.table_setTable]
    split
    · rename_i hsame
      rw [hsame]
      exact hbits
    · rfl

theorem hashInv_mergeCus (h : HashInv s) {allocates : ℕ → Bool} {withAlt : Bool}
    (hpos : mergedBits allocates s.hashtagsBits s.maxHashtagsBits ≠ some 0) :
    HashInv (s.mergeCus allocates withAlt) := by
  unfold mergeCus
  cases hbits : mergedBits allocates s.hashtagsBits s.maxHashtagsBits with
  | none => exact h.unload rfl rfl rfl rfl h.max fun hidle => absurd rfl hidle
  | some bits =>
      have hle := mergedBits_le hbits
      have hbpos : 0 < bits := by
        rcases Nat.eq_zero_or_pos bits with rfl | hp
        · exact absurd hbits hpos
        · exact hp
      have hblt : bits < 32 := lt_of_le_of_lt hle h.max
      have hstart : HashInv { s with
          hashtagsBits := bits
          phase := .merged
          loading := []
          typeDcu := none } :=
        h.unload rfl rfl rfl rfl h.max fun _ => hle
      cases withAlt with
      | false =>
          exact hstart.allocate (by simp) hbpos (table_init bits _ _) rfl
            (fun t ht => Nat.lt_succ_of_lt (h.typeDcu t ht)) (fun n hn => by simpa using hn)
            (fun t ht => Nat.lt_succ_of_lt (h.typeDcu t ht))
      | true =>
          have hcu := @HashInv.allocate _ hstart _ .merged [s.nrDcus]
            s.typeDcu (by simp) hbpos (table_init bits s.typeDcu none) rfl
            (fun t ht => Nat.lt_succ_of_lt (h.typeDcu t ht)) (fun n hn => by simpa using hn)
            (fun t ht => Nat.lt_succ_of_lt (h.typeDcu t ht))
          have hboth := @HashInv.allocate _ hcu _ .merged [s.nrDcus] s.typeDcu
            (by simp) hbpos (table_init bits none none) rfl (fun t ht => nomatch ht)
            (fun n hn => Or.inr hn)
            (fun t ht => Nat.lt_succ_of_lt (Nat.lt_succ_of_lt (h.typeDcu t ht)))
          have hold : s.nrDcus < s.nrDcus + 1 + 1 := by omega
          refine hboth.setDcu (fun kind => ?_) (fun kind => ?_) rfl fun a ha => Or.inr ?_
          · rw [DwarfCu.table_withAlt]
            exact hboth.tables s.nrDcus hold kind
          · rw [DwarfCu.table_withAlt]
            rfl
          · obtain rfl := Option.some.inj ha
            exact sized_allocate_self (table_init bits none none)

/-- A tag that can be hashed is hashed into the table. -/
theorem hashInv_hash (h : HashInv s) {n : ℕ} {kind : HashKind} {dtag : DwarfTag}
    (hn : s.Sized n) (hhash : s.hash n kind dtag = some s') : HashInv s' := by
  obtain ⟨table, htable, hbits, hholds⟩ := (h.tables n hn.1 kind).hash dtag
  rw [hn.2 kind] at htable
  unfold hash at hhash
  rw [htable, Option.map_some] at hhash
  obtain rfl := Option.some.inj hhash
  exact h.setTable hn.1 hholds hbits

theorem hashInv_pruneTable (h : HashInv s) {hit : DwarfOff → Bool} {n : ℕ} {kind : HashKind}
    (hn : s.Sized n) : HashInv (s.pruneTable hit n kind) := by
  have hprune := (h.tables n hn.1 kind).prune hit
  rw [hn.2 kind] at hprune
  exact h.setTable hn.1 hprune rfl

theorem sized_pruneTable {hit : DwarfOff → Bool} {n : ℕ} {kind : HashKind}
    (hn : s.Sized n) : (s.pruneTable hit n kind).Sized n := by
  refine ⟨hn.1, fun kind' => ?_⟩
  simp only [pruneTable, LoaderState.setDcu, Function.update_self, DwarfCu.table_setTable]
  split
  · rename_i hsame
    subst hsame
    exact hn.2 _
  · exact hn.2 kind'

theorem hashInv_prune (h : HashInv s) {hit : DwarfOff → Bool} {n : ℕ}
    (hn : n ∈ s.loading) : HashInv (s.prune hit n) := by
  unfold prune
  cases halt : (s.dcu n).alt with
  | none => exact h
  | some a =>
      have ha := h.alts n hn a halt
      exact hashInv_pruneTable (hashInv_pruneTable h ha) (sized_pruneTable ha)

theorem HashInv.sized_target (h : HashInv s) {n : ℕ} (hn : n ∈ s.loading)
    (processingAlt : Bool) : s.Sized (s.target n processingAlt) := by
  unfold target
  cases processingAlt with
  | false => exact h.loading n hn
  | true =>
      cases halt : (s.dcu n).alt with
      | none => simpa [halt] using h.loading n hn
      | some a => simpa [halt] using h.alts n hn a halt

/-- Every event keeps the tables coherent that it meets. -/
theorem hashInv_step (h : HashInv s) {e : LoaderEvent} (hcond : s.SameBits e)
    (hstep : s.step e = some s') : HashInv s' := by
  unfold step at hstep
  split at hstep
  · rename_i henabled
    cases e with
    | loadFile hashtableBits maxHashtableBits =>
        obtain rfl := Option.some.inj hstep
        exact hashInv_loadFile h _ _
    | module =>
        obtain rfl := Option.some.inj hstep
        exact h.unload rfl rfl rfl rfl h.max fun _ => h.bits henabled
    | loadDebugTypes =>
        obtain rfl := Option.some.inj hstep
        refine h.allocate ?_ hcond (table_init _ _ _) rfl (fun t ht => ?_)
          (fun n hn => Or.inl (List.mem_singleton.mp hn)) fun t ht => ?_
        · rw [henabled.1]
          decide
        · exact lt_of_eq_of_lt (Option.some.inj ht).symm (Nat.lt_succ_self _)
        · exact lt_of_eq_of_lt (Option.some.inj ht).symm (Nat.lt_succ_self _)
    | createCu =>
        obtain rfl := Option.some.inj hstep
        refine h.allocate ?_ hcond (table_init _ _ _) rfl
          (fun t ht => Nat.lt_succ_of_lt (h.typeDcu t ht)) (fun n hn => List.mem_cons.mp hn)
          fun t ht => Nat.lt_succ_of_lt (h.typeDcu t ht)
        rcases henabled with hphase | hphase
        · rw [hphase]
          decide
        · rw [hphase]
          decide
    | mergeCus allocates withAlt =>
        obtain rfl := Option.some.inj hstep
        exact hashInv_mergeCus h hcond
    | hash n processingAlt kind dtag =>
        exact hashInv_hash h (h.sized_target henabled processingAlt) hstep
    | find n kind ref fromTypes fromAlt =>
        obtain rfl := Option.some.inj hstep
        exact h
    | prune n hit =>
        obtain rfl := Option.some.inj hstep
        exact hashInv_prune h henabled.1
  · nomatch hstep

theorem hashInv_start : HashInv start where
  max := by decide
  bits := fun _ => by decide
  tables := fun n hn => absurd hn (Nat.not_lt_zero n)
  loading := by simp [start]
  alts := by simp [start]
  typeUnits := by simp [start]
  typeDcu := by simp [start]

theorem coherent_find {m : ℕ} {kind : HashKind} {ref : DwarfOff} (h : HashInv s)
    (hm : m < s.nrDcus) (hbits : ((s.dcu m).table kind).table.bits = s.hashtagsBits) :
    hashtagsFn s.hashtagsBits ref < ((s.dcu m).table kind).table.nrBuckets ∧
      ((s.dcu m).table kind).table.find s.hashtagsBits ref =
        ((s.dcu m).table kind).hashed.find? fun dtag => dtag.id = ref := by
  have hholds := h.tables m hm kind
  rw [← hbits]
  exact ⟨hholds.inBounds ref, hholds.find ref⟩

theorem coherent_of_inv (h : HashInv s) {e : LoaderEvent} (henabled : s.Enabled e)
    (hcond : s.SameBits e) : s.Coherent e := by
  cases e with
  | hash n processingAlt kind dtag =>
      have hsized := h.sized_target henabled processingAlt
      have hin := (h.tables _ hsized.1 kind).inBounds dtag.id
      rw [hsized.2 kind] at hin
      exact hin
  | find n kind ref fromTypes fromAlt =>
      intro m hm
      unfold selects at hm
      cases fromTypes with
      | true =>
          cases kind with
          | tags => nomatch hm
          | types =>
              exact coherent_find h (h.typeUnits n henabled m hm) (hcond m hm)
      | false =>
          cases fromAlt with
          | true =>
              have hsized := h.alts n henabled m hm
              exact coherent_find h hsized.1 (hsized.2 kind)
          | false =>
              obtain rfl := Option.some.inj hm
              have hsized := h.loading n henabled
              exact coherent_find h hsized.1 (hsized.2 kind)
  | prune n hit =>
      intro a kind ha i hi
      rw [HashTable.nrBuckets, (h.alts n henabled.1 a ha).2 kind]
      exact hi
  | _ => trivial

end Steps

/-- In every run in which references into type units are looked up under the hash bits that
their tables were allocated for, every bucket is inside its table, and a lookup finds what was
hashed and not pruned. -/
theorem tables_coherent {es : List LoaderEvent} {s : LoaderState}
    (hrun : Run step SameBits start es s) {e : LoaderEvent} (henabled : s.Enabled e)
    (hcond : s.SameBits e) : s.Coherent e :=
  coherent_of_inv (hrun.invariant hashInv_start fun _ _ _ h hmeets hstep =>
    hashInv_step h hmeets hstep) henabled hcond

/-- A reference from a CU into a type unit loaded with as many hash bits is found. -/
theorem tables_coherent_createCu : ∃ s, Run step SameBits start
    [.loadFile 0 0, .module, .loadDebugTypes, .hash 0 false .types ⟨0, 29, by decide⟩,
      .createCu] s ∧
    s.Enabled (.find 1 .types 29 true false) ∧ s.SameBits (.find 1 .types 29 true false) ∧
    s.Coherent (.find 1 .types 29 true false) := by
  have hrun : Run step SameBits start
      [.loadFile 0 0, .module, .loadDebugTypes, .hash 0 false .types ⟨0, 29, by decide⟩,
        .createCu] _ := Run.of_feed rfl
  refine ⟨_, hrun, List.mem_cons_self .., ?_,
    tables_coherent hrun (List.mem_cons_self ..) ?_⟩
  · intro t ht
    obtain rfl := Option.some.inj (show some 0 = some t from ht)
    rfl
  · intro t ht
    obtain rfl := Option.some.inj (show some 0 = some t from ht)
    rfl

/-- A reference of a merged CU into a type unit is looked up in a bucket far outside the
tables of the type unit. -/
theorem mergeCus_outOfBounds : ¬∀ s, Run step (fun _ _ => True) start
    [.loadFile 0 0, .module, .loadDebugTypes, .hash 0 false .types ⟨0, 29, by decide⟩,
      .mergeCus (fun _ => true) false] s →
    s.Enabled (.find 1 .types 29 true false) → s.Coherent (.find 1 .types 29 true false) := by
  intro h
  have hrun : Run step (fun _ _ => True) start
      [.loadFile 0 0, .module, .loadDebugTypes, .hash 0 false .types ⟨0, 29, by decide⟩,
        .mergeCus (fun _ => true) false] _ := Run.of_feed rfl
  have hin := (h _ hrun (List.mem_singleton.mpr rfl) 0 rfl).1
  have hlt : hashtagsFn 21 29 < 2 ^ 12 := hin
  exact absurd hlt (by decide)

end LoaderState

end Pahole
