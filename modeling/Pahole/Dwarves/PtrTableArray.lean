import Pahole.Dwarves.PtrTable
import Pahole.Support.Transition

/-!
# The memory of a pointer table

`ptr_table__add` makes the array longer by a fixed number of entries, and
`ptr_table__add_with_id` by what an id calls for, rounded up.  The sizes are computed in 32
bits: an id among the last 2048 asks for an array of no entries.
-/

namespace Pahole

open Transition

/-- `struct ptr_table`, with the entries that are allocated. -/
structure PtrTableArray (α : Type) where
  entries : List (Option α)
  nrEntries : UInt32
  allocatedEntries : UInt32

/-- The calls, with whether there is memory for a longer array. -/
inductive PtrTableCall (α : Type) where
  | add (ptr : Option α) (memory : Bool)
  | addWithId (ptr : Option α) (id : UInt32) (memory : Bool)

/-- `roundup(x, 2048)` -/
def roundup2048 (x : UInt32) : UInt32 := (x + 2047) / 2048 * 2048

namespace PtrTableArray

variable {α : Type}

/-- `ptr_table__init` -/
def init : PtrTableArray α := ⟨[], 0, 0⟩

/-- `ptr_table__entry` -/
def entry (pt : PtrTableArray α) (id : UInt32) : Option α :=
  if id ≥ pt.nrEntries then none else pt.entries[id.toNat]?.join

/-- The array for `n` entries, the new ones zeroed. -/
def lengthened (pt : PtrTableArray α) (n : UInt32) : PtrTableArray α :=
  { pt with
    entries := pt.entries ++ List.replicate (n - pt.allocatedEntries).toNat none
    allocatedEntries := n }

/-- Go on with an array for `n` entries, if there is memory.  What `realloc` does for no
entries is undefined, and so is zeroing a range behind the end. -/
def grow (pt : PtrTableArray α) (n : UInt32) (memory : Bool)
    (rest : PtrTableArray α → Option (PtrTableArray α × Option UInt32)) :
    Option (PtrTableArray α × Option UInt32) :=
  if n = 0 then none
  else if memory then
    if n < pt.allocatedEntries then none else rest (pt.lengthened n)
  else some (pt, none)

/-- Write an entry.  The index is returned. -/
def store (pt : PtrTableArray α) (ptr : Option α) (id nrEntries : UInt32) :
    Option (PtrTableArray α × Option UInt32) :=
  if id.toNat < pt.entries.length then
    some ({ pt with entries := pt.entries.set id.toNat ptr, nrEntries := nrEntries }, some id)
  else none

/-- `ptr_table__add` -/
def add (pt : PtrTableArray α) (ptr : Option α) (memory : Bool) :
    Option (PtrTableArray α × Option UInt32) :=
  let nrEntries := pt.nrEntries + 1
  let rc := pt.nrEntries
  if nrEntries > pt.allocatedEntries then
    pt.grow (pt.allocatedEntries + 2048) memory fun pt => pt.store ptr rc nrEntries
  else pt.store ptr rc nrEntries

/-- `ptr_table__add_with_id` -/
def addWithId (pt : PtrTableArray α) (ptr : Option α) (id : UInt32) (memory : Bool) :
    Option (PtrTableArray α × Option UInt32) :=
  let nrEntries := if id ≥ pt.nrEntries then id + 1 else pt.nrEntries
  if id ≥ pt.allocatedEntries then
    pt.grow (roundup2048 (id + 1)) memory fun pt => pt.store ptr id nrEntries
  else pt.store ptr id nrEntries

def call (pt : PtrTableArray α) : PtrTableCall α → Option (PtrTableArray α × Option UInt32)
  | .add ptr memory => pt.add ptr memory
  | .addWithId ptr id memory => pt.addWithId ptr id memory

end PtrTableArray

def PtrTableCall.ptr {α : Type} : PtrTableCall α → Option α
  | .add ptr _ => ptr
  | .addWithId ptr _ _ => ptr

/-! ## The map -/

/-- A table, and the map that the calls so far stand for. -/
structure TrackedTable (α : Type) where
  table : PtrTableArray α
  map : UInt32 → Option α

namespace TrackedTable

variable {α : Type}

def init : TrackedTable α := ⟨.init, fun _ => none⟩

/-- The map after a call that has stored to an index, or has failed. -/
def stored (t : TrackedTable α) (ptr : Option α) : Option UInt32 → UInt32 → Option α
  | none => t.map
  | some id => Function.update t.map id ptr

/-- The table and the map after a call. -/
def next (t : TrackedTable α) (c : PtrTableCall α) : TrackedTable α :=
  match t.table.call c with
  | none => t
  | some (table, result) => ⟨table, t.stored c.ptr result⟩

/-- The call returns, the array has as many entries as are allocated, and its entries are those
of the map that the call makes. -/
def Serves (t : TrackedTable α) (c : PtrTableCall α) : Prop :=
  ∃ table result, t.table.call c = some (table, result) ∧
    table.nrEntries ≤ table.allocatedEntries ∧
      table.allocatedEntries.toNat = table.entries.length ∧
        ∀ id, table.entry id = t.stored c.ptr result id

/-- The id added is below the last 2048 of 32 bits. -/
def HasRoom (t : TrackedTable α) : PtrTableCall α → Prop
  | .add _ _ => t.table.nrEntries.toNat + 2048 < 2 ^ 32
  | .addWithId _ id _ => id.toNat + 2048 < 2 ^ 32

end TrackedTable

/-! ## The array -/

namespace PtrTableArray

variable {α : Type}

/-- The array is made of blocks, and has nothing behind the entries. -/
structure Sound (pt : PtrTableArray α) : Prop where
  allocated : pt.allocatedEntries.toNat = pt.entries.length
  blocks : 2048 ∣ pt.allocatedEntries.toNat
  count : pt.nrEntries.toNat ≤ pt.entries.length
  behind : ∀ i, pt.nrEntries.toNat ≤ i → pt.entries[i]?.join = none

theorem sound_init : (init : PtrTableArray α).Sound where
  allocated := rfl
  blocks := dvd_zero 2048
  count := le_rfl
  behind _ _ := rfl

variable {pt table : PtrTableArray α} {ptr : Option α} {id n : UInt32} {memory : Bool}

/-- `ptr_table__entry` of an id is its element of `entries`, or `NULL`. -/
theorem Sound.entry (h : pt.Sound) (id : UInt32) : pt.entry id = pt.entries[id.toNat]?.join := by
  rw [PtrTableArray.entry]
  split
  · next hle => exact (h.behind id.toNat (UInt32.le_iff_toNat_le.mp hle)).symm
  · rfl

theorem toNat_roundup2048 {x : UInt32} (h : x.toNat + 2047 < 2 ^ 32) :
    (roundup2048 x).toNat = (x.toNat + 2047) / 2048 * 2048 := by
  have hsum : (x + 2047).toNat = x.toNat + 2047 := by
    rw [UInt32.toNat_add]
    exact Nat.mod_eq_of_lt h
  rw [roundup2048, UInt32.toNat_mul, UInt32.toNat_div, hsum]
  apply Nat.mod_eq_of_lt
  change (x.toNat + 2047) / 2048 * 2048 < 2 ^ 32
  omega

/-- For the last 2048 ids, rounding up to a multiple of 2048 wraps to 0. -/
theorem roundup2048_eq_zero (h : 2 ^ 32 ≤ id.toNat + 2048) : roundup2048 (id + 1) = 0 := by
  have hid : id.toNat < 2 ^ 32 := id.toNat_lt
  apply UInt32.toNat_inj.mp
  rw [roundup2048, UInt32.toNat_mul, UInt32.toNat_div, UInt32.toNat_add, UInt32.toNat_add]
  change ((id.toNat + 1) % 2 ^ 32 + 2047) % 2 ^ 32 / 2048 * 2048 % 2 ^ 32 = 0
  omega

theorem sound_lengthened (h : pt.Sound) (hle : pt.allocatedEntries ≤ n)
    (hblocks : 2048 ∣ n.toNat) : (pt.lengthened n).Sound := by
  have hlen : pt.entries.length ≤ n.toNat := by
    rw [← h.allocated]
    exact UInt32.le_iff_toNat_le.mp hle
  have hnew : (n - pt.allocatedEntries).toNat = n.toNat - pt.entries.length := by
    rw [UInt32.toNat_sub_of_le _ _ hle, h.allocated]
  constructor
  · rw [lengthened, List.length_append, List.length_replicate, hnew]
    exact (Nat.add_sub_of_le hlen).symm
  · exact hblocks
  · rw [lengthened, List.length_append]
    exact h.count.trans (Nat.le_add_right _ _)
  · intro i hi
    rcases Nat.lt_or_ge i pt.entries.length with hlt | hge
    · rw [lengthened, List.getElem?_append_left hlt]
      exact h.behind i hi
    · rw [lengthened, List.getElem?_append_right hge, List.getElem?_replicate]
      split <;> rfl

theorem entries_lengthened (pt : PtrTableArray α) (n : UInt32) (i : ℕ) :
    (pt.lengthened n).entries[i]?.join = pt.entries[i]?.join := by
  rcases Nat.lt_or_ge i pt.entries.length with hlt | hge
  · rw [lengthened, List.getElem?_append_left hlt]
  · rw [lengthened, List.getElem?_append_right hge, List.getElem?_replicate,
      List.getElem?_eq_none hge]
    split <;> rfl

/-- `table` is sound and has the entries of `pt`, but for `ptr` at `id`. -/
structure Stored (pt : PtrTableArray α) (ptr : Option α) (id : UInt32)
    (table : PtrTableArray α) : Prop where
  sound : table.Sound
  entry : ∀ i, table.entry i = if i = id then ptr else pt.entry i

/-- The call returns `id` and a table with `ptr` stored there. -/
def Stores (pt : PtrTableArray α) (ptr : Option α) (id : UInt32)
    (out : Option (PtrTableArray α × Option UInt32)) : Prop :=
  ∃ table, out = some (table, some id) ∧ pt.Stored ptr id table

/-- The call fails for want of memory and changes nothing, or it stores `ptr` at `id`. -/
def Answers (pt : PtrTableArray α) (ptr : Option α) (id : UInt32)
    (out : Option (PtrTableArray α × Option UInt32)) : Prop :=
  out = some (pt, none) ∨ pt.Stores ptr id out

theorem stores_store {nrEntries : UInt32} (h : pt.Sound) (hid : id.toNat < pt.entries.length)
    (hnr : nrEntries.toNat = max pt.nrEntries.toNat (id.toNat + 1)) :
    pt.Stores ptr id (pt.store ptr id nrEntries) := by
  have hsound : Sound { pt with entries := pt.entries.set id.toNat ptr, nrEntries := nrEntries } := by
    constructor
    · rw [List.length_set]
      exact h.allocated
    · exact h.blocks
    · rw [List.length_set, hnr]
      exact max_le h.count hid
    · intro i hi
      rw [hnr, max_le_iff] at hi
      have hne : id.toNat ≠ i := Nat.ne_of_lt hi.2
      dsimp only
      rw [List.getElem?_set_ne hne]
      exact h.behind i hi.1
  refine ⟨_, if_pos hid, hsound, fun i => ?_⟩
  rw [hsound.entry, h.entry]
  by_cases hi : i = id
  · rw [if_pos hi, hi]
    dsimp only
    rw [List.getElem?_set_self hid, Option.join_some]
  · rw [if_neg hi]
    dsimp only
    rw [List.getElem?_set_ne fun heq => hi (UInt32.toNat_inj.mp heq.symm)]

/-- An array that is made longer keeps its entries. -/
theorem answers_grow {rest : PtrTableArray α → Option (PtrTableArray α × Option UInt32)}
    (h : pt.Sound) (hlt : pt.allocatedEntries < n) (hblocks : 2048 ∣ n.toNat)
    (hrest : (pt.lengthened n).Stores ptr id (rest (pt.lengthened n))) :
    pt.Answers ptr id (pt.grow n memory rest) := by
  have hne : n ≠ 0 := by
    rintro rfl
    exact absurd (UInt32.lt_iff_toNat_lt.mp hlt) (Nat.not_lt_zero _)
  have hle : pt.allocatedEntries ≤ n := UInt32.le_of_lt hlt
  rw [grow, if_neg hne]
  cases memory with
  | false => exact Or.inl rfl
  | true =>
      rw [if_pos rfl, if_neg (UInt32.not_lt.mpr hle)]
      obtain ⟨table, hout, hstored⟩ := hrest
      refine Or.inr ⟨table, hout, hstored.sound, fun i => ?_⟩
      rw [hstored.entry, h.entry, (sound_lengthened h hle hblocks).entry, entries_lengthened]

theorem length_lengthened (h : pt.Sound) (hle : pt.allocatedEntries ≤ n)
    (hblocks : 2048 ∣ n.toNat) : (pt.lengthened n).entries.length = n.toNat :=
  (sound_lengthened h hle hblocks).allocated.symm

theorem answers_add (h : pt.Sound) (hroom : pt.nrEntries.toNat + 2048 < 2 ^ 32) :
    pt.Answers ptr pt.nrEntries (pt.add ptr memory) := by
  have hcount := h.count
  have hnr : (pt.nrEntries + 1).toNat = pt.nrEntries.toNat + 1 := by
    rw [UInt32.toNat_add]
    apply Nat.mod_eq_of_lt
    change pt.nrEntries.toNat + 1 < 2 ^ 32
    omega
  have hmax : (pt.nrEntries + 1).toNat = max pt.nrEntries.toNat (pt.nrEntries.toNat + 1) := by
    rw [hnr, max_eq_right (Nat.le_succ _)]
  rw [add]
  split
  · next hgt =>
    have hfull : pt.allocatedEntries.toNat = pt.nrEntries.toNat := by
      have hlt := UInt32.lt_iff_toNat_lt.mp hgt
      rw [hnr, h.allocated] at hlt
      rw [h.allocated]
      omega
    have hlonger : (pt.allocatedEntries + 2048).toNat = pt.allocatedEntries.toNat + 2048 := by
      rw [UInt32.toNat_add]
      apply Nat.mod_eq_of_lt
      rw [hfull]
      exact hroom
    have hlt : pt.allocatedEntries < pt.allocatedEntries + 2048 := by
      rw [UInt32.lt_iff_toNat_lt, hlonger]
      exact Nat.lt_add_of_pos_right (by decide)
    have hblocks : 2048 ∣ (pt.allocatedEntries + 2048).toNat := by
      rw [hlonger]
      exact (Nat.dvd_add_self_right).mpr h.blocks
    have hsound := sound_lengthened h (UInt32.le_of_lt hlt) hblocks
    apply answers_grow h hlt hblocks
    apply stores_store hsound
    · rw [length_lengthened h (UInt32.le_of_lt hlt) hblocks, hlonger, hfull]
      exact Nat.lt_add_of_pos_right (by decide)
    · exact hmax
  · next hle =>
    have hroom' : pt.nrEntries.toNat < pt.entries.length := by
      have hge := UInt32.le_iff_toNat_le.mp (UInt32.not_lt.mp hle)
      rwa [hnr, h.allocated] at hge
    exact Or.inr (stores_store h hroom' hmax)

theorem answers_addWithId (h : pt.Sound) (hroom : id.toNat + 2048 < 2 ^ 32) :
    pt.Answers ptr id (pt.addWithId ptr id memory) := by
  have hid : (id + 1).toNat = id.toNat + 1 := by
    rw [UInt32.toNat_add]
    apply Nat.mod_eq_of_lt
    change id.toNat + 1 < 2 ^ 32
    omega
  have hnr : (if id ≥ pt.nrEntries then id + 1 else pt.nrEntries).toNat =
      max pt.nrEntries.toNat (id.toNat + 1) := by
    split
    · next hge =>
      have hle : pt.nrEntries.toNat ≤ id.toNat := UInt32.le_iff_toNat_le.mp hge
      rw [hid, max_eq_right (hle.trans (Nat.le_succ _))]
    · next hlt =>
      have hle : id.toNat < pt.nrEntries.toNat :=
        UInt32.lt_iff_toNat_lt.mp (UInt32.not_le.mp hlt)
      rw [max_eq_left hle]
  rw [addWithId]
  split
  · next hge =>
    have hlonger : (roundup2048 (id + 1)).toNat = (id.toNat + 1 + 2047) / 2048 * 2048 := by
      rw [toNat_roundup2048, hid]
      rw [hid]
      exact hroom
    have hallocated : pt.allocatedEntries.toNat ≤ id.toNat := UInt32.le_iff_toNat_le.mp hge
    have hlt : pt.allocatedEntries < roundup2048 (id + 1) := by
      rw [UInt32.lt_iff_toNat_lt, hlonger]
      omega
    have hblocks : 2048 ∣ (roundup2048 (id + 1)).toNat := by
      rw [hlonger]
      exact Dvd.intro_left _ rfl
    have hsound := sound_lengthened h (UInt32.le_of_lt hlt) hblocks
    apply answers_grow h hlt hblocks
    apply stores_store hsound
    · rw [length_lengthened h (UInt32.le_of_lt hlt) hblocks, hlonger]
      omega
    · exact hnr
  · next hlt =>
    have hroom' : id.toNat < pt.entries.length := by
      rw [← h.allocated]
      exact UInt32.lt_iff_toNat_lt.mp (UInt32.not_le.mp hlt)
    exact Or.inr (stores_store h hroom' hnr)

/-! ## The table of the array -/

/-- The entries up to `nr_entries`. -/
def toPtrTable (pt : PtrTableArray α) : PtrTable α := pt.entries.take pt.nrEntries.toNat

theorem length_toPtrTable (h : pt.Sound) : pt.toPtrTable.length = pt.nrEntries.toNat :=
  List.length_take_of_le h.count

theorem entry_toPtrTable (h : pt.Sound) (id : UInt32) :
    pt.toPtrTable.entry id.toNat = pt.entry id := by
  rw [h.entry, PtrTable.entry, toPtrTable]
  rcases Nat.lt_or_ge id.toNat pt.nrEntries.toNat with hlt | hge
  · rw [List.getElem?_take_of_lt hlt]
  · rw [h.behind _ hge, List.getElem?_eq_none, Option.join_none]
    rw [List.length_take_of_le h.count]
    exact hge

/-- The entries after `ptr_table__add` are those of an unbounded table. -/
theorem Stored.entry_add (h : pt.Sound) (hstored : pt.Stored ptr pt.nrEntries table) (i : UInt32) :
    table.toPtrTable.entry i.toNat = (pt.toPtrTable.add ptr).entry i.toNat := by
  rw [entry_toPtrTable hstored.sound, hstored.entry, PtrTable.entry_add, length_toPtrTable h,
    entry_toPtrTable h]
  simp only [UInt32.toNat_inj]

/-! ## Calls without room -/

theorem add_eq_none (h : pt.Sound) (hfull : 2 ^ 32 ≤ pt.nrEntries.toNat + 2048) :
    pt.add ptr memory = none := by
  obtain ⟨k, hk⟩ := h.blocks
  have hcount := h.count
  have hallocated : pt.allocatedEntries.toNat < 2 ^ 32 := pt.allocatedEntries.toNat_lt
  rw [← h.allocated] at hcount
  have hall : pt.allocatedEntries.toNat = 2 ^ 32 - 2048 := by omega
  have hnr : pt.nrEntries.toNat = 2 ^ 32 - 2048 := by omega
  have hgt : pt.nrEntries + 1 > pt.allocatedEntries := by
    apply UInt32.lt_iff_toNat_lt.mpr
    rw [UInt32.toNat_add, hall, hnr]
    decide
  have hzero : pt.allocatedEntries + 2048 = 0 := by
    apply UInt32.toNat_inj.mp
    rw [UInt32.toNat_add, hall]
    decide
  rw [add]
  rw [if_pos hgt, grow, if_pos hzero]

theorem addWithId_eq_none (h : pt.Sound) (hid : 2 ^ 32 ≤ id.toNat + 2048) :
    pt.addWithId ptr id memory = none := by
  obtain ⟨k, hk⟩ := h.blocks
  have hallocated : pt.allocatedEntries.toNat < 2 ^ 32 := pt.allocatedEntries.toNat_lt
  have hge : id ≥ pt.allocatedEntries := by
    apply UInt32.le_iff_toNat_le.mpr
    omega
  rw [addWithId]
  rw [if_pos hge, grow, if_pos (roundup2048_eq_zero hid)]

end PtrTableArray

/-! ## All calls -/

namespace TrackedTable

variable {α : Type} {t : TrackedTable α} {c : PtrTableCall α}

/-- A sound table of the map. -/
structure Sound (t : TrackedTable α) : Prop where
  table : t.table.Sound
  map : ∀ id, t.table.entry id = t.map id

/-- The id that a call stores its pointer under. -/
def idOf (t : TrackedTable α) : PtrTableCall α → UInt32
  | .add _ _ => t.table.nrEntries
  | .addWithId _ id _ => id

theorem answers_call (h : t.Sound) (hroom : t.HasRoom c) :
    t.table.Answers c.ptr (t.idOf c) (t.table.call c) := by
  cases c with
  | add ptr memory => exact PtrTableArray.answers_add h.table hroom
  | addWithId ptr id memory => exact PtrTableArray.answers_addWithId h.table hroom

theorem next_eq {table : PtrTableArray α} {result : Option UInt32}
    (h : t.table.call c = some (table, result)) : t.next c = ⟨table, t.stored c.ptr result⟩ := by
  rw [next, h]

theorem sound_of_stored {table : PtrTableArray α} {ptr : Option α} {id : UInt32} (h : t.Sound)
    (hstored : t.table.Stored ptr id table) : Sound ⟨table, t.stored ptr (some id)⟩ where
  table := hstored.sound
  map i := by
    rw [hstored.entry, h.map]
    exact (Function.update_apply t.map id ptr i).symm

theorem sound_next (h : t.Sound) (hroom : t.HasRoom c) : (t.next c).Sound := by
  rcases answers_call h hroom with hfails | ⟨table, hcall, hstored⟩
  · rw [next_eq hfails]
    exact h
  · rw [next_eq hcall]
    exact sound_of_stored h hstored

/-- A sound table serves a call if and only if it has room for it. -/
theorem serves_iff (h : t.Sound) : t.Serves c ↔ t.HasRoom c := by
  constructor
  · rintro ⟨table, result, hcall, -⟩
    by_contra hroom
    cases c with
    | add ptr memory =>
        rw [PtrTableArray.call, PtrTableArray.add_eq_none h.table (not_lt.mp hroom)] at hcall
        cases hcall
    | addWithId ptr id memory =>
        rw [PtrTableArray.call, PtrTableArray.addWithId_eq_none h.table (not_lt.mp hroom)] at hcall
        cases hcall
  · intro hroom
    have hserved : ∀ table result, t.table.call c = some (table, result) → t.Serves c := by
      intro table result hcall
      have hsound := sound_next h hroom
      rw [next_eq hcall] at hsound
      refine ⟨table, result, hcall, ?_, hsound.table.allocated, hsound.map⟩
      rw [UInt32.le_iff_toNat_le, hsound.table.allocated]
      exact hsound.table.count
    rcases answers_call h hroom with hfails | ⟨table, hcall, -⟩
    · exact hserved _ _ hfails
    · exact hserved _ _ hcall

theorem sound_init : (init : TrackedTable α).Sound where
  table := PtrTableArray.sound_init
  map id := PtrTableArray.sound_init.entry id

/-- The calls make a map, whichever allocations fail, if and only if each id is below the last
2048 of 32 bits. -/
theorem allMapped_iff (calls : List (PtrTableCall α)) :
    Along next Serves init calls ↔ Along next HasRoom init calls :=
  along_iff sound_init (along_true next init calls) (fun _ _ h _ => serves_iff h) fun _ _ h _ => sound_next h

/-- Adding a tag with the id 2^32 - 1 writes where there is no array. -/
theorem not_allMapped_last :
    ¬Along next Serves (init : TrackedTable ℕ) [.addWithId (some 1) 0xffffffff true] := by
  rintro ⟨⟨table, result, hcall, -⟩, -⟩
  have hnone : (PtrTableArray.init : PtrTableArray ℕ).addWithId (some 1) 0xffffffff true = none :=
    PtrTableArray.addWithId_eq_none PtrTableArray.sound_init (by decide)
  exact absurd (hnone.symm.trans hcall) (Option.some_ne_none _).symm

end TrackedTable

end Pahole
