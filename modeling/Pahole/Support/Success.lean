import Pahole.Support.Following

/-!
# Programs that succeed

What is known about a program that returned no error: each of its calls was served, so
that its table can be told from the one it started with.
-/

namespace FallibleTable

variable {α β γ : Type}

/-- The table with more entries. -/
def Table.extend (t : Table α β) (new : List α) : Table α β := { t with items := t.items ++ new }

/-- A program returns no error. -/
structure Succeeds (p : Prog α β ℤ) (s : Session α β) (r : ℤ) (s' : Session α β) : Prop where
  run : p s = .ok r s'
  nonneg : 0 ≤ r

section Extend

variable {t : Table α β} {new : List α}

@[simp] theorem extend_nil : t.extend [] = t := by
  rw [Table.extend, List.append_nil]

@[simp] theorem extend_extend (more : List α) :
    (t.extend new).extend more = t.extend (new ++ more) := by
  rw [Table.extend, Table.extend, Table.extend, List.append_assoc]

@[simp] theorem cnt_extend : (t.extend new).cnt = t.cnt + new.length := by
  simp only [Table.cnt, Table.extend, List.length_append]
  omega

@[simp] theorem client_extend : (t.extend new).client = t.client := rfl

/-- The entries appended to a table have the ids from `cnt` on. -/
theorem extend_entry_cnt (k : ℕ) : Table.entry? (t.extend new) (t.cnt + k) = new[k]? := by
  have hid : t.cnt + k - t.base - 1 = t.items.length + k := by
    rw [Table.cnt]
    omega
  have hbase : t.base < t.cnt + k := by
    rw [Table.cnt]
    omega
  rw [Table.entry?, Table.extend, if_pos hbase, hid, List.getElem?_append_right (by omega),
    Nat.add_sub_cancel_left]

/-- Appending entries keeps those that were there. -/
theorem extend_entry {id : ℕ} {x : α} (h : t.entry? id = some x) :
    Table.entry? (t.extend new) id = some x := by
  rw [Table.entry?] at h ⊢
  by_cases hbase : t.base < id
  · rw [if_pos hbase] at h
    rw [Table.extend, if_pos hbase]
    obtain ⟨hlt, -⟩ := List.getElem?_eq_some_iff.mp h
    rw [List.getElem?_append_left hlt, h]
  · rw [if_neg hbase] at h
    cases h

end Extend

section Calls

variable {s s' : Session α β} {r : ℤ}

theorem Succeeds.perform {op : Op α} (h : Succeeds (perform op) s r s') :
    s.nextFailure op = none ∧ r = op.result s.table.cnt ∧ s' = s.served op := by
  obtain ⟨hrun, hnonneg⟩ := h
  rw [FallibleTable.perform] at hrun
  cases hf : s.nextFailure op with
  | none =>
      rw [hf] at hrun
      obtain ⟨hr, hs⟩ := EStateM.Result.ok.inj hrun
      exact ⟨rfl, hr.symm, hs.symm⟩
  | some e =>
      rw [hf] at hrun
      obtain ⟨hr, -⟩ := EStateM.Result.ok.inj hrun
      have hneg := e.neg
      omega

/-- The entry is appended, and its id fits an `int`. -/
theorem Succeeds.append {x : α} (h : Succeeds (append x) s r s') :
    r = s.table.cnt ∧ s.table.cnt ≤ intMax ∧ s'.table = s.table.extend [x] := by
  obtain ⟨hf, hr, rfl⟩ := Succeeds.perform h
  refine ⟨hr, ?_, rfl⟩
  by_contra hgt
  rw [Session.nextFailure] at hf
  cases hfails : s.fails s.made with
  | some e =>
      rw [hfails] at hf
      cases hf
  | none =>
      rw [hfails] at hf
      have hsome := hf.symm.trans (if_pos ⟨rfl, not_le.mp hgt⟩)
      cases hsome

theorem Succeeds.andThen {p : Prog α β ℤ} {k : ℤ → Prog α β ℤ}
    (h : Succeeds (andThen p k) s r s') :
    ∃ id s₁, Succeeds p s id s₁ ∧ Succeeds (k id) s₁ r s' := by
  obtain ⟨hrun, hnonneg⟩ := h
  cases hp : p s with
  | error c s₁ =>
      have hbind : FallibleTable.andThen p k s = .error c s₁ := by
        simp [FallibleTable.andThen, bind, EStateM.bind, hp]
      rw [hbind] at hrun
      cases hrun
  | ok id s₁ =>
      have hbind : FallibleTable.andThen p k s =
          (if id < 0 then return id else k id : Prog α β ℤ) s₁ := by
        simp [FallibleTable.andThen, bind, EStateM.bind, hp]
      rw [hbind] at hrun
      by_cases hneg : id < 0
      · rw [if_pos hneg] at hrun
        obtain ⟨rfl, -⟩ := EStateM.Result.ok.inj hrun
        exact absurd hneg (not_lt.mpr hnonneg)
      · rw [if_neg hneg] at hrun
        exact ⟨id, s₁, ⟨hp, not_lt.mp hneg⟩, hrun, hnonneg⟩

theorem Succeeds.return {v : ℤ} (h : Succeeds (return v) s r s') : r = v ∧ s' = s := by
  obtain ⟨hr, hs⟩ := EStateM.Result.ok.inj h.run
  exact ⟨hr.symm, hs.symm⟩

/-- A loop of edits changes the last entry by all of them, in order. -/
theorem Succeeds.forEach_editLast {f : γ → α → α} {ys : List γ} {init : List α} {x : α}
    (hitems : s.table.items = init ++ [x])
    (h : Succeeds (forEach (fun y => editLast (f y)) ys) s r s') :
    s'.table = { s.table with items := init ++ [ys.foldl (fun u y => f y u) x] } := by
  induction ys generalizing s r x with
  | nil =>
      obtain ⟨-, rfl⟩ := Succeeds.return h
      rw [List.foldl_nil, ← hitems]
  | cons y ys ih =>
      obtain ⟨id, s₁, hedit, hrest⟩ := Succeeds.andThen h
      obtain ⟨-, -, rfl⟩ := Succeeds.perform hedit
      have hserved : (s.served (.editLast (f y))).table.items = init ++ [f y x] := by
        change s.table.items.modifyLast (f y) = _
        rw [hitems, List.modifyLast_concat]
      have htable := ih hserved hrest
      rw [List.foldl_cons]
      exact htable

/-- A program that appends an entry, fills it in and succeeds has appended the filled entry. -/
theorem Succeeds.appendThen {f : γ → α → α} {ys : List γ} {x : α} {k : ℤ → Prog α β ℤ}
    (h : Succeeds (FallibleTable.andThen (FallibleTable.append x) fun id =>
      FallibleTable.andThen (forEach (fun y => editLast (f y)) ys) fun _ => k id) s r s') :
    ∃ s₁, s.table.cnt ≤ intMax ∧
      s₁.table = s.table.extend [ys.foldl (fun u y => f y u) x] ∧
      Succeeds (k s.table.cnt) s₁ r s' := by
  obtain ⟨id, s₁, happ, hrest⟩ := Succeeds.andThen h
  obtain ⟨rfl, hcnt, htable⟩ := Succeeds.append happ
  obtain ⟨_, s₂, hedits, hk⟩ := Succeeds.andThen hrest
  have hitems : s₁.table.items = s.table.items ++ [x] := by rw [htable, Table.extend]
  refine ⟨s₂, hcnt, ?_, hk⟩
  rw [Succeeds.forEach_editLast hitems hedits, htable, Table.extend, Table.extend]

end Calls

end FallibleTable
