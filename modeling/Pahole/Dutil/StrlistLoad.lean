import Mathlib.Tactic
import Pahole.Dutil.Strlist
import Pahole.Support.Delimited

/-!
# Lists of strings from a file

`strlist__load` reads a file through a buffer of 1024 bytes and takes the last byte of
each reading off, whatever it is.  It stops at the first string that cannot be added, also
where that is there already.
-/

namespace Pahole

open InsertionOrder Delimited

/-- `fgets`, into a buffer for `room` bytes and a terminator: the bytes read, and the rest of
the file. -/
def fgets : ℕ → List UInt8 → List UInt8 × List UInt8
  | 0, file => ([], file)
  | _ + 1, [] => ([], [])
  | room + 1, b :: file =>
      if b = 10 then ([b], file)
      else
        let r := fgets room file
        (b :: r.1, r.2)

/-- A string without its last byte, as `entry[len - 1] = '\\0'` leaves it. -/
def CStr.chop (s : CStr) : CStr where
  bytes := s.bytes.dropLast
  noNul := fun h => s.noNul (List.dropLast_subset _ h)

@[simp] theorem CStr.bytes_chop (s : CStr) : s.chop.bytes = s.bytes.dropLast := rfl

/-- The loop of `strlist__load`; `mem n` are the allocations of the `n`th addition from here on.
-/
def strlistLoadLoop (rb : RbTree) :
    ℕ → (ℕ → Memory) → Strlist → List UInt8 → ℤ × Strlist
  | 0, _, slist, _ => (0, slist)
  | fuel + 1, mem, slist, file =>
      if file = [] then (0, slist)
      else
        let r := fgets 1023 file
        let entry := CStr.ofBytes r.1
        if entry.bytes = [] then strlistLoadLoop rb fuel mem slist r.2
        else
          let added := strlistAdd rb (mem 0) slist entry.chop
          if added.1 ≠ 0 then (-1, added.2)
          else strlistLoadLoop rb fuel (fun n => mem (n + 1)) added.2 r.2

/-- `strlist__load`, of what `fopen` has found. -/
def strlistLoad (rb : RbTree) (mem : ℕ → Memory) (slist : Strlist) :
    Option (List UInt8) → ℤ × Strlist
  | none => (-1, slist)
  | some file => strlistLoadLoop rb file.length mem slist file

/-! ## Readings -/

section Fgets

variable {room : ℕ} {line file rest : List UInt8}

theorem fgets_append (room : ℕ) (file : List UInt8) :
    (fgets room file).1 ++ (fgets room file).2 = file := by
  fun_induction fgets room file with
  | case1 file => rfl
  | case2 room => rfl
  | case3 room file => rfl
  | case4 room b file hb r ih => rw [List.cons_append, ih]

theorem length_fgets (room : ℕ) (file : List UInt8) : (fgets room file).1.length ≤ room := by
  fun_induction fgets room file with
  | case1 file => exact le_refl 0
  | case2 room => exact Nat.zero_le _
  | case3 room file => exact Nat.le_add_left 1 room
  | case4 room b file hb r ih => exact Nat.succ_le_succ ih

theorem fgets_ne_nil (hroom : 0 < room) (hfile : file ≠ []) : (fgets room file).1 ≠ [] := by
  cases room with
  | zero => exact absurd hroom (Nat.lt_irrefl 0)
  | succ room =>
      cases file with
      | nil => exact absurd rfl hfile
      | cons b file =>
          rw [fgets]
          split <;> exact List.cons_ne_nil _ _

/-- `fgets` reads at least one byte of a file that is not empty. -/
theorem length_rest_lt (hroom : 0 < room) (hfile : file ≠ []) :
    (fgets room file).2.length < file.length := by
  have hlength := congrArg List.length (fgets_append room file)
  have hread := List.length_pos_iff.mpr (fgets_ne_nil hroom hfile)
  rw [List.length_append] at hlength
  omega

/-- `fgets` reads a line shorter than the buffer together with its newline. -/
theorem fgets_line (hline : 10 ∉ line) (hshort : line.length < room) :
    fgets room (line ++ 10 :: rest) = (line ++ [10], rest) := by
  induction line generalizing room with
  | nil =>
      obtain ⟨room, rfl⟩ := Nat.exists_eq_add_of_lt hshort
      simp [fgets]
  | cons b line ih =>
      obtain ⟨hb, hline⟩ := List.ne_and_not_mem_of_not_mem_cons hline
      cases room with
      | zero => exact absurd hshort (Nat.not_lt_zero _)
      | succ room =>
          rw [List.cons_append, fgets, if_neg hb.symm, ih hline (Nat.lt_of_succ_lt_succ hshort)]
          rfl

/-- A last line without a newline is read up to the end of the file. -/
theorem fgets_last (hline : 10 ∉ line) (hshort : line.length ≤ room) :
    fgets room line = (line, []) := by
  induction line generalizing room with
  | nil => cases room <;> rfl
  | cons b line ih =>
      obtain ⟨hb, hline⟩ := List.ne_and_not_mem_of_not_mem_cons hline
      cases room with
      | zero => exact absurd hshort (Nat.not_succ_le_zero _)
      | succ room => rw [fgets, if_neg hb.symm, ih hline (Nat.le_of_succ_le_succ hshort)]

/-- What `fgets` reads of an ended line does not depend on what follows the line. -/
theorem fgets_ended (room : ℕ) (line rest : List UInt8) : ∃ read left,
    fgets room (line ++ [10]) = (read, left) ∧
      fgets room (line ++ 10 :: rest) = (read, left ++ rest) ∧
      (left = [] ∨ ∃ line', left = line' ++ [10]) := by
  induction line generalizing room with
  | nil =>
      cases room with
      | zero => exact ⟨[], [10], rfl, rfl, Or.inr ⟨[], rfl⟩⟩
      | succ room => exact ⟨[10], [], rfl, rfl, Or.inl rfl⟩
  | cons b line ih =>
      cases room with
      | zero => exact ⟨[], b :: line ++ [10], rfl, by simp [fgets], Or.inr ⟨b :: line, rfl⟩⟩
      | succ room =>
          by_cases hb : b = 10
          · refine ⟨[b], line ++ [10], ?_, ?_, Or.inr ⟨line, rfl⟩⟩
            · rw [List.cons_append, fgets, if_pos hb]
            · rw [List.cons_append, fgets, if_pos hb]
              simp
          · obtain ⟨read, left, hline, hrest, hleft⟩ := ih room
            refine ⟨b :: read, left, ?_, ?_, hleft⟩
            · rw [List.cons_append, fgets, if_neg hb, hline]
            · rw [List.cons_append, fgets, if_neg hb, hrest]

end Fgets

/-! ## The rest of a file after the readings -/

/-- The strings that are added for a file without zero bytes, if all can be. -/
def readEntries (file : List UInt8) : List (List UInt8) :=
  if _ : file = [] then []
  else (fgets 1023 file).1.dropLast :: readEntries (fgets 1023 file).2
termination_by file.length
decreasing_by exact length_rest_lt (by decide) ‹_›

section Entries

variable {file line rest entry : List UInt8}

@[simp] theorem readEntries_nil : readEntries [] = [] := by
  rw [readEntries, dif_pos rfl]

theorem readEntries_of_ne_nil (h : file ≠ []) :
    readEntries file = (fgets 1023 file).1.dropLast :: readEntries (fgets 1023 file).2 := by
  rw [readEntries, dif_neg h]

theorem readEntries_ne_nil (h : file ≠ []) : readEntries file ≠ [] := by
  rw [readEntries_of_ne_nil h]
  exact List.cons_ne_nil _ _

/-- A string read from a file has at most 1022 bytes. -/
theorem length_le_of_mem_readEntries (h : entry ∈ readEntries file) : entry.length ≤ 1022 := by
  fun_induction readEntries file with
  | case1 => simp at h
  | case2 file hfile ih =>
      rcases List.mem_cons.mp h with rfl | h
      · rw [List.length_dropLast]
        have := length_fgets 1023 file
        omega
      · exact ih h

theorem subset_of_mem_readEntries (h : entry ∈ readEntries file) : entry ⊆ file := by
  fun_induction readEntries file with
  | case1 => simp at h
  | case2 file hfile ih =>
      have hparts := fgets_append 1023 file
      rcases List.mem_cons.mp h with rfl | h
      · intro b hb
        rw [← hparts]
        exact List.mem_append_left _ (List.dropLast_subset _ hb)
      · intro b hb
        rw [← hparts]
        exact List.mem_append_right _ (ih h hb)

/-- A line that fits the buffer is added as it is. -/
theorem readEntries_line (hline : 10 ∉ line) (hshort : line.length < 1023) :
    readEntries (line ++ 10 :: rest) = line :: readEntries rest := by
  rw [readEntries_of_ne_nil (by simp), fgets_line hline hshort, List.dropLast_concat]

/-- A last line without an end loses a byte of its own. -/
theorem readEntries_last (hline : 10 ∉ line) (hshort : line.length ≤ 1023) (hne : line ≠ []) :
    readEntries line = [line.dropLast] := by
  rw [readEntries_of_ne_nil hne, fgets_last hline hshort, readEntries_nil]

/-- The strings read from a file are those of its first line, followed by those of the rest. -/
theorem readEntries_append (line rest : List UInt8) :
    readEntries (line ++ 10 :: rest) = readEntries (line ++ [10]) ++ readEntries rest := by
  obtain ⟨read, left, hline, hrest, hleft⟩ := fgets_ended 1023 line rest
  have hhead : readEntries (line ++ [10]) = read.dropLast :: readEntries left := by
    rw [readEntries_of_ne_nil (by simp), hline]
  have hwhole : readEntries (line ++ 10 :: rest) = read.dropLast :: readEntries (left ++ rest) := by
    rw [readEntries_of_ne_nil (by simp), hrest]
  rw [hhead, hwhole]
  rcases hleft with rfl | ⟨line', rfl⟩
  · rw [List.nil_append, readEntries_nil, List.singleton_append]
  · have hshort : line'.length < line.length := by
      have hlt : (fgets 1023 (line ++ [10])).2.length < (line ++ [10]).length :=
        length_rest_lt (by decide) (by simp)
      rw [hline] at hlt
      simpa using hlt
    rw [List.append_assoc, List.singleton_append, readEntries_append line' rest]
    rfl
termination_by line.length

theorem readEntries_ended (lines : List (List UInt8)) (last : List UInt8) :
    readEntries (ended 10 lines last) =
      (lines.map fun line => readEntries (line ++ [10])).flatten ++ readEntries last := by
  induction lines with
  | nil => rfl
  | cons line lines ih =>
      rw [ended_cons, readEntries_append, ih, List.map_cons, List.flatten_cons, List.append_assoc]

end Entries

/-! ## The strings added by the loop -/

/-- The strings of a list, in the order of their addition. -/
def Strlist.strings (slist : Strlist) : List (List UInt8) :=
  slist.listEntries.map fun sn => sn.s.bytes

/-- The entries are new and pairwise different, and there is memory for each of them. -/
structure Addable (mem : ℕ → Memory) (slist : Strlist) (entries : List (List UInt8)) : Prop where
  nodup : (slist.strings ++ entries).Nodup
  memory : ∀ n < entries.length, (mem n).Suffices slist.dupstr

namespace Strlist.InStep

variable {slist : Strlist} {rb : RbTree} {mem : ℕ → Memory} {entry : CStr}
  {entries : List (List UInt8)}

theorem nodup_strings (h : slist.InStep) : slist.strings.Nodup := by
  have hmap : slist.strings = (slist.listEntries.map StrNode.s).map CStr.bytes := by
    rw [List.map_map]
    rfl
  rw [hmap]
  exact List.Nodup.map (fun _ _ => CStr.ext) h.distinct

theorem mem_strings : entry.bytes ∈ slist.strings ↔ entry ∈ slist.listEntries.map StrNode.s := by
  simp [Strlist.strings, CStr.ext_iff]

end Strlist.InStep

section Loop

variable {slist : Strlist} {rb : RbTree} {mem : ℕ → Memory} {file : List UInt8} {fuel : ℕ}

/-- A turn of `strlist__load` reads one string and adds it, and fails if the addition does. -/
theorem strlistLoadLoop_turn (rb : RbTree) (fuel : ℕ) (mem : ℕ → Memory) (slist : Strlist)
    (hfile : 0 ∉ file) (hne : file ≠ []) :
    ∃ entry : CStr, readEntries file = entry.bytes :: readEntries (fgets 1023 file).2 ∧
      strlistLoadLoop rb (fuel + 1) mem slist file =
        if (strlistAdd rb (mem 0) slist entry).1 ≠ 0 then
          (-1, (strlistAdd rb (mem 0) slist entry).2)
        else strlistLoadLoop rb fuel (fun n => mem (n + 1)) (strlistAdd rb (mem 0) slist entry).2
          (fgets 1023 file).2 := by
  have hread : 0 ∉ (fgets 1023 file).1 := fun hmem => hfile (by
    rw [← fgets_append 1023 file]
    exact List.mem_append_left _ hmem)
  have hbytes := CStr.ofBytes_of_noNul hread
  have hentry : (CStr.ofBytes (fgets 1023 file).1).bytes ≠ [] := by
    rw [hbytes]
    exact fgets_ne_nil (by decide) hne
  refine ⟨(CStr.ofBytes (fgets 1023 file).1).chop, ?_, ?_⟩
  · rw [readEntries_of_ne_nil hne, CStr.bytes_chop, hbytes]
  · rw [strlistLoadLoop, if_neg hne]
    exact if_neg hentry

theorem addable_nil (h : slist.InStep) : Addable mem slist [] where
  nodup := by
    rw [List.append_nil]
    exact h.nodup_strings
  memory := fun n hn => absurd hn (Nat.not_lt_zero n)

/-- After the first string the others are added to what the list is then. -/
theorem addable_cons_iff {next : Strlist} {entry : List UInt8} {entries : List (List UInt8)}
    (hstrings : next.strings = slist.strings ++ [entry]) (hdupstr : next.dupstr = slist.dupstr) :
    Addable mem slist (entry :: entries) ↔
      (mem 0).Suffices slist.dupstr ∧ Addable (fun n => mem (n + 1)) next entries := by
  have hlist : next.strings ++ entries = slist.strings ++ entry :: entries := by
    rw [hstrings, List.append_assoc]
    rfl
  constructor
  · rintro ⟨hnodup, hmemory⟩
    refine ⟨hmemory 0 (Nat.zero_lt_succ _), ?_, fun n hn => ?_⟩
    · rwa [hlist]
    · rw [hdupstr]
      exact hmemory (n + 1) (Nat.succ_lt_succ hn)
  · rintro ⟨hzero, hnodup, hmemory⟩
    refine ⟨by rwa [← hlist], fun n hn => ?_⟩
    cases n with
    | zero => exact hzero
    | succ n =>
        rw [← hdupstr]
        exact hmemory n (Nat.lt_of_succ_lt_succ hn)

/-- The loop succeeds if all strings can be added, and has then added them. -/
theorem strlistLoadLoop_spec (rb : RbTree) (mem : ℕ → Memory) (h : slist.InStep)
    (hfile : 0 ∉ file) (hfuel : file.length ≤ fuel) :
    ((strlistLoadLoop rb fuel mem slist file).1 = 0 ↔ Addable mem slist (readEntries file)) ∧
      ((strlistLoadLoop rb fuel mem slist file).1 = 0 →
        (strlistLoadLoop rb fuel mem slist file).2.InStep ∧
        (strlistLoadLoop rb fuel mem slist file).2.strings =
          slist.strings ++ readEntries file) := by
  induction fuel generalizing mem slist file with
  | zero =>
      obtain rfl := List.length_eq_zero_iff.mp (Nat.le_zero.mp hfuel)
      rw [strlistLoadLoop, readEntries_nil]
      exact ⟨iff_of_true rfl (addable_nil h), fun _ => ⟨h, (List.append_nil _).symm⟩⟩
  | succ fuel ih =>
      by_cases hne : file = []
      · rw [strlistLoadLoop, if_pos hne, hne, readEntries_nil]
        exact ⟨iff_of_true rfl (addable_nil h), fun _ => ⟨h, (List.append_nil _).symm⟩⟩
      obtain ⟨entry, hentries, hturn⟩ := strlistLoadLoop_turn rb fuel mem slist hfile hne
      have hrest : 0 ∉ (fgets 1023 file).2 := fun hmem => hfile (by
        rw [← fgets_append 1023 file]
        exact List.mem_append_right _ hmem)
      have hshort : (fgets 1023 file).2.length ≤ fuel :=
        Nat.le_of_lt_succ ((length_rest_lt (by decide) hne).trans_le hfuel)
      rw [hturn, hentries, strlistAdd]
      have hfailed : ¬(-1 : ℤ) = 0 := by decide
      by_cases hmem : entry ∈ slist.listEntries.map StrNode.s
      · have hexists : (-17 : ℤ) ≠ 0 := by decide
        rw [h.add_of_mem hmem, if_pos hexists]
        have hnot : ¬Addable mem slist (entry.bytes :: readEntries (fgets 1023 file).2) := by
          intro hadd
          exact (List.disjoint_of_nodup_append hadd.nodup)
            (Strlist.InStep.mem_strings.mpr hmem) List.mem_cons_self
        exact ⟨iff_of_false hfailed hnot, fun hzero => absurd hzero hfailed⟩
      · by_cases hsuffices : (mem 0).Suffices slist.dupstr
        · obtain ⟨entries, hadd, hkept⟩ := h.add_of_not_mem rb 0 hmem hsuffices
          rw [hadd, if_neg (not_not_intro rfl)]
          have hstrings : Strlist.strings { slist with
              entries := entries
              listEntries := slist.listEntries ++ [{ s := entry, priv := 0 }] } =
                slist.strings ++ [entry.bytes] := by
            simp [Strlist.strings]
          refine ⟨?_, fun hzero => ?_⟩
          · rw [addable_cons_iff hstrings rfl, and_iff_right hsuffices]
            exact (ih _ hkept hrest hshort).1
          · obtain ⟨hinStep, hlist⟩ := (ih _ hkept hrest hshort).2 hzero
            refine ⟨hinStep, hlist.trans ?_⟩
            rw [hstrings, List.append_assoc]
            rfl
        · have hnomem : (-12 : ℤ) ≠ 0 := by decide
          rw [h.add_of_not_suffices hmem hsuffices, if_pos hnomem]
          have hnot : ¬Addable mem slist (entry.bytes :: readEntries (fgets 1023 file).2) :=
            fun hadd => hsuffices (hadd.memory 0 (Nat.zero_lt_succ _))
          exact ⟨iff_of_false hfailed hnot, fun hzero => absurd hzero hfailed⟩

end Loop

/-! ## The lines of a file -/

/-- The lines of a file, the last one also if no line end is behind it. -/
def fileLines (file : List UInt8) : List (List UInt8) :=
  let parts := file.splitOn 10
  if parts.getLast? = some [] then parts.dropLast else parts

section Lines

variable {lines : List (List UInt8)} {last : List UInt8}

theorem fileLines_ended (hlines : ∀ line ∈ lines, 10 ∉ line) (hlast : 10 ∉ last) :
    fileLines (ended 10 lines last) = lines ++ if last = [] then [] else [last] := by
  rw [fileLines, splitOn_ended hlines hlast, List.getLast?_concat, List.dropLast_concat]
  by_cases hnil : last = []
  · rw [if_pos (congrArg some hnil), if_pos hnil, List.append_nil]
  · rw [if_neg fun h => hnil (Option.some.inj h), if_neg hnil]

/-- A file is empty or ends with a newline if and only if nothing follows its last newline. -/
theorem ended_iff (hlast : 10 ∉ last) :
    (ended 10 lines last = [] ∨ (ended 10 lines last).getLast? = some 10) ↔ last = [] := by
  constructor
  · intro hended
    by_contra hne
    obtain ⟨init, b, rfl⟩ := List.eq_nil_or_concat' last |>.resolve_left hne
    rw [ended, ← List.append_assoc] at hended
    rcases hended with hnil | hten
    · simp at hnil
    · rw [List.getLast?_concat] at hten
      exact hlast (by simp [Option.some.inj hten])
  · rintro rfl
    rcases List.eq_nil_or_concat' lines with rfl | ⟨init, line, rfl⟩
    · exact Or.inl rfl
    · right
      rw [ended, List.append_nil, List.map_append, List.flatten_append, List.map_singleton,
        List.flatten_singleton, ← List.append_assoc, List.getLast?_concat]

/-- Lines that fit the buffer and are ended are added as they are. -/
theorem readEntries_lines (hlines : ∀ line ∈ lines, 10 ∉ line)
    (hshort : ∀ line ∈ lines, line.length < 1023) : readEntries (ended 10 lines []) = lines := by
  induction lines with
  | nil => exact readEntries_nil
  | cons line lines ih =>
      obtain ⟨hline, hlines⟩ := List.forall_mem_cons.mp hlines
      obtain ⟨hfits, hshort⟩ := List.forall_mem_cons.mp hshort
      rw [ended_cons, readEntries_line hline hfits, ih hlines hshort]

/-- If the strings that are added are all lines of the file, and none comes twice, each
comes from a line of its own. -/
theorem lines_fit (hlines : ∀ line ∈ lines, 10 ∉ line) (hlast : 10 ∉ last)
    (hnodup : (readEntries (ended 10 lines last)).Nodup)
    (hentries : ∀ entry ∈ readEntries (ended 10 lines last),
      entry ∈ fileLines (ended 10 lines last)) :
    last = [] ∧ ∀ line ∈ lines, line.length < 1023 := by
  have hread : readEntries (ended 10 lines last) =
      ((lines.map (· ++ [10]) ++ [last]).map readEntries).flatten := by
    rw [readEntries_ended]
    simp [Function.comp_def]
  rw [fileLines_ended hlines hlast, hread] at hentries
  rw [hread] at hnodup
  have hdisjoint : (lines.map (· ++ [10]) ++ [last]).Pairwise fun a b =>
      List.Disjoint (readEntries a) (readEntries b) :=
    List.pairwise_map.mp (List.nodup_flatten.mp hnodup).2
  have : Std.Symm fun a b => List.Disjoint (readEntries a) (readEntries b) :=
    ⟨fun _ _ h => h.symm⟩
  have hodd : ∀ piece ∈ lines.map (· ++ [10]) ++ [last],
      (∀ line, line.length < 1023 → piece ≠ line ++ [10]) →
      ∀ entry ∈ readEntries piece, entry = last ∧ last ≠ [] := by
    intro piece hpiece hnot entry hentry
    have hmem := hentries entry (List.mem_flatten_of_mem (List.mem_map_of_mem hpiece) hentry)
    rcases List.mem_append.mp hmem with hline | hline
    · have hfits : entry.length < 1023 :=
        Nat.lt_succ_of_le (length_le_of_mem_readEntries hentry)
      have hown : readEntries (entry ++ [10]) = [entry] := by
        rw [readEntries_line (hlines entry hline) hfits, readEntries_nil]
      have hother : entry ++ [10] ∈ lines.map (· ++ [10]) ++ [last] :=
        List.mem_append_left _ (List.mem_map_of_mem hline)
      have hapart := hdisjoint.forall hpiece hother (hnot entry hfits)
      exact absurd (hown ▸ List.mem_singleton_self entry) (hapart hentry)
    · by_cases hnil : last = []
      · rw [if_pos hnil] at hline
        exact absurd hline List.not_mem_nil
      · rw [if_neg hnil] at hline
        exact ⟨List.mem_singleton.mp hline, hnil⟩
  have hlastPiece : last ∈ lines.map (· ++ [10]) ++ [last] :=
    List.mem_append_right _ (List.mem_singleton_self last)
  have hlastOdd : ∀ line : List UInt8, line.length < 1023 → last ≠ line ++ [10] :=
    fun line _ heq => hlast (by simp [heq])
  have hnil : last = [] := by
    by_contra hne
    obtain ⟨entry, hentry⟩ := List.exists_mem_of_ne_nil _ (readEntries_ne_nil hne)
    obtain ⟨rfl, -⟩ := hodd last hlastPiece hlastOdd entry hentry
    have hfits := length_le_of_mem_readEntries hentry
    have hown : readEntries entry = [entry.dropLast] :=
      readEntries_last hlast (hfits.trans (by decide)) hne
    obtain ⟨hsame, -⟩ := hodd entry hlastPiece hlastOdd entry.dropLast (by simp [hown])
    have hlength := congrArg List.length hsame
    rw [List.length_dropLast] at hlength
    have := List.length_pos_iff.mpr hne
    omega
  refine ⟨hnil, fun line hline => ?_⟩
  by_contra hlong
  have hpiece : line ++ [10] ∈ lines.map (· ++ [10]) ++ [last] :=
    List.mem_append_left _ (List.mem_map_of_mem hline)
  obtain ⟨entry, hentry⟩ := List.exists_mem_of_ne_nil _
    (readEntries_ne_nil (List.append_ne_nil_of_right_ne_nil line (List.cons_ne_nil 10 [])))
  refine (hodd _ hpiece (fun line' hfits heq => ?_) entry hentry).2 hnil
  rw [List.append_cancel_right heq] at hlong
  exact hlong hfits

end Lines

/-! ## Loading -/

/-- `strlist__load` returns 0, and the list has what it had and the lines of the file. -/
structure LoadsLines (rb : RbTree) (mem : ℕ → Memory) (slist : Strlist) (file : List UInt8) :
    Prop where
  result : (strlistLoad rb mem slist (some file)).1 = 0
  hasEntry : ∀ entry, strlistHasEntry (strlistLoad rb mem slist (some file)).2 entry = true ↔
    strlistHasEntry slist entry = true ∨ entry.bytes ∈ fileLines file

/-- Every line of the file is shorter than 1023 bytes and ended by a newline, no line is there
twice or in the list already, and there is memory for all of them. -/
structure Loadable (mem : ℕ → Memory) (slist : Strlist) (file : List UInt8) : Prop where
  short : ∀ line ∈ fileLines file, line.length < 1023
  lineEnd : file = [] ∨ file.getLast? = some 10
  fresh : (slist.strings ++ fileLines file).Nodup
  memory : ∀ n < (fileLines file).length, (mem n).Suffices slist.dupstr

section Load

variable {rb : RbTree} {mem : ℕ → Memory} {slist : Strlist} {file : List UInt8}

theorem Strlist.InStep.hasEntry_iff_strings (h : slist.InStep) {entry : CStr} :
    strlistHasEntry slist entry = true ↔ entry.bytes ∈ slist.strings :=
  h.hasEntry_iff.trans mem_strings.symm

theorem Loadable.loadsLines (hslist : slist.InStep) (hfile : 0 ∉ file)
    (h : Loadable mem slist file) : LoadsLines rb mem slist file := by
  obtain ⟨hiff, hdone⟩ :=
    strlistLoadLoop_spec rb mem hslist hfile (le_refl file.length)
  have hread : readEntries file = fileLines file := by
    obtain ⟨lines, last, rfl, hlines, hlast⟩ := exists_ended 10 file
    obtain rfl := (ended_iff hlast).mp h.lineEnd
    have hsplit : fileLines (ended 10 lines []) = lines := by
      rw [fileLines_ended hlines hlast, if_pos rfl, List.append_nil]
    rw [hsplit]
    exact readEntries_lines hlines (hsplit ▸ h.short)
  have hzero : (strlistLoad rb mem slist (some file)).1 = 0 := by
    refine hiff.mpr ⟨?_, ?_⟩
    · rw [hread]
      exact h.fresh
    · rw [hread]
      exact h.memory
  obtain ⟨hkept, hstrings⟩ := hdone hzero
  refine ⟨hzero, fun entry => ?_⟩
  rw [hslist.hasEntry_iff_strings, strlistLoad, hkept.hasEntry_iff_strings, hstrings, hread,
    List.mem_append]

theorem LoadsLines.loadable (hslist : slist.InStep) (hfile : 0 ∉ file)
    (h : LoadsLines rb mem slist file) : Loadable mem slist file := by
  obtain ⟨hiff, hdone⟩ :=
    strlistLoadLoop_spec rb mem hslist hfile (le_refl file.length)
  have haddable : Addable mem slist (readEntries file) := hiff.mp h.result
  obtain ⟨hkept, hstrings⟩ := hdone h.result
  obtain ⟨-, hnodup, hapart⟩ := List.nodup_append'.mp haddable.nodup
  have hentries : ∀ entry ∈ readEntries file, entry ∈ fileLines file := by
    intro entry hentry
    have hnoNul : 0 ∉ entry := fun hmem => hfile (subset_of_mem_readEntries hentry hmem)
    have hadded := (h.hasEntry ⟨entry, hnoNul⟩).mp
    rw [strlistLoad, hkept.hasEntry_iff_strings, hslist.hasEntry_iff_strings, hstrings] at hadded
    exact (hadded (List.mem_append_right _ hentry)).resolve_left fun hold => hapart hold hentry
  obtain ⟨lines, last, rfl, hlines, hlast⟩ := exists_ended 10 file
  obtain ⟨rfl, hshort⟩ := lines_fit hlines hlast hnodup hentries
  have hsplit : fileLines (ended 10 lines []) = lines := by
    rw [fileLines_ended hlines hlast, if_pos rfl, List.append_nil]
  have hread := readEntries_lines hlines hshort
  refine ⟨by rwa [hsplit], (ended_iff hlast).mpr rfl, ?_, ?_⟩
  · rw [hsplit]
    exact hread ▸ haddable.nodup
  · rw [hsplit]
    exact hread ▸ haddable.memory

end Load

/-- A list of strings acts as an ordered set under any additions and removals, and
`strlist__load` takes in all lines of a file if and only if the file is `Loadable`. -/
theorem strlist_actsAsSet_and_loadsLines_iff (rb : RbTree) {ops : List StrlistOp}
    {slist : Strlist} {mem : ℕ → Memory} {file : List UInt8}
    (hrun : strlistRun rb (strlistNew true) ops = some slist) (hfile : 0 ∉ file) :
    (∀ dupstr ops, ActsAsSet rb dupstr ops) ∧
      (LoadsLines rb mem slist file ↔ Loadable mem slist file) := by
  obtain ⟨hslist, -⟩ := (strlistNew_inStep true).run hrun
  exact ⟨actsAsSet rb, fun h => h.loadable hslist hfile, fun h => h.loadsLines hslist hfile⟩

/-- All allocations succeed. -/
def plenty : Memory := ⟨true, true⟩

theorem strlist_actsAsSet_and_loadsLines_iff_ab :
    LoadsLines .plain (fun _ => plenty) (strlistNew true) [97, 10, 98, 10] := by
  have hrun : strlistRun .plain (strlistNew true) [] = some (strlistNew true) := rfl
  have hlines : fileLines [97, 10, 98, 10] = [[97], [98]] := by decide
  refine (strlist_actsAsSet_and_loadsLines_iff .plain hrun (by decide)).2.mpr ⟨?_, ?_, ?_, ?_⟩
  · rw [hlines]
    decide
  · exact Or.inr rfl
  · rw [hlines]
    decide
  · rw [hlines]
    exact fun _ _ => ⟨rfl, fun _ => rfl⟩

/-- Of the file `ab` without a line end the string `a` is left. -/
theorem not_loadsLines_ab :
    ¬LoadsLines .plain (fun _ => plenty) (strlistNew true) [97, 98] := by
  intro h
  have hfile : fileLines [97, 98] = [[97, 98]] := by decide
  have hab := (h.hasEntry ⟨[97, 98], by decide⟩).mpr (Or.inr (by simp [hfile]))
  exact absurd hab (by decide)

end Pahole
